import ObjectRuntime.Proofs.Booting
import ObjectRuntime.Proofs.Oblivious

/-! Caching changes no answer. A lookup answers as a plain search of the linearization that
the edges give. Two runtimes that differ only in what they remember answer every permitted
move alike and stay alike, so a run cannot tell whether lookups are cached. -/

namespace ObjectRuntime.Runtime

/-- Intact runtimes that are the same but for what they remember. -/
structure Twins (rt rt' : Runtime) : Prop where
  left : rt.Intact
  right : rt'.Intact
  same : rt.forget = rt'.forget

structure Agree {α : Type} (p q : α × Runtime) : Prop where
  answer : p.1 = q.1
  same : p.2.forget = q.2.forget

variable {rt rt' : Runtime}

theorem reads_alike {α : Type} (same : rt.forget = rt'.forget) (f : Runtime → α)
    (forget : ∀ rt : Runtime, f rt.forget = f rt) : f rt = f rt' := by
  rw [← forget rt, same, forget rt']

theorem Oblivious.agree {α : Type} {op : Runtime → α × Runtime} (oblivious : Oblivious op)
    (same : rt.forget = rt'.forget) : Agree (op rt) (op rt') := by
  have left := oblivious rt
  have right := oblivious rt'
  rw [same, right] at left
  exact ⟨(congrArg Prod.fst left).symm, (congrArg Prod.snd left).symm⟩

theorem modifyModule_alike (same : rt.forget = rt'.forget) (m : Ref) {f : Module → Module}
    (kept : ∀ m, (f m).forget = f m.forget) :
    (rt.modifyModule m f).forget = (rt'.modifyModule m f).forget := by
  rw [forget_modifyModule rt m kept, forget_modifyModule rt' m kept, same]

namespace Twins

/-! ## Steps that consult the class graph -/

theorem ancestry (twins : Twins rt rt') (m : Ref) :
    Agree (rt.ancestry m) (rt'.ancestry m) ∧ Twins (rt.ancestry m).2 (rt'.ancestry m).2 := by
  obtain ⟨linear, alike, -⟩ := ancestry_spec twins.left.sound twins.left.faithful m
  obtain ⟨linear', alike', -⟩ := ancestry_spec twins.right.sound twins.right.faithful m
  have same := alike.forget.trans (twins.same.trans alike'.forget.symm)
  rw [← reads_alike twins.same (·.parents) parents_forget] at linear'
  exact ⟨⟨linear.unique linear', same⟩, twins.left.ancestry m, twins.right.ancestry m, same⟩

theorem isA (twins : Twins rt rt') (v : Val) (m : Ref) : Agree (rt.isA v m) (rt'.isA v m) := by
  obtain ⟨agree, -⟩ := twins.ancestry (rt.classOf v)
  have cls : rt.classOf v = rt'.classOf v :=
    reads_alike twins.same (·.classOf v) fun rt => classOf_forget rt v
  simp only [Runtime.isA, ← cls]
  exact ⟨by rw [agree.answer], agree.same⟩

theorem failureIsA (twins : Twins rt rt') (e : Failure) (m : Ref) :
    Agree (rt.failureIsA e m) (rt'.failureIsA e m) := by
  have named := (oblivious_failureClass e).agree twins.same
  have after : Twins (rt.failureClass e).2 (rt'.failureClass e).2 :=
    ⟨twins.left.failureClass e, twins.right.failureClass e, named.same⟩
  unfold Runtime.failureIsA
  generalize rt.failureClass e = p at named after ⊢
  generalize rt'.failureClass e = q at named after ⊢
  obtain ⟨found, rt₁⟩ := p
  obtain ⟨found', rt₁'⟩ := q
  obtain rfl : found = found' := named.answer
  cases found with
  | none => exact ⟨rfl, named.same⟩
  | some cls =>
    obtain ⟨agree, -⟩ := after.ancestry cls
    exact ⟨congrArg (fun above => decide (m ∈ above)) agree.answer, agree.same⟩

theorem firstConst (twins : Twins rt rt') (name : Sym) (modules : List Ref) :
    rt.firstConst name modules = rt'.firstConst name modules :=
  reads_alike twins.same (·.firstConst name modules) fun rt => firstConst_forget rt name modules

theorem searchAncestry (twins : Twins rt rt') (m : Ref) (name : Sym) :
    Agree (rt.searchAncestry m name) (rt'.searchAncestry m name) := by
  unfold Runtime.searchAncestry
  obtain ⟨agree, twins₁⟩ := twins.ancestry m
  generalize rt.ancestry m = p at agree twins₁ ⊢
  generalize rt'.ancestry m = q at agree twins₁ ⊢
  obtain ⟨above, rt₁⟩ := p
  obtain ⟨above', rt₁'⟩ := q
  obtain rfl : above = above' := agree.answer
  simp only [← twins₁.firstConst name above]
  cases rt₁.firstConst name above with
  | some v => exact ⟨rfl, twins₁.same⟩
  | none =>
    -- the search goes on in the ancestry of `Object`
    obtain ⟨agree₁, twins₂⟩ := twins₁.ancestry CoreClass.object.ref
    generalize rt₁.ancestry CoreClass.object.ref = p at agree₁ twins₂ ⊢
    generalize rt₁'.ancestry CoreClass.object.ref = q at agree₁ twins₂ ⊢
    obtain ⟨above₁, rt₂⟩ := p
    obtain ⟨above₁', rt₂'⟩ := q
    obtain rfl : above₁ = above₁' := agree₁.answer
    have named : rt₂.symName name = rt₂'.symName name :=
      reads_alike twins₂.same (·.symName name) fun rt => symName_forget rt name
    simp only [← twins₂.firstConst name above₁, named]
    cases rt₂.firstConst name above₁ <;> exact ⟨rfl, twins₂.same⟩

theorem findConst (twins : Twins rt rt') (m : Ref) (name : Sym) :
    Agree (rt.findConst m name) (rt'.findConst m name) := by
  have size : rt.heap.slots.size = rt'.heap.slots.size :=
    reads_alike twins.same (·.heap.slots.size) fun rt => Heap.size_forget rt.heap
  have lexical (fuel : Nat) : rt.searchLexical name fuel m = rt'.searchLexical name fuel m :=
    reads_alike twins.same (·.searchLexical name fuel m) fun rt => searchLexical_forget rt name fuel m
  unfold Runtime.findConst
  rw [← size, ← lexical]
  obtain ⟨answer, same⟩ := twins.searchAncestry m name
  split
  next => exact ⟨rfl, twins.same⟩
  next => exact ⟨rfl, twins.same⟩
  next => exact ⟨congrArg some answer, same⟩

theorem findMethod (twins : Twins rt rt') {cls : Ref} (live : rt.heap.Holds (.module cls))
    (name : Sym) (after exclude : Option Method) :
    Agree (rt.findMethod cls name after exclude) (rt'.findMethod cls name after exclude) := by
  have live' : rt'.heap.Holds (.module cls) := (holds_of_forget twins.same _).mp live
  obtain ⟨⟨above, linear, answer⟩, same, -⟩ :=
    findMethod_spec twins.left.sound twins.left.faithful live name after exclude
  obtain ⟨⟨above', linear', answer'⟩, same', -⟩ :=
    findMethod_spec twins.right.sound twins.right.faithful live' name after exclude
  rw [← reads_alike twins.same (·.parents) parents_forget] at linear'
  refine ⟨?_, same.trans (twins.same.trans same'.symm)⟩
  rw [answer, answer', linear.unique linear']
  exact reads_alike twins.same (·.plainSearch name after exclude above') fun rt =>
    plainSearch_forget rt name after exclude above'

theorem aliasMethod (twins : Twins rt rt') {m : Ref} (live : rt.heap.Holds (.module m))
    (newName oldName : Sym) :
    Agree (rt.aliasMethod m newName oldName) (rt'.aliasMethod m newName oldName) := by
  have agree := twins.findMethod live oldName none none
  unfold Runtime.aliasMethod
  generalize rt.findMethod m oldName none none = p at agree ⊢
  generalize rt'.findMethod m oldName none none = q at agree ⊢
  obtain ⟨found, rt₁⟩ := p
  obtain ⟨found', rt₁'⟩ := q
  obtain ⟨rfl, same⟩ : found = found' ∧ rt₁.forget = rt₁'.forget := ⟨agree.answer, agree.same⟩
  cases found with
  | none =>
    have old := reads_alike same (·.symName oldName) fun rt => symName_forget rt oldName
    have named := reads_alike same (·.moduleName m) fun rt => moduleName_forget rt m
    exact ⟨by simp only [old, named], same⟩
  | some method =>
    refine ⟨rfl, modifyModule_alike same m ?_⟩
    exact fun _ => rfl

theorem includeOnce (twins : Twins rt rt') (m other : Ref) :
    Agree (rt.includeOnce m other) (rt'.includeOnce m other) := by
  have isClass := reads_alike twins.same (fun rt => ((rt.module? other).map (·.isClass)).getD false)
    fun rt => by
      rw [module?_forget]
      cases rt.module? other <;> rfl
  unfold Runtime.includeOnce
  rw [← isClass]
  split
  next => exact ⟨rfl, twins.same⟩
  next =>
    obtain ⟨agree, twins₁⟩ := twins.ancestry m
    generalize rt.ancestry m = p at agree twins₁ ⊢
    generalize rt'.ancestry m = q at agree twins₁ ⊢
    obtain ⟨above, rt₁⟩ := p
    obtain ⟨above', rt₁'⟩ := q
    obtain rfl : above = above' := agree.answer
    simp only
    split
    next => exact ⟨rfl, twins₁.same⟩
    next =>
      obtain ⟨agree₁, twins₂⟩ := twins₁.ancestry other
      generalize rt₁.ancestry other = p at agree₁ twins₂ ⊢
      generalize rt₁'.ancestry other = q at agree₁ twins₂ ⊢
      obtain ⟨above₁, rt₂⟩ := p
      obtain ⟨above₁', rt₂'⟩ := q
      obtain rfl : above₁ = above₁' := agree₁.answer
      simp only
      split
      next => exact ⟨rfl, twins₂.same⟩
      next =>
        refine ⟨rfl, congrArg hierarchyChanged (modifyModule_alike twins₂.same m ?_)⟩
        exact fun _ => rfl

/-! ## Moves -/

theorem act (twins : Twins rt rt') {α : Type} {action : Action α} (permitted : rt.Permits action) :
    Agree (action.run rt) (action.run rt') := by
  have live (v : Val) (member : v ∈ action.given) : rt.heap.Holds v :=
    twins.left.holds (permitted.given v member)
  cases plain : action.consults with
  | false => exact (oblivious_act plain).agree twins.same
  | true =>
    cases action with
    | findConst m name => exact twins.findConst m name
    | includeOnce m other => exact twins.includeOnce m other
    | ancestry m => exact (twins.ancestry m).1
    | isA v m => exact twins.isA v m
    | failureIsA e m => exact twins.failureIsA e m
    | aliasMethod m newName oldName =>
      exact twins.aliasMethod (live _ (by simp [Action.given])) newName oldName
    | findMethod cls name after exclude =>
      exact twins.findMethod (live _ (by simp [Action.given])) name after exclude
    | _ => cases plain

theorem agree (twins : Twins rt rt') {move : Move} (permitted : rt.PermitsMove move) :
    Agree (move.run rt) (move.run rt') := by
  cases move with
  | act action => exact twins.act permitted
  | enterCall c => exact (oblivious_enterCall c).agree twins.same
  | refuseCall c mark => exact (oblivious_refuseCall c mark).agree twins.same
  | closeCall c mark outcome => exact (oblivious_closeCall c mark outcome).agree twins.same
  | enterScope => exact ⟨rfl, congrArg enterScope twins.same⟩
  | leaveScope mark outcome =>
    refine ⟨rfl, ?_⟩
    have left := congrArg (·.leaveScope mark outcome) twins.same
    rwa [← forget_leaveScope, ← forget_leaveScope] at left
  | letGo mark outcome =>
    refine ⟨rfl, ?_⟩
    have freed := congrArg (·.letGo mark outcome) twins.same
    rwa [← forget_letGo, ← forget_letGo] at freed
  | restore marks => exact ⟨rfl, congrArg (·.restore marks) twins.same⟩

theorem permits (twins : Twins rt rt') {move : Move} (permitted : rt.PermitsMove move) :
    rt'.PermitsMove move := by
  have available {v : Val} (available : rt.Available v) : rt'.Available v :=
    available.imp id fun reached => reached.of_forget twins.same.symm
  cases move with
  | act action =>
    refine ⟨fun v member => available (permitted.given v member), fun i same => ?_⟩
    obtain ⟨bound, held⟩ := permitted.captured i same
    have frames := reads_alike twins.same (·.frames) fun _ => rfl
    exact frames ▸ ⟨bound, fun v member => available (held v member)⟩
  | enterCall c => exact fun v member => available (permitted v member)
  | closeCall c mark outcome => exact fun v same => available (permitted v same)
  | leaveScope mark outcome => exact fun v same => available (permitted v same)
  | _ => trivial

theorem move (twins : Twins rt rt') {move : Move} (permitted : rt.PermitsMove move) :
    Twins (move.run rt).2 (move.run rt').2 :=
  ⟨twins.left.move permitted, twins.right.move (twins.permits permitted),
    (twins.agree permitted).same⟩

end Twins

def answers : Runtime → List Move → List (Σ move : Move, move.Answer)
  | _, [] => []
  | rt, move :: rest => ⟨move, (move.run rt).1⟩ :: (move.run rt).2.answers rest

theorem Twins.run {moves : List Move} (twins : Twins rt rt') (permitted : rt.PermitsRun moves) :
    rt.answers moves = rt'.answers moves ∧ Twins (rt.after moves) (rt'.after moves) := by
  induction moves generalizing rt rt' with
  | nil => exact ⟨rfl, twins⟩
  | cons move rest ih =>
    obtain ⟨answers, after⟩ := ih (twins.move permitted.1) permitted.2
    refine ⟨?_, after⟩
    simp only [Runtime.answers]
    rw [(twins.agree permitted.1).answer, answers]

/-! ## Booting -/

theorem fold_alike {α : Type} {f : Runtime → α → Runtime}
    (step : ∀ rt rt' a, rt.forget = rt'.forget → (f rt a).forget = (f rt' a).forget)
    (items : List α) (same : rt.forget = rt'.forget) :
    (items.foldl f rt).forget = (items.foldl f rt').forget := by
  induction items generalizing rt rt' with
  | nil => exact same
  | cons a rest ih => exact ih (step rt rt' a same)

theorem setConst_alike (same : rt.forget = rt'.forget) (m : Ref) (name : Sym) (v : Val) :
    (rt.setConst m name v).forget = (rt'.setConst m name v).forget := by
  rw [forget_setConst, forget_setConst, same]

theorem defineMain_alike (same : rt.forget = rt'.forget) :
    rt.defineMain.forget = rt'.defineMain.forget := by
  refine fold_alike (fun rt rt' name same => ?_) _ same
  have made := (oblivious_singletonClass (.object mainRef)).agree same
  generalize rt.singletonClass (.object mainRef) = p at made ⊢
  generalize rt'.singletonClass (.object mainRef) = q at made ⊢
  obtain ⟨cls, rt₁⟩ := p
  obtain ⟨cls', rt₁'⟩ := q
  obtain rfl : cls = cls' := made.answer
  cases cls with
  | ok m => exact ((oblivious_defineMethod m name _ 0).agree made.same).same
  | error e => exact made.same

theorem builtins_alike (same : rt.forget = rt'.forget) :
    (Builtin.all.foldl defineBuiltin rt).forget = (Builtin.all.foldl defineBuiltin rt').forget :=
  fold_alike (fun _ _ b same => ((oblivious_defineMethod b.signature.1.ref b.signature.2.1
    (.native (.builtin b)) b.signature.2.2).agree same).same) Builtin.all same

theorem Twins.includes (twins : Twins rt rt') : Twins
    (coreIncludes.foldl (fun rt (m, other) => (rt.includeOnce m.ref other.ref).2) rt)
    (coreIncludes.foldl (fun rt (m, other) => (rt.includeOnce m.ref other.ref).2) rt') := by
  generalize coreIncludes = items
  induction items generalizing rt rt' with
  | nil => exact twins
  | cons pair rest ih =>
    have core {rt : Runtime} (intact : rt.Intact) : rt.heap.Holds (.module pair.2.ref) :=
      intact.sound.roots _ (.core pair.2 (by cases pair.2 <;> decide))
    exact ih ⟨twins.left.includeOnce _ (core twins.left),
      twins.right.includeOnce _ (core twins.right), (twins.includeOnce ..).same⟩

attribute [local irreducible] firstHeap

theorem twins_boot (config : Config) (cached : Bool) :
    Twins (boot config) (boot { config with methodCache := cached }) := by
  refine ⟨intact_boot _, intact_boot _, ?_⟩
  have left : (bare config).Booted := ⟨intact_bare config, _, rfl, rfl⟩
  have right : (bare { config with methodCache := cached }).Booted := ⟨intact_bare _, _, rfl, rfl⟩
  have heap : firstHeap { config with methodCache := cached } = firstHeap config := by
    rw [firstHeap_eq, firstHeap_eq config]
  have bare : (bare config).forget = (bare { config with methodCache := cached }).forget := by
    simp only [Runtime.bare, Runtime.forget, heap]
  have constants := fold_alike (fun _ _ c same =>
    setConst_alike same CoreClass.object.ref c.sym (.module c.ref)) CoreClass.all bare
  have included := (Twins.includes ⟨left.constants.intact, right.constants.intact, constants⟩).same
  simp only [boot]
  -- the states between are named, so that no step of booting is evaluated
  generalize coreIncludes.foldl _ _ = rt at included ⊢
  generalize coreIncludes.foldl _ _ = rt' at included ⊢
  have classes := ((oblivious_singletonClass (.module CoreClass.klass.ref)).agree included).same
  generalize (rt.singletonClass (.module CoreClass.klass.ref)).2 = rt at classes ⊢
  generalize (rt'.singletonClass (.module CoreClass.klass.ref)).2 = rt' at classes ⊢
  have handlers := (oblivious_alloc (c := .array CoreClass.array.ref #[]) rfl).agree classes
  generalize rt.alloc (.array CoreClass.array.ref #[]) = p at handlers ⊢
  generalize rt'.alloc (.array CoreClass.array.ref #[]) = q at handlers ⊢
  obtain ⟨made, rt⟩ := p
  obtain ⟨made', rt'⟩ := q
  obtain rfl : made = made' := handlers.answer
  have global : (rt.setGlobal .atExitHandlers (.array made)).forget =
      (rt'.setGlobal .atExitHandlers (.array made)).forget :=
    congrArg (·.setGlobal .atExitHandlers (.array made)) handlers.same
  have builtins := builtins_alike (defineMain_alike global)
  have released := congrArg (·.release 0 none) builtins
  rwa [← forget_release, ← forget_release] at released

/-! ## Lookups -/

/-- In every state of a permitted run, a lookup in a live class answers as the plain search does in
the one linearization that the edges give. The whole run answers the same, and ends the same but
for what is remembered, whether or not lookups are cached. -/
theorem lookups_are_plain (config : Config) (moves : List Move)
    (permitted : (boot config).PermitsRun moves) :
    (let rt := (boot config).after moves
      ∀ cls, rt.heap.Holds (.module cls) → ∀ name after exclude,
        ∃ above, (∀ linear, Linear rt.parents cls linear ↔ linear = above) ∧
          (rt.findMethod cls name after exclude).1 = rt.plainSearch name after exclude above) ∧
    ∀ cached, (boot { config with methodCache := cached }).answers moves =
        (boot config).answers moves ∧
      ((boot { config with methodCache := cached }).after moves).forget =
        ((boot config).after moves).forget := by
  refine ⟨fun cls live name after exclude => ?_, fun cached => ?_⟩
  · have intact := (intact_boot config).after permitted
    obtain ⟨⟨above, linear, answer⟩, -⟩ :=
      findMethod_spec intact.sound intact.faithful live name after exclude
    exact ⟨above, fun _ => ⟨fun linear' => linear'.unique linear, fun same => same ▸ linear⟩, answer⟩
  · obtain ⟨answers, after⟩ := (twins_boot config cached).run permitted
    exact ⟨answers.symm, after.same.symm⟩

/-- A class with a method that is found, removed and looked for again. -/
def lookingUp : List Move :=
  [.act (.subclass CoreClass.object.ref none none),
   .act (.defineMethod ⟨38, 0⟩ ⟨40⟩ (.native (.user 0)) 0), .act (.findMethod ⟨38, 0⟩ ⟨40⟩ none none),
   .act (.removeMethod ⟨38, 0⟩ ⟨40⟩), .act (.findMethod ⟨38, 0⟩ ⟨40⟩ none none)]

theorem permits_lookingUp : (boot {}).PermitsRun lookingUp := by
  refine ⟨.of_roots (List.forall_mem_singleton.mpr (.core .object (by decide))) rfl,
    .of_roots (List.forall_mem_singleton.mpr (.handle ?_)) rfl,
    .of_roots (List.forall_mem_singleton.mpr (.handle ?_)) rfl,
    .of_roots (List.forall_mem_singleton.mpr (.handle ?_)) rfl,
    .of_roots (List.forall_mem_singleton.mpr (.handle ?_)) rfl, trivial⟩
  all_goals decide +kernel

theorem lookingUp_uncached : (boot {}).PermitsRun lookingUp ∧
    (boot { methodCache := false }).answers lookingUp = (boot {}).answers lookingUp :=
  ⟨permits_lookingUp, ((lookups_are_plain {} lookingUp permits_lookingUp).2 false).1⟩

end ObjectRuntime.Runtime
