import ObjectRuntime.Action
import ObjectRuntime.Proofs.Intact

/-! Primitive steps. A step that is given nothing but what is reached leaves an intact
runtime intact, whether or not an allocation in it collects first. -/

namespace ObjectRuntime

/-- The values a step is given. The methods a lookup starts behind or passes over are only
compared. -/
def Action.given {α : Type} : Action α → List Val
  | intern _ | report _ | newFloat _ | newProc _ | newModule | collect | unroot _ | releaseTopLevel
  | setRatio _ | eraseGlobal _ | failureClass _ => []
  | newArray cls elements => .module cls :: elements
  | newTable cls | newString cls _ | newObject cls => [.module cls]
  | newBound receiver method => receiver :: method.children
  | root v | hold v | setGlobal _ v | setLocal _ _ _ v | singletonClass v => [v]
  | push array v | put array _ v => [.array array, v]
  | insert table key v => [.table table, key, v]
  | erase table key => [.table table, key]
  | append string _ => [.string string]
  | setIvar object _ v => [.object object, v]
  | subclass m _ _ | setFinal m _ | findConst m _ | ancestry m | failureIsA _ m | aliasMethod m _ _
  | removeMethod m _ | findMethod m _ _ _ => [.module m]
  | setConst m _ v | isA v m => [.module m, v]
  | includeOnce m other => [.module m, .module other]
  | defineMethod m _ (.proc p) _ => [.module m, .proc p]
  | defineMethod m _ _ _ => [.module m]

def Action.captured {α : Type} : Action α → Option Nat
  | newProc p => some p.frame
  | _ => none

namespace Runtime

/-- Everything a step is given is reached, a frame it captures included. -/
structure Permits {α : Type} (rt : Runtime) (action : Action α) : Prop where
  given : ∀ v ∈ action.given, rt.Available v
  captured : ∀ i, action.captured = some i →
    i < rt.frames.store.size ∧ ∀ v ∈ rt.frames.values i, rt.Available v

variable {rt rt' : Runtime}

theorem Permits.of_roots {α : Type} {action : Action α} (roots : ∀ v ∈ action.given, rt.Root v)
    (captured : action.captured = none) : rt.Permits action where
  given v member := (roots v member).available
  captured i same := by simp [captured] at same

/-! ## Roots -/

theorem Intact.addRoot (intact : rt.Intact) {v : Val} (live : rt.heap.Holds v)
    (same : SameStore rt rt') (memory : SameMemory rt rt') (calls : rt'.calls = rt.calls)
    (globals : ∀ w ∈ rt'.globals.values, w ∈ rt.globals.values ∨ w = v)
    (handles : ∀ w ∈ rt'.handles, w ∈ rt.handles ∨ w = v)
    (registered : ∀ w ∈ rt'.heap.roots.values, w ∈ rt.heap.roots.values ∨ w = v) :
    rt'.Intact := by
  refine intact.reroot same memory (calls ▸ intact.sound.running) fun w root => ?_
  rcases same.root (fun _ member => calls ▸ member) globals handles registered root with old | rfl
  · exact intact.sound.roots w old
  · exact live

theorem mem_registered (rs : Roots) (v : Val) : v ∈ rs.values ↔ some v ∈ rs.entries := by
  simp [Roots.values]

theorem mem_register {rs : Roots} {v w : Val} (member : w ∈ (rs.register v).2.values) :
    w ∈ rs.values ∨ w = v := by
  rw [mem_registered] at member ⊢
  unfold Roots.register at member
  split at member
  next =>
    rcases Array.mem_or_eq_of_mem_setIfInBounds member with old | new
    · exact .inl old
    · exact .inr (Option.some.inj new)
  next =>
    rcases Array.mem_push.mp member with old | new
    · exact .inl old
    · exact .inr (Option.some.inj new)

theorem mem_unregister {rs : Roots} {i : UInt32} {w : Val} (member : w ∈ (rs.unregister i).2.values) :
    w ∈ rs.values := by
  rw [mem_registered] at member ⊢
  unfold Roots.unregister at member
  split at member
  next =>
    rcases Array.mem_or_eq_of_mem_setIfInBounds member with old | new
    · exact old
    · cases new
  next => exact member

theorem mem_of_mem_take {α : Type} {vals : Array α} {n : Nat} {v : α}
    (member : v ∈ vals.take n) : v ∈ vals := by
  rw [← Array.mem_toList_iff] at member ⊢
  simp only [Array.take, Array.toList_extract, List.extract_eq_take_drop, List.drop_zero] at member
  exact List.mem_of_mem_take member

theorem mem_hold {v w : Val} (member : w ∈ (rt.hold v).handles) : w ∈ rt.handles ∨ w = v := by
  unfold hold at member
  split at member
  next => exact .inl member
  next => exact Array.mem_push.mp member

theorem Intact.hold (intact : rt.Intact) {v : Val} (live : rt.heap.Holds v) :
    (rt.hold v).Intact := by
  have rest : rt.hold v = { rt with handles := (rt.hold v).handles } := by
    unfold Runtime.hold
    split <;> rfl
  rw [rest]
  exact intact.addRoot live ⟨⟨rfl, rfl, rfl⟩, rfl⟩ ⟨rfl, rfl⟩ rfl (fun _ => .inl)
    (fun w => mem_hold) fun _ => .inl

theorem Intact.release (intact : rt.Intact) (mark : Nat) {keep : Option Val}
    (live : ∀ v, keep = some v → rt.heap.Holds v) : (rt.release mark keep).Intact := by
  have fewer : Intact { rt with handles := rt.handles.take mark } :=
    intact.addRoot (v := .nil) trivial ⟨⟨rfl, rfl, rfl⟩, rfl⟩ ⟨rfl, rfl⟩ rfl (fun _ => .inl)
      (fun w member => .inl (mem_of_mem_take member)) fun _ => .inl
  cases keep with
  | none => exact fewer
  | some v => exact fewer.hold (live v rfl)

theorem Intact.releaseAll (intact : rt.Intact) (mark : Nat) : (rt.release mark none).Intact :=
  intact.release mark fun v same => by cases same

theorem Intact.setGlobal (intact : rt.Intact) (name : Sym) {v : Val} (live : rt.heap.Holds v) :
    (rt.setGlobal name v).Intact :=
  intact.addRoot live ⟨⟨rfl, rfl, rfl⟩, rfl⟩ ⟨rfl, rfl⟩ rfl (fun _ => Table.mem_values_insert)
    (fun _ => .inl) fun _ => .inl

/-! ## Contents -/

theorem Intact.modifyElements (intact : rt.Intact) (r : Ref) {f : Array Val → Array Val}
    (stored : ∀ elements, ∀ v ∈ f elements, v ∈ elements ∨ rt.heap.Holds v) :
    (rt.modifyElements r f).Intact := by
  refine intact.modifyData r (fun c => ?_) (fun _ => rfl) (fun _ => rfl) fun c _ v held => ?_
  · cases c <;> rfl
  · cases c with
    | array cls elements =>
      simp only [Cell.children, List.mem_cons, Array.mem_toList_iff] at held ⊢
      rcases held with cls | element
      · exact .inl (.inl cls)
      · rcases stored elements v element with old | new
        · exact .inl (.inr old)
        · exact .inr new
    | _ => exact .inl held

theorem Intact.modifyEntries (intact : rt.Intact) (r : Ref) {f : Table Val Val → Table Val Val}
    (stored : ∀ t, ∀ e ∈ (f t).entries, e ∈ t.entries ∨ rt.heap.Holds e.1 ∧ rt.heap.Holds e.2) :
    (rt.modifyEntries r f).Intact := by
  refine intact.modifyData r (fun c => ?_) (fun _ => rfl) (fun _ => rfl) fun c _ v held => ?_
  · cases c <;> rfl
  · cases c with
    | table cls t =>
      simp only [Cell.children, List.mem_cons, List.mem_flatMap] at held ⊢
      rcases held with cls | ⟨e, entry, part⟩
      · exact .inl (.inl cls)
      · rcases stored t e entry with old | ⟨key, val⟩
        · exact .inl (.inr ⟨e, old, part⟩)
        · rcases part with rfl | rfl | none
          · exact .inr key
          · exact .inr val
          · cases none
    | _ => exact .inl held

theorem Intact.modifyText (intact : rt.Intact) (r : Ref) (f : String → String) :
    (rt.modifyText r f).Intact := by
  refine intact.modifyData r (fun c => ?_) (fun _ => rfl) (fun _ => rfl) fun c _ v held => ?_
  · cases c <;> rfl
  · cases c with
    | string cls text => exact .inl held
    | _ => exact .inl held

theorem Intact.modifyObject (intact : rt.Intact) (r : Ref) {f : Object → Object}
    (cls : ∀ o, (f o).cls = o.cls)
    (singleton : ∀ o s, (f o).singleton = some s → o.singleton = some s ∨ rt.heap.Holds (.module s))
    (ivars : ∀ o, ∀ v ∈ (f o).ivars.values, v ∈ o.ivars.values ∨ rt.heap.Holds v) :
    (rt.modifyObject r f).Intact := by
  refine intact.modifyData r (fun c => ?_) (fun _ => rfl) (fun _ => rfl) fun c _ v held => ?_
  · cases c <;> rfl
  · cases c with
    | object o =>
      simp only [Cell.children, List.mem_cons, List.mem_append, List.mem_map, Option.mem_toList,
        cls] at held ⊢
      rcases held with own | ⟨s, single, rfl⟩ | ivar
      · exact .inl (.inl own)
      · rcases singleton o s single with old | new
        · exact .inl (.inr (.inl ⟨s, old, rfl⟩))
        · exact .inr new
      · rcases ivars o v ivar with old | new
        · exact .inl (.inr (.inr old))
        · exact .inr new
    | _ => exact .inl held

theorem Intact.setLocal (intact : rt.Intact) (frame depth index : Nat) {v : Val}
    (live : rt.heap.Holds v) :
    Intact { rt with frames := (rt.frames.setLocal frame depth index v).2 } :=
  intact.keep (intact.sound.setLocal frame depth index live)
    (fun _ m found => ⟨m, found, rfl, rfl, .inr rfl⟩) rfl fun _ member => ⟨member, id⟩

/-! ## Modules -/

theorem Intact.writeModule (intact : rt.Intact) (r : Ref) {f : Module → Module}
    (parents : ∀ m, (f m).superclass = m.superclass ∧ (f m).includes = m.includes)
    (linear : ∀ m, (f m).linear = m.linear)
    (methods : rt.cache.entries.entries = [] ∨ ∀ m, (f m).methods = m.methods)
    (bodies : ∀ m, ∀ x ∈ (f m).methods.values, x ∈ m.methods.values ∨
      ∀ v ∈ x.children, rt.heap.Holds v)
    (consts : ∀ m, ∀ v ∈ (f m).consts.values, v ∈ m.consts.values ∨ rt.heap.Holds v)
    (singleton : ∀ m s, (f m).singleton = some s →
      m.singleton = some s ∨ rt.heap.Holds (.module s))
    (attached : ∀ m, (f m).attached = m.attached)
    (lexical : ∀ m s, (f m).lexicalParent = some s →
      m.lexicalParent = some s ∨ rt.heap.Holds (.module s)) : (rt.modifyModule r f).Intact := by
  refine intact.modifyModule r (fun m _ v held => ?_) (fun m => ?_) linear methods
  · rw [Module.mem_children] at held ⊢
    cases held with
    | superclass edge => exact .inl (.superclass ((parents m).1 ▸ edge))
    | included edge => exact .inl (.included ((parents m).2 ▸ edge))
    | method entry held =>
      rcases bodies m _ entry with old | new
      · exact .inl (.method old held)
      · exact .inr (new v held)
    | const entry =>
      rcases consts m v entry with old | new
      · exact .inl (.const old)
      · exact .inr new
    | singleton made =>
      rcases singleton m _ made with old | new
      · exact .inl (.singleton old)
      · exact .inr new
    | attached same => exact .inl (.attached (attached m ▸ same))
    | lexical outer =>
      rcases lexical m _ outer with old | new
      · exact .inl (.lexical old)
      · exact .inr new
  · simp only [Module.parents, parents]

theorem Intact.setFinal (intact : rt.Intact) (m : Ref) (final : Bool) :
    (rt.setFinal m final).Intact :=
  intact.writeModule m (fun _ => ⟨rfl, rfl⟩) (fun _ => rfl) (.inr fun _ => rfl)
    (fun _ _ => .inl) (fun _ _ => .inl) (fun _ _ => .inl) (fun _ => rfl) fun _ _ => .inl

theorem holds_modifyModule (r : Ref) (f : Module → Module) (v : Val) :
    (rt.modifyModule r f).heap.Holds v ↔ rt.heap.Holds v :=
  Heap.holds_modify (fun c => by cases c <;> rfl) v

/-- A module that is bound for the first time takes a name, and lies in the module that binds
it. -/
theorem Intact.setConst (intact : rt.Intact) {m : Ref} (name : Sym) {v : Val}
    (here : rt.heap.Holds (.module m)) (live : rt.heap.Holds v) : (rt.setConst m name v).Intact := by
  have bind {rt : Runtime} (intact : rt.Intact) (live : rt.heap.Holds v) :
      (rt.modifyModule m fun mod => { mod with consts := mod.consts.insert name v }).Intact := by
    refine intact.writeModule m (fun _ => ⟨rfl, rfl⟩) (fun _ => rfl) (.inr fun _ => rfl)
      (fun _ _ => .inl) (fun _ w const => ?_) (fun _ _ => .inl) (fun _ => rfl) fun _ _ => .inl
    rcases Table.mem_values_insert const with old | rfl
    · exact .inl old
    · exact .inr live
  unfold Runtime.setConst
  split
  next bound =>
    split
    next =>
      refine bind ?_ ((holds_modifyModule ..).mpr live)
      refine intact.writeModule bound (fun _ => ⟨rfl, rfl⟩) (fun _ => rfl) (.inr fun _ => rfl)
        (fun _ _ => .inl) (fun _ _ => .inl) (fun _ _ => .inl) (fun _ => rfl) fun _ s outer => ?_
      cases outer
      exact .inr here
    next => exact bind intact live
  next => exact bind intact live

/-! ## Method tables -/

theorem Intact.writeTable (intact : rt.Intact) (m : Ref)
    {f : Table Sym Method → Table Sym Method}
    (stored : ∀ t, ∀ x ∈ (f t).values, x ∈ t.values ∨ ∀ v ∈ x.children, rt.heap.Holds v) :
    Intact { rt.modifyModule m (fun mod => { mod with methods := f mod.methods }) with
      cache := rt.cache.clear } :=
  intact.cleared.writeModule m (f := fun mod => { mod with methods := f mod.methods })
    (fun _ => ⟨rfl, rfl⟩) (fun _ => rfl) (.inl rfl) (fun mod => stored mod.methods)
    (fun _ _ => .inl) (fun _ _ => .inl) (fun _ => rfl) fun _ _ => .inl

theorem Intact.defineMethod (intact : rt.Intact) {m : Ref} (name : Sym) (body : Body) (arity : Int)
    (here : rt.heap.Holds (.module m)) (proc : ∀ p, body = .proc p → rt.heap.Holds (.proc p)) :
    (rt.defineMethod m name body arity).2.Intact := by
  have written := intact.writeTable m (f := fun t =>
    t.insert name { id := rt.nextMethod, name, owner := m, body, arity }) fun t x entry => by
      rcases Table.mem_values_insert entry with old | rfl
      · exact .inl old
      · refine .inr fun v held => ?_
        rcases List.mem_cons.mp held with rfl | captured
        · exact here
        · cases body with
          | proc p =>
            rw [List.mem_singleton.mp captured]
            exact proc p rfl
          | _ => cases captured
  exact written.aside ⟨⟨rfl, rfl, rfl⟩, rfl⟩ ⟨rfl, rfl⟩ ⟨rfl, rfl, rfl, rfl⟩

theorem Intact.findMethod (intact : rt.Intact) {cls : Ref} (name : Sym)
    (after exclude : Option Method) (live : rt.heap.Holds (.module cls)) :
    (rt.findMethod cls name after exclude).2.Intact := by
  obtain ⟨-, same, faithful⟩ := findMethod_spec intact.sound intact.faithful live name after exclude
  exact intact.forgotten same faithful

theorem Intact.holds_found (intact : rt.Intact) {cls : Ref} {name : Sym}
    {after exclude : Option Method} {found : Method}
    (answer : rt.Answers cls name after exclude (some found)) :
    ∀ v ∈ found.children, rt.heap.Holds v := by
  obtain ⟨above, -, entry⟩ := answer
  have listed : ∃ a, rt.method? a name = some found := by
    cases after with
    | none =>
      obtain ⟨a, -, table⟩ := method?_of_firstEntry entry.symm
      exact ⟨a, table⟩
    | some m =>
      obtain ⟨a, -, table⟩ := method?_of_firstEntry entry.symm
      exact ⟨a, table⟩
  obtain ⟨a, table⟩ := listed
  obtain ⟨mod, cell, entry'⟩ := Option.bind_eq_some_iff.mp table
  intro v held
  refine intact.sound.cells a _ ((module?_eq_some rt a mod).mp cell) v ?_
  simp only [Cell.children, Module.children, List.mem_append, List.mem_flatMap]
  exact .inl (.inl (.inl (.inl (.inr ⟨found, Table.mem_values_of_get entry', held⟩))))

theorem Intact.aliasMethod (intact : rt.Intact) {m : Ref} (newName oldName : Sym)
    (live : rt.heap.Holds (.module m)) : (rt.aliasMethod m newName oldName).2.Intact := by
  have found := intact.findMethod oldName none none live
  obtain ⟨answer, same, -⟩ :=
    findMethod_spec intact.sound intact.faithful live oldName none none
  unfold Runtime.aliasMethod
  split
  next method rt' searched =>
    rw [searched] at found answer same
    refine found.writeTable m (f := fun t => t.insert newName method) fun t x entry => ?_
    rcases Table.mem_values_insert entry with old | rfl
    · exact .inl old
    · exact .inr fun v held => (holds_of_forget same v).mpr (intact.holds_found answer v held)
  next rt' searched =>
    rw [searched] at found
    exact found

theorem Intact.removeMethod (intact : rt.Intact) (m : Ref) (name : Sym) :
    (rt.removeMethod m name).2.Intact := by
  unfold Runtime.removeMethod
  split
  next =>
    exact intact.writeTable m (f := fun t => t.erase name) fun t x entry =>
      .inl (Table.mem_values_erase entry)
  next => exact intact

/-! ## The class graph -/

theorem Intact.ancestry (intact : rt.Intact) (m : Ref) : (rt.ancestry m).2.Intact := by
  obtain ⟨-, alike, faithful⟩ := ancestry_spec intact.sound intact.faithful m
  exact intact.forgotten alike.forget faithful

theorem Intact.includeOnce (intact : rt.Intact) (m : Ref) {other : Ref}
    (live : rt.heap.Holds (.module other)) : (rt.includeOnce m other).2.Intact := by
  unfold Runtime.includeOnce
  split
  next => exact intact
  next =>
    obtain ⟨-, alike, -⟩ := ancestry_spec intact.sound intact.faithful m
    have first := intact.ancestry m
    split
    next above rt₁ walked =>
      rw [walked] at alike first
      split
      next => exact first
      next =>
        obtain ⟨linear, alike', -⟩ := ancestry_spec first.sound first.faithful other
        have second := first.ancestry other
        split
        next above' rt₂ walked' =>
          rw [walked'] at linear alike' second
          split
          next => exact second
          next apart =>
            refine second.addInclude ?_ fun higher => apart ?_
            · exact (alike'.holds _).mpr ((alike.holds _).mpr live)
            · rw [alike'.parents] at higher
              exact linear.mem_iff.mpr higher

theorem Intact.subclass (intact : rt.Intact) {sup : Ref} (name : Option String) (tag : Option Tag)
    (available : rt.Available (.module sup)) : (rt.subclass sup name tag).2.Intact := by
  rcases subclass_cases rt sup name tag with ⟨e, same⟩ | ⟨_, made, rfl, same⟩
  · rw [same]
    exact intact
  · rw [same]
    refine intact.allocModule rfl fun v child => ?_
    rcases child.of_made rfl rfl rfl rfl rfl with ⟨p, edge, rfl⟩ | attached
    · cases edge
      exact available
    · cases attached

theorem Intact.newModule (intact : rt.Intact) : rt.newModule.2.Intact := by
  refine intact.allocModule rfl fun v child => ?_
  rcases child.of_made rfl rfl rfl rfl rfl with ⟨p, edge, -⟩ | attached
  · cases edge
  · cases attached

theorem Intact.isA (intact : rt.Intact) (v : Val) (m : Ref) : (rt.isA v m).2.Intact :=
  intact.ancestry (rt.classOf v)

theorem Intact.searchAncestry (intact : rt.Intact) (m : Ref) (name : Sym) :
    (rt.searchAncestry m name).2.Intact := by
  unfold Runtime.searchAncestry
  have first := intact.ancestry m
  split
  next above rt' walked =>
    rw [walked] at first
    split
    next => exact first
    next =>
      have second := first.ancestry CoreClass.object.ref
      split
      next above' rt'' walked' =>
        rw [walked'] at second
        split
        next => exact second
        next => exact second

theorem Intact.findConst (intact : rt.Intact) (m : Ref) (name : Sym) :
    (rt.findConst m name).2.Intact := by
  unfold Runtime.findConst
  split
  next => exact intact
  next => exact intact
  next => exact intact.searchAncestry m name

theorem Intact.intern (intact : rt.Intact) (name : String) : (rt.intern name).2.Intact :=
  intact.aside ⟨⟨rfl, rfl, rfl⟩, rfl⟩ ⟨rfl, rfl⟩ ⟨rfl, rfl, rfl, rfl⟩

theorem Intact.failureClass (intact : rt.Intact) (e : Failure) : (rt.failureClass e).2.Intact :=
  intact.intern e.kind.className

theorem Intact.failureIsA (intact : rt.Intact) (e : Failure) (m : Ref) :
    (rt.failureIsA e m).2.Intact := by
  unfold Runtime.failureIsA
  have named := intact.failureClass e
  split
  next cls rt' found =>
    rw [found] at named
    exact named.ancestry cls
  next rt' found =>
    rw [found] at named
    exact named

end Runtime
end ObjectRuntime
