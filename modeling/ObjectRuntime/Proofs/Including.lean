import ObjectRuntime.Proofs.ClassGraph
import ObjectRuntime.Proofs.Sends

/-! Including. The arguments of an include are checked for being modules first, all of them, and then
taken in one by one from the last to the first, until one is refused. Whether one is refused is
decided by the graph that there was at first, so what an include leaves is decided by it too. -/

namespace ObjectRuntime

namespace Runtime

/-- A module does not take in a class, nor another module that it is above of. -/
def Refuses (rt : Runtime) (m other : Ref) : Prop :=
  ((rt.module? other).map (·.isClass)).getD false = true ∨ other ≠ m ∧ Above rt.parents other m

/-- One module includes more, and all else that modules are is as it was. -/
def Gains (m : Ref) (added : List Ref) (rt rt' : Runtime) : Prop :=
  ∀ r, (rt'.module? r).map Module.forget = (rt.module? r).map fun mod =>
    if r = m then { mod.forget with includes := added ++ mod.includes } else mod.forget

/-- What modules include, what stands above them and what methods they answer with is the same. -/
structure SameGraph (rt rt' : Runtime) : Prop where
  includes : ∀ r, (rt'.module? r).map (·.includes) = (rt.module? r).map (·.includes)
  ancestry : ∀ r, (rt'.ancestry r).1 = (rt.ancestry r).1
  lookup : ∀ r, rt.heap.Holds (.module r) → ∀ name after exclude,
    (rt'.findMethod r name after exclude).1 = (rt.findMethod r name after exclude).1

variable {rt rt' rt'' : Runtime} {m r other : Ref} {added more : List Ref}

/-! ## More includes -/

namespace Gains

theorem of_forget (m : Ref) (same : rt'.forget = rt.forget) : Gains m [] rt rt' := by
  intro r
  rw [← module?_forget, same, module?_forget]
  congr 1
  funext mod
  split <;> rfl

theorem of_heap (m : Ref) (same : rt'.heap = rt.heap) : Gains m [] rt rt' := by
  intro r
  rw [show rt'.module? r = rt.module? r by rw [module?, same, module?]]
  congr 1
  funext mod
  split <;> rfl

theorem addInclude (rt : Runtime) (m other : Ref) : Gains m [other] rt (rt.addInclude m other) := by
  intro r
  rw [module?_addInclude]
  split
  next same =>
    subst same
    rw [Option.map_map]
    rfl
  next => rfl

theorem trans (first : Gains m added rt rt') (second : Gains m more rt' rt'') :
    Gains m (more ++ added) rt rt'' := by
  intro r
  have before := first r
  rw [second r]
  cases found : rt.module? r with
  | none =>
    rw [found] at before
    rw [Option.map_eq_none_iff.mp before]
    rfl
  | some mod =>
    rw [found] at before
    obtain ⟨mod', found', same⟩ := Option.map_eq_some_iff.mp before
    rw [found', Option.map_some, Option.map_some]
    split at same
    next here =>
      rw [if_pos here, if_pos here]
      have includes : mod'.includes = added ++ mod.includes := congrArg Module.includes same
      rw [same, includes, List.append_assoc]
    next away => rw [if_neg away, if_neg away, same]

/-- What is read of a module but its includes and its memory is as it was. -/
theorem reads {α : Type} (gains : Gains m added rt rt') (r : Ref) (f : Module → α)
    (forgets : ∀ mod : Module, f mod.forget = f mod)
    (ignores : ∀ (mod : Module) includes, f { mod with includes } = f mod) :
    (rt'.module? r).map f = (rt.module? r).map f := by
  have forgotten (o : Option Module) : o.map f = (o.map Module.forget).map f := by
    rw [Option.map_map]
    congr 1
    funext mod
    exact (forgets mod).symm
  rw [forgotten, gains r, Option.map_map]
  congr 1
  funext mod
  simp only [Function.comp_apply]
  split
  · rw [ignores, forgets]
  · exact forgets mod

theorem includes (gains : Gains m added rt rt') (r : Ref) :
    (rt'.module? r).map (·.includes) = (rt.module? r).map fun mod =>
      if r = m then added ++ mod.includes else mod.includes := by
  have same := congrArg (Option.map Module.includes) (gains r)
  rw [Option.map_map, Option.map_map] at same
  refine same.trans ?_
  congr 1
  funext mod
  simp only [Function.comp_apply]
  split <;> rfl

theorem method? (gains : Gains m added rt rt') (r : Ref) (name : Sym) :
    rt'.method? r name = rt.method? r name := by
  have same := gains.reads r (·.methods.get? name) (fun _ => rfl) fun _ _ => rfl
  have joined (rt : Runtime) :
      rt.method? r name = ((rt.module? r).map (·.methods.get? name)).join := by
    rw [Runtime.method?]
    cases rt.module? r <;> rfl
  rw [joined, joined, same]

theorem holds (gains : Gains m added rt rt') (r : Ref) :
    rt'.heap.Holds (.module r) ↔ rt.heap.Holds (.module r) := by
  have same := gains.reads r (fun _ => ()) (fun _ => rfl) fun _ _ => rfl
  constructor
  · intro live
    obtain ⟨mod, found⟩ := module_of_holds live
    rw [found] at same
    obtain ⟨mod', found', -⟩ := Option.map_eq_some_iff.mp same.symm
    exact holds_of_module found'
  · intro live
    obtain ⟨mod, found⟩ := module_of_holds live
    rw [found] at same
    obtain ⟨mod', found', -⟩ := Option.map_eq_some_iff.mp same
    exact holds_of_module found'

theorem parents_of_ne (gains : Gains m added rt rt') (away : r ≠ m) :
    rt'.parents r = rt.parents r := by
  have same := congrArg (Option.map Module.parents) (gains r)
  rw [Option.map_map, Option.map_map] at same
  simp only [if_neg away] at same
  exact congrArg (Option.getD · []) same

theorem parents (gains : Gains m added rt rt') (live : rt.heap.Holds (.module m)) :
    rt'.parents m = added ++ rt.parents m := by
  obtain ⟨mod, found⟩ := module_of_holds live
  have same := gains m
  rw [found, Option.map_some, if_pos rfl] at same
  obtain ⟨mod', found', same⟩ := Option.map_eq_some_iff.mp same
  have edges : mod'.parents = added ++ mod.includes ++ mod.superclass.toList :=
    congrArg Module.parents same
  simp only [Runtime.parents, found, found', Option.map_some, Option.getD_some]
  rw [edges, Module.parents, List.append_assoc]

theorem above (gains : Gains m added rt rt') {a : Ref} (higher : Above rt.parents r a) :
    Above rt'.parents r a := by
  refine higher.mono fun x p member => ?_
  by_cases here : x = m
  · subst here
    have live : rt.heap.Holds (.module x) := by
      by_contra dead
      rw [parents_of_dead dead] at member
      cases member
    rw [gains.parents live]
    exact List.mem_append.mpr (.inr member)
  · rwa [gains.parents_of_ne here]

/-- Whether a module is refused does not depend on what the receiver includes. -/
theorem refuses (gains : Gains m added rt rt') (other : Ref) :
    rt'.Refuses m other ↔ rt.Refuses m other := by
  have kinds := gains.reads other (·.isClass) (fun _ => rfl) fun _ _ => rfl
  have higher : Above rt'.parents other m ↔ Above rt.parents other m :=
    ⟨fun higher => higher.upto fun x away => (gains.parents_of_ne away).symm,
      fun higher => higher.upto fun x away => gains.parents_of_ne away⟩
  rw [Refuses, Refuses, kinds, higher]

theorem sameGraph (gains : Gains m [] rt rt') (intact : rt.Intact) (intact' : rt'.Intact) :
    SameGraph rt rt' := by
  have edges : rt'.parents = rt.parents := by
    funext r
    by_cases here : r = m
    · subst here
      by_cases live : rt.heap.Holds (.module r)
      · exact gains.parents live
      · rw [parents_of_dead live, parents_of_dead fun live' => live ((gains.holds r).mp live')]
    · exact gains.parents_of_ne here
  have searched (name : Sym) (exclude : Option Method) (above : List Ref) :
      rt'.firstEntry name exclude above = rt.firstEntry name exclude above := by
    induction above with
    | nil => rfl
    | cons a rest ih => rw [firstEntry, firstEntry, gains.method? a name, ih]
  refine ⟨fun r => ?_, fun r => ?_, fun r live name after exclude => ?_⟩
  · rw [gains.includes r]
    congr 1
    funext mod
    split <;> rfl
  · obtain ⟨linear, -⟩ := ancestry_spec intact.sound intact.faithful r
    obtain ⟨linear', -⟩ := ancestry_spec intact'.sound intact'.faithful r
    rw [edges] at linear'
    exact linear'.unique linear
  · obtain ⟨⟨above, linear, answer⟩, -⟩ :=
      findMethod_spec intact.sound intact.faithful live name after exclude
    obtain ⟨⟨above', linear', answer'⟩, -⟩ :=
      findMethod_spec intact'.sound intact'.faithful ((gains.holds r).mpr live) name after exclude
    rw [edges] at linear'
    rw [answer, answer', linear'.unique linear]
    cases after <;> exact searched name exclude _

end Gains

/-! ## One include -/

/-- What stands above a module has it above only when it is that module. -/
theorem Intact.eq_of_above (intact : rt.Intact) {a : Ref} (higher : Above rt.parents m a)
    (back : Above rt.parents a m) : a = m := by
  rcases above_iff.mp higher with same | ⟨p, member, rest⟩
  · exact same
  · obtain ⟨above, linear⟩ := intact.faithful.graded m
    exact absurd (rest.trans back) (linear.acyclic member)

/-- An include is refused, or the module is above the receiver afterwards; it is new only when it
was not above it before. -/
theorem includeOnce_cases (intact : rt.Intact) (m other : Ref) :
    (rt.Refuses m other ∧ (∃ e, (rt.includeOnce m other).1 = .error e) ∧
      Gains m [] rt (rt.includeOnce m other).2) ∨
    ¬ rt.Refuses m other ∧ (rt.includeOnce m other).1 = .ok () ∧
      ((Above rt.parents m other ∧ Gains m [] rt (rt.includeOnce m other).2) ∨
        ¬ Above rt.parents m other ∧ Gains m [other] rt (rt.includeOnce m other).2) := by
  unfold includeOnce
  split
  next isClass => exact .inl ⟨.inl isClass, ⟨_, rfl⟩, .of_forget m rfl⟩
  next notClass =>
    obtain ⟨linear, alike, -⟩ := ancestry_spec intact.sound intact.faithful m
    have first := intact.ancestry m
    split
    next above rt₁ walked =>
      rw [walked] at linear alike first
      split
      next higher =>
        have higher := linear.mem_iff.mp higher
        refine .inr ⟨fun refused => ?_, rfl, .inl ⟨higher, .of_forget m alike.forget⟩⟩
        rcases refused with isClass | ⟨apart, back⟩
        · exact notClass isClass
        · exact apart (intact.eq_of_above higher back)
      next missing =>
        have missing : ¬ Above rt.parents m other := fun higher => missing (linear.mem_iff.mpr higher)
        obtain ⟨linear', alike', -⟩ := ancestry_spec first.sound first.faithful other
        split
        next above' rt₂ walked' =>
          rw [walked'] at linear' alike'
          rw [alike.parents] at linear'
          have same : rt₂.forget = rt.forget := alike'.forget.trans alike.forget
          split
          next back =>
            have apart : other ≠ m := fun same => missing (same ▸ .self other)
            exact .inl ⟨.inr ⟨apart, linear'.mem_iff.mp back⟩, ⟨_, rfl⟩, .of_forget m same⟩
          next free =>
            refine .inr ⟨fun refused => ?_, rfl, .inr ⟨missing, ?_⟩⟩
            · rcases refused with isClass | ⟨-, back⟩
              · exact notClass isClass
              · exact free (linear'.mem_iff.mpr back)
            · exact (Gains.of_forget m same).trans (.addInclude rt₂ m other)

/-! ## One include after the other -/

/-- Include modules one after the other, until one is refused. -/
def includeEach (rt : Runtime) (m : Ref) : List Ref → Except Failure Unit × Runtime
  | [] => (.ok (), rt)
  | other :: rest =>
    match rt.includeOnce m other with
    | (.ok (), rt) => rt.includeEach m rest
    | (.error e, rt) => (.error e, rt)

theorem includeEach_cons (rt : Runtime) (m other : Ref) (rest : List Ref) :
    rt.includeEach m (other :: rest) =
      match rt.includeOnce m other with
      | (.ok (), rt) => rt.includeEach m rest
      | (.error e, rt) => (.error e, rt) := rfl

theorem Intact.includeEach (intact : rt.Intact) (m : Ref) {others : List Ref}
    (live : ∀ other ∈ others, rt.heap.Holds (.module other)) : (rt.includeEach m others).2.Intact := by
  induction others generalizing rt with
  | nil => exact intact
  | cons other rest ih =>
    have after := intact.includeOnce m (live other (List.mem_cons_self ..))
    have still (o : Ref) (member : o ∈ rest) : (rt.includeOnce m other).2.heap.Holds (.module o) := by
      have before := live o (List.mem_cons_of_mem _ member)
      rcases includeOnce_cases intact m other with ⟨-, -, gains⟩ | ⟨-, -, ⟨-, gains⟩ | ⟨-, gains⟩⟩
      all_goals exact (gains.holds o).mpr before
    rw [includeEach_cons]
    generalize rt.includeOnce m other = p at after still
    obtain ⟨answer, left⟩ := p
    cases answer with
    | ok => exact ih after still
    | error e => exact after

/-- What including several modules leaves when none of them is refused: all stand above the
receiver, which includes those that did not before. -/
structure Took (rt : Runtime) (m : Ref) (others added : List Ref) (rt' : Runtime) : Prop where
  gains : Gains m added rt rt'
  above : ∀ other ∈ others, Above rt'.parents m other
  new : ∀ other ∈ added, other ∈ others ∧ ¬ Above rt.parents m other

namespace Took

theorem nil (m : Ref) (rt : Runtime) : Took rt m [] [] rt where
  gains := .of_forget m rfl
  above o member := by cases member
  new o member := by cases member

theorem still {others : List Ref} (took : Took rt m others added rt') (gains : Gains m [] rt' rt'') :
    Took rt m others added rt'' where
  gains := by simpa using took.gains.trans gains
  above o member := gains.above (took.above o member)
  new := took.new

theorem of_heap {left : Runtime} {others : List Ref} (same : left.heap = rt.heap)
    (took : Took left m others added rt') : Took rt m others added rt' where
  gains := by simpa using (Gains.of_heap m same).trans took.gains
  above := took.above
  new o member := by
    have edges : left.parents = rt.parents := by
      funext r
      rw [parents, module?, same, parents, module?]
    exact edges ▸ took.new o member

theorem cons (live : rt.heap.Holds (.module m)) {left : Runtime} {rest : List Ref}
    (once : (Above rt.parents m other ∧ Gains m [] rt left) ∨
      ¬ Above rt.parents m other ∧ Gains m [other] rt left)
    (later : Took left m rest added rt') : ∃ added, Took rt m (other :: rest) added rt' := by
  have kept {first : List Ref} (gains : Gains m first rt left) (o : Ref) (member : o ∈ added) :
      o ∈ other :: rest ∧ ¬ Above rt.parents m o := by
    obtain ⟨inside, new⟩ := later.new o member
    exact ⟨List.mem_cons_of_mem _ inside, fun higher => new (gains.above higher)⟩
  rcases once with ⟨higher, gains⟩ | ⟨missing, gains⟩
  · refine ⟨added, ?_, fun o member => ?_, kept gains⟩
    · simpa using gains.trans later.gains
    · rcases List.mem_cons.mp member with rfl | behind
      · exact later.gains.above (gains.above higher)
      · exact later.above o behind
  · refine ⟨added ++ [other], gains.trans later.gains, fun o member => ?_, fun o member => ?_⟩
    · rcases List.mem_cons.mp member with rfl | behind
      · have edge : o ∈ left.parents m := by simp [gains.parents live]
        exact later.gains.above (.parent edge (.self o))
      · exact later.above o behind
    · rcases List.mem_append.mp member with before | last
      · exact kept gains o before
      · rw [List.mem_singleton.mp last]
        exact ⟨List.mem_cons_self .., missing⟩

end Took

/-- Modules of which none is refused are taken in, and then the others have their turn. -/
theorem includeEach_takes (intact : rt.Intact) (live : rt.heap.Holds (.module m)) {others : List Ref}
    (rest : List Ref) (there : ∀ other ∈ others, rt.heap.Holds (.module other))
    (free : ∀ other ∈ others, ¬ rt.Refuses m other) :
    ∃ left added, Took rt m others added left ∧ left.Intact ∧
      rt.includeEach m (others ++ rest) = left.includeEach m rest := by
  induction others generalizing rt with
  | nil => exact ⟨rt, [], .nil m rt, intact, rfl⟩
  | cons other others ih =>
    have after := intact.includeOnce m (there other (List.mem_cons_self ..))
    rcases includeOnce_cases intact m other with ⟨refused, -⟩ | ⟨-, answer, once⟩
    · exact absurd refused (free other (List.mem_cons_self ..))
    rw [List.cons_append, includeEach_cons]
    generalize rt.includeOnce m other = p at after answer once
    obtain ⟨_, left⟩ := p
    cases answer
    obtain ⟨first, gains⟩ : ∃ first, Gains m first rt left := by
      rcases once with ⟨-, gains⟩ | ⟨-, gains⟩
      · exact ⟨_, gains⟩
      · exact ⟨_, gains⟩
    have there' (o : Ref) (member : o ∈ others) : left.heap.Holds (.module o) :=
      (gains.holds o).mpr (there o (List.mem_cons_of_mem _ member))
    have free' (o : Ref) (member : o ∈ others) : ¬ left.Refuses m o := fun refused =>
      free o (List.mem_cons_of_mem _ member) ((gains.refuses o).mp refused)
    obtain ⟨left', added, took, intact', same⟩ := ih after ((gains.holds m).mpr live) there' free'
    obtain ⟨added, took⟩ := took.cons live once
    exact ⟨left', added, took, intact', same⟩

/-- At the first that is refused it stops, with those before it taken in. -/
theorem includeEach_stops (intact : rt.Intact) (live : rt.heap.Holds (.module m))
    {others : List Ref} {bad : Ref} (rest : List Ref)
    (there : ∀ other ∈ others, rt.heap.Holds (.module other))
    (free : ∀ other ∈ others, ¬ rt.Refuses m other) (refused : rt.Refuses m bad) :
    (∃ e, (rt.includeEach m (others ++ bad :: rest)).1 = .error e) ∧
      ∃ added, Took rt m others added (rt.includeEach m (others ++ bad :: rest)).2 := by
  obtain ⟨left, added, took, intact', same⟩ := includeEach_takes intact live (bad :: rest) there free
  rw [same, includeEach_cons]
  rcases includeOnce_cases intact' m bad with ⟨-, ⟨e, answer⟩, gains⟩ | ⟨free, -⟩
  · generalize left.includeOnce m bad = p at answer gains
    obtain ⟨_, left'⟩ := p
    cases answer
    exact ⟨⟨e, rfl⟩, added, took.still gains⟩
  · exact absurd ((took.gains.refuses bad).mpr refused) free

end Runtime

namespace Machine
variable {η : Type} {caller : Caller η} {unwinding : Bool} {rt : Runtime} {host : η} {m : Ref}

def outcomeOf {α : Type} (a : α) : Except Failure Unit → Outcome α
  | .ok () => .value a
  | .error e => .failure e

theorem step_includeAll {α : Type} (others : List Ref) (a : α) :
    step caller unwinding (Program.includeAll m others >>= fun _ => pure a) rt host =
      .ended (outcomeOf a (rt.includeEach m others).1) (rt.includeEach m others).2 host := by
  induction others generalizing rt with
  | nil => rfl
  | cons other rest ih =>
    have asked : step caller unwinding (Program.includeAll m (other :: rest) >>= fun _ => pure a)
        rt host = step caller unwinding ((Program.ofExcept (rt.includeOnce m other).1 >>= fun _ =>
          Program.includeAll m rest) >>= fun _ => pure a) (rt.includeOnce m other).2 host := rfl
    rw [asked, Runtime.includeEach_cons]
    generalize rt.includeOnce m other = p
    obtain ⟨answer, left⟩ := p
    cases answer with
    | ok => exact ih
    | error e => rfl

/-- Arguments that are all modules are taken as such; one that is none makes the call fail. -/
theorem step_moduleArguments {α : Type} (next : List Ref → Program η α) (args : List Val) :
    (∃ others, args = others.map .module ∧ step caller unwinding
      (args.mapM (Program.moduleArgument · "Module") >>= next) rt host =
        step caller unwinding (next others) rt host) ∨
    (∃ arg ∈ args, ∀ other, arg ≠ .module other) ∧ ∃ e, step caller unwinding
      (args.mapM (Program.moduleArgument · "Module") >>= next) rt host =
        .ended (.failure e) rt host := by
  have loop (taken : List Ref) :
      (∃ others, args = others.map .module ∧ step caller unwinding
        (List.mapM.loop (Program.moduleArgument · "Module") args taken >>= next) rt host =
          step caller unwinding (next (taken.reverse ++ others)) rt host) ∨
      (∃ arg ∈ args, ∀ other, arg ≠ .module other) ∧ ∃ e, step caller unwinding
        (List.mapM.loop (Program.moduleArgument · "Module") args taken >>= next) rt host =
          .ended (.failure e) rt host := by
    induction args generalizing taken with
    | nil =>
      refine .inl ⟨[], rfl, ?_⟩
      rw [List.append_nil]
      rfl
    | cons arg args ih =>
      have other (wrong : ∀ other, arg ≠ .module other) (fails : ∃ e, step caller unwinding
          (List.mapM.loop (Program.moduleArgument · "Module") (arg :: args) taken >>= next) rt host =
            .ended (.failure e) rt host) := And.intro
        (show ∃ a ∈ arg :: args, ∀ other, a ≠ .module other from ⟨arg, List.mem_cons_self .., wrong⟩)
        fails
      cases arg with
      | cell kind r =>
        cases kind with
        | module =>
          rcases ih (r :: taken) with ⟨others, rfl, same⟩ | ⟨⟨arg, member, wrong⟩, fails⟩
          · refine .inl ⟨r :: others, rfl, ?_⟩
            rw [List.reverse_cons, List.append_assoc] at same
            exact same
          · exact .inr ⟨⟨arg, List.mem_cons_of_mem _ member, wrong⟩, fails⟩
        | _ => exact .inr (other (fun o same => by cases same) ⟨_, rfl⟩)
      | _ => exact .inr (other (fun o same => by cases same) ⟨_, rfl⟩)
  exact loop []

theorem step_moduleInclude (caller : Caller η) (unwinding : Bool) (rt : Runtime) (host : η)
    (frame : Nat) (m : Ref) (args : List Val) (block : Option Val) :
    (∃ others : List Ref, args = others.map .module ∧
      step caller unwinding (Program.moduleInclude ⟨frame, .module m, args, block⟩) rt host =
        .ended (outcomeOf (.module m) (rt.includeEach m others.reverse).1)
          (rt.includeEach m others.reverse).2 host) ∨
    (∃ arg ∈ args, ∀ other, arg ≠ .module other) ∧ ∃ e,
      step caller unwinding (Program.moduleInclude ⟨frame, .module m, args, block⟩) rt host =
        .ended (.failure e) rt host := by
  have course : step caller unwinding (Program.moduleInclude ⟨frame, .module m, args, block⟩) rt host =
      step caller unwinding (args.mapM (Program.moduleArgument · "Module") >>= fun others =>
        Program.includeAll m others.reverse >>= fun _ => pure (Val.module m)) rt host := rfl
  rw [course]
  rcases step_moduleArguments (fun others =>
      Program.includeAll m others.reverse >>= fun _ => pure (Val.module m)) args with
    ⟨others, same, taken⟩ | ⟨wrong, e, failed⟩
  · exact .inl ⟨others, same, taken.trans (step_includeAll others.reverse (Val.module m))⟩
  · exact .inr ⟨wrong, e, failed⟩

theorem exists_last {α : Type} (p : α → Prop) (as : List α) :
    (∀ a ∈ as, ¬ p a) ∨ ∃ before bad behind, as = before ++ bad :: behind ∧ p bad ∧ ∀ b ∈ behind, ¬ p b := by
  induction as with
  | nil => exact .inl fun a member => by cases member
  | cons a as ih =>
    rcases ih with none | ⟨before, bad, behind, rfl, here, none⟩
    · by_cases first : p a
      · exact .inr ⟨[], a, as, rfl, first, none⟩
      · exact .inl fun b member => by
          rcases List.mem_cons.mp member with rfl | later
          · exact first
          · exact none b later
    · exact .inr ⟨a :: before, bad, behind, rfl, here, none⟩

end Machine

namespace Runtime
variable {rt rt' : Runtime} {m : Ref}

theorem Intact.closeCall (intact : rt.Intact) (c : Call) (mark : Nat) {outcome : Outcome Val}
    (live : ∀ v, outcome = .value v → rt.heap.Holds v) :
    (rt.closeCall c mark outcome).2.Intact := by
  unfold Runtime.closeCall
  split
  · exact intact.leaveCall c mark live
  · exact intact.popCall.leaveCall c mark live

theorem heap_closeCall (rt : Runtime) (c : Call) (mark : Nat) (outcome : Outcome Val) :
    (rt.closeCall c mark outcome).2.heap = rt.heap :=
  @heap_move rt (.closeCall c mark outcome) rfl

theorem heap_refuseCall (rt : Runtime) (c : Call) (mark : Nat) :
    (rt.refuseCall c mark).2.heap = rt.heap :=
  @heap_move rt (.refuseCall c mark) rfl

/-- What the call of an include comes to: all arguments are taken in; or one is refused, and those
behind it are taken in; or it fails before. -/
inductive IncludeEnds (rt : Runtime) (m : Ref) (args : List Val) : Outcome Val → Runtime → Prop
  | fails {e : Failure} {rt' : Runtime} (still : Gains m [] rt rt') :
      IncludeEnds rt m args (.failure e) rt'
  | takes {v : Val} {others added : List Ref} {rt' : Runtime} (modules : args = others.map .module)
      (free : ∀ other ∈ others, ¬ rt.Refuses m other) (took : Took rt m others.reverse added rt') :
      IncludeEnds rt m args (.value v) rt'
  | stops {e : Failure} {before behind added : List Ref} {bad : Ref} {rt' : Runtime}
      (modules : args = (before ++ bad :: behind).map .module) (refused : rt.Refuses m bad)
      (free : ∀ b ∈ behind, ¬ rt.Refuses m b) (took : Took rt m behind.reverse added rt') :
      IncludeEnds rt m args (.failure e) rt'

theorem IncludeEnds.closeCall {left : Runtime} {args : List Val} {outcome : Outcome Val}
    (ends : IncludeEnds rt m args outcome left) (c : Call) (mark : Nat) :
    IncludeEnds rt m args (left.closeCall c mark outcome).1 (left.closeCall c mark outcome).2 := by
  have closed := Gains.of_heap m (heap_closeCall left c mark outcome)
  cases ends with
  | fails still =>
    have same := still.trans closed
    exact .fails same
  | takes modules free took => exact .takes modules free (took.still closed)
  | stops modules refused free took => exact .stops modules refused free (took.still closed)

theorem IncludeEnds.of_heap {left : Runtime} {args : List Val} {outcome : Outcome Val}
    (same : left.heap = rt.heap) (ends : IncludeEnds left m args outcome rt') :
    IncludeEnds rt m args outcome rt' := by
  have still := Gains.of_heap m same
  cases ends with
  | fails unchanged =>
    have unchanged := still.trans unchanged
    exact .fails unchanged
  | takes modules free took =>
    exact .takes modules (fun o member refused => free o member ((still.refuses o).mpr refused))
      (took.of_heap same)
  | stops modules refused free took =>
    exact .stops modules ((still.refuses _).mp refused)
      (fun b member refused => free b member ((still.refuses b).mpr refused)) (took.of_heap same)

theorem ends_includeEach (intact : rt.Intact) (live : rt.heap.Holds (.module m))
    {others : List Ref} (there : ∀ other ∈ others, rt.heap.Holds (.module other)) :
    IncludeEnds rt m (others.map .module)
      (Machine.outcomeOf (.module m) (rt.includeEach m others.reverse).1)
      (rt.includeEach m others.reverse).2 := by
  rcases Machine.exists_last (rt.Refuses m) others with
    free | ⟨before, bad, behind, rfl, refused, free⟩
  · have there' (o : Ref) (member : o ∈ others.reverse) := there o (List.mem_reverse.mp member)
    have free' (o : Ref) (member : o ∈ others.reverse) := free o (List.mem_reverse.mp member)
    obtain ⟨left, added, took, -, same⟩ := includeEach_takes intact live [] there' free'
    rw [List.append_nil] at same
    rw [same]
    exact .takes rfl free took
  · have there' (o : Ref) (member : o ∈ behind.reverse) : rt.heap.Holds (.module o) :=
      there o (by simp [List.mem_reverse.mp member])
    have free' (o : Ref) (member : o ∈ behind.reverse) := free o (List.mem_reverse.mp member)
    obtain ⟨⟨e, answer⟩, added, took⟩ :=
      includeEach_stops intact live before.reverse there' free' refused
    have order : (before ++ bad :: behind).reverse = behind.reverse ++ bad :: before.reverse := by simp
    rw [order, answer]
    exact .stops rfl refused free took

/-! ## Calls -/

section
variable {η : Type} {user : Nat → Code η} {method : Method} {args : List Val} {block : Option Val}

theorem body_include (builtin : method.body = .native (.builtin .moduleInclude)) (m : Ref)
    (args : List Val) (block : Option Val) :
    let c := Call.method method (.module m) args block
    (∃ e, Machine.body (CodeRef.code user) (rt.openFrame c).2 (rt.openFrame c).1 c = .fail e) ∨
      Machine.body (CodeRef.code user) (rt.openFrame c).2 (rt.openFrame c).1 c =
        Program.moduleInclude ⟨(rt.openFrame c).1, .module m, args, block⟩ := by
  intro c
  have slot : (rt.openFrame c).2.frames.store.getD (rt.openFrame c).1 default =
      { self := .module m, method := some method, lexicalModule := method.owner, args, block } := by
    simp [c, openFrame, Frames.push, callFrame, builtin]
  simp only [Machine.body, c, callCode, builtin]
  split
  next e misfit => exact .inl ⟨e, rfl⟩
  next =>
    rw [slot]
    exact .inr rfl

/-- The body of the call fails at once, or goes through the arguments. -/
theorem ends_body (intact : rt.Intact) (there : ∀ v ∈ .module m :: args, rt.heap.Holds v)
    {p : Program η Val} {frame : Nat}
    (course : (∃ e, p = .fail e) ∨ p = Program.moduleInclude ⟨frame, .module m, args, block⟩)
    (caller : Machine.Caller η) (unwinding : Bool) (host : η) :
    ∃ outcome left, Machine.step caller unwinding p rt host = .ended outcome left host ∧
      left.Intact ∧ IncludeEnds rt m args outcome left ∧
        ∀ v, outcome = .value v → left.heap.Holds v := by
  have unchanged : Gains m [] rt rt := .of_forget m rfl
  rcases course with ⟨e, rfl⟩ | rfl
  · exact ⟨.failure e, rt, rfl, intact, .fails unchanged, fun v value => by cases value⟩
  rcases Machine.step_moduleInclude caller unwinding rt host frame m args block with
    ⟨others, rfl, ran⟩ | ⟨-, e, failed⟩
  · have live : rt.heap.Holds (.module m) := there _ (List.mem_cons_self ..)
    have modules (o : Ref) (member : o ∈ others) : rt.heap.Holds (.module o) :=
      there _ (List.mem_cons_of_mem _ (List.mem_map_of_mem member))
    have ends := ends_includeEach intact live modules
    have intact' := intact.includeEach m fun o member => modules o (List.mem_reverse.mp member)
    refine ⟨_, _, ran, intact', ends, fun v value => ?_⟩
    generalize rt.includeEach m others.reverse = p at ends value
    obtain ⟨answer, left⟩ := p
    cases answer with
    | ok =>
      cases value
      cases ends with
      | takes modules free took => exact (took.gains.holds m).mpr live
    | error e => cases value
  · exact ⟨.failure e, rt, failed, intact, .fails unchanged, fun v value => by cases value⟩

/-- The call of an include always ends, and leaves the runtime intact. -/
theorem call_include (intact : rt.Intact) (builtin : method.body = .native (.builtin .moduleInclude))
    (given : ∀ v ∈ (Call.method method (.module m) args block).given, rt.Available v)
    (budget : Nat) (unwinding : Bool) (host : η) :
    ∃ outcome rt', Machine.call (CodeRef.code user) (budget + 1) unwinding
        (.method method (.module m) args block) rt host = .ended outcome rt' host ∧
      rt'.Intact ∧ IncludeEnds rt m args outcome rt' := by
  have there (v : Val) (member : v ∈ .module m :: args) : rt.heap.Holds v :=
    intact.holds (given v (by
      simp only [Call.given, List.mem_cons, List.mem_append] at member ⊢
      tauto))
  obtain ⟨opened, running⟩ := intact.openCall given
  have course := @body_include rt η user method builtin m args block
  simp only at course
  generalize Call.method method (.module m) args block = c at opened running course ⊢
  simp only [Machine.call]
  split
  next refused =>
    have closed : Gains m [] rt ((rt.openFrame c).2.refuseCall c rt.handles.size).2 :=
      .of_heap m (heap_refuseCall (rt.openFrame c).2 c rt.handles.size)
    have left : ((rt.openFrame c).2.refuseCall c rt.handles.size).2.Intact :=
      opened.leaveCall c _ fun v value => by cases value
    exact ⟨_, _, rfl, left, .fails closed⟩
  next room =>
    obtain ⟨outcome, left, ended, intact', ends, live⟩ :=
      ends_body running there course (Machine.call (CodeRef.code user) budget) unwinding host
    rw [ended]
    have same : ((rt.openFrame c).2.pushCall (rt.openFrame c).1).heap = rt.heap := rfl
    have whole := ends.of_heap same
    exact ⟨_, _, rfl, intact'.closeCall c _ live, whole.closeCall c _⟩

end

/-- An include that stopped at a module that is refused: those behind it are above the receiver, which
includes those of them that were not above it before. -/
structure StoppedAt (rt : Runtime) (m bad : Ref) (behind : List Ref) (rt' : Runtime) : Prop where
  refused : rt.Refuses m bad
  free : ∀ b ∈ behind, ¬ rt.Refuses m b
  above : ∀ b ∈ behind, b ∈ (rt'.ancestry m).1
  includes : ∃ added : List Ref, (∀ a ∈ added, a ∈ behind ∧ a ∉ (rt.ancestry m).1) ∧
    ∀ r, (rt'.module? r).map (·.includes) = (rt.module? r).map fun mod =>
      if r = m then added ++ mod.includes else mod.includes
  unchanged : SameGraph rt rt' ↔ ∀ b ∈ behind, b ∈ (rt.ancestry m).1

theorem Took.ancestry {others added : List Ref} (took : Took rt m others added rt')
    (intact' : rt'.Intact) : ∀ other ∈ others, other ∈ (rt'.ancestry m).1 := by
  intro other member
  obtain ⟨linear, -⟩ := ancestry_spec intact'.sound intact'.faithful m
  exact linear.mem_iff.mpr (took.above other member)

theorem Took.stoppedAt {bad : Ref} {behind added : List Ref} (took : Took rt m behind.reverse added rt')
    (intact : rt.Intact) (intact' : rt'.Intact) (refused : rt.Refuses m bad)
    (free : ∀ b ∈ behind, ¬ rt.Refuses m b) : StoppedAt rt m bad behind rt' := by
  obtain ⟨linear, -⟩ := ancestry_spec intact.sound intact.faithful m
  have above (b : Ref) (member : b ∈ behind) : b ∈ (rt'.ancestry m).1 :=
    took.ancestry intact' b (List.mem_reverse.mpr member)
  have new (a : Ref) (member : a ∈ added) : a ∈ behind ∧ a ∉ (rt.ancestry m).1 := by
    obtain ⟨inside, missing⟩ := took.new a member
    exact ⟨List.mem_reverse.mp inside, fun higher => missing (linear.mem_iff.mp higher)⟩
  refine ⟨refused, free, above, ⟨added, new, took.gains.includes⟩, fun same b member => ?_,
    fun before => ?_⟩
  · rw [← same.ancestry m]
    exact above b member
  · -- all that is new was above before, so nothing is new
    have none : added = [] := List.eq_nil_iff_forall_not_mem.mpr fun a member =>
      (new a member).2 (before a (new a member).1)
    exact Gains.sameGraph (none ▸ took.gains) intact intact'

/-- An include takes in all of its arguments, or fails. When it fails then the class graph is as it
was, or a class or a module that would be above itself stands among the arguments, and what stands
behind that has been taken in nevertheless: the graph is as it was only if all of that was above the
receiver before. With an argument that is no module at all, nothing is taken in. -/
theorem include_takes_what_stands_behind {η : Type} (user : Nat → Code η) (config : Config)
    {moves : List Move} (permitted : (boot config).PermitsRun moves) {method : Method}
    (builtin : method.body = .native (.builtin .moduleInclude)) (m : Ref) (args : List Val)
    (block : Option Val)
    (given : ∀ v ∈ (Call.method method (.module m) args block).given,
      ((boot config).after moves).Available v)
    (budget : Nat) (unwinding : Bool) (host : η) :
    let rt := (boot config).after moves
    ∃ outcome rt', Machine.call (CodeRef.code user) (budget + 1) unwinding
        (.method method (.module m) args block) rt host = .ended outcome rt' host ∧
      ((∃ v, outcome = .value v ∧
          ∀ arg ∈ args, ∃ a, arg = .module a ∧ ¬ rt.Refuses m a ∧ a ∈ (rt'.ancestry m).1) ∨
        ∃ e, outcome = .failure e ∧
          (SameGraph rt rt' ∨ ∃ before bad behind, args = (before ++ bad :: behind).map .module ∧
            StoppedAt rt m bad behind rt')) ∧
      ((∃ arg ∈ args, ∀ a, arg ≠ .module a) → ∃ e, outcome = .failure e ∧ SameGraph rt rt') := by
  intro rt
  have intact : rt.Intact := (intact_boot config).after permitted
  have kind (as : List Ref) : ¬ ∃ arg ∈ as.map Val.module, ∀ a, arg ≠ .module a := by
    rintro ⟨arg, member, wrong⟩
    obtain ⟨a, -, rfl⟩ := List.mem_map.mp member
    exact wrong a rfl
  obtain ⟨outcome, rt', ended, intact', ends⟩ :=
    call_include intact builtin given budget unwinding host
  refine ⟨outcome, rt', ended, ?_⟩
  cases ends with
  | fails still =>
    have same := still.sameGraph intact intact'
    exact ⟨.inr ⟨_, rfl, .inl same⟩, fun _ => ⟨_, rfl, same⟩⟩
  | takes modules free took =>
    subst modules
    refine ⟨.inl ⟨_, rfl, fun arg member => ?_⟩, fun wrong => absurd wrong (kind _)⟩
    obtain ⟨a, inside, rfl⟩ := List.mem_map.mp member
    exact ⟨a, rfl, free a inside, took.ancestry intact' a (List.mem_reverse.mpr inside)⟩
  | stops modules refused free took =>
    subst modules
    exact ⟨.inr ⟨_, rfl, .inr ⟨_, _, _, rfl, took.stoppedAt intact intact' refused free⟩⟩,
      fun wrong => absurd wrong (kind _)⟩

/-- Two modules and a class. -/
def twoModules : List Move :=
  [.act .newModule, .act .newModule, .act (.subclass CoreClass.object.ref none none)]

theorem permits_twoModules : (boot {}).PermitsRun twoModules :=
  ⟨.of_roots (fun _ member => nomatch member) rfl, .of_roots (fun _ member => nomatch member) rfl,
    .of_roots (List.forall_mem_singleton.mpr (.core .object (by decide))) rfl, trivial⟩

/-- The method that modules include with. -/
def including : Method where
  id := 6
  name := .includes
  owner := CoreClass.module.ref
  body := .native (.builtin .moduleInclude)
  arity := -2

def classAndModule : List Val := [.module ⟨40, 0⟩, .module ⟨39, 0⟩]

/-- The first module is to include the class, which it refuses, and the second module. -/
def includeBoth : Call := .method including (.module ⟨38, 0⟩) classAndModule none

theorem available_includeBoth : ∀ v ∈ includeBoth.given, ((boot {}).after twoModules).Available v := by
  refine List.forall_mem_cons.mpr ⟨?_, List.forall_mem_cons.mpr ⟨?_, List.forall_mem_cons.mpr ⟨?_,
    List.forall_mem_singleton.mpr ?_⟩⟩⟩
  · exact (Root.handle (by decide +kernel)).available
  · exact (Root.core .module (by decide)).available
  · exact (Root.handle (by decide +kernel)).available
  · exact (Root.handle (by decide +kernel)).available

theorem includeBoth_fails : let rt := (boot {}).after twoModules
    ((boot {}).PermitsRun twoModules ∧ (∀ v ∈ includeBoth.given, rt.Available v) ∧
      rt.method? CoreClass.module.ref .includes = some including) ∧
    ∃ e rt', Machine.call Machine.builtinCode 256 false includeBoth rt () = .ended (.failure e) rt' () ∧
      (SameGraph rt rt' ∨ ∃ before bad behind,
        classAndModule = (before ++ bad :: behind).map .module ∧
          StoppedAt rt ⟨38, 0⟩ bad behind rt') := by
  have refused : ((boot {}).after twoModules).Refuses ⟨38, 0⟩ ⟨40, 0⟩ := .inl (by decide +kernel)
  refine ⟨⟨permits_twoModules, available_includeBoth, by decide +kernel⟩, ?_⟩
  obtain ⟨outcome, rt', ended, ends, -⟩ := include_takes_what_stands_behind
    (fun _ _ => .done (.value .nil)) {} permits_twoModules
    (show including.body = .native (.builtin .moduleInclude) from rfl) ⟨38, 0⟩
    classAndModule none available_includeBoth 255 false ()
  rcases ends with ⟨v, -, taken⟩ | ⟨e, rfl, kept⟩
  · obtain ⟨a, same, free, -⟩ := taken _ (List.mem_cons_self ..)
    cases same
    exact absurd refused free
  · exact ⟨e, rt', ended, kept⟩

def failed : Run Unit Val → Option Runtime
  | .ended (.failure _) rt _ => some rt
  | _ => none

/-- The include fails, and the second module is included all the same. -/
theorem failed_include_is_seen : let rt := (boot {}).after twoModules
    (boot {}).PermitsRun twoModules ∧
    (failed (Machine.step (Machine.call Machine.builtinCode 256) false
      (Program.send (.module ⟨38, 0⟩) .includes classAndModule none) rt ())).map
        (fun rt' => ((rt.ancestry ⟨38, 0⟩).1, (rt'.ancestry ⟨38, 0⟩).1)) =
          some ([⟨38, 0⟩], [⟨38, 0⟩, ⟨39, 0⟩]) :=
  ⟨permits_twoModules, by decide +kernel⟩

end Runtime
end ObjectRuntime
