import ObjectRuntime.Proofs.Changes

/-! The class graph of a run. Its edges go round in no circle, every include is of a plain module,
and an ancestry is the linearization that the edges give, remembered or not. Walks up the
superclasses are given without a bound on their length, so that each of them ends. -/

namespace ObjectRuntime.Runtime

/-! ## Walks -/

/-- The singleton class that a class inherits, from the nearest class above that has one. -/
inductive Inherits (rt : Runtime) : Option Ref → Option Ref → Prop
  | root : Inherits rt none none
  | missing {c : Ref} (gone : rt.module? c = none) : Inherits rt (some c) none
  | own {c s : Ref} {m : Module} (found : rt.module? c = some m) (made : m.singleton = some s) :
      Inherits rt (some c) (some s)
  | up {c : Ref} {m : Module} {answer : Option Ref} (found : rt.module? c = some m)
      (unmade : m.singleton = none) (rest : Inherits rt m.superclass answer) :
      Inherits rt (some c) answer

/-- The nearest class from a class upwards that is no singleton class. -/
inductive Skips (rt : Runtime) : Ref → Ref → Prop
  | missing {c : Ref} (gone : rt.module? c = none) : Skips rt c c
  | root {c : Ref} {m : Module} (found : rt.module? c = some m) (top : m.superclass = none) :
      Skips rt c c
  | real {c : Ref} {m : Module} (found : rt.module? c = some m) (real : m.isSingleton = false) :
      Skips rt c c
  | up {c sup answer : Ref} {m : Module} (found : rt.module? c = some m)
      (singleton : m.isSingleton = true) (edge : m.superclass = some sup)
      (rest : Skips rt sup answer) : Skips rt c answer

def attachSingleton (rt : Runtime) (r superclass : Ref) : Ref × Runtime :=
  match rt.newSingleton (.module r) superclass with
  | (s, rt) => (s, rt.modifyModule r fun m => { m with singleton := some s })

/-- Making the singleton class of a module, those of its superclasses first. -/
inductive MakesSingleton (rt : Runtime) : Ref → Ref × Runtime → Prop
  | had {r s : Ref} {m : Module} (found : rt.module? r = some m) (made : m.singleton = some s) :
      MakesSingleton rt r (s, rt)
  | plain {r : Ref} {m : Module} (found : rt.module? r = some m) (unmade : m.singleton = none)
      (plain : m.isClass = false) :
      MakesSingleton rt r (rt.attachSingleton r CoreClass.module.ref)
  | root {r : Ref} {m : Module} (found : rt.module? r = some m) (unmade : m.singleton = none)
      (cls : m.isClass = true) (top : m.superclass = none) :
      MakesSingleton rt r (rt.attachSingleton r CoreClass.klass.ref)
  | up {r sup : Ref} {m : Module} {above : Ref × Runtime} (found : rt.module? r = some m)
      (unmade : m.singleton = none) (cls : m.isClass = true) (edge : m.superclass = some sup)
      (rest : MakesSingleton rt sup above) : MakesSingleton rt r (above.2.attachSingleton r above.1)

variable {rt rt' : Runtime}

theorem superclass_mem_parents {c sup : Ref} {m : Module} (found : rt.module? c = some m)
    (edge : m.superclass = some sup) : sup ∈ rt.parents c := by
  simp [parents, found, Module.parents, edge]

/-- A walk as long as the linearization of a class finds the singleton class that it inherits. -/
theorem inherits_of_linear (fuel : Nat) {c : Ref} {above : List Ref}
    (linear : Linear rt.parents c above) (enough : above.length ≤ fuel) :
    Inherits rt (some c) (rt.inheritedSingleton fuel (some c)) := by
  induction fuel generalizing c above with
  | zero => exact absurd linear.length_pos (by omega)
  | succ fuel ih =>
    rw [inheritedSingleton]
    cases found : rt.module? c with
    | none => exact .missing found
    | some m =>
      simp only
      cases made : m.singleton with
      | some s => exact .own found made
      | none =>
        refine .up found made ?_
        cases edge : m.superclass with
        | none => cases fuel <;> exact .root
        | some sup =>
          obtain ⟨above', linear', shorter⟩ := linear.of_parent (superclass_mem_parents found edge)
          exact ih linear' (by omega)

theorem skips_of_linear (fuel : Nat) {c : Ref} {above : List Ref}
    (linear : Linear rt.parents c above) (enough : above.length ≤ fuel) :
    Skips rt c (rt.skipSingletons fuel c) := by
  induction fuel generalizing c above with
  | zero => exact absurd linear.length_pos (by omega)
  | succ fuel ih =>
    rw [skipSingletons]
    cases found : rt.module? c with
    | none => exact .missing found
    | some m =>
      simp only
      cases edge : m.superclass with
      | none => exact .root found edge
      | some sup =>
        cases singleton : m.isSingleton with
        | false => exact .real found singleton
        | true =>
          obtain ⟨above', linear', shorter⟩ := linear.of_parent (superclass_mem_parents found edge)
          exact .up found singleton edge (ih linear' (by omega))

theorem Intact.inherits (intact : rt.Intact) (start : Option Ref) :
    rt.Inherits start (rt.inheritedSingleton rt.heap.slots.size start) := by
  cases start with
  | none => cases rt.heap.slots.size <;> exact .root
  | some c =>
    obtain ⟨above, linear⟩ := intact.faithful.graded c
    exact inherits_of_linear _ linear (intact.sound.length_le linear)

theorem Intact.skips (intact : rt.Intact) (v : Val) : rt.Skips (rt.classOf v) (rt.realClassOf v) := by
  obtain ⟨above, linear⟩ := intact.faithful.graded (rt.classOf v)
  exact skips_of_linear _ linear (intact.sound.length_le linear)

theorem makesSingleton_of_linear (sound : rt.Sound) (fuel : Nat) {r : Ref} {above : List Ref}
    (live : rt.heap.Holds (.module r)) (linear : Linear rt.parents r above)
    (enough : above.length ≤ fuel) : MakesSingleton rt r (moduleSingleton fuel r rt) := by
  induction fuel generalizing r above with
  | zero => exact absurd linear.length_pos (by omega)
  | succ fuel ih =>
    obtain ⟨m, found⟩ := module_of_holds live
    rw [moduleSingleton, found]
    simp only
    cases made : m.singleton with
    | some s => exact .had found made
    | none =>
      cases cls : m.isClass with
      | false => exact .plain found made cls
      | true =>
        cases edge : m.superclass with
        | none => exact .root found made cls edge
        | some sup =>
          have member := superclass_mem_parents found edge
          obtain ⟨above', linear', shorter⟩ := linear.of_parent member
          exact .up found made cls edge (ih (sound.holds_parent member) linear' (by omega))

/-! ## Includes -/

/-- Every include is of a plain module that is there. -/
def PlainIncludes (rt : Runtime) : Prop :=
  ∀ r m, rt.module? r = some m → ∀ i ∈ m.includes, ∃ mod, rt.module? i = some mod ∧
    mod.isClass = false

theorem PlainIncludes.change {allowed : Editing} (plain : rt.PlainIncludes)
    (wf : rt.heap.WellFormed) (change : Change allowed rt rt')
    (may : ∀ rt m other, allowed rt m (.addInclude other) →
      ∃ mod, rt.module? other = some mod ∧ mod.isClass = false) : rt'.PlainIncludes := by
  intro r m found i member
  cases change with
  | quiet same =>
    obtain ⟨m', found', outline⟩ := same.before found
    have includes := Module.of_outline outline (·.includes)
    obtain ⟨mod, here, isPlain⟩ := plain r m' found' i (includes ▸ member)
    obtain ⟨mod', there, outline'⟩ := same.later here
    exact ⟨mod', there, (Module.of_outline outline' (·.isClass)).trans isPlain⟩
  | collect =>
    -- a module that is kept keeps the modules it includes
    rw [module?_eq_some] at found
    obtain ⟨found', k, reached⟩ := (Heap.cell?_collect ..).mp found
    obtain ⟨mod, here, isPlain⟩ := plain r m ((module?_eq_some ..).mpr found') i member
    have held : .module i ∈ m.children := Module.mem_children.mpr (.included member)
    rw [module?_eq_some] at here
    refine ⟨mod, (module?_eq_some ..).mpr ?_, isPlain⟩
    exact (Heap.cell?_collect ..).mpr ⟨here, .module, .child reached found' held⟩
  | place c bare =>
    have kept {i : Ref} {mod : Module} (here : rt.module? i = some mod) :
        (rt.place c).2.module? i = some mod := by
      rw [module?_eq_some] at here ⊢
      exact cell?_place_of_found wf c here
    rw [module?_eq_some, cell?_place wf] at found
    split at found
    next =>
      cases found
      rw [((Cell.isBare_module m).mp bare).1] at member
      cases member
    next =>
      obtain ⟨mod, here, isPlain⟩ := plain r m ((module?_eq_some ..).mpr found) i member
      exact ⟨mod, kept here, isPlain⟩
  | edit m' e allows =>
    have kept {i : Ref} {mod : Module} (here : rt.module? i = some mod)
        (isPlain : mod.isClass = false) :
        ∃ mod', (rt.modifyModule m' e.apply).module? i = some mod' ∧ mod'.isClass = false := by
      rw [module?_modifyModule]
      split
      next same =>
        refine ⟨e.apply mod, by rw [← same, here]; rfl, ?_⟩
        cases e <;> exact isPlain
      next => exact ⟨mod, here, isPlain⟩
    rw [module?_modifyModule] at found
    split at found
    next same =>
      obtain ⟨m'', found', rfl⟩ := Option.map_eq_some_iff.mp found
      have old (member : i ∈ m''.includes) := plain m' m'' found' i member
      cases e with
      | addInclude other =>
        rcases List.mem_cons.mp member with rfl | before
        · obtain ⟨mod, here, isPlain⟩ := may rt m' i allows
          exact kept here isPlain
        · obtain ⟨mod, here, isPlain⟩ := old before
          exact kept here isPlain
      | _ =>
        obtain ⟨mod, here, isPlain⟩ := old member
        exact kept here isPlain
    next =>
      obtain ⟨mod, here, isPlain⟩ := plain r m found i member
      exact kept here isPlain

theorem plain_of_starting {m other : Ref} (starting : Changes.Starting rt m (.addInclude other)) :
    ∃ mod, rt.module? other = some mod ∧ mod.isClass = false := by
  cases starting with
  | includes found isPlain => exact ⟨_, found, isPlain⟩

theorem plain_of_edits {move : Move} {m other : Ref} (edits : move.Edits rt m (.addInclude other)) :
    ∃ mod, rt.module? other = some mod ∧ mod.isClass = false := by
  cases move with
  | act action =>
    cases edits with
    | includes found isPlain => exact ⟨_, found, isPlain⟩
  | _ => cases edits

theorem plainIncludes_after (config : Config) {moves : List Move}
    (permitted : (boot config).PermitsRun moves) : ((boot config).after moves).PlainIncludes := by
  refine (Changes.from_start config permitted).keep (fun wf plain change => ?_)
    (intact_bare config).sound.heap fun r m found i member => ?_
  · refine plain.change wf change fun rt m other allows => ?_
    rcases allows with starting | ⟨move, -, edits⟩
    · exact plain_of_starting starting
    · exact plain_of_edits edits
  · rw [((Cell.isBare_module m).mp (bare_module found).1).1] at member
    cases member

/-! ## The graph of a run -/

theorem Intact.forget (intact : rt.Intact) : rt.forget.Intact where
  sound := intact.sound.of_forget (forget_forget rt)
  faithful := by
    refine ⟨fun m => ?_, fun r m generation above found memory => ?_, fun e member => by cases member⟩
    · rw [parents_forget]
      exact intact.faithful.graded m
    · rw [module?_forget] at found
      obtain ⟨m', -, rfl⟩ := Option.map_eq_some_iff.mp found
      cases memory

/-- A class graph in which every walk ends. The linearization that the edges give a module is its
ancestry, whatever is remembered, and what is remembered in the present generation is right. -/
structure Ordered (rt : Runtime) : Prop where
  grounded : WellFounded fun p m => p ∈ rt.parents m
  acyclic : ∀ m, ∀ p ∈ rt.parents m, ¬ Above rt.parents p m
  plain : rt.PlainIncludes
  ancestry : ∀ m linear, Linear rt.parents m linear ↔ linear = (rt.ancestry m).1
  recomputed : ∀ m, (rt.forget.ancestry m).1 = (rt.ancestry m).1
  remembered : ∀ r m above, rt.module? r = some m → m.linear = some (rt.hierarchy, above) →
    above = (rt.ancestry r).1
  inherits : ∀ r m, rt.module? r = some m →
    rt.Inherits m.superclass (rt.inheritedSingleton rt.heap.slots.size m.superclass)
  skips : ∀ v, rt.Skips (rt.classOf v) (rt.realClassOf v)
  makesSingleton : ∀ r, rt.heap.Holds (.module r) → ∃ s rt',
    rt.MakesSingleton r (s, rt') ∧ rt.singletonClass (.module r) = (.ok s, rt')

theorem Intact.ordered (intact : rt.Intact) (plain : rt.PlainIncludes) : rt.Ordered where
  grounded := ⟨fun m => (intact.faithful.graded m).choose_spec.acc⟩
  acyclic m p member := (intact.faithful.graded m).choose_spec.acyclic member
  plain := plain
  ancestry m linear := by
    obtain ⟨given, -⟩ := ancestry_spec intact.sound intact.faithful m
    exact ⟨fun linear' => linear'.unique given, fun same => same ▸ given⟩
  recomputed m := by
    obtain ⟨given, -⟩ := ancestry_spec intact.sound intact.faithful m
    obtain ⟨anew, -⟩ := ancestry_spec intact.forget.sound intact.forget.faithful m
    rw [parents_forget] at anew
    exact anew.unique given
  remembered r m above found memory := by
    obtain ⟨given, -⟩ := ancestry_spec intact.sound intact.faithful r
    exact ((intact.faithful.remembered r m _ above found memory).2.2 rfl).unique given
  inherits r m found := intact.inherits m.superclass
  skips := intact.skips
  makesSingleton r live := by
    obtain ⟨above, linear⟩ := intact.faithful.graded r
    exact ⟨_, _, makesSingleton_of_linear intact.sound _ live linear (intact.sound.length_le linear),
      rfl⟩

/-- Whatever modules and classes a run makes, includes, names, gives singleton classes and
collects, in any order, its class graph stays in order. -/
theorem ordered_after (config : Config) (moves : List Move)
    (permitted : (boot config).PermitsRun moves) : ((boot config).after moves).Ordered :=
  ((intact_boot config).after permitted).ordered (plainIncludes_after config permitted)

/-- A module, a class that includes it, its singleton class, and a collection. -/
def mixing : List Move :=
  [.act .newModule, .act (.subclass CoreClass.object.ref none none),
   .act (.includeOnce ⟨39, 0⟩ ⟨38, 0⟩), .act (.singletonClass (.module ⟨39, 0⟩)), .act .collect]

theorem permits_mixing : (boot {}).PermitsRun mixing := by
  refine ⟨.of_roots (fun _ member => nomatch member) rfl,
    .of_roots (List.forall_mem_singleton.mpr (.core .object (by decide))) rfl,
    .of_roots (List.forall_mem_cons.mpr ⟨.handle ?_, List.forall_mem_singleton.mpr (.handle ?_)⟩) rfl,
    .of_roots (List.forall_mem_singleton.mpr (.handle ?_)) rfl,
    .of_roots (fun _ member => nomatch member) rfl, trivial⟩
  all_goals decide +kernel

theorem ordered_mixing : ((boot {}).PermitsRun mixing ∧
    ⟨38, 0⟩ ∈ ((boot {}).after mixing).parents ⟨39, 0⟩) ∧ ((boot {}).after mixing).Ordered :=
  ⟨⟨permits_mixing, by decide +kernel⟩, ordered_after {} mixing permits_mixing⟩

end ObjectRuntime.Runtime
