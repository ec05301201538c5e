import Mathlib.Data.List.TakeWhile
import ObjectRuntime.Proofs.Precedence
import ObjectRuntime.Proofs.Surroundings

/-! Resolution of constants. What is bound around a module comes first, then what is bound before
`Object` in its ancestry, then what is bound in the ancestry of `Object`. A module that was bound in
`Object` has `Object` around it, and there a binding of `Object` hides those of the ancestry. -/

namespace ObjectRuntime.Runtime

variable {rt rt' : Runtime} {m : Ref} {name : Sym} {l : List Ref} {v : Val}

/-! ## Searching a list -/

theorem firstConst_cons (rt : Runtime) (name : Sym) (a : Ref) (l : List Ref) :
    rt.firstConst name (a :: l) = (rt.const? a name).or (rt.firstConst name l) := by
  rw [firstConst, List.findSome?_cons]
  cases rt.const? a name <;> rfl

theorem firstConst_append (rt : Runtime) (name : Sym) (first second : List Ref) :
    rt.firstConst name (first ++ second) =
      (rt.firstConst name first).or (rt.firstConst name second) :=
  List.findSome?_append

theorem firstConst_eq_none : rt.firstConst name l = none ↔ ∀ a ∈ l, rt.const? a name = none :=
  List.findSome?_eq_none_iff

theorem firstConst_alike (same : rt'.forget = rt.forget) (name : Sym) (l : List Ref) :
    rt'.firstConst name l = rt.firstConst name l := by
  rw [← firstConst_forget, same, firstConst_forget]

/-- What is not bound in front is not bound where it comes again. -/
theorem firstConst_mergeLinear {front : List Ref} (unbound : rt.firstConst name front = none)
    (l : List Ref) : rt.firstConst name (mergeLinear front l) = rt.firstConst name l := by
  rw [mergeLinear, firstConst_append, unbound, Option.none_or]
  rw [firstConst_eq_none] at unbound
  induction l with
  | nil => rfl
  | cons a rest ih =>
    by_cases before : a ∈ front
    · rw [List.filter_cons_of_neg (by simpa using before), ih, firstConst_cons, unbound a before,
        Option.none_or]
    · rw [List.filter_cons_of_pos (by simpa using before), firstConst_cons, firstConst_cons, ih]

/-! ## The modules around -/

def LexicalSearch.of : Option Val → LexicalSearch
  | some v => .found v
  | none => .absent

/-- The search from the inside out finds the first binding among the modules around. -/
theorem searchLexical_eq (name : Sym) (fuel : Nat) {around : List Ref}
    (linear : Linear rt.outer m around) (enough : around.length ≤ fuel) :
    rt.searchLexical name fuel m = .of (rt.firstConst name around) := by
  induction fuel generalizing m around with
  | zero => exact absurd linear.length_pos (by omega)
  | succ fuel ih =>
    rw [searchLexical]
    cases found : rt.module? m with
    | none =>
      rw [linear.eq_alone (by simp [outer, found]), firstConst_cons]
      simp [const?, found, firstConst, LexicalSearch.of]
    | some mod =>
      have own : rt.const? m name = mod.consts.get? name := by simp [const?, found]
      cases lexical : mod.lexicalParent with
      | none =>
        rw [linear.eq_alone (by simp [outer, found, lexical]), firstConst_cons, own]
        simp only [lexical]
        cases mod.consts.get? name <;> rfl
      | some p =>
        have edges : rt.outer m = [p] := by simp [outer, found, lexical]
        obtain ⟨around', linear', shorter⟩ := linear.of_parent (p := p) (by simp [edges])
        rw [linear.only edges linear', firstConst_cons, own]
        simp only [lexical]
        cases mod.consts.get? name with
        | some v => rfl
        | none => exact ih linear' (by omega)

/-! ## The ancestry -/

/-- What stands before `Object` in the ancestry, and all of it when `Object` is not there. -/
def beforeObject (rt : Runtime) (m : Ref) : List Ref :=
  (rt.ancestry m).1.takeWhile (· ≠ CoreClass.object.ref)

theorem searchAncestry_eq (intact : rt.Intact) (m : Ref) (name : Sym) :
    (rt.searchAncestry m name).1 =
      ((rt.firstConst name (rt.ancestry m).1).or
        (rt.firstConst name (rt.ancestry CoreClass.object.ref).1)).elim
          (.error (.nameError s!"uninitialized constant {rt.symName name}")) .ok := by
  obtain ⟨-, alike, faithful⟩ := ancestry_spec intact.sound intact.faithful m
  obtain ⟨linear, -⟩ := ancestry_spec intact.sound intact.faithful CoreClass.object.ref
  have first := intact.ancestry m
  unfold searchAncestry
  generalize rt.ancestry m = walked at alike first ⊢
  obtain ⟨above, rt₁⟩ := walked
  simp only at alike first ⊢
  rw [firstConst_alike alike.forget]
  cases rt.firstConst name above with
  | some v => rfl
  | none =>
    obtain ⟨linear₁, alike₁, -⟩ := ancestry_spec first.sound first.faithful CoreClass.object.ref
    rw [alike.parents] at linear₁
    rw [← linear₁.unique linear]
    have named : (rt₁.ancestry CoreClass.object.ref).2.symName name = rt.symName name := by
      rw [symName, alike₁.rest, alike.rest, symName]
    generalize rt₁.ancestry CoreClass.object.ref = walked at alike₁ named ⊢
    obtain ⟨above, rt₂⟩ := walked
    simp only at alike₁ named ⊢
    rw [firstConst_alike (alike₁.forget.trans alike.forget), Option.none_or]
    cases rt.firstConst name above with
    | some v => rfl
    | none => rw [named, Option.elim_none]

theorem findConst_eq (sound : rt.Sound) {around : List Ref} (linear : Linear rt.outer m around)
    (name : Sym) : (rt.findConst m name).1 =
      some ((rt.firstConst name around).elim (rt.searchAncestry m name).1 .ok) := by
  have inside := searchLexical_eq name _ linear (sound.around_le linear)
  unfold findConst
  rw [inside]
  cases rt.firstConst name around <;> rfl

/-- Behind what stands before `Object`, an ancestry binds what the ancestry of `Object` does. -/
theorem firstConst_ancestry (intact : rt.Intact) (layered : rt.Layered)
    (object : rt.IsClass CoreClass.object.ref) (m : Ref) (name : Sym) :
    (rt.firstConst name (rt.ancestry m).1).or
        (rt.firstConst name (rt.ancestry CoreClass.object.ref).1) =
      (rt.firstConst name (rt.beforeObject m)).or
        (rt.firstConst name (rt.ancestry CoreClass.object.ref).1) := by
  obtain ⟨linear, -⟩ := ancestry_spec intact.sound intact.faithful m
  obtain ⟨linear', -⟩ := ancestry_spec intact.sound intact.faithful CoreClass.object.ref
  unfold beforeObject
  generalize (rt.ancestry m).1 = l at linear ⊢
  generalize (rt.ancestry CoreClass.object.ref).1 = l' at linear' ⊢
  by_cases listed : CoreClass.object.ref ∈ l
  · obtain ⟨front, rfl, below⟩ :=
      layered.class_ends linear (linear.mem_iff.mp listed) object linear'
    have apart : CoreClass.object.ref ∉ front := fun member => (below _ member object).1 rfl
    obtain ⟨rest, rfl⟩ := linear'.head
    have starts : (mergeLinear front (CoreClass.object.ref :: rest)).takeWhile
        (· ≠ CoreClass.object.ref) = front := by
      have others (a : Ref) (member : a ∈ front) : decide (a ≠ CoreClass.object.ref) = true := by
        rw [decide_eq_true_iff]
        rintro rfl
        exact apart member
      rw [mergeLinear, List.filter_cons_of_pos (by simpa using apart),
        List.takeWhile_append_of_pos others, List.takeWhile_cons_of_neg (by simp), List.append_nil]
    rw [starts]
    cases bound : rt.firstConst name front with
    | some v => rw [mergeLinear, firstConst_append, bound, Option.some_or, Option.some_or]
    | none => rw [firstConst_mergeLinear bound, Option.or_self, Option.none_or]
  · have whole : l.takeWhile (· ≠ CoreClass.object.ref) = l := by
      refine List.takeWhile_eq_self_iff.mpr fun a member => ?_
      rw [decide_eq_true_iff]
      rintro rfl
      exact listed member
    rw [whole]

/-! ## Resolving -/

/-- What a name means inside a module, when nothing around the module binds it but `Object`. -/
inductive Denotes (rt : Runtime) (m : Ref) (name : Sym) : Except Failure Val → Prop
  | around {v : Val} (around : Above rt.outer m CoreClass.object.ref)
      (bound : rt.const? CoreClass.object.ref name = some v) : Denotes rt m name (.ok v)
  | before {v : Val}
      (free : Above rt.outer m CoreClass.object.ref → rt.const? CoreClass.object.ref name = none)
      (bound : rt.firstConst name (rt.beforeObject m) = some v) : Denotes rt m name (.ok v)
  | last {v : Val}
      (free : Above rt.outer m CoreClass.object.ref → rt.const? CoreClass.object.ref name = none)
      (unbound : rt.firstConst name (rt.beforeObject m) = none)
      (bound : rt.firstConst name (rt.ancestry CoreClass.object.ref).1 = some v) :
      Denotes rt m name (.ok v)
  | nowhere
      (free : Above rt.outer m CoreClass.object.ref → rt.const? CoreClass.object.ref name = none)
      (unbound : rt.firstConst name (rt.beforeObject m) = none)
      (missing : rt.firstConst name (rt.ancestry CoreClass.object.ref).1 = none) :
      Denotes rt m name (.error (.nameError s!"uninitialized constant {rt.symName name}"))

theorem Denotes.unique {answer answer' : Except Failure Val} (denotes : rt.Denotes m name answer)
    (denotes' : rt.Denotes m name answer') : answer = answer' := by
  cases denotes with
  | around around bound =>
    cases denotes' with
    | around _ bound' => rw [Option.some.inj (bound.symm.trans bound')]
    | before free _ | last free _ _ | nowhere free _ _ => exact nomatch bound.symm.trans (free around)
  | before free bound =>
    cases denotes' with
    | around around bound' => exact nomatch bound'.symm.trans (free around)
    | before _ bound' => rw [Option.some.inj (bound.symm.trans bound')]
    | last _ unbound _ | nowhere _ unbound _ => exact nomatch bound.symm.trans unbound
  | last free unbound bound =>
    cases denotes' with
    | around around bound' => exact nomatch bound'.symm.trans (free around)
    | before _ bound' => exact nomatch bound'.symm.trans unbound
    | last _ _ bound' => rw [Option.some.inj (bound.symm.trans bound')]
    | nowhere _ _ missing => exact nomatch bound.symm.trans missing
  | nowhere free unbound missing =>
    cases denotes' with
    | around around bound' => exact nomatch bound'.symm.trans (free around)
    | before _ bound' => exact nomatch bound'.symm.trans unbound
    | last _ _ bound' => exact nomatch bound'.symm.trans missing
    | nowhere _ _ _ => rfl

theorem Intact.denotes (intact : rt.Intact) (layered : rt.Layered)
    (object : rt.IsClass CoreClass.object.ref) (nested : rt.Nested)
    (unbound : ∀ a, Above rt.outer m a → a ≠ CoreClass.object.ref → rt.const? a name = none)
    (answer : Except Failure Val) :
    (rt.findConst m name).1 = some answer ↔ rt.Denotes m name answer := by
  obtain ⟨answer', found, denotes⟩ :
      ∃ answer, (rt.findConst m name).1 = some answer ∧ rt.Denotes m name answer := by
    obtain ⟨around, linear⟩ := nested m
    rw [findConst_eq intact.sound linear]
    cases lexical : rt.firstConst name around with
    | some v =>
      refine ⟨.ok v, rfl, ?_⟩
      obtain ⟨a, member, bound⟩ := List.exists_of_findSome?_eq_some lexical
      have above := linear.mem_iff.mp member
      by_cases here : a = CoreClass.object.ref
      · exact .around (here ▸ above) (here ▸ bound)
      · rw [unbound a above here] at bound
        cases bound
    | none =>
      refine ⟨_, rfl, ?_⟩
      have free (above : Above rt.outer m CoreClass.object.ref) :
          rt.const? CoreClass.object.ref name = none :=
        firstConst_eq_none.mp lexical _ (linear.mem_iff.mpr above)
      rw [Option.elim_none, searchAncestry_eq intact, firstConst_ancestry intact layered object]
      cases before : rt.firstConst name (rt.beforeObject m) with
      | some v => exact .before free before
      | none =>
        cases last : rt.firstConst name (rt.ancestry CoreClass.object.ref).1 with
        | some v => exact .last free before last
        | none => exact .nowhere free before last
  constructor
  · intro same
    cases found.symm.trans same
    exact denotes
  · intro denotes'
    rw [found, denotes.unique denotes']

/-! ## Runs -/

theorem Growth.isClass_core {may : Runtime → Ref → Prop} (growth : Growth may rt rt')
    (wf : rt.heap.WellFormed) {c : CoreClass} (core : c ∈ CoreClass.all)
    (cls : rt.IsClass c.ref) : rt'.IsClass c.ref := by
  cases growth with
  | birth birth =>
    cases birth with
    | collect =>
      obtain ⟨m, found, cls⟩ := cls
      have reached : rt.Reaches (.module c.ref) := (Root.core c core).reaches
      exact ⟨m, by simpa only [module?, cell?_collect_of_reaches reached] using found, cls⟩
    | bear awaits name => exact cls.keep (keeps_bear wf awaits name)
  | place born => exact cls.keep (keeps_place wf born.plain.1)

theorem object_first : (bare {}).IsClass CoreClass.object.ref := by decide +kernel

theorem isClass_object (config : Config) {moves : List Move}
    (permitted : (boot config).PermitsRun moves) :
    ((boot config).after moves).IsClass CoreClass.object.ref :=
  (turns_after config permitted).keep (fun same cls => cls.keep same.keeps)
    (fun wf growth cls => growth.isClass_core wf (by decide) cls)
    (intact_bare config).sound.heap (isClass_bare config object_first)

/-- In every state in which no module lies inside itself, a name that no module around `m` binds
but perhaps `Object` means the binding of `Object` when `Object` is around `m`, and else the first
before `Object` in the ancestry of `m`, and else the first in that of `Object`. -/
theorem constants_resolved (config : Config) (moves : List Move)
    (permitted : (boot config).PermitsRun moves) (nested : ((boot config).after moves).Nested)
    (m : Ref) (name : Sym)
    (unbound : ∀ a, Above ((boot config).after moves).outer m a → a ≠ CoreClass.object.ref →
      ((boot config).after moves).const? a name = none) (answer : Except Failure Val) :
    (((boot config).after moves).findConst m name).1 = some answer ↔
      ((boot config).after moves).Denotes m name answer :=
  ((intact_boot config).after permitted).denotes (layered_after config permitted)
    (isClass_object config permitted) nested unbound answer

/-- A class that is bound in `Object`, a module that it includes, and a constant that both the module
and `Object` bind. -/
def shadowing : List Move :=
  [.act .newModule, .act (.subclass CoreClass.object.ref none none),
   .act (.setConst CoreClass.object.ref ⟨40⟩ (.module ⟨39, 0⟩)),
   .act (.includeOnce ⟨39, 0⟩ ⟨38, 0⟩), .act (.setConst ⟨38, 0⟩ ⟨41⟩ (.int 1)),
   .act (.setConst CoreClass.object.ref ⟨41⟩ (.int 2))]

theorem permits_shadowing : (boot {}).PermitsRun shadowing := by
  have object (rt : Runtime) : rt.Root (.module CoreClass.object.ref) := .core .object (by decide)
  refine ⟨.of_roots (fun _ member => nomatch member) rfl,
    .of_roots (List.forall_mem_singleton.mpr (object _)) rfl,
    .of_roots (List.forall_mem_cons.mpr ⟨object _, List.forall_mem_singleton.mpr (.handle ?_)⟩) rfl,
    .of_roots (List.forall_mem_cons.mpr ⟨.handle ?_, List.forall_mem_singleton.mpr (.handle ?_)⟩) rfl,
    ⟨List.forall_mem_cons.mpr ⟨Root.available (.handle ?_), List.forall_mem_singleton.mpr (.inl rfl)⟩,
      nofun⟩,
    ⟨List.forall_mem_cons.mpr ⟨(object _).available, List.forall_mem_singleton.mpr (.inl rfl)⟩,
      nofun⟩, trivial⟩
  all_goals decide +kernel

/-- The class lies in `Object`, which lies in nothing. -/
theorem nested_shadowing : ((boot {}).after shadowing).Nested := by
  refine (nested_boot {}).after (intact_boot {}) permits_shadowing
    ⟨fun closes => ?_, fun closes => ?_, fun closes => ?_, fun closes => ?_, nofun, nofun, trivial⟩
  · exact absurd closes.isBinding Bool.false_ne_true
  · exact absurd closes.isBinding Bool.false_ne_true
  · obtain ⟨_, _, _, inside⟩ := closes
    have none : ((boot {}).after (shadowing.take 2)).outer CoreClass.object.ref = [] := by
      decide +kernel
    rcases above_iff.mp inside with same | ⟨p, member, -⟩
    · exact absurd same (by decide)
    · exact absurd (none ▸ member) List.not_mem_nil
  · exact absurd closes.isBinding Bool.false_ne_true

theorem unbound_shadowing : ∀ a, Above ((boot {}).after shadowing).outer ⟨39, 0⟩ a →
    a ≠ CoreClass.object.ref → ((boot {}).after shadowing).const? a ⟨41⟩ = none := by
  intro a above apart
  rcases above_iff.mp above with rfl | ⟨p, member, further⟩
  · decide +kernel
  · have around : ((boot {}).after shadowing).outer ⟨39, 0⟩ = [CoreClass.object.ref] ∧
        ((boot {}).after shadowing).outer CoreClass.object.ref = [] := by
      decide +kernel
    obtain rfl := List.mem_singleton.mp (around.1 ▸ member)
    rcases above_iff.mp further with same | ⟨p, member, -⟩
    · exact absurd same apart
    · exact absurd (around.2 ▸ member) List.not_mem_nil

theorem shadowing_resolved : let rt := (boot {}).after shadowing
    ((boot {}).PermitsRun shadowing ∧ rt.Nested ∧
      ∀ a, Above rt.outer ⟨39, 0⟩ a → a ≠ CoreClass.object.ref → rt.const? a ⟨41⟩ = none) ∧
    (rt.findConst ⟨39, 0⟩ ⟨41⟩).1 = some (.ok (.int 2)) := by
  intro rt
  refine ⟨⟨permits_shadowing, nested_shadowing, unbound_shadowing⟩, ?_⟩
  refine (constants_resolved {} shadowing permits_shadowing nested_shadowing ⟨39, 0⟩ ⟨41⟩
    unbound_shadowing _).mpr (.around ?_ (by decide +kernel))
  exact .parent (by decide +kernel) (.self _)

/-- The module stands before `Object` in the ancestry of the class and binds the constant, and yet
the constant is that of `Object`. -/
theorem object_shadows_ancestry : let rt := (boot {}).after shadowing
    ((boot {}).PermitsRun shadowing ∧ rt.Nested ∧
      ∀ a, Above rt.outer ⟨39, 0⟩ a → a ≠ CoreClass.object.ref → rt.const? a ⟨41⟩ = none) ∧
    rt.beforeObject ⟨39, 0⟩ = [⟨39, 0⟩, ⟨38, 0⟩] ∧ rt.const? ⟨38, 0⟩ ⟨41⟩ = some (.int 1) ∧
    (rt.findConst ⟨39, 0⟩ ⟨41⟩).1 ≠ some (.ok (.int 1)) := by
  intro rt
  refine ⟨⟨permits_shadowing, nested_shadowing, unbound_shadowing⟩, by decide +kernel,
    by decide +kernel, ?_⟩
  intro same
  have found : (rt.findConst ⟨39, 0⟩ ⟨41⟩).1.bind (·.toOption) = some (.int 2) := by decide +kernel
  rw [same] at found
  exact absurd found (by decide)

end ObjectRuntime.Runtime
