import ObjectRuntime.Hierarchy

/-! Linearizations. A module has one when its ancestry goes round in no circle: the
linearizations of its parents merged behind it. It lists what is above the module, each
once, and is longer than that of any parent. -/

namespace ObjectRuntime

/-- The linearization of a module, by the parents of modules: the module, then what the
linearizations of its parents add, one parent after the other. -/
inductive Linear (parents : Ref → List Ref) : Ref → List Ref → Prop
  | intro (m : Ref) (above : Ref → List Ref) : (∀ p ∈ parents m, Linear parents p (above p)) →
      Linear parents m
        ((parents m).foldl (fun linear p => Runtime.mergeLinear linear (above p)) [m])

inductive Above (parents : Ref → List Ref) : Ref → Ref → Prop
  | self (m : Ref) : Above parents m m
  | parent {m p a : Ref} : p ∈ parents m → Above parents p a → Above parents m a

variable {parents parents' : Ref → List Ref} {m p a : Ref} {l l' : List Ref}

theorem Above.trans {b : Ref} (first : Above parents m a) (second : Above parents a b) :
    Above parents m b := by
  induction first with
  | self => exact second
  | parent member _ ih => exact .parent member (ih second)

theorem above_iff : Above parents m a ↔ a = m ∨ ∃ p ∈ parents m, Above parents p a := by
  constructor
  · intro higher
    cases higher with
    | self => exact .inl rfl
    | parent member rest => exact .inr ⟨_, member, rest⟩
  · rintro (rfl | ⟨p, member, rest⟩)
    · exact .self _
    · exact .parent member rest

/-! ## Merging -/

theorem mem_mergeLinear (linear more : List Ref) :
    a ∈ Runtime.mergeLinear linear more ↔ a ∈ linear ∨ a ∈ more := by
  by_cases known : a ∈ linear <;> simp [Runtime.mergeLinear, known]

theorem nodup_mergeLinear {linear more : List Ref} (nodup : linear.Nodup) (nodup' : more.Nodup) :
    (Runtime.mergeLinear linear more).Nodup := by
  refine List.nodup_append.mpr ⟨nodup, nodup'.filter _, ?_⟩
  rintro a known b added rfl
  simp [known] at added

theorem mem_merged (above : Ref → List Ref) (ps linear : List Ref) :
    a ∈ ps.foldl (fun linear p => Runtime.mergeLinear linear (above p)) linear ↔
      a ∈ linear ∨ ∃ p ∈ ps, a ∈ above p := by
  induction ps generalizing linear with
  | nil => simp
  | cons p ps ih => simp [ih, mem_mergeLinear, or_assoc]

theorem nodup_merged {above : Ref → List Ref} {ps linear : List Ref} (nodup : linear.Nodup)
    (each : ∀ p ∈ ps, (above p).Nodup) :
    (ps.foldl (fun linear p => Runtime.mergeLinear linear (above p)) linear).Nodup := by
  induction ps generalizing linear with
  | nil => exact nodup
  | cons p ps ih =>
    exact ih (nodup_mergeLinear nodup (each p (by simp)))
      fun q member => each q (List.mem_cons_of_mem _ member)

theorem prefix_merged (above : Ref → List Ref) (ps linear : List Ref) :
    linear <+: ps.foldl (fun linear p => Runtime.mergeLinear linear (above p)) linear := by
  induction ps generalizing linear with
  | nil => exact List.prefix_rfl
  | cons p ps ih => exact (List.prefix_append _ _).trans (ih _)

theorem mergeLinear_assoc (first second third : List Ref) :
    Runtime.mergeLinear (Runtime.mergeLinear first second) third =
      Runtime.mergeLinear first (Runtime.mergeLinear second third) := by
  have kept (a : Ref) : decide (a ∉ Runtime.mergeLinear first second) =
      (decide (a ∉ first) && decide (a ∉ second)) := by
    simp [mem_mergeLinear]
  simp only [Runtime.mergeLinear] at kept ⊢
  rw [List.filter_append, List.append_assoc, List.filter_filter, List.filter_congr fun a _ => kept a]

/-- What comes before stays before what the other list adds. -/
theorem sublist_mergeLinear {linear more : List Ref} {b : Ref} (before : a ∈ linear)
    (new : b ∉ linear) (added : b ∈ more) : [a, b].Sublist (Runtime.mergeLinear linear more) := by
  have behind : b ∈ more.filter (· ∉ linear) := List.mem_filter.mpr ⟨added, by simpa using new⟩
  exact (List.singleton_sublist.mpr before).append (List.singleton_sublist.mpr behind)

theorem merged_congr {above above' : Ref → List Ref} {ps : List Ref} (linear : List Ref)
    (same : ∀ p ∈ ps, above p = above' p) :
    ps.foldl (fun linear p => Runtime.mergeLinear linear (above p)) linear =
      ps.foldl (fun linear p => Runtime.mergeLinear linear (above' p)) linear := by
  induction ps generalizing linear with
  | nil => rfl
  | cons p ps ih =>
    rw [List.foldl_cons, List.foldl_cons, same p (by simp)]
    exact ih _ fun q member => same q (List.mem_cons_of_mem _ member)

/-! ## What a linearization is -/

theorem Linear.mem_iff (linear : Linear parents m l) : a ∈ l ↔ Above parents m a := by
  induction linear with
  | intro m above _ ih =>
    rw [mem_merged]
    constructor
    · rintro (here | ⟨p, member, higher⟩)
      · rw [List.mem_singleton.mp here]
        exact .self m
      · exact .parent member ((ih p member).mp higher)
    · intro higher
      cases higher with
      | self => exact .inl (by simp)
      | parent member rest => exact .inr ⟨_, member, (ih _ member).mpr rest⟩

theorem Linear.length_pos (linear : Linear parents m l) : 0 < l.length :=
  List.length_pos_of_mem (linear.mem_iff.mpr (.self m))

theorem Linear.nodup (linear : Linear parents m l) : l.Nodup := by
  induction linear with
  | intro m above _ ih => exact nodup_merged (by simp) ih

theorem Linear.unique (linear : Linear parents m l) (linear' : Linear parents m l') : l = l' := by
  induction linear generalizing l' with
  | intro m above _ ih =>
    cases linear' with
    | intro _ above' linears' =>
      exact merged_congr [m] fun p member => ih p member (linears' p member)

/-- No module that has a linearization is above one of its parents. -/
theorem Linear.acyclic (linear : Linear parents m l) (member : p ∈ parents m) :
    ¬ Above parents p m := by
  induction linear generalizing p with
  | intro m above _ ih =>
    intro back
    cases back with
    | self => exact ih m member member (.self m)
    | parent member' rest => exact ih p member member' (rest.trans (.parent member (.self p)))

theorem Linear.length_lt (linear : Linear parents m l) (member : p ∈ parents m)
    (linear' : Linear parents p l') : l'.length < l.length := by
  have fresh : m ∉ l' := fun back => linear.acyclic member (linear'.mem_iff.mp back)
  have nodup : (m :: l').Nodup := List.nodup_cons.mpr ⟨fresh, linear'.nodup⟩
  refine nodup.length_le_of_subset fun a known => ?_
  rcases List.mem_cons.mp known with rfl | higher
  · exact linear.mem_iff.mpr (.self a)
  · exact linear.mem_iff.mpr (.parent member (linear'.mem_iff.mp higher))

/-- The parents of a module with a linearization have one each, shorter than its own. -/
theorem Linear.of_parent (linear : Linear parents m l) (member : p ∈ parents m) :
    ∃ l', Linear parents p l' ∧ l'.length < l.length := by
  obtain ⟨l', linear'⟩ : ∃ l', Linear parents p l' := by
    cases linear with
    | intro _ above linears => exact ⟨above p, linears p member⟩
  exact ⟨l', linear', linear.length_lt member linear'⟩

theorem Linear.of_above (linear : Linear parents m l) (higher : Above parents m a) :
    ∃ l', Linear parents a l' := by
  induction higher generalizing l with
  | self => exact ⟨l, linear⟩
  | parent member _ ih =>
    obtain ⟨l', linear', -⟩ := linear.of_parent member
    exact ih linear'

theorem Linear.head (linear : Linear parents m l) : ∃ rest, l = m :: rest := by
  cases linear with
  | intro _ above _ =>
    obtain ⟨rest, same⟩ := prefix_merged above (parents m) [m]
    exact ⟨rest, same.symm⟩

/-- A linearization ends as that of the last parent does, save for what comes before: the module
and what is above its other parents. -/
theorem Linear.of_last {first : List Ref} {last : Ref} (linear : Linear parents m l)
    (edges : parents m = first ++ [last]) (linear' : Linear parents last l') :
    ∃ front, l = Runtime.mergeLinear front l' ∧
      ∀ a, a ∈ front ↔ a = m ∨ ∃ p ∈ first, Above parents p a := by
  cases linear with
  | intro _ above linears =>
    have listed {p : Ref} (member : p ∈ first ++ [last]) : Linear parents p (above p) :=
      linears p (edges ▸ member)
    refine ⟨first.foldl (fun linear p => Runtime.mergeLinear linear (above p)) [m], ?_, fun a => ?_⟩
    · rw [edges, List.foldl_append, linear'.unique (listed (by simp))]
      rfl
    · rw [mem_merged, List.mem_singleton]
      refine or_congr_right (exists_congr fun p => and_congr_right fun member => ?_)
      exact (listed (List.mem_append_left _ member)).mem_iff

/-- With a single parent, a linearization is the module and then that of the parent. -/
theorem Linear.only (linear : Linear parents m l) (edges : parents m = [p])
    (linear' : Linear parents p l') : l = m :: l' := by
  have fresh : m ∉ l' := fun back => linear.acyclic (by simp [edges]) (linear'.mem_iff.mp back)
  cases linear with
  | intro _ above linears =>
    have kept : l'.filter (· ∉ [m]) = l' := by
      refine List.filter_eq_self.mpr fun a member => ?_
      have apart : a ≠ m := fun same => fresh (same ▸ member)
      simpa using apart
    rw [edges, List.foldl_cons, List.foldl_nil, (linears p (by simp [edges])).unique linear',
      Runtime.mergeLinear, kept, List.singleton_append]

/-- Every way up from a module with a linearization ends. -/
theorem Linear.acc (linear : Linear parents m l) : Acc (fun p m => p ∈ parents m) m := by
  induction linear with
  | intro m above _ ih => exact ⟨m, fun p member => ih p member⟩

theorem Linear.alone (edges : parents m = []) : Linear parents m [m] := by
  have linear : Linear parents m
      ((parents m).foldl (fun linear _ => Runtime.mergeLinear linear []) [m]) :=
    .intro m (fun _ => []) (by simp [edges])
  rwa [edges] at linear

theorem Linear.of_parents (linears : ∀ p ∈ parents m, ∃ l, Linear parents p l) :
    ∃ l, Linear parents m l := by
  classical
  have chosen (p : Ref) : ∃ l, p ∈ parents m → Linear parents p l := by
    by_cases member : p ∈ parents m
    · obtain ⟨l, linear⟩ := linears p member
      exact ⟨l, fun _ => linear⟩
    · exact ⟨[], fun member' => absurd member' member⟩
  exact ⟨_, .intro m (fun p => (chosen p).choose) fun p member => (chosen p).choose_spec member⟩

theorem Linear.eq_alone (linear : Linear parents m l) (edges : parents m = []) : l = [m] :=
  linear.unique (.alone edges)

theorem Linear.exists_of_lt (lower : ∀ m, ∀ p ∈ parents m, p.index < m.index) (m : Ref) :
    ∃ l, Linear parents m l := by
  induction bound : m.index using Nat.strongRecOn generalizing m with
  | ind n ih => exact Linear.of_parents fun p member => ih p.index (bound ▸ lower m p member) p rfl

/-! ## Changes of the parents -/

theorem Above.congr (higher : Above parents m a)
    (same : ∀ b, Above parents m b → parents' b = parents b) : Above parents' m a := by
  induction higher with
  | self m => exact .self m
  | @parent m p a member _ ih =>
    refine .parent (same m (.self m) ▸ member) (ih fun b above => same b (.parent member above))

theorem Above.mono (higher : Above parents m a)
    (more : ∀ (x p : Ref), p ∈ parents x → p ∈ parents' x) : Above parents' m a := by
  induction higher with
  | self m => exact .self m
  | parent member _ ih => exact .parent (more _ _ member) ih

/-- A way up to a module does not depend on what the parents of that module are. -/
theorem Above.upto (higher : Above parents m a) (same : ∀ x, x ≠ a → parents' x = parents x) :
    Above parents' m a := by
  induction higher with
  | self m => exact .self m
  | @parent m p a member _ ih =>
    by_cases here : m = a
    · exact here ▸ .self m
    · exact .parent (same m here ▸ member) (ih same)

theorem Linear.congr (linear : Linear parents m l)
    (same : ∀ a, Above parents m a → parents' a = parents a) : Linear parents' m l := by
  induction linear with
  | intro m above _ ih =>
    rw [← same m (.self m)]
    refine .intro m above fun p member => ih p (same m (.self m) ▸ member) fun a higher => ?_
    exact same a (.parent (same m (.self m) ▸ member) higher)

/-- Fewer parents keep every linearization there. -/
theorem Linear.exists_of_fewer (linears : ∀ x, ∃ l, Linear parents x l)
    (fewer : ∀ x, ∀ p ∈ parents' x, p ∈ parents x) (x : Ref) : ∃ l, Linear parents' x l := by
  obtain ⟨l, linear⟩ := linears x
  induction linear with
  | intro x above _ ih => exact Linear.of_parents fun p member => ih p (fewer x p member)

/-- More parents for one module keep every linearization there, when none of them has the module
above it. -/
theorem Linear.exists_of_edges (more : List Ref) (linears : ∀ x, ∃ l, Linear parents x l)
    (others : ∀ x, x ≠ m → parents' x = parents x)
    (grown : ∀ p, p ∈ parents' m → p ∈ more ∨ p ∈ parents m)
    (apart : ∀ p ∈ more, ¬ Above parents p m) (x : Ref) : ∃ l, Linear parents' x l := by
  -- what does not have `m` above it keeps its linearization
  have away (x : Ref) (free : ¬ Above parents x m) : ∃ l, Linear parents' x l := by
    obtain ⟨l, linear⟩ := linears x
    refine ⟨l, linear.congr fun a higher => others a ?_⟩
    rintro rfl
    exact free higher
  have here : ∃ l, Linear parents' m l := by
    refine Linear.of_parents fun p member => away p ?_
    rcases grown p member with new | old
    · exact apart p new
    · exact (linears m).choose_spec.acyclic old
  obtain ⟨l, linear⟩ := linears x
  induction linear with
  | intro x above _ ih =>
    by_cases same : x = m
    · exact same ▸ here
    · exact Linear.of_parents fun p member => ih p (others x same ▸ member)

end ObjectRuntime
