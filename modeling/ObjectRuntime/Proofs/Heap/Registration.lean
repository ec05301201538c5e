import Mathlib.Data.List.Nodup
import ObjectRuntime.Heap

/-! Registered roots. Every entry without a value is free for the next registration, and is used
before a new one is made. As long as no more than 2 ^ 32 registrations stand, their ids are apart, and
an id gives back the value that was registered last under it. -/

namespace ObjectRuntime

/-- A value that is kept, behind the id that it is kept under. -/
abbrev Registration := UInt32 × Val

namespace Roots

/-- The position of the entry that the next registration takes. -/
def next (rs : Roots) : Nat := rs.free.headD rs.entries.size

/-- No value is kept under the id. -/
def Spent (rs : Roots) (i : UInt32) : Prop := ∀ v, rs.entries[i.toNat]? ≠ some (some v)

/-- The free entries are those without a value, each of them once. -/
structure Tidy (rs : Roots) : Prop where
  once : rs.free.Nodup
  vacant : ∀ k, k ∈ rs.free ↔ rs.entries[k]? = some none
  size : rs.entries.size = rs.free.length + rs.values.length

/-- The values that are kept are those of the registrations that stand, each at the entry of its
id. -/
structure Tracks (rs : Roots) (standing : List Registration) : Prop extends Tidy rs where
  room : rs.entries.size ≤ UInt32.size
  apart : (standing.map Prod.fst).Nodup
  entry : ∀ i v, (i, v) ∈ standing ↔ rs.entries[i.toNat]? = some (some v)
  values : rs.values.Perm (standing.map Prod.snd)

variable {rs : Roots} {standing : List Registration} {i : UInt32} {v : Val}

/-! ## Lists of entries -/

theorem values_set {k : Nat} (entries : List (Option Val)) (free : entries[k]? = some none) :
    ((entries.set k (some v)).filterMap id).Perm (v :: entries.filterMap id) := by
  obtain ⟨bound, none_here⟩ := List.getElem?_eq_some_iff.mp free
  rw [List.set_eq_take_append_cons_drop, if_pos bound]
  conv_rhs => rw [← List.take_append_drop k entries, List.drop_eq_getElem_cons bound, none_here]
  simp only [List.filterMap_append, List.filterMap_cons]
  exact List.perm_middle

theorem values_clear {k : Nat} (entries : List (Option Val)) (kept : entries[k]? = some (some v)) :
    (entries.filterMap id).Perm (v :: (entries.set k none).filterMap id) := by
  obtain ⟨bound, here⟩ := List.getElem?_eq_some_iff.mp kept
  have cleared : (entries.set k none)[k]? = some none := by simp [bound]
  have again := values_set (v := v) (entries.set k none) cleared
  rwa [List.set_set, ← here, List.set_getElem_self] at again

/-! ## Registering -/

theorem register_id (rs : Roots) (v : Val) : (rs.register v).1 = .ofNat rs.next := by
  unfold register next
  cases rs.free <;> rfl

theorem free_register (rs : Roots) (v : Val) : (rs.register v).2.free = rs.free.tail := by
  unfold register
  cases rs.free <;> rfl

namespace Tidy

theorem empty : ({} : Roots).Tidy where
  once := List.nodup_nil
  vacant k := by simp
  size := rfl

/-- The next registration takes a free entry, or there is none and it makes one. -/
theorem next_cases (tidy : rs.Tidy) :
    rs.entries[rs.next]? = some none ∨ rs.free = [] ∧ rs.next = rs.entries.size := by
  cases spent : rs.free with
  | nil => exact .inr ⟨rfl, by rw [next, spent]; rfl⟩
  | cons k free =>
    have head : rs.next = k := by rw [next, spent]; rfl
    exact .inl (head ▸ (tidy.vacant k).mp (spent ▸ List.mem_cons_self ..))

theorem entries_register (tidy : rs.Tidy) (v : Val) (k : Nat) :
    (rs.register v).2.entries[k]? = if k = rs.next then some (some v) else rs.entries[k]? := by
  have cases := tidy.next_cases
  unfold register next at *
  cases spent : rs.free with
  | nil => exact Array.getElem?_push
  | cons j free =>
    have vacant : rs.entries[j]? = some none := by simpa [spent] using cases
    obtain ⟨bound, -⟩ := Array.getElem?_eq_some_iff.mp vacant
    by_cases same : k = j
    · subst same
      simp [bound]
    · simp [same, Ne.symm same]

theorem values_register (tidy : rs.Tidy) (v : Val) :
    (rs.register v).2.values.Perm (v :: rs.values) := by
  have cases := tidy.next_cases
  unfold register next at *
  cases spent : rs.free with
  | nil => simp [Roots.values]
  | cons j free =>
    have vacant : rs.entries[j]? = some none := by simpa [spent] using cases
    simpa [Roots.values] using values_set (v := v) rs.entries.toList (by simpa using vacant)

theorem register (tidy : rs.Tidy) (v : Val) : (rs.register v).2.Tidy where
  once := by
    rw [free_register]
    exact tidy.once.tail
  vacant k := by
    rw [free_register, tidy.entries_register]
    have once := tidy.once
    have vacant := tidy.vacant k
    cases spent : rs.free with
    | nil =>
      simp only [spent, List.not_mem_nil, false_iff] at vacant
      split <;> simp [vacant]
    | cons j free =>
      have head : rs.next = j := by rw [next, spent]; rfl
      rw [spent, List.nodup_cons] at once
      rw [spent, List.mem_cons] at vacant
      rw [List.tail_cons, head]
      split
      next same => simp [same, once.1]
      next other => rw [← vacant, or_iff_right other]
  size := by
    have values := (tidy.values_register v).length_eq
    have size := tidy.size
    rw [List.length_cons] at values
    rw [values, free_register]
    unfold Roots.register
    cases spent : rs.free with
    | nil => simp [spent, size]
    | cons j free =>
      rw [spent, List.length_cons] at size
      simp only [Array.size_setIfInBounds, List.tail_cons]
      omega

end Tidy

/-! ## Unregistering -/

theorem unregister_of_kept (kept : rs.entries[i.toNat]? = some (some v)) :
    rs.unregister i =
      (some v, ⟨rs.entries.setIfInBounds i.toNat none, i.toNat :: rs.free⟩) := by
  simp [unregister, Array.getD_eq_getD_getElem?, kept]

theorem unregister_of_spent (spent : rs.Spent i) : rs.unregister i = (none, rs) := by
  unfold unregister
  split
  next v found =>
    refine absurd ?_ (spent v)
    rw [Array.getD_eq_getD_getElem?] at found
    cases here : rs.entries[i.toNat]? <;> simp_all
  next => rfl

theorem spent_or_kept (rs : Roots) (i : UInt32) :
    rs.Spent i ∨ ∃ v, rs.entries[i.toNat]? = some (some v) := by
  by_cases kept : ∃ v, rs.entries[i.toNat]? = some (some v)
  · exact .inr kept
  · exact .inl (not_exists.mp kept)

theorem entries_unregister (rs : Roots) (i : UInt32) (k : Nat) :
    (rs.unregister i).2.entries[k]? =
      if k = i.toNat then (rs.entries[k]?).map fun _ => none else rs.entries[k]? := by
  rcases spent_or_kept rs i with spent | ⟨v, kept⟩
  · rw [unregister_of_spent spent]
    split
    next same =>
      subst same
      cases here : rs.entries[i.toNat]? with
      | none => rfl
      | some e =>
        cases e with
        | none => rfl
        | some v => exact absurd here (spent v)
    next => rfl
  · obtain ⟨bound, -⟩ := Array.getElem?_eq_some_iff.mp kept
    rw [unregister_of_kept kept, Array.getElem?_setIfInBounds]
    by_cases same : k = i.toNat
    · subst same
      simp [bound]
    · rw [if_neg (Ne.symm same), if_neg same]

theorem Tidy.unregister (tidy : rs.Tidy) (i : UInt32) : (rs.unregister i).2.Tidy := by
  rcases spent_or_kept rs i with spent | ⟨v, kept⟩
  · rwa [unregister_of_spent spent]
  · obtain ⟨bound, -⟩ := Array.getElem?_eq_some_iff.mp kept
    have cleared := values_clear rs.entries.toList (v := v) (by simpa using kept)
    refine ⟨?_, fun k => ?_, ?_⟩
    · rw [unregister_of_kept kept, List.nodup_cons]
      refine ⟨fun free => ?_, tidy.once⟩
      simp [(tidy.vacant _).mp free] at kept
    · rw [entries_unregister, unregister_of_kept kept, List.mem_cons]
      by_cases same : k = i.toNat
      · subst same
        simp [bound]
      · rw [if_neg same, or_iff_right same, tidy.vacant]
    · have size := tidy.size
      have fewer := cleared.length_eq
      rw [unregister_of_kept kept]
      simp only [Roots.values, Array.size_setIfInBounds, Array.toList_setIfInBounds,
        List.length_cons] at size fewer ⊢
      omega

/-! ## Spent ids -/

theorem spent_unregister (rs : Roots) (i : UInt32) : (rs.unregister i).2.Spent i := by
  intro v kept
  rw [entries_unregister, if_pos rfl] at kept
  cases here : rs.entries[i.toNat]? <;> simp [here] at kept

namespace Spent

/-- An id is spent until a registration is answered with it. -/
theorem register (spent : rs.Spent i) (tidy : rs.Tidy) (other : (rs.register v).1 ≠ i) :
    (rs.register v).2.Spent i := by
  intro w kept
  rw [tidy.entries_register] at kept
  split at kept
  next same =>
    refine other ?_
    rw [register_id, ← same, UInt32.ofNat_toNat]
  next => exact spent w kept

theorem unregister (spent : rs.Spent i) (i' : UInt32) : (rs.unregister i').2.Spent i := by
  intro w kept
  rw [entries_unregister] at kept
  split at kept
  next => cases here : rs.entries[i.toNat]? <;> simp [here] at kept
  next => exact spent w kept

end Spent

/-- An id that gives a value back is the id of the next registration. -/
theorem register_unregister (answered : (rs.unregister i).1 ≠ none) (v : Val) :
    ((rs.unregister i).2.register v).1 = i := by
  rcases spent_or_kept rs i with spent | ⟨w, kept⟩
  · rw [unregister_of_spent spent] at answered
    exact absurd rfl answered
  · rw [unregister_of_kept kept]
    exact UInt32.ofNat_toNat

/-! ## What stands -/

namespace Tracks

theorem empty : ({} : Roots).Tracks [] where
  toTidy := .empty
  room := Nat.zero_le _
  apart := List.nodup_nil
  entry i v := by simp
  values := .refl _

theorem length_values (tracks : rs.Tracks standing) : rs.values.length = standing.length := by
  rw [tracks.values.length_eq, List.length_map]

theorem spent_iff (tracks : rs.Tracks standing) : rs.Spent i ↔ i ∉ standing.map Prod.fst := by
  constructor
  · intro spent member
    obtain ⟨⟨_, v⟩, stands, rfl⟩ := List.mem_map.mp member
    exact spent v ((tracks.entry _ v).mp stands)
  · intro absent v kept
    exact absent (List.mem_map_of_mem ((tracks.entry i v).mpr kept))

/-- With room for another one, the next registration is answered with the position of its entry. -/
theorem toNat_register (tracks : rs.Tracks standing) (few : standing.length < UInt32.size) (v : Val) :
    (rs.register v).1.toNat = rs.next := by
  have below : rs.next < UInt32.size := by
    rcases tracks.next_cases with vacant | ⟨spent, last⟩
    · obtain ⟨bound, -⟩ := Array.getElem?_eq_some_iff.mp vacant
      exact Nat.lt_of_lt_of_le bound tracks.room
    · rw [last, tracks.size, spent, tracks.length_values]
      simpa using few
  rw [register_id]
  exact UInt32.toNat_ofNat_of_lt' below

theorem register (tracks : rs.Tracks standing) (few : standing.length < UInt32.size) (v : Val) :
    (rs.register v).2.Tracks (((rs.register v).1, v) :: standing) := by
  have position := tracks.toNat_register few v
  have tidy := tracks.toTidy.register v
  have fresh : rs.Spent (rs.register v).1 := fun w kept => by
    rw [position] at kept
    rcases tracks.next_cases with vacant | ⟨-, last⟩
    · simp [vacant] at kept
    · simp [last] at kept
  refine ⟨tidy, ?_, ?_, fun i w => ?_, ?_⟩
  · have size := tidy.size
    rw [(tracks.values_register v).length_eq, free_register, List.length_cons,
      tracks.length_values] at size
    have before := tracks.size
    have room := tracks.room
    cases spent : rs.free with
    | nil =>
      rw [spent] at size
      simp only [List.tail_nil, List.length_nil] at size
      omega
    | cons k free =>
      rw [tracks.length_values, spent] at before
      rw [spent] at size
      simp only [List.tail_cons, List.length_cons] at size before
      omega
  · exact List.nodup_cons.mpr ⟨tracks.spent_iff.mp fresh, tracks.apart⟩
  · rw [tracks.entries_register, ← position, List.mem_cons, Prod.mk.injEq]
    by_cases same : i = (rs.register v).1
    · subst same
      have absent : ((rs.register v).1, w) ∉ standing := fun stands =>
        fresh w ((tracks.entry _ w).mp stands)
      rw [if_pos rfl]
      simp [absent, eq_comm]
    · rw [if_neg (mt UInt32.toNat.inj same), ← tracks.entry]
      simp [same]
  · exact (tracks.values_register v).trans (tracks.values.cons v)

/-- When 2 ^ 32 registrations stand, the next one is answered with the id of one of them. -/
theorem repeats (tracks : rs.Tracks standing) (full : standing.length = UInt32.size) (v : Val) :
    (rs.register v).1 ∈ standing.map Prod.fst := by
  have size := tracks.size
  rw [tracks.length_values, full] at size
  have spent : rs.free = [] := by
    have room := tracks.room
    exact List.length_eq_zero_iff.mp (by omega)
  have last : rs.next = UInt32.size := by
    rw [next, spent, List.headD_nil, size, spent]
    rfl
  by_contra absent
  rw [← tracks.spent_iff, register_id, last] at absent
  have first : rs.entries[0]? ≠ none := by
    rw [Ne, Array.getElem?_eq_none_iff, size, spent]
    decide
  cases here : rs.entries[0]? with
  | none => exact first here
  | some e =>
    cases e with
    | none => simpa [spent] using (tracks.vacant 0).mpr here
    | some w => exact absent w here

theorem lookup_of_mem (apart : (standing.map Prod.fst).Nodup) (stands : (i, v) ∈ standing) :
    standing.lookup i = some v := by
  induction standing with
  | nil => cases stands
  | cons r rest ih =>
    obtain ⟨absent, apart⟩ := List.nodup_cons.mp apart
    rcases List.mem_cons.mp stands with rfl | later
    · simp
    · have other : i ≠ r.1 := fun same => absent (same ▸ List.mem_map_of_mem (f := Prod.fst) later)
      rw [List.lookup_cons, beq_eq_false_iff_ne.mpr other]
      exact ih apart later

theorem lookup_of_spent (spent : i ∉ standing.map Prod.fst) : standing.lookup i = none := by
  refine List.lookup_eq_none_iff.mpr fun r member => ?_
  exact bne_iff_ne.mpr fun same => spent (same ▸ List.mem_map_of_mem (f := Prod.fst) member)

theorem spent_of_lookup (nothing : standing.lookup i = none) : i ∉ standing.map Prod.fst := by
  intro member
  obtain ⟨r, stands, rfl⟩ := List.mem_map.mp member
  simpa using List.lookup_eq_none_iff.mp nothing r stands

/-- What an id gives back is the value of the registration that stands under it. -/
theorem gives_back (tracks : rs.Tracks standing) (i : UInt32) :
    (rs.unregister i).1 = standing.lookup i := by
  rcases spent_or_kept rs i with spent | ⟨v, kept⟩
  · rw [unregister_of_spent spent, lookup_of_spent (tracks.spent_iff.mp spent)]
  · rw [unregister_of_kept kept, lookup_of_mem tracks.apart ((tracks.entry i v).mpr kept)]

theorem filter_of_spent (spent : i ∉ standing.map Prod.fst) :
    standing.filter (·.1 ≠ i) = standing := by
  refine List.filter_eq_self.mpr fun r member => ?_
  have other : r.1 ≠ i := fun same => spent (same ▸ List.mem_map_of_mem (f := Prod.fst) member)
  simpa using other

/-- With ids apart, a registration is gone when those of its id are. -/
theorem perm_cons_filter (apart : (standing.map Prod.fst).Nodup) (stands : (i, v) ∈ standing) :
    standing.Perm ((i, v) :: standing.filter (·.1 ≠ i)) := by
  induction standing with
  | nil => cases stands
  | cons r rest ih =>
    obtain ⟨absent, apart⟩ := List.nodup_cons.mp apart
    rcases List.mem_cons.mp stands with rfl | later
    · rw [List.filter_cons_of_neg (by simp), filter_of_spent absent]
    · have other : r.1 ≠ i := fun same => absent (same ▸ List.mem_map_of_mem (f := Prod.fst) later)
      rw [List.filter_cons_of_pos (by simpa using other)]
      exact ((ih apart later).cons r).trans (.swap ..)

theorem unregister (tracks : rs.Tracks standing) (i : UInt32) :
    (rs.unregister i).2.Tracks (standing.filter (·.1 ≠ i)) := by
  rcases spent_or_kept rs i with spent | ⟨v, kept⟩
  · rwa [unregister_of_spent spent, filter_of_spent (tracks.spent_iff.mp spent)]
  · have others := perm_cons_filter tracks.apart ((tracks.entry i v).mpr kept)
    refine ⟨tracks.toTidy.unregister i, ?_, tracks.apart.sublist (List.filter_sublist.map _),
      fun i' w => ?_, ?_⟩
    · rw [unregister_of_kept kept]
      exact Nat.le_trans (Nat.le_of_eq (Array.size_setIfInBounds ..)) tracks.room
    · rw [entries_unregister, List.mem_filter, tracks.entry]
      by_cases same : i' = i
      · subst same
        simp
      · rw [if_neg (mt UInt32.toNat.inj same)]
        simp [same]
    · have cleared := values_clear rs.entries.toList (v := v) (by simpa using kept)
      rw [unregister_of_kept kept]
      simp only [Roots.values, Array.toList_setIfInBounds]
      exact (cleared.symm.trans (tracks.values.trans (others.map Prod.snd))).cons_inv

end Tracks
end Roots
end ObjectRuntime
