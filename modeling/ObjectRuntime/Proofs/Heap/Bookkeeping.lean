import ObjectRuntime.Heap

/-! Slots and bookkeeping. A handle names at most one cell, the free list names the
empty slots, and allocation, writing and freeing act on one slot each. -/

namespace ObjectRuntime.Heap

/-- The free list holds the empty slots, each once, and the population counts the others. -/
structure WellFormed (h : Heap) : Prop where
  free_nodup : h.free.Nodup
  mem_free (i : Nat) : i ∈ h.free ↔ ∃ s, h.slots[i]? = some s ∧ s.cell = none
  live_eq : h.live = h.slots.countP (·.cell.isSome)

/-- An immediate, or a handle that names a cell of its own kind. -/
def Holds (h : Heap) : Val → Prop
  | .cell k r => ∃ c, h.cell? r = some c ∧ c.kind = k
  | _ => True

instance (h : Heap) (v : Val) : Decidable (h.Holds v) :=
  match v with
  | .cell k r =>
    match found : h.cell? r with
    | some c =>
      if same : c.kind = k then isTrue ⟨c, found, same⟩
      else isFalse fun ⟨_, found', same'⟩ => same (Option.some.inj (found.symm.trans found') ▸ same')
    | none => isFalse fun ⟨_, found', _⟩ => nomatch found.symm.trans found'
  | .nil | .bool _ | .int _ | .sym _ => isTrue trivial

/-! ## Reading a slot -/

theorem cell?_eq_some_iff (h : Heap) (r : Ref) (c : Cell) :
    h.cell? r = some c ↔
      ∃ s, h.slots[r.index]? = some s ∧ s.generation = r.generation ∧ s.cell = some c := by
  unfold cell?
  cases h.slots[r.index]? with
  | none => simp
  | some s => by_cases same : s.generation = r.generation <;> simp [same]

theorem cell?_of_slot {h : Heap} {i : Nat} {s : Slot} (found : h.slots[i]? = some s) :
    h.cell? ⟨i, s.generation⟩ = s.cell := by
  simp [cell?, found]

theorem isLive_iff (h : Heap) (r : Ref) : h.isLive r ↔ ∃ c, h.cell? r = some c := by
  simp [isLive, Option.isSome_iff_exists]

theorem index_lt_of_cell {h : Heap} {r : Ref} {c : Cell} (found : h.cell? r = some c) :
    r.index < h.slots.size := by
  obtain ⟨s, slot, _⟩ := (cell?_eq_some_iff h r c).mp found
  exact (Array.getElem?_eq_some_iff.mp slot).1

theorem eq_of_index_eq {h : Heap} {r r' : Ref} (live : h.isLive r) (live' : h.isLive r')
    (same : r.index = r'.index) : r = r' := by
  obtain ⟨c, found⟩ := (isLive_iff h r).mp live
  obtain ⟨c', found'⟩ := (isLive_iff h r').mp live'
  obtain ⟨s, slot, generation, _⟩ := (cell?_eq_some_iff h r c).mp found
  obtain ⟨s', slot', generation', _⟩ := (cell?_eq_some_iff h r' c').mp found'
  rw [same, slot'] at slot
  cases slot
  cases r
  cases r'
  simp_all

theorem cell?_congr {h h' : Heap} (same : h'.slots = h.slots) (r : Ref) : h'.cell? r = h.cell? r := by
  simp [cell?, same]

theorem holds_congr {h h' : Heap} (same : h'.slots = h.slots) (v : Val) : h'.Holds v ↔ h.Holds v := by
  cases v <;> simp [Holds, cell?_congr same]

theorem holds_cell {h : Heap} {r : Ref} {c : Cell} (found : h.cell? r = some c) :
    h.Holds (.cell c.kind r) := ⟨c, found, rfl⟩

theorem isLive_of_holds {h : Heap} {k : Kind} {r : Ref} (held : h.Holds (.cell k r)) :
    h.isLive r := by
  obtain ⟨c, found, _⟩ := held
  exact (isLive_iff h r).mpr ⟨c, found⟩

/-- There are no more live cells than slots. -/
theorem length_le_of_isLive {h : Heap} {refs : List Ref} (nodup : refs.Nodup)
    (live : ∀ r ∈ refs, h.isLive r) : refs.length ≤ h.slots.size := by
  have distinct : (refs.map (·.index)).Nodup := by
    refine List.pairwise_map.mpr (nodup.imp_of_mem fun {a b} here there apart same => ?_)
    exact apart (eq_of_index_eq (live a here) (live b there) same)
  have inside : refs.map (·.index) ⊆ List.range h.slots.size := by
    intro i member
    obtain ⟨r, here, rfl⟩ := List.mem_map.mp member
    obtain ⟨c, found⟩ := (isLive_iff h r).mp (live r here)
    exact List.mem_range.mpr (index_lt_of_cell found)
  simpa using distinct.length_le_of_subset inside

theorem holds_of_isImmediate {h : Heap} {v : Val} (immediate : v.isImmediate = true) : h.Holds v := by
  cases v <;> simp_all [Val.isImmediate, Holds]

theorem countP_congr {h h' : Heap} {p : Slot → Bool}
    (same : ∀ i : Nat, (h'.slots[i]?).map p = (h.slots[i]?).map p) :
    h'.slots.countP p = h.slots.countP p := by
  have mapped : h'.slots.toList.map p = h.slots.toList.map p := by
    refine List.ext_getElem? fun i => ?_
    simpa only [List.getElem?_map, Array.getElem?_toList] using same i
  have counted := congrArg (List.countP id) mapped
  simpa only [List.countP_map, Function.id_comp, Array.countP_toList] using counted

/-! ## Writing a cell -/

theorem slots_modify (h : Heap) (r : Ref) (f : Cell → Cell) (i : Nat) :
    (h.modify r f).slots[i]? = (h.slots[i]?).map fun s =>
      if i = r.index ∧ s.generation = r.generation then { s with cell := s.cell.map f } else s := by
  simp only [modify, Array.getElem?_modify]
  by_cases here : r.index = i
  · subst here
    cases h.slots[r.index]? <;> simp
  · have elsewhere : ¬ i = r.index := fun same => here same.symm
    cases h.slots[i]? <;> simp [here, elsewhere]

theorem cell?_modify (h : Heap) (r r' : Ref) (f : Cell → Cell) :
    (h.modify r f).cell? r' = if r' = r then (h.cell? r).map f else h.cell? r' := by
  simp only [cell?, slots_modify]
  cases slot : h.slots[r'.index]? with
  | none =>
    by_cases same : r' = r
    · subst same
      simp [slot]
    · simp [same]
  | some s =>
    by_cases same : r' = r
    · subst same
      by_cases current : s.generation = r'.generation <;> simp [slot, current]
    · have apart : ¬ (r'.index = r.index ∧ r'.generation = r.generation) := by
        intro both
        apply same
        cases r
        cases r'
        simp_all
      by_cases current : s.generation = r'.generation
      · rw [← current] at apart
        simp only [Option.map_some, if_neg apart, same, if_false]
      · simp only [Option.map_some, same, if_false, current]
        split <;> simp

theorem isLive_modify (h : Heap) (r r' : Ref) (f : Cell → Cell) :
    (h.modify r f).isLive r' = h.isLive r' := by
  unfold isLive
  rw [cell?_modify]
  split
  next same => subst same; cases h.cell? r' <;> rfl
  next => rfl

theorem holds_modify {h : Heap} {r : Ref} {f : Cell → Cell} (kind : ∀ c, (f c).kind = c.kind)
    (v : Val) : (h.modify r f).Holds v ↔ h.Holds v := by
  cases v with
  | cell k r' =>
    simp only [Holds, cell?_modify]
    split
    next same =>
      subst same
      cases h.cell? r' <;> simp [kind]
    next => rfl
  | _ => simp [Holds]

theorem wellFormed_modify {h : Heap} (wf : h.WellFormed) (r : Ref) (f : Cell → Cell) :
    (h.modify r f).WellFormed where
  free_nodup := wf.free_nodup
  mem_free i := by
    rw [slots_modify]
    refine (wf.mem_free i).trans ?_
    cases h.slots[i]? with
    | none => simp
    | some s => by_cases here : i = r.index ∧ s.generation = r.generation <;> simp [here]
  live_eq := by
    refine wf.live_eq.trans (countP_congr fun i => ?_).symm
    rw [slots_modify]
    cases h.slots[i]? with
    | none => rfl
    | some s => by_cases here : i = r.index ∧ s.generation = r.generation <;> simp [here]

/-! ## Allocation -/

theorem alloc_of_cons {h : Heap} {i : Nat} {free : List Nat} (spent : h.free = i :: free)
    (c : Cell) (pinned : Bool) :
    h.alloc c pinned = (⟨i, (h.slots.getD i default).generation⟩, { h with
      slots := h.slots.setIfInBounds i ⟨(h.slots.getD i default).generation, some c, pinned⟩
      free
      live := h.live + 1
      pinned := h.pinned + if pinned then 1 else 0 }) := by
  simp only [alloc, spent]

theorem alloc_of_nil {h : Heap} (spent : h.free = []) (c : Cell) (pinned : Bool) :
    h.alloc c pinned = (⟨h.slots.size, 0⟩, { h with
      slots := h.slots.push ⟨0, some c, pinned⟩
      live := h.live + 1
      pinned := h.pinned + if pinned then 1 else 0 }) := by
  simp only [alloc, spent]

theorem alloc_dead {h : Heap} (wf : h.WellFormed) (c : Cell) (pinned : Bool) (r : Ref)
    (here : r.index = (h.alloc c pinned).1.index) : h.cell? r = none := by
  cases spent : h.free with
  | cons i free =>
    obtain ⟨s, slot, empty⟩ := (wf.mem_free i).mp (by simp [spent])
    rw [alloc_of_cons spent] at here
    simp only at here
    simp [cell?, here, slot, empty]
  | nil =>
    rw [alloc_of_nil spent] at here
    simp only at here
    simp [cell?, here]

theorem cell?_alloc {h : Heap} (wf : h.WellFormed) (c : Cell) (pinned : Bool) (r : Ref) :
    (h.alloc c pinned).2.cell? r = if r = (h.alloc c pinned).1 then some c else h.cell? r := by
  have dead := alloc_dead wf c pinned r
  cases spent : h.free with
  | cons i free =>
    obtain ⟨s, slot, empty⟩ := (wf.mem_free i).mp (by simp [spent])
    have bound := (Array.getElem?_eq_some_iff.mp slot).1
    rw [alloc_of_cons spent] at dead ⊢
    simp only at dead ⊢
    by_cases here : r.index = i
    · obtain ⟨index, generation⟩ := r
      subst here
      rw [dead rfl]
      by_cases current : (h.slots.getD index default).generation = generation
      · simp [cell?, bound, ← current]
      · simp [cell?, bound, Ne.symm current, -Array.getD_eq_getD_getElem?, current]
    · have apart : r ≠ ⟨i, (h.slots.getD i default).generation⟩ := fun same => here (by rw [same])
      simp only [cell?, apart, if_false, Array.getElem?_setIfInBounds, Ne.symm here]
  | nil =>
    rw [alloc_of_nil spent] at dead ⊢
    simp only at dead ⊢
    by_cases here : r.index = h.slots.size
    · obtain ⟨index, generation⟩ := r
      subst here
      rw [dead rfl]
      simp [cell?, eq_comm]
    · have apart : r ≠ ⟨h.slots.size, 0⟩ := fun same => here (by rw [same])
      simp only [cell?, apart, if_false, Array.getElem?_push, here]

theorem slot_alloc_of_occupied {h : Heap} (wf : h.WellFormed) (c : Cell) (pinned : Bool) {i : Nat}
    {s : Slot} (slot : h.slots[i]? = some s) (occupied : s.cell.isSome) :
    (h.alloc c pinned).2.slots[i]? = some s := by
  have bound := (Array.getElem?_eq_some_iff.mp slot).1
  cases spent : h.free with
  | cons j free =>
    obtain ⟨s', slot', empty⟩ := (wf.mem_free j).mp (by simp [spent])
    have apart : j ≠ i := by
      rintro rfl
      rw [slot] at slot'
      cases slot'
      simp [empty] at occupied
    rw [alloc_of_cons spent]
    simpa [apart] using slot
  | nil =>
    rw [alloc_of_nil spent]
    simpa [Array.getElem?_push, Nat.ne_of_lt bound] using slot

theorem slot_alloc {h : Heap} {c : Cell} {pinned : Bool} {i : Nat} {s : Slot}
    (slot : (h.alloc c pinned).2.slots[i]? = some s) : h.slots[i]? = some s ∨
      i = (h.alloc c pinned).1.index ∧ s = ⟨(h.alloc c pinned).1.generation, some c, pinned⟩ := by
  cases spent : h.free with
  | cons j free =>
    rw [alloc_of_cons spent] at slot ⊢
    simp only [Array.getElem?_setIfInBounds] at slot
    by_cases here : j = i
    · by_cases bound : j < h.slots.size
      · rw [if_pos here, if_pos bound] at slot
        exact .inr ⟨here.symm, (Option.some.inj slot).symm⟩
      · simp [here, here ▸ bound] at slot
    · rw [if_neg here] at slot
      exact .inl slot
  | nil =>
    rw [alloc_of_nil spent] at slot ⊢
    simp only [Array.getElem?_push] at slot
    split at slot
    next same => exact .inr ⟨same, (Option.some.inj slot).symm⟩
    next => exact .inl slot

/-- A slot stays as it is, or the new cell is in it under its generation. -/
theorem slot_alloc_later {h : Heap} (c : Cell) (pinned : Bool) {i : Nat} {s : Slot}
    (slot : h.slots[i]? = some s) : (h.alloc c pinned).2.slots[i]? = some s ∨
      (h.alloc c pinned).1 = ⟨i, s.generation⟩ ∧
        (h.alloc c pinned).2.slots[i]? = some ⟨s.generation, some c, pinned⟩ := by
  have bound := (Array.getElem?_eq_some_iff.mp slot).1
  cases spent : h.free with
  | cons j free =>
    rw [alloc_of_cons spent]
    by_cases here : j = i
    · subst here
      have same : h.slots.getD j default = s := by simp [slot]
      rw [same]
      exact .inr ⟨rfl, by simp [bound]⟩
    · exact .inl (by simpa [here] using slot)
  | nil =>
    rw [alloc_of_nil spent]
    exact .inl (by simpa [Array.getElem?_push, Nat.ne_of_lt bound] using slot)

theorem roots_alloc (h : Heap) (c : Cell) (pinned : Bool) :
    (h.alloc c pinned).2.roots = h.roots := by
  cases spent : h.free with
  | cons i free => rw [alloc_of_cons spent]
  | nil => rw [alloc_of_nil spent]

theorem wellFormed_alloc {h : Heap} (wf : h.WellFormed) (c : Cell) (pinned : Bool) :
    (h.alloc c pinned).2.WellFormed := by
  cases spent : h.free with
  | cons i free =>
    obtain ⟨s, slot, empty⟩ := (wf.mem_free i).mp (by simp [spent])
    obtain ⟨bound, at_i⟩ := Array.getElem?_eq_some_iff.mp slot
    have nodup := wf.free_nodup
    rw [spent, List.nodup_cons] at nodup
    rw [alloc_of_cons spent]
    refine ⟨nodup.2, fun j => ?_, ?_⟩
    · have member := wf.mem_free j
      rw [spent, List.mem_cons] at member
      simp only [Array.getElem?_setIfInBounds]
      by_cases here : i = j
      · subst here
        simp [bound, nodup.1]
      · simp only [here, if_false]
        rw [← member]
        simp [Ne.symm here]
    · simp only [Array.setIfInBounds, bound, dif_pos, Array.countP_set bound, at_i, empty]
      simp [wf.live_eq]
  | nil =>
    rw [alloc_of_nil spent]
    refine ⟨by simp [spent], fun j => ?_, ?_⟩
    · have member := wf.mem_free j
      rw [spent] at member
      simp only [spent, Array.getElem?_push]
      by_cases last : j = h.slots.size
      · simp [last]
      · simpa [last] using member
    · simp [wf.live_eq]

theorem holds_alloc {h : Heap} (wf : h.WellFormed) (c : Cell) (pinned : Bool) {v : Val}
    (held : h.Holds v) : (h.alloc c pinned).2.Holds v := by
  cases v with
  | cell k r =>
    obtain ⟨c', found, kind⟩ := held
    refine ⟨c', ?_, kind⟩
    rw [cell?_alloc wf, if_neg, found]
    intro same
    have dead := alloc_dead wf c pinned r (by rw [same])
    simp [found] at dead
  | _ => trivial

end ObjectRuntime.Heap
