import ObjectRuntime.Proofs.Heap.Marking

/-! Sweeping and collection. A sweep frees the garbage in one pass over the slots, so
the heap after it is given slot by slot. A collection therefore keeps the cells that are
reached, as they are, and frees every other one. -/

namespace ObjectRuntime.Heap

def garbage (marked : Array Bool) (h : Heap) (i : Nat) : Bool :=
  match h.slots[i]? with
  | some s => s.cell.isSome && !s.pinned && !marked.getD i false
  | none => false

def freed (marked : Array Bool) (h : Heap) (n : Nat) : List Nat :=
  (List.range n).filter (garbage marked h)

def swept (marked : Array Bool) (h : Heap) (n : Nat) : Heap :=
  { h with
    slots := h.slots.mapIdx fun i s =>
      if i < n ∧ garbage marked h i then { generation := s.generation + 1 } else s
    free := (freed marked h n).reverse ++ h.free
    live := h.live - (freed marked h n).length
    lastFreed := (freed marked h n).length }

theorem slot_swept (marked : Array Bool) (h : Heap) (n i : Nat) :
    (swept marked h n).slots[i]? = (h.slots[i]?).map fun s =>
      if i < n ∧ garbage marked h i then { generation := s.generation + 1 } else s := by
  simp [swept, Array.getElem?_mapIdx]

theorem garbage_eq {marked : Array Bool} {h : Heap} {n : Nat} {s : Slot}
    (slot : h.slots[n]? = some s) :
    garbage marked h n = (s.cell.isSome && !s.pinned && !marked.getD n false) := by
  simp only [garbage, slot]

theorem freed_succ (marked : Array Bool) (h : Heap) (n : Nat) :
    freed marked h (n + 1) = freed marked h n ++ if garbage marked h n then [n] else [] := by
  simp [freed, List.range_succ, List.filter_append, List.filter_cons]

private theorem swept_succ_of_not {marked : Array Bool} {h : Heap} {n : Nat}
    (alive : garbage marked h n = false) : swept marked h (n + 1) = swept marked h n := by
  have same (i : Nat) : (i < n + 1 ∧ garbage marked h i) ↔ (i < n ∧ garbage marked h i) := by
    constructor
    · rintro ⟨bound, dead⟩
      rcases Nat.lt_succ_iff_lt_or_eq.mp bound with below | rfl
      · exact ⟨below, dead⟩
      · simp [alive] at dead
    · rintro ⟨bound, dead⟩
      exact ⟨by omega, dead⟩
  simp only [swept, freed_succ, alive, same]
  simp

private theorem swept_succ_of_garbage {marked : Array Bool} {h : Heap} {n : Nat} {s : Slot}
    (slot : h.slots[n]? = some s) (dead : garbage marked h n = true) :
    swept marked h (n + 1) =
      { (swept marked h n).freeSlot n s with lastFreed := (swept marked h n).lastFreed + 1 } := by
  have slots : (swept marked h (n + 1)).slots =
      (swept marked h n).slots.setIfInBounds n { generation := s.generation + 1 } := by
    apply Array.ext_getElem?
    intro i
    rw [slot_swept, Array.getElem?_setIfInBounds, slot_swept]
    by_cases here : n = i
    · subst here
      obtain ⟨bound, rfl⟩ := Array.getElem?_eq_some_iff.mp slot
      simp [dead, swept, bound]
    · have apart : i < n + 1 ↔ i < n := by omega
      simp [here, apart]
  simp only [freeSlot]
  rw [← slots]
  simp [swept, freed_succ, dead]
  omega

theorem sweepSlot_swept (marked : Array Bool) (h : Heap) (n : Nat) :
    sweepSlot marked (swept marked h n) n = swept marked h (n + 1) := by
  have here := slot_swept marked h n n
  unfold sweepSlot
  rw [here]
  cases slot : h.slots[n]? with
  | none =>
    have alive : garbage marked h n = false := by simp [garbage, slot]
    exact (swept_succ_of_not alive).symm
  | some s =>
    simp only [Option.map_some, Nat.lt_irrefl, false_and, if_false]
    rw [← garbage_eq slot]
    cases dead : garbage marked h n with
    | true => exact (swept_succ_of_garbage slot dead).symm
    | false => exact (swept_succ_of_not dead).symm

theorem sweep_eq (marked : Array Bool) (h : Heap) :
    sweep marked h = swept marked h h.slots.size := by
  have run (n : Nat) : (List.range n).foldl (sweepSlot marked) { h with lastFreed := 0 } =
      swept marked h n := by
    induction n with
    | zero =>
      have untouched : h.slots.mapIdx (fun _ s => s) = h.slots := by
        apply Array.ext_getElem?
        intro i
        simp
      simp [swept, freed, untouched]
    | succ n ih => rw [List.range_succ, List.foldl_append, ih]; exact sweepSlot_swept marked h n
  exact run h.slots.size

/-! ## Bookkeeping of a sweep -/

theorem wellFormed_freeSlot {h : Heap} (wf : h.WellFormed) {i : Nat} {s : Slot}
    (slot : h.slots[i]? = some s) (occupied : s.cell.isSome) :
    (h.freeSlot i s).WellFormed ∧ (h.freeSlot i s).live + 1 = h.live := by
  obtain ⟨bound, at_i⟩ := Array.getElem?_eq_some_iff.mp slot
  have fresh : i ∉ h.free := by
    intro member
    obtain ⟨s', slot', empty⟩ := (wf.mem_free i).mp member
    rw [slot] at slot'
    cases slot'
    simp [empty] at occupied
  have positive : 0 < h.live := by
    rw [wf.live_eq, Array.countP_pos_iff]
    exact ⟨s, at_i ▸ Array.getElem_mem bound, occupied⟩
  refine ⟨⟨List.nodup_cons.mpr ⟨fresh, wf.free_nodup⟩, fun j => ?_, ?_⟩, ?_⟩
  · simp only [freeSlot, List.mem_cons, Array.getElem?_setIfInBounds]
    by_cases here : i = j
    · subst here
      simp [bound]
    · simp only [here, if_false, Ne.symm here, false_or]
      exact wf.mem_free j
  · simp only [freeSlot, Array.setIfInBounds, bound, dif_pos, Array.countP_set bound, at_i, occupied]
    simp [wf.live_eq]
  · simp only [freeSlot]
    omega

theorem wellFormed_swept {h : Heap} (wf : h.WellFormed) (marked : Array Bool) (n : Nat) :
    (swept marked h n).WellFormed ∧ (swept marked h n).live + (freed marked h n).length = h.live := by
  induction n with
  | zero =>
    have untouched := slot_swept marked h 0
    simp only [Nat.not_lt_zero, false_and, if_false, Option.map_id_fun', id] at untouched
    have same : (swept marked h 0).slots = h.slots := Array.ext_getElem? fun i => untouched i
    refine ⟨⟨?_, ?_, ?_⟩, ?_⟩
    · simpa [swept, freed] using wf.free_nodup
    · rw [same]
      simpa [swept, freed] using wf.mem_free
    · rw [same]
      simpa [swept, freed] using wf.live_eq
    · simp [swept, freed]
  | succ n ih =>
    obtain ⟨wf', total⟩ := ih
    cases dead : garbage marked h n with
    | false =>
      rw [swept_succ_of_not dead]
      exact ⟨wf', by simpa [freed_succ, dead] using total⟩
    | true =>
      cases slot : h.slots[n]? with
      | none => simp [garbage, slot] at dead
      | some s =>
        have occupied : s.cell.isSome := by
          rw [garbage_eq slot] at dead
          simp only [Bool.and_eq_true] at dead
          exact dead.1.1
        have here := slot_swept marked h n n
        simp only [slot, Option.map_some, Nat.lt_irrefl, false_and, if_false] at here
        obtain ⟨⟨nodup, member, count⟩, drop⟩ := wellFormed_freeSlot wf' here occupied
        rw [swept_succ_of_garbage slot dead]
        refine ⟨⟨nodup, member, count⟩, ?_⟩
        simp only [freed_succ, dead, if_true, List.length_append, List.length_singleton]
        omega

/-! ## Collection -/

theorem mem_pinnedValues (h : Heap) (v : Val) : v ∈ h.pinnedValues ↔
    ∃ i s c, h.slots[i]? = some s ∧ s.cell = some c ∧ s.pinned = true ∧
      v = .cell c.kind ⟨i, s.generation⟩ := by
  simp only [pinnedValues, List.mem_filterMap, Prod.exists, List.mk_mem_zipIdx_iff_getElem?,
    Array.getElem?_toList]
  constructor
  · rintro ⟨⟨generation, cell, pinned⟩, i, slot, named⟩
    cases cell with
    | none => simp at named
    | some c =>
      cases pinned with
      | false => simp at named
      | true => exact ⟨i, _, c, slot, rfl, rfl, (Option.some.inj named).symm⟩
  · rintro ⟨i, ⟨generation, cell, pinned⟩, c, slot, occupied, held, rfl⟩
    simp only at occupied held
    subst occupied held
    exact ⟨_, i, slot, rfl⟩

theorem garbage_iff (fs : Frames) {h : Heap} (values : List Val) {r : Ref} {c : Cell}
    (found : h.cell? r = some c) : garbage (mark fs h values) h r.index = true ↔
      ¬ ∃ k, Reached fs h (h.markStart values) (.cell k r) := by
  have live := (isLive_iff h r).mpr ⟨c, found⟩
  have marked := mark_iff fs h values live
  obtain ⟨s, slot, generation, occupied⟩ := (cell?_eq_some_iff h r c).mp found
  rw [← marked, garbage_eq slot]
  cases pinned : s.pinned with
  | false =>
    simp only [occupied, Option.isSome_some, Bool.not_false, Bool.and_true, Bool.true_and,
      Array.getD_eq_getD_getElem?]
    cases (mark fs h values)[r.index]? with
    | none => simp
    | some b => simp
  | true =>
    have member := (mem_pinnedValues h _).mpr ⟨_, s, c, slot, occupied, pinned, rfl⟩
    rw [generation] at member
    have reached : Reached fs h (h.markStart values) (.cell c.kind r) :=
      .start (List.mem_append.mpr (.inr member))
    simp [marked.mpr ⟨c.kind, reached⟩]

theorem slot_collect (fs : Frames) (h : Heap) (values : List Val) (i : Nat) :
    (h.collect fs values).slots[i]? = (h.slots[i]?).map fun s =>
      if garbage (mark fs h values) h i then { generation := s.generation + 1 } else s := by
  simp only [collect, sweep_eq, slot_swept]
  cases slot : h.slots[i]? with
  | none => rfl
  | some s =>
    have bound := (Array.getElem?_eq_some_iff.mp slot).1
    simp [bound]

/-- A collection keeps the cells that are reached, as they are, and no others. -/
theorem cell?_collect (fs : Frames) (h : Heap) (values : List Val) (r : Ref) (c : Cell) :
    (h.collect fs values).cell? r = some c ↔
      h.cell? r = some c ∧ ∃ k, Reached fs h (h.markStart values) (.cell k r) := by
  constructor
  · intro found
    obtain ⟨s', slot', generation, occupied⟩ := (cell?_eq_some_iff _ r c).mp found
    rw [slot_collect] at slot'
    obtain ⟨s, slot, rfl⟩ := Option.map_eq_some_iff.mp slot'
    cases dead : garbage (mark fs h values) h r.index with
    | true => simp [dead] at occupied
    | false =>
      simp only [dead, Bool.false_eq_true, if_false] at generation occupied
      have before := (cell?_eq_some_iff h r c).mpr ⟨s, slot, generation, occupied⟩
      refine ⟨before, Classical.byContradiction fun unreached => ?_⟩
      simp [(garbage_iff fs values before).mpr unreached] at dead
  · rintro ⟨found, reached⟩
    have alive : garbage (mark fs h values) h r.index = false := by
      rw [← Bool.not_eq_true, garbage_iff fs values found]
      exact fun unreached => unreached reached
    obtain ⟨s, slot, generation, occupied⟩ := (cell?_eq_some_iff h r c).mp found
    refine (cell?_eq_some_iff _ r c).mpr ⟨s, ?_, generation, occupied⟩
    rw [slot_collect, slot]
    simp [alive]

theorem wellFormed_collect {h : Heap} (wf : h.WellFormed) (fs : Frames) (values : List Val) :
    (h.collect fs values).WellFormed := by
  obtain ⟨wf', -⟩ := wellFormed_swept wf (mark fs h values) h.slots.size
  rw [← sweep_eq] at wf'
  exact ⟨wf'.free_nodup, wf'.mem_free, wf'.live_eq⟩

theorem live_collect {h : Heap} (wf : h.WellFormed) (fs : Frames) (values : List Val) :
    (h.collect fs values).live + (h.collect fs values).lastFreed = h.live := by
  obtain ⟨-, total⟩ := wellFormed_swept wf (mark fs h values) h.slots.size
  simpa [collect, sweep_eq, swept] using total

/-- A slot that is freed enters its next generation, and stands in the free list once. -/
theorem freed_collect {h : Heap} (wf : h.WellFormed) (fs : Frames) (values : List Val) {r : Ref}
    {c : Cell} (found : h.cell? r = some c) (dead : (h.collect fs values).cell? r = none) :
    (h.collect fs values).slots[r.index]? = some { generation := r.generation + 1 } ∧
      r.index ∉ h.free ∧ (h.collect fs values).free.count r.index = 1 := by
  obtain ⟨s, slot, generation, occupied⟩ := (cell?_eq_some_iff h r c).mp found
  have unreached : ¬ ∃ k, Reached fs h (h.markStart values) (.cell k r) := by
    intro reached
    simp [(cell?_collect fs h values r c).mpr ⟨found, reached⟩] at dead
  have swept := slot_collect fs h values r.index
  simp only [slot, Option.map_some, (garbage_iff fs values found).mpr unreached, if_true,
    generation] at swept
  have wf' := wellFormed_collect wf fs values
  refine ⟨swept, ?_, ?_⟩
  · intro member
    obtain ⟨s', slot', empty⟩ := (wf.mem_free r.index).mp member
    rw [slot] at slot'
    cases slot'
    simp [empty] at occupied
  · have member := (wf'.mem_free r.index).mpr ⟨_, swept, rfl⟩
    rw [List.Nodup.count wf'.free_nodup, if_pos member]

theorem roots_collect (fs : Frames) (h : Heap) (values : List Val) :
    (h.collect fs values).roots = h.roots := by
  simp [collect, sweep_eq, swept]

end ObjectRuntime.Heap
