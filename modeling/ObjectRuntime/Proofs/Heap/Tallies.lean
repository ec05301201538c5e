import ObjectRuntime.Proofs.Heap.Identity
import ObjectRuntime.Proofs.Heap.Registration

/-! Tallies. The population, the number of pinned cells and the two free lists are kept beside the
slots and the registered roots. Whatever is asked of a heap, they say what is there: no cell is
placed over another, and nothing is counted down below zero. -/

namespace ObjectRuntime

/-- The cell in the slot is exempt from collection. -/
def Slot.keeps (s : Slot) : Bool := s.cell.isSome && s.pinned

namespace Heap

/-- What is asked of a heap. Writing a cell keeps its kind. -/
inductive Request
  | alloc (c : Cell) (pinned : Bool)
  | collect (fs : Frames) (values : List Val)
  | root (v : Val)
  | unroot (id : UInt32)
  | write (r : Ref) (f : Cell → Cell) (kind : ∀ c, (f c).kind = c.kind)
  | setRatio (ratio : Ratio)

/-- What a heap does when it is asked. -/
def Request.op (h : Heap) : Request → Op
  | alloc c pinned => .alloc c pinned
  | collect fs values => .collect fs values
  | root v => .setRoots (h.roots.register v).2
  | unroot id => .setRoots (h.roots.unregister id).2
  | write r f kind => .write r f kind
  | setRatio ratio => .setRatio ratio

def serve (h : Heap) (request : Request) : Heap := (request.op h).run h

def served (h : Heap) (requests : List Request) : Heap := requests.foldl serve h

/-- The counters and the free lists say what the slots and the registered roots are. -/
structure Tallied (h : Heap) : Prop extends h.WellFormed where
  pinned_eq : h.pinned = h.slots.countP Slot.keeps
  roots : h.roots.Tidy

variable {h : Heap}

/-! ## Counting slots -/

/-- An allocation takes an empty slot or a new one. -/
theorem countP_alloc (wf : h.WellFormed) (c : Cell) (pinned : Bool) {p : Slot → Bool}
    (empty : ∀ s, s.cell = none → p s = false) :
    (h.alloc c pinned).2.slots.countP p =
      h.slots.countP p + if p ⟨(h.alloc c pinned).1.generation, some c, pinned⟩ then 1 else 0 := by
  cases spent : h.free with
  | cons i free =>
    obtain ⟨s, slot, vacant⟩ := (wf.mem_free i).mp (by simp [spent])
    obtain ⟨bound, at_i⟩ := Array.getElem?_eq_some_iff.mp slot
    rw [alloc_of_cons spent]
    simp only [Array.setIfInBounds, bound, dif_pos, Array.countP_set bound, at_i, empty s vacant]
    simp
  | nil =>
    rw [alloc_of_nil spent]
    simp only [Array.countP_push]

theorem pinned_alloc (h : Heap) (c : Cell) (pinned : Bool) :
    (h.alloc c pinned).2.pinned = h.pinned + if pinned then 1 else 0 := by
  cases spent : h.free with
  | cons i free => rw [alloc_of_cons spent]
  | nil => rw [alloc_of_nil spent]

/-- A pinned cell is no garbage. -/
theorem keeps_collect (fs : Frames) (h : Heap) (values : List Val) :
    (h.collect fs values).slots.countP Slot.keeps = h.slots.countP Slot.keeps := by
  refine countP_congr fun i => ?_
  rw [slot_collect]
  cases slot : h.slots[i]? with
  | none => rfl
  | some s =>
    simp only [Option.map_some, garbage_eq slot]
    cases kept : s.pinned with
    | true => simp
    | false =>
      split
      · simp [Slot.keeps, kept]
      · rfl

theorem keeps_modify (h : Heap) (r : Ref) (f : Cell → Cell) :
    (h.modify r f).slots.countP Slot.keeps = h.slots.countP Slot.keeps := by
  refine countP_congr fun i => ?_
  rw [slots_modify, Option.map_map]
  refine congrArg (fun q => (h.slots[i]?).map q) (funext fun s => ?_)
  simp only [Function.comp_apply]
  split <;> simp [Slot.keeps]

/-! ## Runs -/

theorem tallied_empty (threshold : Nat) (ratio : Ratio) : (empty threshold ratio).Tallied where
  toWellFormed := wellFormed_empty threshold ratio
  pinned_eq := rfl
  roots := .empty

theorem pinned_serve (tallied : h.Tallied) (request : Request) :
    (h.serve request).pinned = (h.serve request).slots.countP Slot.keeps := by
  have counted := tallied.pinned_eq
  cases request with
  | alloc c pinned =>
    have occupied := countP_alloc tallied.toWellFormed c pinned (p := Slot.keeps) fun s vacant => by
      simp [Slot.keeps, vacant]
    simp only [serve, Request.op, Op.run, pinned_alloc, occupied, counted, Slot.keeps,
      Option.isSome_some, Bool.true_and]
  | collect fs values =>
    simp only [serve, Request.op, Op.run, keeps_collect]
    simpa [collect, sweep_eq, swept] using counted
  | root v => exact counted
  | unroot id => exact counted
  | write r f kind =>
    simp only [serve, Request.op, Op.run, keeps_modify]
    exact counted
  | setRatio ratio => exact counted

theorem tidy_serve (tallied : h.Tallied) (request : Request) : (h.serve request).roots.Tidy := by
  have tidy := tallied.roots
  cases request with
  | alloc c pinned => exact (roots_alloc h c pinned).symm ▸ tidy
  | collect fs values => exact (roots_collect fs h values).symm ▸ tidy
  | root v => exact tidy.register v
  | unroot id => exact tidy.unregister id
  | write r f kind => exact tidy
  | setRatio ratio => exact tidy

theorem tallied_serve (tallied : h.Tallied) (request : Request) : (h.serve request).Tallied where
  toWellFormed := wellFormed_run tallied.toWellFormed (request.op h)
  pinned_eq := pinned_serve tallied request
  roots := tidy_serve tallied request

theorem tallied_served (tallied : h.Tallied) (requests : List Request) :
    (h.served requests).Tallied := by
  induction requests generalizing h with
  | nil => exact tallied
  | cons request rest ih => exact ih (tallied_serve tallied request)

/-! ## What the tallies give -/

/-- The new cell is in a slot that was empty or was not there, and the other slots stay. -/
theorem alloc_elsewhere (wf : h.WellFormed) (c : Cell) (pinned : Bool) :
    h.cellAt? (h.alloc c pinned).1.index = none ∧
      (h.alloc c pinned).2.cell? (h.alloc c pinned).1 = some c ∧
      ∀ i : Nat, i ≠ (h.alloc c pinned).1.index →
        (h.alloc c pinned).2.slots[i]? = h.slots[i]? := by
  refine ⟨?_, cell?_handle wf c pinned, fun i apart => ?_⟩
  · cases slot : h.slots[(h.alloc c pinned).1.index]? with
    | none => simp [cellAt?, slot]
    | some s =>
      have dead := alloc_dead wf c pinned ⟨(h.alloc c pinned).1.index, s.generation⟩ rfl
      rw [cell?_of_slot slot] at dead
      simp [cellAt?, slot, dead]
  · cases spent : h.free with
    | cons j free =>
      rw [alloc_of_cons spent] at apart ⊢
      exact Array.getElem?_setIfInBounds_ne (Ne.symm apart)
    | nil =>
      rw [alloc_of_nil spent] at apart ⊢
      simp only [Array.getElem?_push, if_neg apart]

/-- What a collection counts as freed are the slots that it empties. -/
theorem lastFreed_collect (fs : Frames) (h : Heap) (values : List Val) :
    (h.collect fs values).lastFreed =
      (List.range h.slots.size).countP fun i => h.freesBy i (.collect fs values) := by
  simp only [freesBy_collect, collect, sweep_eq, swept, freed, List.countP_eq_length_filter]

theorem count_eq (tallied : h.Tallied) : h.roots.count = h.roots.values.length := by
  rw [Roots.count, tallied.roots.size, Nat.add_sub_cancel_left]

/-- Whatever is asked of a heap, the free lists hold the empty slots and the spent entries, each
once, and the population and the number of pinned cells are those of the slots. So an allocation
places no cell over another, a collection frees no more cells than were counted, and no more entries
are spent than there are. -/
theorem bookkeeping_matches_slots (threshold : Nat) (ratio : Ratio) (requests : List Request) :
    let h := (empty threshold ratio).served requests
    (h.free.Nodup ∧ ∀ i, i ∈ h.free ↔ ∃ s, h.slots[i]? = some s ∧ s.cell = none) ∧
    (h.live = h.slots.countP (·.cell.isSome) ∧ h.pinned = h.slots.countP Slot.keeps) ∧
    (h.roots.free.Nodup ∧ ∀ i, i ∈ h.roots.free ↔ h.roots.entries[i]? = some none) ∧
    (∀ c pinned, let made := h.alloc c pinned
      h.cellAt? made.1.index = none ∧ made.2.cell? made.1 = some c ∧
        ∀ i : Nat, i ≠ made.1.index → made.2.slots[i]? = h.slots[i]?) ∧
    (∀ fs values, let after := h.collect fs values
      after.lastFreed = (List.range h.slots.size).countP (h.freesBy · (.collect fs values)) ∧
        after.lastFreed ≤ h.live ∧ after.live = h.live - after.lastFreed) ∧
    h.roots.free.length ≤ h.roots.entries.size ∧ h.roots.count = h.roots.values.length := by
  intro h
  have tallied : h.Tallied := tallied_served (tallied_empty threshold ratio) requests
  have wf := tallied.toWellFormed
  have tidy := tallied.roots
  refine ⟨⟨wf.free_nodup, wf.mem_free⟩, ⟨wf.live_eq, tallied.pinned_eq⟩, ⟨tidy.once, tidy.vacant⟩,
    alloc_elsewhere wf, fun fs values => ?_, ?_, count_eq tallied⟩
  · have total := live_collect wf fs values
    exact ⟨lastFreed_collect fs h values, by omega, by omega⟩
  · have size := tidy.size
    omega

/-- Two cells of which a collection frees one, a root that is spent and used again, and a pinned cell
in the slot that was freed. -/
def recycling : List Request :=
  [.alloc (.string ⟨0, 0⟩ "kept") false, .alloc (.array ⟨0, 0⟩ #[]) false, .root (.string ⟨0, 0⟩),
    .root (.int 1), .unroot 1, .collect ⟨#[]⟩ [], .root (.int 2),
    .alloc (.string ⟨0, 0⟩ "pinned") true]

example : ((empty 8 .standard).served recycling).stats =
    { live := 2, pinned := 1, roots := 2, collections := 1, lastFreed := 1, threshold := 8 } := by
  decide +kernel

end Heap
end ObjectRuntime
