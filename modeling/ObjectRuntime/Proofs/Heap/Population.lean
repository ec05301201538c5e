import Mathlib.Data.List.Sigma
import ObjectRuntime.Proofs.Heap.Bookkeeping

/-! The population. It counts the handles that name a cell, so heaps in which the same handles do
have the same population. -/

namespace ObjectRuntime.Heap

variable {h h' : Heap}

/-- The handles that name a cell, in the order of their slots. -/
def named (h : Heap) : List Ref :=
  h.slots.toList.zipIdx.filterMap fun (s, i) =>
    if s.cell.isSome then some ⟨i, s.generation⟩ else none

theorem mem_named (h : Heap) (r : Ref) : r ∈ h.named ↔ h.isLive r := by
  simp only [named, List.mem_filterMap, isLive_iff, cell?_eq_some_iff]
  constructor
  · rintro ⟨⟨s, i⟩, slot, same⟩
    rw [List.mk_mem_zipIdx_iff_getElem?, Array.getElem?_toList] at slot
    by_cases occupied : s.cell.isSome
    · rw [if_pos occupied] at same
      cases same
      obtain ⟨c, found⟩ := Option.isSome_iff_exists.mp occupied
      exact ⟨c, s, slot, rfl, found⟩
    · rw [if_neg occupied] at same
      cases same
  · rintro ⟨c, s, slot, generation, found⟩
    refine ⟨(s, r.index), ?_, ?_⟩
    · rw [List.mk_mem_zipIdx_iff_getElem?, Array.getElem?_toList]
      exact slot
    · rw [if_pos (by simp [found]), generation]

theorem nodup_named (h : Heap) : h.named.Nodup := by
  have apart := List.pairwise_map.mp (List.nodup_zipIdx_map_snd h.slots.toList)
  refine List.Pairwise.filterMap _ (fun a a' differ r named r' named' same => differ ?_) apart
  have index (a : Slot × Nat) (r : Ref)
      (named : (if a.1.cell.isSome then some ⟨a.2, a.1.generation⟩ else none) = some r) :
      a.2 = r.index := by
    split at named
    · cases named
      rfl
    · cases named
  rw [index a r named, index a' r' named', same]

theorem length_named (h : Heap) : h.named.length = h.slots.countP (·.cell.isSome) := by
  have counted (a : Slot × Nat) :
      (if a.1.cell.isSome then some (⟨a.2, a.1.generation⟩ : Ref) else none).isSome =
        a.1.cell.isSome := by
    cases a.1.cell.isSome <;> rfl
  conv_rhs => rw [← Array.countP_toList, ← List.zipIdx_map_fst 0 h.slots.toList, List.countP_map]
  rw [named, List.length_filterMap_eq_countP]
  simp only [counted]
  rfl

theorem live_congr (wf : h.WellFormed) (wf' : h'.WellFormed)
    (same : ∀ r, h.isLive r ↔ h'.isLive r) : h.live = h'.live := by
  have named : h.named.Perm h'.named :=
    (List.perm_ext_iff_of_nodup h.nodup_named h'.nodup_named).mpr fun r => by
      rw [mem_named, mem_named, same]
  rw [wf.live_eq, wf'.live_eq, ← length_named, ← length_named, named.length_eq]

end ObjectRuntime.Heap
