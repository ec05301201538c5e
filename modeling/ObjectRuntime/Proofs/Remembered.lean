import ObjectRuntime.Runtime
import ObjectRuntime.Proofs.Heap.Collection

/-! What is remembered. The linearizations in modules and the answers in the method cache
are copies of what the class graph says. Forgetting them leaves every cell its kind and
its children, so the collector, which sees no more than these, does the same. -/

namespace ObjectRuntime

/-! ## Cells -/

def Module.forget (m : Module) : Module := { m with linear := none }

def Cell.forget : Cell → Cell
  | .module m => .module m.forget
  | c => c

theorem Cell.kind_forget (c : Cell) : c.forget.kind = c.kind := by cases c <;> rfl

theorem Cell.children_forget (c : Cell) (fs : Frames) : c.forget.children fs = c.children fs := by
  cases c <;> rfl

theorem Cell.forget_forget (c : Cell) : c.forget.forget = c.forget := by cases c <;> rfl

/-! ## The heap -/

namespace Heap

def forget (h : Heap) : Heap :=
  { h with slots := h.slots.map fun s => { s with cell := s.cell.map Cell.forget } }

theorem slots_forget (h : Heap) (i : Nat) :
    h.forget.slots[i]? = (h.slots[i]?).map fun s => { s with cell := s.cell.map Cell.forget } := by
  simp [forget]

theorem forget_forget (h : Heap) : h.forget.forget = h.forget := by
  simp [forget, Function.comp_def, Cell.forget_forget]

theorem cell?_forget (h : Heap) (r : Ref) : h.forget.cell? r = (h.cell? r).map Cell.forget := by
  simp only [cell?, slots_forget]
  cases h.slots[r.index]? with
  | none => rfl
  | some s => by_cases current : s.generation = r.generation <;> simp [current]

theorem isLive_forget (h : Heap) (r : Ref) : h.forget.isLive r = h.isLive r := by
  simp [isLive, cell?_forget]

theorem holds_forget (h : Heap) (v : Val) : h.forget.Holds v ↔ h.Holds v := by
  cases v with
  | cell k r =>
    simp only [Holds, cell?_forget]
    cases h.cell? r <;> simp [Cell.kind_forget]
  | _ => simp [Holds]

theorem size_forget (h : Heap) : h.forget.slots.size = h.slots.size := by simp [forget]

theorem wellFormed_forget (h : Heap) : h.forget.WellFormed ↔ h.WellFormed := by
  have occupied : h.forget.slots.countP (·.cell.isSome) = h.slots.countP (·.cell.isSome) := by
    simp [forget, Array.countP_map, Function.comp_def]
  have empty (i : Nat) : (∃ s, h.forget.slots[i]? = some s ∧ s.cell = none) ↔
      ∃ s, h.slots[i]? = some s ∧ s.cell = none := by
    rw [slots_forget]
    cases h.slots[i]? <;> simp
  constructor
  · rintro ⟨nodup, member, count⟩
    exact ⟨nodup, fun i => (member i).trans (empty i), count.trans occupied⟩
  · rintro ⟨nodup, member, count⟩
    exact ⟨nodup, fun i => (member i).trans (empty i).symm, count.trans occupied.symm⟩

theorem forget_modify (h : Heap) (r : Ref) {f g : Cell → Cell}
    (same : ∀ c, (f c).forget = g c.forget) : (h.modify r f).forget = h.forget.modify r g := by
  have slots : (h.modify r f).forget.slots = (h.forget.modify r g).slots := by
    apply Array.ext_getElem?
    intro i
    rw [slots_forget, slots_modify, slots_modify, slots_forget]
    cases h.slots[i]? with
    | none => rfl
    | some s =>
      by_cases here : i = r.index ∧ s.generation = r.generation
      · simp [here, Function.comp_def, same]
      · simp [here]
  simp only [forget, modify] at slots ⊢
  rw [slots]

theorem forget_modify_self (h : Heap) (r : Ref) {f : Cell → Cell}
    (same : ∀ c, (f c).forget = c.forget) : (h.modify r f).forget = h.forget := by
  have slots : (h.modify r f).forget.slots = h.forget.slots := by
    apply Array.ext_getElem?
    intro i
    rw [slots_forget, slots_modify, slots_forget]
    cases h.slots[i]? with
    | none => rfl
    | some s =>
      by_cases here : i = r.index ∧ s.generation = r.generation
      · simp [here, Function.comp_def, same]
      · simp [here]
  simp only [forget, modify] at slots ⊢
  rw [slots]

theorem forget_alloc (h : Heap) (c : Cell) (pinned : Bool) :
    h.forget.alloc c.forget pinned = ((h.alloc c pinned).1, (h.alloc c pinned).2.forget) := by
  cases spent : h.free with
  | cons i free =>
    have spent' : h.forget.free = i :: free := spent
    have generation : (h.forget.slots.getD i default).generation =
        (h.slots.getD i default).generation := by
      simp only [Array.getD_eq_getD_getElem?, slots_forget]
      cases h.slots[i]? <;> rfl
    rw [alloc_of_cons spent, alloc_of_cons spent', generation]
    simp [forget, Array.map_setIfInBounds]
  | nil =>
    have spent' : h.forget.free = [] := spent
    rw [alloc_of_nil spent, alloc_of_nil spent']
    simp [forget]

/-! ## Collection -/

theorem pinnedValues_forget (h : Heap) : h.forget.pinnedValues = h.pinnedValues := by
  unfold pinnedValues
  simp only [forget, Array.toList_map, List.zipIdx_map, List.filterMap_map]
  congr 1
  funext ⟨⟨generation, cell, pinned⟩, i⟩
  cases cell <;> cases pinned <;> simp [Cell.kind_forget]

theorem mark_forget (fs : Frames) (h : Heap) (values : List Val) :
    mark fs h.forget values = mark fs h values := by
  have visits : h.forget.visit = h.visit := by
    funext m v
    cases v <;> simp [visit, isLive_forget]
  have children (i : Nat) : ((h.forget.cellAt? i).map (·.children fs)).getD [] =
      ((h.cellAt? i).map (·.children fs)).getD [] := by
    simp only [cellAt?, slots_forget]
    cases h.slots[i]? with
    | none => rfl
    | some s => cases cell : s.cell <;> simp [cell, Cell.children_forget]
  have rounds (fuel : Nat) (m : Marking) : follow fs h.forget fuel m = follow fs h fuel m := by
    induction fuel generalizing m with
    | zero => rfl
    | succ fuel ih => simp only [follow, visits, children, ih]
  unfold mark
  simp only [rounds, visits, size_forget, pinnedValues_forget]
  rfl

theorem garbage_forget (marked : Array Bool) (h : Heap) :
    garbage marked h.forget = garbage marked h := by
  funext i
  simp only [garbage, slots_forget]
  cases h.slots[i]? <;> simp

theorem forget_swept (marked : Array Bool) (h : Heap) (n : Nat) :
    (swept marked h n).forget = swept marked h.forget n := by
  have slots : (swept marked h n).forget.slots = (swept marked h.forget n).slots := by
    apply Array.ext_getElem?
    intro i
    rw [slots_forget, slot_swept, slot_swept, garbage_forget, slots_forget]
    cases h.slots[i]? with
    | none => rfl
    | some s => by_cases dead : i < n ∧ garbage marked h i <;> simp [dead]
  calc (swept marked h n).forget
      = { swept marked h.forget n with slots := (swept marked h n).forget.slots } := by
        simp only [swept, freed, garbage_forget]
        rfl
    _ = swept marked h.forget n := by rw [slots]

theorem forget_collect (fs : Frames) (h : Heap) (values : List Val) :
    (h.collect fs values).forget = h.forget.collect fs values := by
  have swept : (sweep (mark fs h values) h).forget = sweep (mark fs h.forget values) h.forget := by
    rw [sweep_eq, forget_swept, mark_forget, sweep_eq, size_forget]
  unfold collect
  rw [← swept]
  rfl

end Heap

/-! ## The runtime -/

namespace Runtime

/-- The runtime with no linearization and no answer of a lookup remembered. -/
def forget (rt : Runtime) : Runtime := { rt with heap := rt.heap.forget, cache := {} }

theorem forget_forget (rt : Runtime) : rt.forget.forget = rt.forget := by
  simp only [forget, Heap.forget_forget]

theorem forget_collect (rt : Runtime) : rt.collect.forget = rt.forget.collect := by
  simp only [collect, forget, Heap.forget_collect]
  rfl

end Runtime
end ObjectRuntime
