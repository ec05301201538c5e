import ObjectRuntime.Frame

/-! Lexical chains. Frames nest in frames made before them, so following parents comes
to an end, and the values of a chain are those of the frames around its first one.
A new frame and a written variable change the values of a chain by what they store. -/

namespace ObjectRuntime.Frames

/-- Frames nest: a frame was made after the one it is nested in. -/
def Nested (fs : Frames) : Prop :=
  ∀ (i p : Nat) (f : Frame), fs.store[i]? = some f → f.parent = some p → p < i

/-- Frame `j` is frame `i` or lies around it. -/
inductive Encloses (fs : Frames) : Nat → Nat → Prop
  | here (i : Nat) : Encloses fs i i
  | outer {i p j : Nat} {f : Frame} : fs.store[i]? = some f → f.parent = some p →
      Encloses fs p j → Encloses fs i j

theorem chainWithin_eq {fs : Frames} (nested : fs.Nested) {fuel fuel' i : Nat} (enough : i < fuel)
    (enough' : i < fuel') : fs.chainWithin fuel i = fs.chainWithin fuel' i := by
  induction fuel generalizing i fuel' with
  | zero => exact absurd enough (Nat.not_lt_zero i)
  | succ fuel ih =>
    obtain ⟨fuel', rfl⟩ : ∃ n, fuel' = n + 1 := ⟨fuel' - 1, by omega⟩
    simp only [chainWithin]
    cases slot : fs.store[i]? with
    | none => rfl
    | some f =>
      cases parent : f.parent with
      | none => simp only [parent]
      | some p =>
        have below := nested i p f slot parent
        simp only [parent]
        rw [ih (i := p) (by omega) (by omega : p < fuel')]

theorem values_eq {fs : Frames} (nested : fs.Nested) {i : Nat} {f : Frame}
    (slot : fs.store[i]? = some f) :
    fs.values i = f.values ++ (match f.parent with
      | some p => fs.values p
      | none => []) := by
  unfold values chain
  rw [chainWithin]
  simp only [slot]
  cases parent : f.parent with
  | none => simp
  | some p =>
    simp only [List.flatMap_cons]
    rw [chainWithin_eq nested (nested i p f slot parent) (Nat.lt_succ_self p)]

theorem values_of_none {fs : Frames} {i : Nat} (slot : fs.store[i]? = none) : fs.values i = [] := by
  simp [values, chain, chainWithin, slot]

theorem mem_values_iff {fs : Frames} (nested : fs.Nested) (i : Nat) (v : Val) :
    v ∈ fs.values i ↔ ∃ j f, fs.Encloses i j ∧ fs.store[j]? = some f ∧ v ∈ f.values := by
  constructor
  · intro member
    induction i using Nat.strongRecOn with
    | ind i ih =>
      cases slot : fs.store[i]? with
      | none => simp [values_of_none slot] at member
      | some f =>
        rw [values_eq nested slot, List.mem_append] at member
        rcases member with own | around
        · exact ⟨i, f, .here i, slot, own⟩
        · cases parent : f.parent with
          | none => simp [parent] at around
          | some p =>
            simp only [parent] at around
            obtain ⟨j, g, encloses, found, held⟩ := ih p (nested i p f slot parent) around
            exact ⟨j, g, .outer slot parent encloses, found, held⟩
  · rintro ⟨j, g, encloses, found, held⟩
    induction encloses with
    | here =>
      rw [values_eq nested found]
      exact List.mem_append.mpr (.inl held)
    | outer slot parent _ ih =>
      rw [values_eq nested slot, parent]
      exact List.mem_append.mpr (.inr (ih found))

/-! ## A new frame -/

theorem nested_push {fs : Frames} (nested : fs.Nested) {f : Frame}
    (parent : ∀ p, f.parent = some p → p < fs.store.size) : (fs.push f).2.Nested := by
  intro i p g slot outer
  simp only [push, Array.getElem?_push] at slot
  by_cases new : i = fs.store.size
  · simp only [new, if_true, Option.some.injEq] at slot
    subst slot
    rw [new]
    exact parent p outer
  · exact nested i p g (by simpa [new] using slot) outer

theorem values_push_of_lt {fs : Frames} (nested : fs.Nested) (f : Frame) {i : Nat}
    (bound : i < fs.store.size) : (fs.push f).2.values i = fs.values i := by
  have same (j : Nat) (bound : j < fs.store.size) : (fs.push f).2.store[j]? = fs.store[j]? := by
    simp [push, Array.getElem?_push, Nat.ne_of_lt bound]
  unfold values chain
  generalize i + 1 = fuel
  induction fuel generalizing i with
  | zero => rfl
  | succ fuel ih =>
    simp only [chainWithin, same i bound]
    cases slot : fs.store[i]? with
    | none => rfl
    | some g =>
      cases parent : g.parent with
      | none => simp only [parent]
      | some p =>
        have below := nested i p g slot parent
        simp only [parent, List.flatMap_cons, ih (Nat.lt_trans below bound)]

theorem values_push_self {fs : Frames} (nested : fs.Nested) {f : Frame}
    (parent : ∀ p, f.parent = some p → p < fs.store.size) :
    (fs.push f).2.values (fs.push f).1 = f.values ++ (match f.parent with
      | some p => fs.values p
      | none => []) := by
  have slot : (fs.push f).2.store[(fs.push f).1]? = some f := by simp [push]
  rw [values_eq (nested_push nested parent) slot]
  cases outer : f.parent with
  | none => rfl
  | some p => simp only [values_push_of_lt nested f (parent p outer)]

/-! ## Writing a variable -/

theorem mem_putAt {vals : Array Val} {index : Nat} {val v : Val} (member : v ∈ putAt vals index val) :
    v ∈ vals ∨ v = val ∨ v = .nil := by
  unfold putAt at member
  split at member
  next =>
    rcases Array.mem_or_eq_of_mem_set member with old | new
    · exact .inl old
    · exact .inr (.inl new)
  next =>
    rcases Array.mem_push.mp member with before | new
    · rcases Array.mem_append.mp before with old | pad
      · exact .inl old
      · exact .inr (.inr (Array.mem_replicate.mp pad).2)
    · exact .inr (.inl new)

/-- A written variable changes no frame but in the values it holds. -/
theorem setLocal_slot (fs : Frames) (i depth index : Nat) (val : Val) (j : Nat) (f : Frame)
    (slot : (fs.setLocal i depth index val).2.store[j]? = some f) :
    ∃ g, fs.store[j]? = some g ∧ f.parent = g.parent ∧
      ∀ v ∈ f.values, v ∈ g.values ∨ v = val ∨ v = .nil := by
  unfold setLocal at slot
  cases found : fs.ancestor? i depth with
  | none =>
    simp only [found] at slot
    exact ⟨f, slot, rfl, fun v held => .inl held⟩
  | some k =>
    simp only [found, Array.getElem?_modify] at slot
    by_cases here : k = j
    · subst here
      simp only [if_true] at slot
      obtain ⟨g, slot', rfl⟩ := Option.map_eq_some_iff.mp slot
      refine ⟨g, slot', rfl, fun v held => ?_⟩
      simp only [Frame.values, List.mem_cons, List.mem_append, Array.mem_toList_iff] at held ⊢
      rcases held with self | lexical | ((method | block) | args) | locals
      · exact .inl (.inl self)
      · exact .inl (.inr (.inl lexical))
      · exact .inl (.inr (.inr (.inl (.inl (.inl method)))))
      · exact .inl (.inr (.inr (.inl (.inl (.inr block)))))
      · exact .inl (.inr (.inr (.inl (.inr args))))
      · rcases mem_putAt locals with old | new
        · exact .inl (.inr (.inr (.inr old)))
        · exact .inr new
    · simp only [here, if_false] at slot
      exact ⟨f, slot, rfl, fun v held => .inl held⟩

theorem nested_setLocal {fs : Frames} (nested : fs.Nested) (i depth index : Nat) (val : Val) :
    (fs.setLocal i depth index val).2.Nested := by
  intro j p f slot parent
  obtain ⟨g, slot', same, -⟩ := setLocal_slot fs i depth index val j f slot
  exact nested j p g slot' (same ▸ parent)

theorem size_setLocal (fs : Frames) (i depth index : Nat) (val : Val) :
    (fs.setLocal i depth index val).2.store.size = fs.store.size := by
  unfold setLocal
  split <;> simp

theorem mem_values_setLocal {fs : Frames} (nested : fs.Nested) {i depth index j : Nat} {val v : Val}
    (member : v ∈ (fs.setLocal i depth index val).2.values j) :
    v ∈ fs.values j ∨ v = val ∨ v = .nil := by
  obtain ⟨k, f, encloses, slot, held⟩ :=
    (mem_values_iff (nested_setLocal nested i depth index val) j v).mp member
  have encloses' : fs.Encloses j k := by
    clear slot held member
    induction encloses with
    | here j => exact .here j
    | outer slot parent _ ih =>
      obtain ⟨g, slot', same, -⟩ := setLocal_slot fs i depth index val _ _ slot
      exact .outer slot' (same ▸ parent) ih
  obtain ⟨g, slot', -, values⟩ := setLocal_slot fs i depth index val k f slot
  rcases values v held with old | new
  · exact .inl ((mem_values_iff nested j v).mpr ⟨k, g, encloses', slot', old⟩)
  · exact .inr new

end ObjectRuntime.Frames
