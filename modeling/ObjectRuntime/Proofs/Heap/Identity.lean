import Mathlib.Algebra.Group.Nat.Defs
import ObjectRuntime.Proofs.Heap.Collection

/-! The identity of cells. The generation of a slot counts how often the slot was freed, up to
2 ^ 32. A handle to a cell names it until the slot is freed, and then nothing, unless the
generations come round to its own again. -/

namespace ObjectRuntime.Heap

/-- What is done to a heap. Writing a cell keeps its kind. -/
inductive Op
  | alloc (c : Cell) (pinned : Bool)
  | collect (fs : Frames) (values : List Val)
  | write (r : Ref) (f : Cell → Cell) (kind : ∀ c, (f c).kind = c.kind)
  | setRoots (roots : Roots)
  | setRatio (ratio : Ratio)

namespace Op

def run : Op → Heap → Heap
  | alloc c pinned, h => (h.alloc c pinned).2
  | collect fs values, h => h.collect fs values
  | write r f _, h => h.modify r f
  | setRoots roots, h => { h with roots }
  | setRatio ratio, h => { h with ratio }

/-- What becomes of the contents of the cell that `r` names. -/
def rewrite (op : Op) (r : Ref) (c : Cell) : Cell :=
  match op with
  | write r' f _ => if r' = r then f c else c
  | _ => c

theorem kind_rewrite (op : Op) (r : Ref) (c : Cell) : (op.rewrite r c).kind = c.kind := by
  cases op with
  | write r' f kind =>
    simp only [rewrite]
    split
    · exact kind c
    · rfl
  | _ => rfl

end Op

def after (h : Heap) (ops : List Op) : Heap := ops.foldl (fun h op => op.run h) h

def rewritten (r : Ref) (ops : List Op) (c : Cell) : Cell := ops.foldl (fun c op => op.rewrite r c) c

def generation (h : Heap) (i : Nat) : UInt32 := (h.slots[i]?).elim 0 (·.generation)

/-- The step empties slot `i`. -/
def freesBy (h : Heap) (i : Nat) (op : Op) : Bool :=
  (h.cellAt? i).isSome && ((op.run h).cellAt? i).isNone

/-- How often slot `i` is freed. -/
def frees (i : Nat) : Heap → List Op → Nat
  | _, [] => 0
  | h, op :: rest => (h.freesBy i op).toNat + frees i (op.run h) rest

variable {h : Heap}

theorem after_append (h : Heap) (first second : List Op) :
    h.after (first ++ second) = (h.after first).after second :=
  List.foldl_append

theorem frees_append (i : Nat) (h : Heap) (first second : List Op) :
    frees i h (first ++ second) = frees i h first + frees i (h.after first) second := by
  induction first generalizing h with
  | nil => simp [frees, after]
  | cons op rest ih => simp only [List.cons_append, frees, ih, Nat.add_assoc]; rfl

theorem frees_le_length (i : Nat) (h : Heap) (ops : List Op) : frees i h ops ≤ ops.length := by
  induction ops generalizing h with
  | nil => exact Nat.le_refl 0
  | cons op rest ih =>
    have one := Bool.toNat_le (h.freesBy i op)
    have others := ih (op.run h)
    simp only [frees, List.length_cons]
    omega

theorem kind_rewritten (r : Ref) (ops : List Op) (c : Cell) : (rewritten r ops c).kind = c.kind := by
  induction ops generalizing c with
  | nil => rfl
  | cons op rest ih => exact (ih (op.rewrite r c)).trans (op.kind_rewrite r c)

/-! ## One step -/

theorem cell?_eq (h : Heap) (r : Ref) :
    h.cell? r = if h.generation r.index = r.generation then h.cellAt? r.index else none := by
  unfold cell? generation cellAt?
  cases h.slots[r.index]? with
  | none => exact (ite_self _).symm
  | some s => rfl

theorem generation_of_cell {r : Ref} {c : Cell} (found : h.cell? r = some c) :
    h.generation r.index = r.generation := by
  rw [cell?_eq] at found
  split at found
  next same => exact same
  next => cases found

theorem wellFormed_run (wf : h.WellFormed) (op : Op) : (op.run h).WellFormed := by
  cases op with
  | alloc c pinned => exact wellFormed_alloc wf c pinned
  | collect fs values => exact wellFormed_collect wf fs values
  | write r f kind => exact wellFormed_modify wf r f
  | setRoots roots => exact ⟨wf.free_nodup, wf.mem_free, wf.live_eq⟩
  | setRatio ratio => exact ⟨wf.free_nodup, wf.mem_free, wf.live_eq⟩

theorem generation_alloc (wf : h.WellFormed) (c : Cell) (pinned : Bool) (i : Nat) :
    (h.alloc c pinned).2.generation i = h.generation i := by
  cases spent : h.free with
  | cons j free =>
    obtain ⟨s, slot, -⟩ := (wf.mem_free j).mp (by simp [spent])
    have bound := (Array.getElem?_eq_some_iff.mp slot).1
    rw [alloc_of_cons spent]
    simp only [generation, Array.getElem?_setIfInBounds]
    by_cases here : j = i
    · subst here
      simp [bound]
    · rw [if_neg here]
  | nil =>
    rw [alloc_of_nil spent]
    simp only [generation, Array.getElem?_push]
    by_cases here : i = h.slots.size
    · simp [here]
    · rw [if_neg here]

/-- A new handle carries the generation of the slot that it names. -/
theorem generation_handle (wf : h.WellFormed) (c : Cell) (pinned : Bool) :
    (h.alloc c pinned).1.generation = h.generation (h.alloc c pinned).1.index := by
  have found : (h.alloc c pinned).2.cell? (h.alloc c pinned).1 = some c := by
    rw [cell?_alloc wf, if_pos rfl]
  rw [← generation_of_cell found, generation_alloc wf]

theorem freesBy_eq_false {op : Op} {i : Nat}
    (stays : (h.cellAt? i).isSome = true → ((op.run h).cellAt? i).isSome = true) :
    h.freesBy i op = false := by
  unfold freesBy
  cases occupied : (h.cellAt? i).isSome with
  | false => rfl
  | true => rw [← Option.not_isSome, stays occupied]; rfl

theorem freesBy_alloc (wf : h.WellFormed) (c : Cell) (pinned : Bool) (i : Nat) :
    h.freesBy i (.alloc c pinned) = false := by
  refine freesBy_eq_false fun occupied => ?_
  unfold cellAt? at occupied ⊢
  cases slot : h.slots[i]? with
  | none => simp [slot] at occupied
  | some s =>
    rw [slot] at occupied
    rw [Op.run, slot_alloc_of_occupied wf c pinned slot occupied]
    exact occupied

theorem freesBy_collect (fs : Frames) (values : List Val) (i : Nat) :
    h.freesBy i (.collect fs values) = garbage (mark fs h values) h i := by
  simp only [freesBy, Op.run, cellAt?, slot_collect]
  cases slot : h.slots[i]? with
  | none => simp [garbage, slot]
  | some s =>
    have same : garbage (mark fs h values) h i =
        (s.cell.isSome && !s.pinned && !(mark fs h values).getD i false) := garbage_eq slot
    cases occupied : s.cell with
    | none => simp [same, occupied]
    | some c =>
      cases garbage (mark fs h values) h i <;> simp [occupied]

theorem freesBy_write (r : Ref) (f : Cell → Cell) (kind : ∀ c, (f c).kind = c.kind) (i : Nat) :
    h.freesBy i (.write r f kind) = false := by
  refine freesBy_eq_false fun occupied => ?_
  simp only [cellAt?, Op.run, slots_modify] at occupied ⊢
  cases slot : h.slots[i]? with
  | none => simp [slot] at occupied
  | some s =>
    simp only [slot, Option.bind_some, Option.map_some] at occupied ⊢
    split
    · simpa using occupied
    · exact occupied

/-- A slot enters its next generation by the steps that empty it, and by no others. -/
theorem generation_run (wf : h.WellFormed) (op : Op) (i : Nat) :
    (op.run h).generation i = h.generation i + UInt32.ofNat (h.freesBy i op).toNat := by
  have stays {h' : Heap} {freed : Bool} (same : h'.generation i = h.generation i)
      (kept : freed = false) :
      h'.generation i = h.generation i + UInt32.ofNat freed.toNat := by
    simpa [kept] using same
  cases op with
  | alloc c pinned => exact stays (generation_alloc wf c pinned i) (freesBy_alloc wf c pinned i)
  | collect fs values =>
    rw [freesBy_collect]
    simp only [Op.run, generation, slot_collect]
    cases slot : h.slots[i]? with
    | none => simp [garbage, slot]
    | some s => cases garbage (mark fs h values) h i <;> simp
  | write r f kind =>
    refine stays ?_ (freesBy_write r f kind i)
    simp only [Op.run, generation, slots_modify]
    cases h.slots[i]? with
    | none => rfl
    | some s =>
      simp only [Option.map_some, Option.elim_some]
      split <;> rfl
  | setRoots roots => exact stays rfl (freesBy_eq_false id)
  | setRatio ratio => exact stays rfl (freesBy_eq_false id)

/-- A step that does not empty the slot of a cell leaves the cell there, rewritten at most. -/
theorem cell?_run (wf : h.WellFormed) (op : Op) {r : Ref} {c : Cell} (found : h.cell? r = some c)
    (kept : h.freesBy r.index op = false) : (op.run h).cell? r = some (op.rewrite r c) := by
  cases op with
  | alloc c' pinned =>
    rw [Op.run, cell?_alloc wf, if_neg, found]
    · rfl
    · intro same
      have dead := alloc_dead wf c' pinned r (by rw [same])
      simp [found] at dead
  | collect fs values =>
    rw [freesBy_collect] at kept
    obtain ⟨s, slot, generation, occupied⟩ := (cell?_eq_some_iff h r c).mp found
    refine (cell?_eq_some_iff _ r c).mpr ⟨s, ?_, generation, occupied⟩
    rw [Op.run, slot_collect, slot, kept]
    rfl
  | write r' f kind =>
    simp only [Op.run, Op.rewrite, cell?_modify]
    by_cases same : r = r'
    · simp [← same, found]
    · rw [if_neg same, if_neg (Ne.symm same), found]
  | setRoots roots => exact found
  | setRatio ratio => exact found

/-! ## Runs -/

theorem wellFormed_after (wf : h.WellFormed) (ops : List Op) : (h.after ops).WellFormed := by
  induction ops generalizing h with
  | nil => exact wf
  | cons op rest ih => exact ih (wellFormed_run wf op)

theorem generation_after (wf : h.WellFormed) (ops : List Op) (i : Nat) :
    (h.after ops).generation i = h.generation i + UInt32.ofNat (frees i h ops) := by
  induction ops generalizing h with
  | nil => simp [after, frees]
  | cons op rest ih =>
    have later := ih (wellFormed_run wf op)
    rw [generation_run wf op] at later
    rw [frees, UInt32.ofNat_add, ← UInt32.add_assoc]
    exact later

theorem cell?_after (wf : h.WellFormed) (ops : List Op) {r : Ref} {c : Cell}
    (found : h.cell? r = some c) (kept : frees r.index h ops = 0) :
    (h.after ops).cell? r = some (rewritten r ops c) := by
  induction ops generalizing h c with
  | nil => exact found
  | cons op rest ih =>
    obtain ⟨first, later⟩ := Nat.add_eq_zero_iff.mp kept
    exact ih (wellFormed_run wf op) (cell?_run wf op found (by simpa using first)) later

/-- A generation that was left is not come back to before the slot is freed 2 ^ 32 times. -/
theorem generation_passed (wf : h.WellFormed) {ops : List Op} {i : Nat}
    (freed : frees i h ops ≠ 0) (few : frees i h ops < 2 ^ 32) :
    (h.after ops).generation i ≠ h.generation i := by
  rw [generation_after wf]
  intro same
  have sum := congrArg UInt32.toNat same
  have bound := (h.generation i).toNat_lt
  rw [UInt32.toNat_add, UInt32.toNat_ofNat'] at sum
  omega

theorem cell?_after_freed (wf : h.WellFormed) {ops : List Op} {r : Ref} {c : Cell}
    (found : h.cell? r = some c) (freed : frees r.index h ops ≠ 0)
    (few : frees r.index h ops < 2 ^ 32) : (h.after ops).cell? r = none := by
  have passed := generation_passed wf freed few
  rw [generation_of_cell found] at passed
  rw [cell?_eq, if_neg passed]

/-! ## Handles -/

/-- One of the collections frees the cell that `g` names. -/
def FreedIn (h : Heap) (g : Ref) (ops : List Op) : Prop :=
  ∃ first fs values rest, ops = first ++ .collect fs values :: rest ∧
    (h.after first).isLive g = true ∧ ((h.after first).collect fs values).isLive g = false

/-- A cell is freed by the step that empties its slot, which is a collection. -/
theorem collect_of_freesBy (wf : h.WellFormed) {op : Op} {i : Nat} (freed : h.freesBy i op = true) :
    ∃ fs values, op = .collect fs values := by
  cases op with
  | alloc c pinned => simp [freesBy_alloc wf] at freed
  | collect fs values => exact ⟨fs, values, rfl⟩
  | write r f kind => simp [freesBy_write] at freed
  | setRoots roots =>
    have kept : h.freesBy i (.setRoots roots) = false := freesBy_eq_false id
    simp [kept] at freed
  | setRatio ratio =>
    have kept : h.freesBy i (.setRatio ratio) = false := freesBy_eq_false id
    simp [kept] at freed

theorem isLive_of_freesBy {op : Op} {g : Ref} (freed : h.freesBy g.index op = true) :
    (op.run h).isLive g = false := by
  have empty := (Bool.and_eq_true_iff.mp freed).2
  rw [Option.isNone_iff_eq_none] at empty
  rw [isLive, cell?_eq, empty, ite_self]
  rfl

theorem freedIn_iff (wf : h.WellFormed) (ops : List Op) {g : Ref} {c : Cell}
    (found : h.cell? g = some c) : FreedIn h g ops ↔ frees g.index h ops ≠ 0 := by
  constructor
  · rintro ⟨first, fs, values, rest, rfl, live, dead⟩ none
    rw [frees_append, Nat.add_eq_zero_iff, frees, Nat.add_eq_zero_iff] at none
    have kept := cell?_run (wellFormed_after wf first) (.collect fs values)
      (cell?_after wf first found none.1) (by simpa using none.2.1)
    rw [isLive, show (h.after first).collect fs values =
      Op.run (.collect fs values) (h.after first) from rfl, kept] at dead
    cases dead
  · intro freed
    induction ops generalizing h c with
    | nil => exact absurd rfl freed
    | cons op rest ih =>
      cases here : h.freesBy g.index op with
      | true =>
        obtain ⟨fs, values, rfl⟩ := collect_of_freesBy wf here
        exact ⟨[], fs, values, rest, rfl, (isLive_iff h g).mpr ⟨c, found⟩, isLive_of_freesBy here⟩
      | false =>
        rw [frees, here] at freed
        obtain ⟨first, fs, values, rest', rfl, live, dead⟩ :=
          ih (wellFormed_run wf op) (cell?_run wf op found here) (by simpa using freed)
        exact ⟨op :: first, fs, values, rest', rfl, live, dead⟩

theorem cell?_handle (wf : h.WellFormed) (c : Cell) (pinned : Bool) :
    (h.alloc c pinned).2.cell? (h.alloc c pinned).1 = some c := by
  rw [cell?_alloc wf, if_pos rfl]

/-- A handle that is answered again would name the cell that it was first answered for. -/
theorem handle_ne (wf : h.WellFormed) {c c' : Cell} {g : Ref} (found : h.cell? g = some c)
    {ops : List Op} (few : frees g.index h ops < 2 ^ 32) (pinned : Bool) :
    ((h.after ops).alloc c' pinned).1 ≠ g := by
  intro same
  have wf' := wellFormed_after wf ops
  by_cases kept : frees g.index h ops = 0
  · have dead := alloc_dead wf' c' pinned g (by rw [same])
    rw [cell?_after wf ops found kept] at dead
    cases dead
  · have passed := generation_passed wf kept few
    rw [generation_of_cell found, ← same] at passed
    exact passed (generation_handle wf' c' pinned).symm

theorem wellFormed_empty (threshold : Nat) (ratio : Ratio) : (empty threshold ratio).WellFormed :=
  ⟨List.nodup_nil, fun i => by simp [empty], by simp [empty]⟩

/-- As long as no slot is freed 2 ^ 32 times, the handle to a cell names it until the collection
that frees it, whatever is written to it, and from then on names nothing, whatever its slot is used
for. No two cells are given the same handle. -/
theorem handle_names_one_cell (threshold : Nat) (ratio : Ratio) (ops : List Op)
    (few : ∀ i, frees i (empty threshold ratio) ops < 2 ^ 32) :
    (∀ before c pinned more rest, ops = before ++ .alloc c pinned :: (more ++ rest) →
      let made := ((empty threshold ratio).after before).alloc c pinned
      let h := made.2.after more
      (¬ FreedIn made.2 made.1 more →
        h.cell? made.1 = some (rewritten made.1 more c) ∧ h.Holds (.cell c.kind made.1) ∧
          h.isLive made.1 = true) ∧
      (FreedIn made.2 made.1 more →
        h.cell? made.1 = none ∧ (∀ k, ¬ h.Holds (.cell k made.1)) ∧ h.isLive made.1 = false)) ∧
    ∀ before c pinned between c' pinned' rest,
      ops = before ++ .alloc c pinned :: (between ++ .alloc c' pinned' :: rest) →
      let made := ((empty threshold ratio).after before).alloc c pinned
      ((made.2.after between).alloc c' pinned').1 ≠ made.1 := by
  have start (before : List Op) := wellFormed_after (wellFormed_empty threshold ratio) before
  have later {before more rest : List Op} {c : Cell} {pinned : Bool} (i : Nat)
      (same : ops = before ++ .alloc c pinned :: (more ++ rest)) :
      frees i (((empty threshold ratio).after before).alloc c pinned).2 more < 2 ^ 32 := by
    have total := few i
    rw [same, frees_append, frees, frees_append, Op.run] at total
    omega
  refine ⟨fun before c pinned more rest same => ?_,
    fun before c pinned between c' pinned' rest same => ?_⟩
  · have wf := wellFormed_alloc (start before) c pinned
    have found := cell?_handle (start before) c pinned
    have freed := freedIn_iff wf more found
    refine ⟨fun kept => ?_, fun gone => ?_⟩
    · have here := cell?_after wf more found (Decidable.not_not.mp fun left => kept (freed.mpr left))
      exact ⟨here, ⟨_, here, kind_rewritten ..⟩, (isLive_iff _ _).mpr ⟨_, here⟩⟩
    · have none := cell?_after_freed wf found (freed.mp gone) (later _ same)
      exact ⟨none, fun k ⟨c', there, _⟩ => by simp [none] at there, by simp [isLive, none]⟩
  · exact handle_ne (wellFormed_alloc (start before) c pinned)
      (cell?_handle (start before) c pinned) (later _ same) pinned'

/-- An array that nothing keeps, a collection, and a string that takes its slot. -/
def reusing : List Op :=
  [.alloc (.array ⟨0, 0⟩ #[]) false, .collect ⟨#[]⟩ [], .alloc (.string ⟨0, 0⟩ "next") false]

theorem reusing_names_apart : (∀ i, frees i (empty 8 .standard) reusing < 2 ^ 32) ∧
    (let h := (empty 8 .standard).after reusing;
      h.cell? ⟨0, 0⟩ = none ∧ h.isLive ⟨0, 0⟩ = false ∧ h.Holds (.string ⟨0, 1⟩)) := by
  have few (i : Nat) : frees i (empty 8 .standard) reusing < 2 ^ 32 :=
    Nat.lt_of_le_of_lt (frees_le_length ..) (by decide)
  have names := handle_names_one_cell 8 .standard reusing few
  have old := (names.1 [] (.array ⟨0, 0⟩ #[]) false (reusing.drop 1) [] rfl).2
    ⟨[], ⟨#[]⟩, [], reusing.drop 2, rfl, by decide +kernel, by decide +kernel⟩
  exact ⟨few, old.1, old.2.2, by decide +kernel⟩

end ObjectRuntime.Heap
