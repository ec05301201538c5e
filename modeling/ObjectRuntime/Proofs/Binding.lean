import ObjectRuntime.Binder
import ObjectRuntime.Proofs.Booting

/-! Reading a parameter list. The parameters of a shape, read in order, bind windows of the
positional elements that lie one behind the other: those on the left, the optional ones that
are filled, the splat, and those on the right. -/

namespace ObjectRuntime.Shape

/-- The elements that positional parameters share out: all but the table of keywords that the
arguments of a call may end in. -/
inductive Positional (s : Shape) (outer : List Int) : List Val → List Val → Prop
  | keywords (vals : List Val) (r : Ref) (enabled : s.keywords = true)
      (call : s.source = .callArguments) (outermost : outer = []) :
      Positional s outer (vals ++ [.table r]) vals
  | all (vals : List Val) (plain : ¬ (s.keywords = true ∧ s.source = .callArguments ∧ outer = [] ∧
      ∃ r, vals.getLast? = some (.table r))) : Positional s outer vals vals

/-- Indices that follow each other. -/
def span (start : Int) (count : Nat) : List Int := (List.range count).map fun i : Nat => start + i

/-- What the parameters at some indices bind, read one after the other. -/
def reads (s : Shape) (rt : Runtime) (subject : Subject) (outer : List Int) (default : Val)
    (indices : List Int) : List Val :=
  indices.map fun i => s.bind rt subject (outer ++ [i]) default

variable {s : Shape} {rt rt' : Runtime} {subject : Subject} {outer : List Int}
  {vals positional : List Val} {default : Val}

theorem Positional.eq (split : s.Positional outer vals positional) :
    s.positional vals outer.isEmpty = positional := by
  cases split with
  | keywords _ r enabled call outermost =>
    subst outermost
    simp [Shape.positional, takesKeywords, enabled, call]
  | all _ plain =>
    unfold Shape.positional
    split
    next r last =>
      split
      next taken =>
        simp only [takesKeywords, Bool.and_eq_true, List.isEmpty_iff, decide_eq_true_eq] at taken
        exact absurd ⟨taken.2.1, taken.2.2, taken.1, r, last⟩ plain
      next => rfl
    next => rfl

/-! ## Windows -/

/-- Reading places one after the other, and passing over those that are not there. -/
theorem window {α : Type} [DecidableEq α] {xs : List α} {default : α} (absent : default ∉ xs)
    (start count : Nat) :
    ((List.range count).map fun i => (xs[start + i]?).getD default).filter (· ≠ default) =
      (xs.drop start).take count := by
  induction count with
  | zero => simp
  | succ count ih =>
    have last : [(xs[start + count]?).getD default].filter (· ≠ default) =
        (xs[start + count]?).toList := by
      cases found : xs[start + count]? with
      | none => simp
      | some x =>
        have apart : x ≠ default := fun same => absent (same ▸ List.mem_of_getElem? found)
        simp [apart]
    rw [List.range_succ, List.map_append, List.filter_append, ih, List.map_singleton, last,
      List.take_add_one, List.getElem?_drop]

theorem span_add (start : Int) (first second : Nat) :
    span start (first + second) = span start first ++ span (start + first) second := by
  simp only [span, List.range_add, List.map_append, List.map_map, Function.comp_def,
    Int.natCast_add, Int.add_assoc]

/-! ## Single parameters -/

theorem bind_eq (reached : subject.descend rt outer = some (.sequence vals))
    (split : s.Positional outer vals positional) (index : Int) :
    s.bind rt subject (outer ++ [index]) default =
      (s.pick? positional index).getD default := by
  simp only [bind, List.getLast?_concat, List.dropLast_concat, reached, split.eq]

theorem filled_add_unfilled (s : Shape) (count : Nat) :
    s.filled count + s.unfilled count = s.optional := by
  have := Nat.min_le_right (count - s.required) s.optional
  simp only [unfilled, filled]
  omega

theorem pick?_left (xs : List Val) {i : Nat} (bound : i < s.left) : s.pick? xs i = xs[i]? := by
  simp [pick?, position?, bound]

theorem pick?_optional (xs : List Val) {k : Nat} (bound : k < s.optional) {index : Int}
    (here : index = s.left + k) :
    s.pick? xs index =
      if s.rightToLeft then
        if k < s.unfilled xs.length then none else xs[s.left + (k - s.unfilled xs.length)]?
      else if s.filled xs.length ≤ k then none
      else xs[s.left + k]? := by
  obtain rfl : index = (s.left + k : Nat) := by omega
  have left : ¬ s.left + k < s.left := by omega
  have inside : s.left + k < s.left + s.optional := by omega
  simp only [pick?, position?, left, inside, if_false, if_true, Nat.add_sub_cancel_left]
  repeat' split
  all_goals rfl

theorem pick?_behind (xs : List Val) (i : Nat) {index : Int}
    (here : index = s.left + s.optional + i) :
    s.pick? xs index = xs[s.left + s.filled xs.length + i]? := by
  obtain rfl : index = (s.left + s.optional + i : Nat) := by omega
  have total := s.filled_add_unfilled xs.length
  have left : ¬ s.left + s.optional + i < s.left := by omega
  have inside : ¬ s.left + s.optional + i < s.left + s.optional := by omega
  have place : s.left + s.optional + i - s.unfilled xs.length =
      s.left + s.filled xs.length + i := by omega
  simp only [pick?, position?, left, inside, if_false, place, Option.bind_some]

/-- The end of the window that negative indices count back from. -/
def anchor (s : Shape) (count : Nat) : Nat := max count s.total - s.unfilled count

theorem pick?_right (xs : List Val) {i : Nat} (bound : i < s.right) :
    s.pick? xs (-s.right + i) = xs[s.anchor xs.length - s.right + i]? := by
  have enough : s.right ≤ s.anchor xs.length := by
    simp only [anchor, total, unfilled]
    omega
  have index : -(s.right : Int) + i = Int.negSucc (s.right - i - 1) := by omega
  have inside : s.right - i - 1 < s.anchor xs.length := by omega
  have place : s.anchor xs.length - (s.right - i - 1 + 1) = s.anchor xs.length - s.right + i := by
    omega
  rw [index]
  simp only [pick?, position?]
  change (if s.right - i - 1 < s.anchor xs.length then
    some (s.anchor xs.length - (s.right - i - 1 + 1)) else none).bind (xs[·]?) = _
  rw [if_pos inside, place, Option.bind_some]

/-! ## Runs of parameters -/

section
variable (reached : subject.descend rt outer = some (.sequence vals))
  (split : s.Positional outer vals positional) (absent : default ∉ positional)
include reached split

theorem reads_span (start : Int) (count : Nat) :
    s.reads rt subject outer default (span start count) =
      (List.range count).map fun i => (s.pick? positional (start + (i : Nat))).getD default := by
  simp only [reads, span, List.map_map, Function.comp_def, bind_eq reached split]

theorem reads_defaults {start : Int} {count : Nat}
    (each : ∀ i < count, s.pick? positional (start + (i : Nat)) = none) :
    (s.reads rt subject outer default (span start count)).filter (· ≠ default) = [] := by
  rw [reads_span reached split]
  refine List.filter_eq_nil_iff.mpr fun v member => ?_
  obtain ⟨i, bound, rfl⟩ := List.mem_map.mp member
  simp [each i (List.mem_range.mp bound)]

include absent

theorem reads_window (base : Nat) {start : Int} {count : Nat}
    (each : ∀ i < count, s.pick? positional (start + (i : Nat)) = positional[base + i]?) :
    (s.reads rt subject outer default (span start count)).filter (· ≠ default) =
      (positional.drop base).take count := by
  rw [reads_span reached split, ← window absent]
  congr 1
  refine List.map_congr_left fun i member => ?_
  rw [each i (List.mem_range.mp member)]

theorem reads_left :
    (s.reads rt subject outer default (span 0 s.left)).filter (· ≠ default) =
      positional.take s.left := by
  rw [reads_window reached split absent 0 fun i bound => ?_, List.drop_zero]
  rw [Int.zero_add, pick?_left _ bound, Nat.zero_add]

/-- The optional parameters that are filled stand together, at either end of their run. -/
theorem reads_optional :
    (s.reads rt subject outer default (span s.left s.optional)).filter (· ≠ default) =
      (positional.drop s.left).take (s.filled positional.length) := by
  have total := s.filled_add_unfilled positional.length
  have parts (first second : Nat) (whole : first + second = s.optional) :
      (s.reads rt subject outer default (span s.left s.optional)).filter (· ≠ default) =
        (s.reads rt subject outer default (span s.left first)).filter (· ≠ default) ++
        (s.reads rt subject outer default (span (s.left + first) second)).filter (· ≠ default) := by
    rw [← whole, span_add, reads, List.map_append, List.filter_append]
    rfl
  cases direction : s.rightToLeft with
  | false =>
    rw [parts _ _ total, reads_window reached split absent s.left fun i bound => ?_,
      reads_defaults reached split fun i bound => ?_, List.append_nil]
    · rw [pick?_optional positional (k := s.filled positional.length + i) (by omega) (by omega),
        direction, if_neg Bool.false_ne_true, if_pos (Nat.le_add_right ..)]
    · rw [pick?_optional positional (k := i) (by omega) rfl, direction,
        if_neg Bool.false_ne_true, if_neg (Nat.not_le.mpr bound)]
  | true =>
    rw [parts _ _ (Nat.add_comm .. ▸ total), reads_defaults reached split fun i bound => ?_,
      reads_window reached split absent s.left fun i bound => ?_, List.nil_append]
    · rw [pick?_optional positional (k := s.unfilled positional.length + i) (by omega) (by omega),
        direction, if_pos rfl, if_neg (by omega), Nat.add_sub_cancel_left]
    · rw [pick?_optional positional (k := i) (by omega) rfl, direction, if_pos rfl, if_pos bound]

theorem reads_behind :
    (s.reads rt subject outer default (span (s.left + s.optional) s.right)).filter (· ≠ default) =
      (positional.drop (s.left + s.filled positional.length)).take s.right :=
  reads_window reached split absent _ fun i _ => pick?_behind positional i rfl

theorem reads_right :
    (s.reads rt subject outer default (span (-s.right) s.right)).filter (· ≠ default) =
      (positional.drop (s.anchor positional.length - s.right)).take s.right :=
  reads_window reached split absent _ fun _ bound => pick?_right positional bound

end

/-! ## The whole list -/

theorem splatElements_eq (reached : subject.descend rt outer = some (.sequence vals))
    (split : s.Positional outer vals positional) (start : Nat) :
    s.splatElements rt subject (outer ++ [(start : Int)]) =
      (positional.take (positional.length - s.right)).drop start := by
  simp only [splatElements, List.getLast?_concat, List.dropLast_concat, reached, split.eq,
    Int.toNat_natCast]

/-- A splat is collected into a new array. -/
theorem step_bindSplat {η : Type} (wf : rt.heap.WellFormed) (s : Shape) (subject : Subject)
    (path : List Int) (caller : Machine.Caller η) (unwinding : Bool) (host : η) :
    ∃ r after, Machine.step caller unwinding (Program.bindSplat s subject path) rt host =
        .ended (.value r) after host ∧
      after.elements? r = some (s.splatElements rt subject path).toArray := by
  let made := rt.alloc (.array CoreClass.array.ref (s.splatElements rt subject path).toArray)
  refine ⟨made.1, made.2, rfl, ?_⟩
  simp only [Runtime.elements?, made, Runtime.cell?_alloc_self wf]

theorem anchor_of_enough {count : Nat} (enough : s.required ≤ count) : s.anchor count = count := by
  simp only [anchor, total, unfilled, filled, required] at enough ⊢
  omega

theorem anchor_of_few {count : Nat} (few : count < s.required) : s.anchor count = s.required := by
  simp only [anchor, total, unfilled, filled, required] at few ⊢
  omega

theorem filled_of_few {count : Nat} (few : count < s.required) : s.filled count = 0 := by
  rw [filled, Nat.sub_eq_zero_of_le (Nat.le_of_lt few), Nat.zero_min]

/-- The splat and the parameters on the right bind what the left and the filled optional
parameters leave over: the splat is empty unless every optional parameter is filled. -/
theorem windows_with_splat (s : Shape) (xs : List Val) :
    xs.take s.left ++ (xs.drop s.left).take (s.filled xs.length) ++
      ((xs.take (xs.length - s.right)).drop (s.left + s.optional) ++
        (xs.drop (s.anchor xs.length - s.right)).take s.right) = xs := by
  rw [← List.take_add, List.drop_take]
  obtain few | enough := Nat.lt_or_ge xs.length s.required
  · have short : xs.length ≤ s.left + s.right := Nat.le_of_lt few
    have none : xs.length - s.right - (s.left + s.optional) = 0 := by omega
    rw [none, List.take_zero, List.nil_append, s.anchor_of_few few, filled_of_few few, required,
      Nat.add_sub_cancel, Nat.add_zero, ← List.take_add, List.take_of_length_le short]
  · have room : s.left + s.right ≤ xs.length := enough
    have right : (xs.drop (xs.length - s.right)).take s.right = xs.drop (xs.length - s.right) :=
      List.take_of_length_le (by rw [List.length_drop]; omega)
    rw [s.anchor_of_enough enough, right]
    obtain all | some := Nat.le_total s.optional (xs.length - s.required)
    · -- The splat runs from the last optional parameter to the first one on the right.
      have bound : s.left + s.optional ≤ xs.length - s.right := by
        simp only [required] at all
        omega
      have middle : s.left + s.optional + (xs.length - s.right - (s.left + s.optional)) =
          xs.length - s.right := by omega
      rw [filled, Nat.min_eq_right all, ← List.append_assoc, ← List.take_add, middle,
        List.take_append_drop]
    · have bound : xs.length - s.right - (s.left + s.optional) = 0 := by
        simp only [required] at some
        omega
      have ending : s.left + (xs.length - s.required) = xs.length - s.right := by
        simp only [required]
        omega
      rw [filled, Nat.min_eq_left some, bound, List.take_zero, List.nil_append, ending,
        List.take_append_drop]

/-- Without a splat, the parameters on the right follow the filled optional ones. They bind all
that is left, unless there are more elements than parameters. -/
theorem windows_without_splat (s : Shape) (xs : List Val) :
    xs.take s.left ++ (xs.drop s.left).take (s.filled xs.length) ++
      (xs.drop (s.left + s.filled xs.length)).take s.right = xs.take s.total := by
  rw [← List.take_add, ← List.take_add]
  obtain fits | spare := Nat.le_total xs.length s.total
  · have ending : xs.length ≤ s.left + s.filled xs.length + s.right := by
      simp only [filled, required, total] at fits ⊢
      omega
    rw [List.take_of_length_le fits, List.take_of_length_le ending]
  · have all : s.left + s.filled xs.length + s.right = s.total := by
      simp only [filled, required, total] at spare ⊢
      omega
    rw [all]

section
variable (reached : subject.descend rt outer = some (.sequence vals))
  (split : s.Positional outer vals positional) (absent : default ∉ positional)
include reached split absent

/-- A parameter that stands for an element binds it, and the others the default. -/
theorem bind_ne_default_iff (index : Int) :
    s.bind rt subject (outer ++ [index]) default ≠ default ↔
      (s.pick? positional index).isSome := by
  rw [bind_eq reached split]
  cases found : s.pick? positional index with
  | none => simp
  | some v =>
    obtain ⟨place, -, here⟩ := Option.bind_eq_some_iff.mp found
    have apart : v ≠ default := fun same => absent (same ▸ List.mem_of_getElem? here)
    simp [apart]

theorem optional_bound_iff {k : Nat} (bound : k < s.optional) :
    s.bind rt subject (outer ++ [(s.left + k : Int)]) default ≠ default ↔
      if s.rightToLeft then s.unfilled positional.length ≤ k
      else k < s.filled positional.length := by
  have total := s.filled_add_unfilled positional.length
  have enough : s.filled positional.length = 0 ∨
      s.left + s.filled positional.length ≤ positional.length := by
    simp only [filled, required]
    omega
  rw [bind_ne_default_iff reached split absent, pick?_optional positional bound rfl]
  cases s.rightToLeft with
  | false =>
    simp only [Bool.false_eq_true, if_false]
    split
    next unfilled => simp only [Option.isSome_none, Bool.false_eq_true, false_iff]; omega
    next => rw [isSome_getElem?]; omega
  | true =>
    simp only [if_true]
    split
    next unfilled => simp only [Option.isSome_none, Bool.false_eq_true, false_iff]; omega
    next => rw [isSome_getElem?]; omega

theorem optional_bound :
    ((List.range s.optional).filter fun k : Nat =>
      s.bind rt subject (outer ++ [(s.left + k : Int)]) default ≠ default) =
      if s.rightToLeft then
        List.range' (s.unfilled positional.length) (s.filled positional.length)
      else List.range (s.filled positional.length) := by
  have total := s.filled_add_unfilled positional.length
  have each (k : Nat) (member : k ∈ List.range s.optional) :=
    optional_bound_iff reached split absent (List.mem_range.mp member)
  cases direction : s.rightToLeft with
  | false =>
    simp only [direction, Bool.false_eq_true, if_false] at each ⊢
    rw [List.filter_congr (q := (· < s.filled positional.length)) fun k member =>
        decide_eq_decide.mpr (each k member), ← total, List.range_add, List.filter_append,
      List.filter_eq_self.mpr, List.filter_eq_nil_iff.mpr, List.append_nil]
    · simp
    · simp
  | true =>
    simp only [direction, if_true] at each ⊢
    rw [List.filter_congr (q := (s.unfilled positional.length ≤ ·)) fun k member =>
        decide_eq_decide.mpr (each k member), ← total, Nat.add_comm, List.range_add,
      List.filter_append, List.filter_eq_nil_iff.mpr, List.filter_eq_self.mpr, List.nil_append,
      List.range'_eq_map_range]
    · simp
    · simp

theorem required_bound (enough : s.required ≤ positional.length) :
    default ∉ s.reads rt subject outer default (span 0 s.left) ∧
    default ∉ s.reads rt subject outer default (span (s.left + s.optional) s.right) ∧
    default ∉ s.reads rt subject outer default (span (-s.right) s.right) := by
  have room : s.left + s.filled positional.length + s.right ≤ positional.length := by
    simp only [filled, required] at enough ⊢
    omega
  have all (base : Nat) {start : Int} {count : Nat} (fits : base + count ≤ positional.length)
      (each : ∀ i < count, s.pick? positional (start + (i : Nat)) = positional[base + i]?) :
      default ∉ s.reads rt subject outer default (span start count) := by
    rw [reads_span reached split, List.mem_map]
    rintro ⟨i, member, same⟩
    have bound := List.mem_range.mp member
    have here : base + i < positional.length := by omega
    rw [each i bound, List.getElem?_eq_getElem here, Option.getD_some] at same
    exact absent (same ▸ List.getElem_mem here)
  refine ⟨all 0 (by omega) fun i bound => ?_,
    all _ room fun i _ => pick?_behind positional i rfl,
    all (s.anchor positional.length - s.right) ?_
      fun _ bound => pick?_right positional bound⟩
  · rw [Int.zero_add, pick?_left _ bound, Nat.zero_add]
  · rw [s.anchor_of_enough enough]
    simp only [required] at enough
    omega

end

/-- The parameters of a list share out the positional elements. With a splat, what they bind, read
in order, is all of them, also when the path is followed again after the splat was collected; without
one it is as many as there are parameters. As many optional parameters are filled as the required
ones leave over, on the left or, filling from the right, on the right. No required parameter goes
without an element when there are enough. -/
theorem parameters_share_out {η : Type} (wf : rt.heap.WellFormed)
    (reached : subject.descend rt outer = some (.sequence vals))
    (split : s.Positional outer vals positional) (absent : default ∉ positional)
    (caller : Machine.Caller η) (unwinding : Bool) (host : η) :
    (∃ r after splat, Machine.step caller unwinding
        (Program.bindSplat s subject (outer ++ [((s.left + s.optional : Nat) : Int)])) rt host =
          .ended (.value r) after host ∧
      after.elements? r = some splat ∧
      ∀ rt', subject.descend rt' outer = some (.sequence vals) →
        (s.reads rt subject outer default (span 0 s.left) ++
          s.reads rt subject outer default (span s.left s.optional) ++ splat.toList ++
          s.reads rt' subject outer default (span (-s.right) s.right)).filter (· ≠ default) =
            positional) ∧
    (s.reads rt subject outer default (span 0 s.total)).filter (· ≠ default) =
      positional.take (min positional.length s.total) ∧
    (let filled := min s.optional (positional.length - (s.left + s.right));
      List.filter (fun k : Nat => s.bind rt subject (outer ++ [(s.left + k : Int)]) default ≠ default)
          (List.range s.optional) =
        if s.rightToLeft then List.range' (s.optional - filled) filled else List.range filled) ∧
    (s.left + s.right ≤ positional.length →
      default ∉ s.reads rt subject outer default (span 0 s.left) ∧
      default ∉ s.reads rt subject outer default (span (s.left + s.optional) s.right) ∧
      default ∉ s.reads rt subject outer default (span (-s.right) s.right)) := by
  refine ⟨?splat, ?plain, ?optional, required_bound reached split absent⟩
  case splat =>
    obtain ⟨r, after, ended, collected⟩ := step_bindSplat wf s subject
      (outer ++ [((s.left + s.optional : Nat) : Int)]) caller unwinding host
    refine ⟨r, after, _, ended, collected, fun rt' again => ?_⟩
    have kept (v : Val) (member : v ∈ (positional.take (positional.length - s.right)).drop
        (s.left + s.optional)) : decide (v ≠ default) = true :=
      decide_eq_true fun same =>
        absent (same ▸ List.mem_of_mem_take (List.mem_of_mem_drop member))
    rw [List.toList_toArray, splatElements_eq reached split, List.filter_append,
      List.filter_append, List.filter_append, reads_left reached split absent,
      reads_optional reached split absent, reads_right again split absent,
      List.filter_eq_self.mpr kept, List.append_assoc (_ ++ _), windows_with_splat]
  case plain =>
    have parts : span 0 s.total =
        span 0 s.left ++ span s.left s.optional ++ span (s.left + s.optional) s.right := by
      rw [total, span_add, span_add, Int.zero_add]
      simp
    rw [parts, reads, List.map_append, List.map_append, List.filter_append, List.filter_append]
    change (s.reads _ _ _ _ _).filter _ ++ (s.reads _ _ _ _ _).filter _ ++
      (s.reads _ _ _ _ _).filter _ = _
    rw [reads_left reached split absent, reads_optional reached split absent,
      reads_behind reached split absent, windows_without_splat, Nat.min_comm, List.take_eq_take_min]
  case optional =>
    rw [optional_bound reached split absent]
    simp only [unfilled, filled, required, Nat.min_comm]

/-- One parameter on either side, two optional ones and a splat, for five values and a table of
keywords: the optional parameters bind the second value and the third, the splat the fourth. -/
def spread : Shape :=
  { source := .callArguments, left := 1, optional := 2, right := 1, splat := true, keywords := true }

def spreading : List Val := [.int 1, .int 2, .int 3, .int 4, .int 5]

theorem five_share_out :
    ((Subject.arguments (spreading ++ [.table ⟨38, 0⟩])).descend (Runtime.boot {}) [] =
        some (.sequence (spreading ++ [.table ⟨38, 0⟩])) ∧
      spread.Positional [] (spreading ++ [.table ⟨38, 0⟩]) spreading ∧
      Val.nil ∉ spreading) ∧
    (spread.reads (Runtime.boot {}) (.arguments (spreading ++ [.table ⟨38, 0⟩])) [] .nil
      (span 0 4)).filter (· ≠ .nil) = spreading.take 4 :=
  have reached : (Subject.arguments (spreading ++ [.table ⟨38, 0⟩])).descend (Runtime.boot {}) [] =
      some (.sequence (spreading ++ [.table ⟨38, 0⟩])) := rfl
  have split : spread.Positional [] (spreading ++ [.table ⟨38, 0⟩]) spreading :=
    .keywords spreading ⟨38, 0⟩ rfl rfl rfl
  have absent : Val.nil ∉ spreading := by decide
  ⟨⟨reached, split, absent⟩,
    (parameters_share_out (Runtime.intact_boot {}).sound.heap reached split absent
      (fun _ _ rt host => .ended (.value .nil) rt host) false ()).2.1⟩

end ObjectRuntime.Shape
