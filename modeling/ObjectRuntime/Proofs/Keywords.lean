import ObjectRuntime.Proofs.Binding
import ObjectRuntime.Proofs.Running

/-! The table of keywords that the arguments of a call end in. No parameter is bound to it, and
parameters bind what they would bind without it, however deep in nested arrays they stand. Only a
path that goes through the table itself, or that counts its first index from the end, can tell. -/

namespace ObjectRuntime.Shape

/-- A value is among others, or in an array that is. -/
inductive Occurs (rt : Runtime) (v : Val) : List Val → Prop
  | here {vals : List Val} (member : v ∈ vals) : Occurs rt v vals
  | inside {vals : List Val} {a : Ref} {elements : Array Val} (member : .array a ∈ vals)
      (found : rt.elements? a = some elements) (within : Occurs rt v elements.toList) :
      Occurs rt v vals

/-- A path goes into the element that follows `count` others, from either end, and stays there. -/
def Enters (count : Nat) : List Int → Prop
  | first :: second :: rest =>
    (first = count ∨ first = -1) ∧ ∀ index ∈ second :: rest, index = 0
  | _ => False

/-- A path goes into a nested array that it finds from the end. -/
def CountsBack : List Int → Prop
  | first :: _ :: _ => first < 0
  | _ => False

/-- The shape for arguments that have no keywords among them. -/
def withoutKeywords (s : Shape) : Shape := { s with keywords := false }

/-- What a splat is collected into, wherever it is. -/
def Collects (s : Shape) (rt : Runtime) (subject : Subject) (path : List Int)
    (collected : Array Val) : Prop :=
  ∀ {η : Type} (caller : Machine.Caller η) (unwinding : Bool) (host : η), ∃ r after,
    Machine.step caller unwinding (Program.bindSplat s subject path) rt host =
      .ended (.value r) after host ∧ after.elements? r = some collected

/-- What a level shows, at any depth, does not include a value. -/
def Hides (rt : Runtime) (v : Val) : Level → Prop
  | .sequence vals => ¬ Occurs rt v vals
  | .scalar w => w ≠ v

variable {s : Shape} {rt : Runtime} {subject : Subject} {args vals : List Val} {v : Val} {r : Ref}
  {path outer : List Int} {level inner : Level}

/-! ## Descending -/

theorem not_occurs_nil (v : Val) : ¬ Occurs rt v [] := by
  rintro (member | ⟨member, _, _⟩)
  all_goals exact nomatch member

theorem hides_ofVal (hidden : ¬ Occurs rt v vals) {w : Val} (member : w ∈ vals) :
    Hides rt v (.ofVal rt w) := by
  unfold Level.ofVal
  split
  next a =>
    cases found : rt.elements? a with
    | none => exact not_occurs_nil v
    | some elements => exact fun within => hidden (.inside member found within)
  next => exact fun same => hidden (.here (same ▸ member))

theorem hides_enter (hidden : Hides rt v level) {index : Int}
    (entered : level.enter rt index = some inner) : Hides rt v inner := by
  cases level with
  | sequence vals =>
    simp only [Level.enter, Option.ite_none_left_eq_some] at entered
    obtain ⟨w, found, rfl⟩ := Option.map_eq_some_iff.mp entered.2
    exact hides_ofVal hidden (List.mem_of_getElem? found)
  | scalar w =>
    simp only [Level.enter, Option.ite_none_right_eq_some, Option.some.injEq] at entered
    exact entered.2 ▸ hidden

theorem hides_descent (hidden : Hides rt v level)
    (descended : outer.foldlM (Level.enter rt) level = some inner) : Hides rt v inner := by
  induction outer generalizing level with
  | nil => exact Option.some.inj descended ▸ hidden
  | cons index rest ih =>
    obtain ⟨next, entered, onward⟩ := Option.bind_eq_some_iff.mp descended
    exact ih (hides_enter hidden entered) onward

/-- A scalar can be entered at index zero only. -/
theorem descent_scalar (v : Val) (outer : List Int) :
    outer.foldlM (Level.enter rt) (.scalar v) =
      if ∀ index ∈ outer, index = 0 then some (Level.scalar v) else none := by
  induction outer with
  | nil => rfl
  | cons index rest ih =>
    rw [List.foldlM_cons, Level.enter]
    split
    next zero => simp [ih, zero]
    next other => simp [other]

/-- The last element of a sequence is entered from either end, and the others as if it were not
there. -/
theorem enter_last (args : List Val) (r : Ref) (first : Int) :
    (Level.sequence (args ++ [.table r])).enter rt first =
      if first = args.length ∨ first = -1 then some (.scalar (.table r))
      else (Level.sequence args).enter rt (if first < 0 then first + 1 else first) := by
  have shown : Level.ofVal rt (.table r) = .scalar (.table r) := rfl
  have last : (args ++ [.table r])[args.length]? = some (.table r) := by simp
  simp only [Level.enter, List.length_append, List.length_singleton]
  obtain negative | forward := Int.lt_or_le first 0
  · have place : ((args.length + 1 : Nat) : Int) + first = args.length + (first + 1) := by omega
    rw [if_pos negative, if_pos negative, place]
    obtain rfl | before : first = -1 ∨ first < -1 := by omega
    · simp [shown]
    · have other : ¬ (first = args.length ∨ first = -1) := by omega
      have back : first + 1 < 0 := by omega
      rw [if_neg other, if_pos back]
      split
      next => rfl
      next reached => rw [List.getElem?_append_left (by omega)]
  · obtain ⟨place, rfl⟩ := Int.eq_ofNat_of_zero_le forward
    have behind : ¬ (place : Int) < 0 := Int.not_lt.mpr forward
    simp only [if_neg behind, Int.toNat_natCast]
    obtain rfl | other := Decidable.em (place = args.length)
    · simp [shown]
    · have apart : ¬ ((place : Int) = args.length ∨ (place : Int) = -1) := by omega
      rw [if_neg apart]
      congr 1
      obtain within | beyond := Nat.lt_or_gt_of_ne other
      · exact List.getElem?_append_left within
      · rw [List.getElem?_eq_none (by simp; omega), List.getElem?_eq_none (by omega)]

theorem empty_or_ends (path : List Int) : path = [] ∨ ∃ outer last, path = outer ++ [last] := by
  simpa only [List.concat_eq_append] using List.eq_nil_or_concat path

theorem enters_iff (count : Nat) (first last : Int) (rest : List Int) :
    Enters count (first :: (rest ++ [last])) ↔
      (first = count ∨ first = -1) ∧ (∀ index ∈ rest, index = 0) ∧ last = 0 := by
  cases rest <;> simp [Enters, and_assoc, or_imp, forall_and]

theorem countsBack_iff (first last : Int) (rest : List Int) :
    CountsBack (first :: (rest ++ [last])) ↔ first < 0 := by
  cases rest <;> exact Iff.rfl

theorem descend_cons (shown : subject.level rt = level) (first : Int) (rest : List Int) :
    subject.descend rt (first :: rest) =
      (level.enter rt first).bind (rest.foldlM (Level.enter rt) ·) := by
  subst shown
  rfl

theorem descend_arguments (args : List Val) (first : Int) (rest : List Int) :
    (Subject.arguments args).descend rt (first :: rest) =
      ((Level.sequence args).enter rt first).bind (rest.foldlM (Level.enter rt) ·) :=
  descend_cons rfl first rest

/-- Where a path leads: into the last element and no further, or among the others. -/
theorem descend_last (listed : subject.level rt = .sequence (args ++ [.table r])) (first : Int)
    (rest : List Int) :
    subject.descend rt (first :: rest) =
      if first = args.length ∨ first = -1 then
        if ∀ index ∈ rest, index = 0 then some (.scalar (.table r)) else none
      else (Subject.arguments args).descend rt
        ((if first < 0 then first + 1 else first) :: rest) := by
  rw [descend_cons listed, descend_arguments, enter_last]
  split
  next => exact descent_scalar _ rest
  next => rfl

theorem descend_beyond (args : List Val) (rest : List Int) :
    (Subject.arguments args).descend rt (args.length :: rest) = none := by
  have forward : ¬ (args.length : Int) < 0 := by omega
  have none : (Level.sequence args).enter rt args.length = none := by
    simp only [Level.enter, if_neg forward, Int.toNat_natCast,
      List.getElem?_eq_none (Nat.le_refl _), Option.map_none]
  rw [descend_arguments, none, Option.bind_none]

/-- From the front, a path leads where it leads if the last element is not there, or into it. -/
theorem descend_forward (listed : subject.level rt = .sequence (args ++ [.table r]))
    {first : Int} (forward : ¬ first < 0) (rest : List Int) :
    subject.descend rt (first :: rest) = (Subject.arguments args).descend rt (first :: rest) ∨
      (Subject.arguments args).descend rt (first :: rest) = none ∧
        subject.descend rt (first :: rest) =
          if first = args.length ∧ ∀ index ∈ rest, index = 0 then some (.scalar (.table r))
          else none := by
  have led := descend_last listed first rest
  rw [if_neg forward] at led
  split at led
  next last =>
    obtain rfl : first = args.length := by omega
    exact .inr ⟨descend_beyond args rest, by simpa using led⟩
  next => exact .inl led

/-! ## Single parameters and splats -/

theorem positional_nested (s : Shape) (vals : List Val) : s.positional vals false = vals := by
  unfold positional
  split <;> simp

theorem positional_plain (s : Shape) {vals : List Val}
    (plain : ∀ q, vals.getLast? ≠ some (.table q)) (outermost : Bool) :
    s.positional vals outermost = vals := by
  unfold positional
  split
  next q last => exact absurd last (plain q)
  next => rfl

theorem pick?_mem {xs : List Val} {index : Int} (picked : s.pick? xs index = some v) : v ∈ xs :=
  have ⟨_, _, found⟩ := Option.bind_eq_some_iff.mp picked
  List.mem_of_getElem? found

theorem mem_of_splat {start : Nat} {finish : Nat} (taken : v ∈ (vals.take finish).drop start) :
    v ∈ vals :=
  List.mem_of_mem_take (List.mem_of_mem_drop taken)

theorem collects (wf : rt.heap.WellFormed) (s : Shape) (subject : Subject) (path : List Int) :
    s.Collects rt subject path (s.splatElements rt subject path).toArray :=
  fun caller unwinding host => step_bindSplat wf s subject path caller unwinding host

theorem bind_ne {default : Val} (apart : default ≠ v) {last : Int}
    (sequences : ∀ vals, subject.descend rt outer = some (.sequence vals) →
      v ∉ s.positional vals outer.isEmpty)
    (scalars : subject.descend rt outer = some (.scalar v) → last ≠ 0) :
    s.bind rt subject (outer ++ [last]) default ≠ v := by
  simp only [bind, List.getLast?_concat, List.dropLast_concat]
  split
  next => exact apart
  next w reached =>
    split
    next first => exact fun same => scalars (same ▸ reached) first
    next => exact apart
  next vals reached =>
    cases picked : s.pick? (s.positional vals outer.isEmpty) last with
    | none => exact apart
    | some w => exact fun same => sequences vals reached (same ▸ pick?_mem picked)

theorem not_mem_splat {last : Int}
    (sequences : ∀ vals, subject.descend rt outer = some (.sequence vals) →
      v ∉ s.positional vals outer.isEmpty) :
    v ∉ s.splatElements rt subject (outer ++ [last]) := by
  simp only [splatElements, List.getLast?_concat, List.dropLast_concat]
  split
  next vals reached => exact fun taken => sequences vals reached (mem_of_splat taken)
  next => exact List.not_mem_nil

theorem positional_withoutKeywords (s : Shape) (vals : List Val) (outermost : Bool) :
    s.withoutKeywords.positional vals outermost = vals := by
  unfold positional
  split <;> simp [takesKeywords, withoutKeywords]

section
variable (enabled : s.keywords = true) (call : s.source = .callArguments)
  (listed : subject.level rt = .sequence (args ++ [.table r]))

include enabled call in
theorem positional_keywords (args : List Val) (r : Ref) :
    s.positional (args ++ [.table r]) true = args :=
  have split : s.Positional [] (args ++ [.table r]) args := .keywords args r enabled call rfl
  split.eq

section
variable (alone : ¬ Occurs rt (.table r) args)
include alone

theorem hides_arguments {inner : Level}
    (reached : (Subject.arguments args).descend rt outer = some inner) :
    Hides rt (.table r) inner :=
  have hidden : Hides rt (.table r) (.sequence args) := alone
  hides_descent hidden reached

include listed

theorem scalar_reached (reached : subject.descend rt outer = some (.scalar (.table r))) :
    ∃ first rest, outer = first :: rest ∧ (first = args.length ∨ first = -1) ∧
      ∀ index ∈ rest, index = 0 := by
  cases outer with
  | nil => exact nomatch (Option.some.inj reached).symm.trans listed
  | cons first rest =>
    rw [descend_last listed] at reached
    split at reached
    next last =>
      rw [Option.ite_none_right_eq_some] at reached
      exact ⟨first, rest, rfl, last, reached.1⟩
    next => exact absurd rfl (hides_arguments alone reached)

include enabled call

theorem sequence_reached (reached : subject.descend rt outer = some (.sequence vals)) :
    .table r ∉ s.positional vals outer.isEmpty := by
  cases outer with
  | nil =>
    obtain rfl : args ++ [.table r] = vals :=
      Level.sequence.inj (listed.symm.trans (Option.some.inj reached))
    rw [List.isEmpty_nil, positional_keywords enabled call]
    exact fun member => alone (.here member)
  | cons first rest =>
    rw [descend_last listed] at reached
    rw [List.isEmpty_cons, positional_nested]
    split at reached
    next => split at reached <;> exact nomatch reached
    next => exact fun member => hides_arguments alone reached (.here member)

end

include enabled call listed

/-- Of the paths from the front, only those that go into the table tell whether it is there. -/
theorem bind_same {default : Val} (outside : ¬ Enters args.length path)
    (forward : ¬ CountsBack path) :
    s.bind rt subject path default =
      s.withoutKeywords.bind rt (.arguments args) path default := by
  obtain rfl | ⟨outer, last, rfl⟩ := empty_or_ends path
  · rfl
  cases outer with
  | nil =>
    have reached : subject.descend rt [] = some (.sequence (args ++ [.table r])) :=
      congrArg some listed
    have without : (Subject.arguments args).descend rt [] = some (.sequence args) := rfl
    rw [bind_eq reached (.keywords args r enabled call rfl),
      bind_eq without (.all args fun taken => Bool.false_ne_true taken.1)]
    rfl
  | cons first rest =>
    rw [List.cons_append, countsBack_iff] at forward
    rw [List.cons_append, enters_iff] at outside
    simp only [bind, List.getLast?_concat, List.dropLast_concat, List.isEmpty_cons,
      positional_nested]
    obtain same | ⟨lost, ended⟩ := descend_forward listed forward rest
    · rw [same]
      rfl
    · rw [ended, lost]
      obtain ⟨last, zeros⟩ | away :=
        Decidable.em (first = args.length ∧ ∀ index ∈ rest, index = 0)
      · rw [if_pos ⟨last, zeros⟩]
        exact if_neg fun zero => outside ⟨.inl last, zeros, zero⟩
      · rw [if_neg away]

theorem splat_same (forward : ¬ CountsBack path) :
    s.splatElements rt subject path =
      s.withoutKeywords.splatElements rt (.arguments args) path := by
  obtain rfl | ⟨outer, last, rfl⟩ := empty_or_ends path
  · rfl
  cases outer with
  | nil =>
    have reached : subject.descend rt [] = some (.sequence (args ++ [.table r])) :=
      congrArg some listed
    have without : (Subject.arguments args).descend rt [] = some (.sequence args) := rfl
    simp only [splatElements, List.getLast?_concat, List.dropLast_concat, reached, without,
      List.isEmpty_nil, positional_keywords enabled call, positional_withoutKeywords]
    rfl
  | cons first rest =>
    rw [List.cons_append, countsBack_iff] at forward
    simp only [splatElements, List.getLast?_concat, List.dropLast_concat, List.isEmpty_cons,
      positional_nested]
    obtain same | ⟨lost, ended⟩ := descend_forward listed forward rest
    · rw [same]
      rfl
    · rw [ended, lost]
      obtain into | away := Decidable.em (first = args.length ∧ ∀ index ∈ rest, index = 0)
      · rw [if_pos into]
      · rw [if_neg away]

end

/-! ## Lists of arguments -/

theorem positional_arguments (plain : ∀ q, args.getLast? ≠ some (.table q))
    (reached : (Subject.arguments args).descend rt outer = some (.sequence vals)) :
    s.positional vals outer.isEmpty = vals := by
  cases outer with
  | nil =>
    obtain rfl : args = vals := Level.sequence.inj (Option.some.inj reached)
    exact positional_plain s plain true
  | cons first rest => exact positional_nested s vals

theorem bind_plain (plain : ∀ q, args.getLast? ≠ some (.table q)) (default : Val) :
    s.withoutKeywords.bind rt (.arguments args) path default =
      s.bind rt (.arguments args) path default := by
  obtain rfl | ⟨outer, last, rfl⟩ := empty_or_ends path
  · rfl
  simp only [bind, List.getLast?_concat, List.dropLast_concat, positional_withoutKeywords]
  cases reached : (Subject.arguments args).descend rt outer with
  | none => rfl
  | some level =>
    cases level with
    | scalar v => rfl
    | sequence vals =>
      simp only [positional_arguments plain reached]
      rfl

theorem splat_plain (plain : ∀ q, args.getLast? ≠ some (.table q)) :
    s.withoutKeywords.splatElements rt (.arguments args) path =
      s.splatElements rt (.arguments args) path := by
  obtain rfl | ⟨outer, last, rfl⟩ := empty_or_ends path
  · rfl
  simp only [splatElements, List.getLast?_concat, List.dropLast_concat,
    positional_withoutKeywords]
  cases reached : (Subject.arguments args).descend rt outer with
  | none => rfl
  | some level =>
    cases level with
    | scalar v => rfl
    | sequence vals =>
      simp only [positional_arguments plain reached]
      rfl

/-- The table of keywords that arguments end in is never bound to a parameter or collected by a
splat, and each binds what it would bind without that table, under the same shape unless the rest
ends in a table again, which then is an element like the others. Paths that go through the table
itself are left out, and, where the rest is compared, those that find their first array from the
end. -/
theorem keywords_never_bound (wf : rt.heap.WellFormed) (enabled : s.keywords = true)
    (call : s.source = .callArguments)
    (listed : subject.level rt = .sequence (args ++ [.table r]))
    (alone : ¬ Occurs rt (.table r) args) {default : Val} (apart : default ≠ .table r)
    (path : List Int) :
    (¬ Enters args.length path → s.bind rt subject path default ≠ .table r) ∧
    ∃ collected, s.Collects rt subject path collected ∧ .table r ∉ collected ∧
      (¬ CountsBack path → ∀ rest : Shape,
        rest = s.withoutKeywords ∨ rest = s ∧ (∀ q, args.getLast? ≠ some (.table q)) →
        rest.Collects rt (.arguments args) path collected ∧
        (¬ Enters args.length path →
          s.bind rt subject path default = rest.bind rt (.arguments args) path default)) := by
  have hidden (outer : List Int) (vals : List Val)
      (reached : subject.descend rt outer = some (.sequence vals)) :=
    sequence_reached enabled call listed alone reached
  refine ⟨fun outside => ?bound, _, collects wf s subject path, ?collected,
    fun forward rest read => ?rest⟩
  case bound =>
    obtain rfl | ⟨outer, last, rfl⟩ := empty_or_ends path
    · exact apart
    refine bind_ne apart (hidden outer) fun reached zero => ?_
    obtain ⟨first, rest, rfl, into, zeros⟩ := scalar_reached listed alone reached
    rw [List.cons_append, enters_iff] at outside
    exact outside ⟨into, zeros, zero⟩
  case collected =>
    rw [List.mem_toArray]
    obtain rfl | ⟨outer, last, rfl⟩ := empty_or_ends path
    · exact List.not_mem_nil
    · exact not_mem_splat (hidden outer)
  case rest =>
    have same := splat_same enabled call listed forward
    obtain rfl | ⟨rfl, plain⟩ := read
    · rw [same]
      exact ⟨collects wf _ _ path, fun outside => bind_same enabled call listed outside forward⟩
    · rw [same, splat_plain plain]
      exact ⟨collects wf _ _ path, fun outside =>
        (bind_same enabled call listed outside forward).trans (bind_plain plain default)⟩

/-- Two tables and an array, for the arguments of a call. -/
def calling : Runtime :=
  (Runtime.boot {}).after
    [.act (.newTable CoreClass.hash.ref), .act (.newArray CoreClass.array.ref [.int 2, .int 3]),
      .act (.newTable CoreClass.hash.ref)]

def pair : Shape := { source := .callArguments, left := 2, keywords := true }

def nested : List Val := [.int 1, .array ⟨39, 0⟩]

theorem nested_without_keywords :
    (calling.heap.WellFormed ∧ pair.keywords = true ∧ pair.source = .callArguments ∧
      (Subject.arguments (nested ++ [.table ⟨38, 0⟩])).level calling =
        .sequence (nested ++ [.table ⟨38, 0⟩]) ∧
      ¬ Occurs calling (.table ⟨38, 0⟩) nested ∧ Val.nil ≠ .table ⟨38, 0⟩) ∧
    pair.bind calling (.arguments (nested ++ [.table ⟨38, 0⟩])) [1, 1] .nil =
      pair.bind calling (.arguments nested) [1, 1] .nil ∧
    pair.bind calling (.arguments nested) [1, 1] .nil = .int 3 := by
  have wf : calling.heap.WellFormed :=
    Runtime.wellFormed_after _ (Runtime.intact_boot {}).sound.heap
  have elements : calling.elements? ⟨39, 0⟩ = some #[.int 2, .int 3] := by decide +kernel
  have alone : ¬ Occurs calling (.table ⟨38, 0⟩) nested := by
    rintro (member | ⟨member, found, within⟩)
    · exact absurd member (by decide)
    · obtain rfl : _ = (⟨39, 0⟩ : Ref) := by simpa [nested] using member
      cases elements.symm.trans found
      obtain member | ⟨member, -, -⟩ := within
      · exact absurd member (by decide)
      · simp at member
  have listed : (Subject.arguments (nested ++ [.table ⟨38, 0⟩])).level calling =
      .sequence (nested ++ [.table ⟨38, 0⟩]) := rfl
  have apart : Val.nil ≠ .table ⟨38, 0⟩ := by decide
  obtain ⟨-, _, -, -, same⟩ :=
    keywords_never_bound (s := pair) wf rfl rfl listed alone apart [1, 1]
  exact ⟨⟨wf, rfl, rfl, listed, alone, apart⟩,
    (same (by simp [CountsBack]) pair (.inr ⟨rfl, by simp [nested]⟩)).2 (by simp [Enters, nested]),
    by decide +kernel⟩

def single : Shape := { source := .callArguments, left := 1, keywords := true }

/-- Without the table of keywords that it ends in, a list of two tables ends in keywords again,
which are not bound. And a path that goes through the keywords finds them. -/
theorem bound_differently :
    (¬ Occurs calling (.table ⟨38, 0⟩) [.table ⟨40, 0⟩] ∧
      single.bind calling (.arguments ([.table ⟨40, 0⟩] ++ [.table ⟨38, 0⟩])) [0] .nil ≠
        single.bind calling (.arguments [.table ⟨40, 0⟩]) [0] .nil) ∧
    ¬ Occurs calling (.table ⟨38, 0⟩) [.int 1] ∧
      pair.bind calling (.arguments ([.int 1] ++ [.table ⟨38, 0⟩])) [1, 0] .nil =
        .table ⟨38, 0⟩ := by
  have flat {v w : Val} (plain : ∀ a, w ≠ .array a) (apart : v ≠ w) :
      ¬ Occurs calling v [w] := by
    rintro (member | ⟨member, -, -⟩)
    · exact apart (List.mem_singleton.mp member)
    · exact plain _ (List.mem_singleton.mp member).symm
  exact ⟨⟨flat (by simp) (by simp), by decide +kernel⟩, flat (by simp) (by simp),
    by decide +kernel⟩

end ObjectRuntime.Shape
