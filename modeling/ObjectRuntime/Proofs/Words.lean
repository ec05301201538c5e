import Mathlib.Algebra.Group.Nat.Defs
import ObjectRuntime.Proofs.Keywords

/-! Binding with machine words. Counts and lengths are unsigned words, the indices of a path signed
ones, and an operation whose result does not fit, or a slice that leaves its list, is a fault. As long
as counts and lengths are no more than the greatest signed word, no index whatever leads to a fault,
and what is bound is what the numbers themselves give. -/

namespace ObjectRuntime

namespace Shape

/-- An index that counts back counts from the end of the window. -/
theorem pick?_back (s : Shape) (xs : List Val) {index : Int} (back : index < 0) :
    s.pick? xs index =
      if s.anchor xs.length + index < 0 then none
      else xs[(s.anchor xs.length + index).toNat]? := by
  obtain ⟨n, rfl⟩ := Int.eq_negSucc_of_lt_zero back
  simp only [pick?, position?]
  change (if n < s.anchor xs.length then some (s.anchor xs.length - (n + 1)) else none).bind (xs[·]?)
    = _
  split
  next inside =>
    have place : (s.anchor xs.length + Int.negSucc n).toNat = s.anchor xs.length - (n + 1) := by
      omega
    rw [if_neg (by omega), place, Option.bind_some]
  next => rw [if_pos (by omega), Option.bind_none]

theorem positional_prefix (s : Shape) (vals : List Val) (outermost : Bool) :
    s.positional vals outermost <+: vals := by
  unfold positional
  repeat' split
  · exact List.dropLast_prefix vals
  all_goals exact List.prefix_refl vals

/-! ## What is bound -/

/-- What is bound at a path that ends in `last`, and what a splat collects from there on, by what the
indices before lead to. -/
def Leads (s : Shape) (outermost : Bool) (last : Int) (default bound : Val) (collected : List Val) :
    Option Level → Prop
  | none => bound = default ∧ collected = []
  | some (.scalar v) => bound = (if last = 0 then v else default) ∧ collected = []
  | some (.sequence vals) =>
    let positional := s.positional vals outermost
    positional <+: vals ∧ (bound = default ∨ bound ∈ positional) ∧
      collected <:+: positional.take (positional.length - s.right)

theorem leads (s : Shape) (rt : Runtime) (subject : Subject) (default : Val) (outer : List Int)
    (last : Int) : Leads s outer.isEmpty last default (s.bind rt subject (outer ++ [last]) default)
      (s.splatElements rt subject (outer ++ [last])) (subject.descend rt outer) := by
  simp only [bind, splatElements, List.getLast?_concat, List.dropLast_concat]
  cases subject.descend rt outer with
  | none => exact ⟨rfl, rfl⟩
  | some level =>
    cases level with
    | scalar v => exact ⟨rfl, rfl⟩
    | sequence vals =>
      refine ⟨s.positional_prefix vals outer.isEmpty, ?_, (List.drop_suffix ..).isInfix⟩
      simp only
      cases picked : s.pick? (s.positional vals outer.isEmpty) last with
      | none => exact .inl rfl
      | some v => exact .inr (pick?_mem picked)

end Shape

/-- A machine word. A length is read off it without a sign, an index with one. -/
abbrev Word (w : Nat) := BitVec (w + 1)

namespace Word
variable {w : Nat}

/-! ## Operations -/

def add? (a b : Word w) : Option (Word w) := if a.uaddOverflow b then none else some (a + b)

def sub? (a b : Word w) : Option (Word w) := if a.usubOverflow b then none else some (a - b)

def addSigned? (a b : Word w) : Option (Word w) := if a.saddOverflow b then none else some (a + b)

def subOrZero (a b : Word w) : Word w := if a.ult b then 0 else a - b

def least (a b : Word w) : Word w := if a.ult b then a else b

def greatest (a b : Word w) : Word w := if a.ult b then b else a

/-- The number of elements. -/
def size (w : Nat) (vals : List Val) : Word w := .ofNat _ vals.length

def slice? (vals : List Val) (start stop : Word w) : Option (List Val) :=
  if start.ule stop && stop.toNat ≤ vals.length then
    some ((vals.take stop.toNat).drop start.toNat)
  else none

/-! ## The binder -/

def total? (w : Nat) (s : Shape) : Option (Word w) := do
  add? (← add? (.ofNat _ s.left) (.ofNat _ s.optional)) (.ofNat _ s.right)

def required? (w : Nat) (s : Shape) : Option (Word w) := add? (.ofNat _ s.left) (.ofNat _ s.right)

def enter? (rt : Runtime) (index : Word w) : Level → Option (Option Level)
  | .sequence vals => do
    let position ← if index.slt 0 then (size w vals).addSigned? index else some index
    if position.slt 0 then return none
    return (vals[position.toNat]?).map (Level.ofVal rt)
  | .scalar v => some (if index = 0 then some (.scalar v) else none)

def descend? (rt : Runtime) : List (Word w) → Level → Option (Option Level)
  | [], level => some (some level)
  | index :: rest, level => do
    match ← enter? rt index level with
    | some level => descend? rt rest level
    | none => return none

def positionalSize? (w : Nat) (s : Shape) (vals : List Val) (outermost : Bool) : Option (Word w) :=
  match vals.getLast? with
  | some (.cell .table _) =>
    if outermost && s.takesKeywords then (size w vals).sub? 1 else some (size w vals)
  | _ => some (size w vals)

def pick? (s : Shape) (positional : List Val) (index : Word w) : Option (Option Val) := do
  let len := size w positional
  let total ← total? w s
  let left : Word w := .ofNat _ s.left
  let optional : Word w := .ofNat _ s.optional
  let available := least (len.subOrZero (← required? w s)) optional
  if index.slt 0 then
    let anchor ← (greatest len total).sub? (← optional.sub? available)
    let position ← anchor.addSigned? index
    if position.slt 0 then return none
    return positional[position.toNat]?
  if index.ult left then return positional[index.toNat]?
  if index.ult (← left.add? optional) then
    let k ← index.sub? left
    let unfilled ← optional.sub? available
    if s.rightToLeft then
      if k.ult unfilled then return none
      return positional[(← left.add? (← k.sub? unfilled)).toNat]?
    if available.ule k then return none
    return positional[(← left.add? k).toNat]?
  return positional[(← index.sub? (← optional.sub? available)).toNat]?

def bind? (s : Shape) (rt : Runtime) (subject : Subject) (path : List (Word w)) (default : Val) :
    Option Val :=
  match path.getLast? with
  | none => some default
  | some last => do
    match ← descend? rt path.dropLast (subject.level rt) with
    | none => return default
    | some (.scalar v) => return if last = 0 then v else default
    | some (.sequence vals) =>
      let positional ← slice? vals 0 (← positionalSize? w s vals path.dropLast.isEmpty)
      return (← pick? s positional last).getD default

def splat? (s : Shape) (rt : Runtime) (subject : Subject) (path : List (Word w)) :
    Option (List Val) :=
  match path.getLast? with
  | none => some []
  | some last => do
    match ← descend? rt path.dropLast (subject.level rt) with
    | some (.sequence vals) =>
      let positional ← slice? vals 0 (← positionalSize? w s vals path.dropLast.isEmpty)
      let stop := (size w positional).subOrZero (.ofNat _ s.right)
      let start := if last.slt 0 then 0 else last
      if start.ult stop then slice? positional start stop else some []
    | _ => return []

/-! ## Results that fit -/

section
variable {a b : Word w} {m n : Nat}

theorem toNat_word (fits : n < 2 ^ w) : (BitVec.ofNat (w + 1) n).toNat = n := by
  rw [BitVec.toNat_ofNat, Nat.mod_eq_of_lt]
  exact fits.trans (Nat.pow_lt_pow_succ (by decide))

theorem toNat_zero : (0 : Word w).toNat = 0 := BitVec.toNat_zero

theorem add?_spec (left : a.toNat = m) (right : b.toNat = n) (fits : m + n < 2 ^ (w + 1)) :
    ∃ c, a.add? b = some c ∧ c.toNat = m + n := by
  have within : ¬ a.uaddOverflow b := by
    simp only [BitVec.uaddOverflow, left, right, decide_eq_true_eq]
    omega
  refine ⟨a + b, if_neg within, ?_⟩
  rw [BitVec.toNat_add_of_not_uaddOverflow within, left, right]

theorem sub?_spec (left : a.toNat = m) (right : b.toNat = n) (fits : n ≤ m) :
    ∃ c, a.sub? b = some c ∧ c.toNat = m - n := by
  have within : ¬ a.usubOverflow b := by
    simp only [BitVec.usubOverflow, left, right, decide_eq_true_eq]
    omega
  refine ⟨a - b, if_neg within, ?_⟩
  rw [BitVec.toNat_sub_of_not_usubOverflow within, left, right]

/-- A length counts back to a place, or to one in front of the list. -/
theorem addSigned?_spec (left : a.toNat = n) (fits : n < 2 ^ w) (back : b.toInt < 0) :
    ∃ c, a.addSigned? b = some c ∧ c.toInt = n + b.toInt := by
  have double : 2 ^ (w + 1) = 2 * 2 ^ w := by rw [Nat.pow_succ, Nat.mul_comm]
  have length : a.toInt = n := by
    rw [BitVec.toInt_eq_toNat_of_lt (by omega), left]
  have lowest : -(2 : Int) ^ w ≤ b.toInt := b.le_toInt
  have highest : (n : Int) < 2 ^ w := by exact_mod_cast fits
  have within : ¬ a.saddOverflow b := by
    simp only [BitVec.saddOverflow, length, Nat.add_sub_cancel, Bool.or_eq_true, decide_eq_true_eq]
    omega
  refine ⟨a + b, if_neg within, ?_⟩
  rw [BitVec.toInt_add_of_not_saddOverflow within, length]

theorem subOrZero_spec (left : a.toNat = m) (right : b.toNat = n) :
    (a.subOrZero b).toNat = m - n := by
  unfold subOrZero
  by_cases short : m < n
  · rw [if_pos (by simpa [BitVec.ult, left, right] using short),
      Nat.sub_eq_zero_of_le (Nat.le_of_lt short)]
    exact toNat_zero
  · rw [if_neg (by simpa [BitVec.ult, left, right] using short),
      BitVec.toNat_sub_of_not_usubOverflow (by simpa [BitVec.usubOverflow, left, right] using short),
      left, right]

theorem least_spec (left : a.toNat = m) (right : b.toNat = n) : (least a b).toNat = min m n := by
  unfold least
  simp only [BitVec.ult, left, right, decide_eq_true_eq]
  split <;> omega

theorem greatest_spec (left : a.toNat = m) (right : b.toNat = n) :
    (greatest a b).toNat = max m n := by
  unfold greatest
  simp only [BitVec.ult, left, right, decide_eq_true_eq]
  split <;> omega

theorem slt_zero (a : Word w) : a.slt 0 = decide (a.toInt < 0) := by
  simp [BitVec.slt]

theorem eq_zero_iff (a : Word w) : a = 0 ↔ a.toInt = 0 := by
  rw [← BitVec.toInt_inj]
  exact Iff.of_eq (congrArg (a.toInt = ·) BitVec.toInt_zero)

theorem toNat_of_nonneg (forward : ¬ a.toInt < 0) : a.toNat = a.toInt.toNat := by
  have width : ((2 ^ (w + 1) : Nat) : Int) > a.toNat := by exact_mod_cast a.isLt
  rw [BitVec.toInt_eq_toNat_cond] at forward ⊢
  split at forward
  next small => rw [if_pos small, Int.toNat_natCast]
  next => omega

/-- A run that starts in front of the list starts at its front. -/
theorem start_spec (a : Word w) : (if a.slt 0 then 0 else a).toNat = a.toInt.toNat := by
  rw [slt_zero]
  by_cases back : a.toInt < 0
  · rw [if_pos (by simpa using back), toNat_zero]
    omega
  · rw [if_neg (by simpa using back), toNat_of_nonneg back]

end

/-! ## Binding -/

section
variable {s : Shape} {vals positional : List Val}

theorem total?_spec (counts : s.total < 2 ^ w) : ∃ c, total? w s = some c ∧ c.toNat = s.total := by
  have room : 2 ^ (w + 1) = 2 * 2 ^ w := by rw [Nat.pow_succ, Nat.mul_comm]
  simp only [Shape.total] at counts ⊢
  obtain ⟨inner, first, means⟩ := add?_spec (toNat_word (n := s.left) (w := w) (by omega))
    (toNat_word (n := s.optional) (w := w) (by omega)) (by omega)
  obtain ⟨c, second, means'⟩ := add?_spec means
    (toNat_word (n := s.right) (w := w) (by omega)) (by omega)
  exact ⟨c, by simpa only [total?, first, Option.bind_eq_bind, Option.bind_some] using second, means'⟩

theorem required?_spec (counts : s.total < 2 ^ w) :
    ∃ c, required? w s = some c ∧ c.toNat = s.required := by
  have room : 2 ^ (w + 1) = 2 * 2 ^ w := by rw [Nat.pow_succ, Nat.mul_comm]
  simp only [Shape.total] at counts
  exact add?_spec (toNat_word (by omega)) (toNat_word (by omega)) (by omega)

/-- The lookup of a parameter, by the numbers that the words stand for. -/
theorem pick?_eq (counts : s.total < 2 ^ w) (short : positional.length < 2 ^ w) (index : Word w) :
    pick? s positional index = some (s.pick? positional index.toInt) := by
  have room : 2 ^ (w + 1) = 2 * 2 ^ w := by rw [Nat.pow_succ, Nat.mul_comm]
  have parts : s.total = s.left + s.optional + s.right := rfl
  have left : (BitVec.ofNat (w + 1) s.left).toNat = s.left := toNat_word (by omega)
  have optional : (BitVec.ofNat (w + 1) s.optional).toNat = s.optional := toNat_word (by omega)
  have len : (size w positional).toNat = positional.length := toNat_word short
  obtain ⟨total, same, means⟩ := total?_spec counts
  obtain ⟨required, same', means'⟩ := required?_spec counts
  have filled : (least ((size w positional).subOrZero required) (.ofNat _ s.optional)).toNat =
      s.filled positional.length := least_spec (subOrZero_spec len means') optional
  have fits := s.filled_add_unfilled positional.length
  obtain ⟨unfilled, counted, means''⟩ := sub?_spec optional filled (by omega)
  rw [show s.optional - s.filled positional.length = s.unfilled positional.length from rfl] at means''
  simp only [pick?, same, same', counted, Option.bind_eq_bind, Option.bind_some, Option.pure_def,
    slt_zero, decide_eq_true_eq]
  split
  next back =>
    obtain ⟨anchor, first, from_⟩ := sub?_spec (greatest_spec len means) means'' (by omega)
    have window : max positional.length s.total - s.unfilled positional.length =
        s.anchor positional.length := rfl
    obtain ⟨position, second, here⟩ := addSigned?_spec from_ (by omega) back
    rw [window] at here
    simp only [first, second, Option.bind_some, here, s.pick?_back _ back]
    split
    next => rfl
    next inside => rw [toNat_of_nonneg (by rw [here]; exact inside), here]
  next forward =>
    have index_eq : index.toInt = (index.toNat : Int) := by
      rw [toNat_of_nonneg forward]
      omega
    obtain ⟨behind, sum, bound⟩ := add?_spec left optional (by omega)
    simp only [sum, Option.bind_some, BitVec.ult, left, bound, decide_eq_true_eq, index_eq]
    split
    next before => rw [s.pick?_left _ before]
    next =>
      split
      next inside =>
        obtain ⟨k, diff, place⟩ := sub?_spec (rfl : index.toNat = index.toNat) left (by omega)
        have range : k.toNat < s.optional := by omega
        rw [s.pick?_optional positional range (by omega)]
        simp only [diff, Option.bind_some]
        cases s.rightToLeft with
        | false =>
          simp only [Bool.false_eq_true, if_false, BitVec.ule, filled, decide_eq_true_eq]
          split
          next => rfl
          next =>
            obtain ⟨c, added, at_⟩ := add?_spec left (rfl : k.toNat = k.toNat) (by omega)
            rw [added, Option.bind_some, at_]
        | true =>
          simp only [if_true, means'']
          split
          next => rfl
          next =>
            obtain ⟨d, less, rest⟩ := sub?_spec (rfl : k.toNat = k.toNat) means'' (by omega)
            obtain ⟨c, added, at_⟩ := add?_spec left rest (by omega)
            rw [less, Option.bind_some, added, Option.bind_some, at_]
      next beyond =>
        obtain ⟨c, diff, at_⟩ := sub?_spec (rfl : index.toNat = index.toNat) means'' (by omega)
        rw [diff, Option.bind_some, at_, s.pick?_behind positional
          (index.toNat - (s.left + s.optional)) (by omega)]
        congr 2
        omega

theorem slice?_eq {start stop : Word w} {m n : Nat} (first : start.toNat = m) (last : stop.toNat = n)
    (ordered : m ≤ n) (within : n ≤ vals.length) :
    slice? vals start stop = some ((vals.take n).drop m) := by
  simp [slice?, BitVec.ule, first, last, ordered, within]

theorem positionalSize?_spec (short : vals.length < 2 ^ w) (outermost : Bool) :
    ∃ n, positionalSize? w s vals outermost = some n ∧
      slice? vals 0 n = some (s.positional vals outermost) := by
  have len : (size w vals).toNat = vals.length := toNat_word short
  have whole : slice? vals 0 (size w vals) = some vals := by
    rw [slice?_eq toNat_zero len (Nat.zero_le _) (Nat.le_refl _), List.take_length,
      List.drop_zero]
  unfold positionalSize? Shape.positional
  cases ends : vals.getLast? with
  | none => exact ⟨_, rfl, whole⟩
  | some last =>
    cases last with
    | cell k r =>
      cases k with
      | table =>
        simp only
        split
        next =>
          have one : (1 : Word w).toNat = 1 := BitVec.toNat_one (Nat.succ_pos w)
          have filled : 1 ≤ vals.length := List.length_pos_iff.mpr (by rintro rfl; cases ends)
          obtain ⟨n, less, means⟩ := sub?_spec len one filled
          refine ⟨n, less, ?_⟩
          rw [slice?_eq toNat_zero means (Nat.zero_le _) (Nat.sub_le ..), List.drop_zero,
            List.dropLast_eq_take]
        next => exact ⟨_, rfl, whole⟩
      | _ => exact ⟨_, rfl, whole⟩
    | _ => exact ⟨_, rfl, whole⟩

end

/-- A sequence has no more elements than the greatest signed word. -/
def Fits (w : Nat) : Level → Prop
  | .sequence vals => vals.length < 2 ^ w
  | .scalar _ => True

section
variable {rt : Runtime} {level : Level}
  (arrays : ∀ r elements, rt.elements? r = some elements → elements.size < 2 ^ w)
include arrays

theorem fits_ofVal (v : Val) : Fits w (.ofVal rt v) := by
  unfold Level.ofVal
  split
  next r =>
    cases found : rt.elements? r with
    | none => exact Nat.two_pow_pos w
    | some elements => simpa [Fits] using arrays r elements found
  next => trivial

theorem fits_enter {index : Int} {inner : Level} (fits : Fits w level)
    (entered : level.enter rt index = some inner) : Fits w inner := by
  cases level with
  | sequence vals =>
    rw [Level.enter] at entered
    obtain ⟨-, entered⟩ := Option.ite_none_left_eq_some.mp entered
    obtain ⟨v, -, rfl⟩ := Option.map_eq_some_iff.mp entered
    exact fits_ofVal arrays v
  | scalar v =>
    rw [Level.enter] at entered
    obtain ⟨-, entered⟩ := Option.ite_none_right_eq_some.mp entered
    cases entered
    trivial

omit arrays in
theorem enter?_eq (fits : Fits w level) (index : Word w) :
    enter? rt index level = some (level.enter rt index.toInt) := by
  cases level with
  | sequence vals =>
    have len : (size w vals).toNat = vals.length := toNat_word fits
    simp only [enter?, Level.enter, slt_zero, decide_eq_true_eq, Option.bind_eq_bind,
      Option.pure_def]
    by_cases back : index.toInt < 0
    · obtain ⟨position, counted, here⟩ := addSigned?_spec len fits back
      simp only [back, if_true, counted, Option.bind_some, here]
      split
      next => rfl
      next inside => rw [toNat_of_nonneg (here ▸ inside), here]
    · simp only [back, if_false, Option.bind_some, toNat_of_nonneg back]
  | scalar v =>
    simp only [enter?, Level.enter, eq_zero_iff]

theorem descend?_eq (path : List (Word w)) (fits : Fits w level) :
    descend? rt path level = some ((path.map (·.toInt)).foldlM (·.enter rt) level) ∧
      ∀ inner, (path.map (·.toInt)).foldlM (·.enter rt) level = some inner → Fits w inner := by
  induction path generalizing level with
  | nil =>
    refine ⟨rfl, fun inner same => ?_⟩
    cases same
    exact fits
  | cons index rest ih =>
    simp only [descend?, enter?_eq fits index, Option.bind_eq_bind, Option.bind_some, List.map_cons,
      List.foldlM_cons]
    cases entered : level.enter rt index.toInt with
    | none => exact ⟨rfl, nofun⟩
    | some inner => exact ih (fits_enter arrays fits entered)

end

section
variable {s : Shape} {rt : Runtime} {subject : Subject}
  (counts : s.total < 2 ^ w) (arguments : Fits w (subject.level rt))
  (arrays : ∀ r elements, rt.elements? r = some elements → elements.size < 2 ^ w)
include arguments arrays

/-- A path of words leads where its numbers lead. If that is to a sequence, words cut off the same
positional part, which a word can count. -/
theorem reach?_eq (path : List (Word w)) :
    descend? rt path (subject.level rt) = some (subject.descend rt (path.map (·.toInt))) ∧
      ∀ vals, subject.descend rt (path.map (·.toInt)) = some (.sequence vals) →
        ∃ n, positionalSize? w s vals path.isEmpty = some n ∧
          slice? vals 0 n = some (s.positional vals path.isEmpty) ∧
          (s.positional vals path.isEmpty).length < 2 ^ w := by
  obtain ⟨reached, fits⟩ := descend?_eq arrays path arguments
  refine ⟨reached, fun vals there => ?_⟩
  have short : vals.length < 2 ^ w := fits _ there
  obtain ⟨n, sized, sliced⟩ := positionalSize?_spec (s := s) short path.isEmpty
  exact ⟨n, sized, sliced, (s.positional_prefix vals path.isEmpty).length_le.trans_lt short⟩

include counts

theorem bind?_eq (path : List (Word w)) (default : Val) :
    bind? s rt subject path default =
      some (s.bind rt subject (path.map (·.toInt)) default) := by
  unfold bind? Shape.bind
  rw [List.getLast?_map]
  cases path.getLast? with
  | none => rfl
  | some last =>
    obtain ⟨reached, cut⟩ := reach?_eq (s := s) arguments arrays path.dropLast
    simp only [Option.map_some, ← List.map_dropLast, List.isEmpty_map, reached, Option.bind_eq_bind,
      Option.bind_some]
    cases inner : subject.descend rt (path.dropLast.map (·.toInt)) with
    | none => rfl
    | some level =>
      cases level with
      | scalar v => simp only [eq_zero_iff, Option.pure_def]
      | sequence vals =>
        obtain ⟨n, sized, sliced, short⟩ := cut vals inner
        simp only [sized, sliced, Option.bind_some, pick?_eq counts short, Option.pure_def]

theorem splat?_eq (path : List (Word w)) :
    splat? s rt subject path = some (s.splatElements rt subject (path.map (·.toInt))) := by
  unfold splat? Shape.splatElements
  rw [List.getLast?_map]
  cases path.getLast? with
  | none => rfl
  | some last =>
    obtain ⟨reached, cut⟩ := reach?_eq (s := s) arguments arrays path.dropLast
    simp only [Option.map_some, ← List.map_dropLast, List.isEmpty_map, reached, Option.bind_eq_bind,
      Option.bind_some]
    cases inner : subject.descend rt (path.dropLast.map (·.toInt)) with
    | none => rfl
    | some level =>
      cases level with
      | scalar v => rfl
      | sequence vals =>
        obtain ⟨n, sized, sliced, short⟩ := cut vals inner
        simp only [sized, sliced, Option.bind_some]
        generalize s.positional vals path.dropLast.isEmpty = positional at short ⊢
        have parts : s.total = s.left + s.optional + s.right := rfl
        have stop := subOrZero_spec (a := size w positional) (toNat_word short)
          (toNat_word (w := w) (n := s.right) (by omega))
        have start := start_spec last
        simp only [BitVec.ult, start, stop, decide_eq_true_eq]
        split
        next ordered => rw [slice?_eq start stop (Nat.le_of_lt ordered) (Nat.sub_le ..)]
        next disordered =>
          rw [List.drop_eq_nil_of_le (by rw [List.length_take]; omega)]

end

/-! ## Safety -/

/-- With counts and lengths that a signed word can hold, binding never adds or subtracts out of the
words and never slices out of a list, at any path of signed words: it answers what the numbers give.
That is the default, an element of the sequence that the path leads to or, for the index 0, the
scalar, and a splat collects a run of the sequence that leaves out the parameters on the right. -/
theorem binding_never_faults {η : Type} {rt : Runtime} (wf : rt.heap.WellFormed) (s : Shape)
    (subject : Subject) (default : Val) (counts : s.left + s.optional + s.right < 2 ^ w)
    (arguments : ∀ args, subject = .arguments args → args.length < 2 ^ w)
    (arrays : ∀ r elements, rt.elements? r = some elements → elements.size < 2 ^ w)
    (path : List (Word w)) :
    let bound := s.bind rt subject (path.map (·.toInt)) default
    let collected := s.splatElements rt subject (path.map (·.toInt))
    bind? s rt subject path default = some bound ∧
    splat? s rt subject path = some collected ∧
    (path = [] → bound = default ∧ collected = []) ∧
    (∀ outer last, path = outer ++ [last] → s.Leads outer.isEmpty last.toInt default bound collected
      (subject.descend rt (outer.map (·.toInt)))) ∧
    ∀ (caller : Machine.Caller η) unwinding host, ∃ r after,
      Machine.step caller unwinding (Program.bindSplat s subject (path.map (·.toInt))) rt host =
          .ended (.value r) after host ∧
        after.elements? r = some collected.toArray := by
  have fits : Fits w (subject.level rt) := by
    cases subject with
    | arguments args => exact arguments args rfl
    | value v => exact fits_ofVal arrays v
  refine ⟨bind?_eq counts fits arrays path default, splat?_eq counts fits arrays path, ?_, ?_,
    fun caller unwinding host => s.step_bindSplat wf subject _ caller unwinding host⟩
  · rintro rfl
    exact ⟨rfl, rfl⟩
  · rintro outer last rfl
    rw [List.map_append, List.map_singleton]
    simpa only [List.isEmpty_map] using
      s.leads rt subject default (outer.map (·.toInt)) last.toInt

/-- The arguments of a call, with an array in them. -/
def called : Subject := .arguments (Shape.nested ++ [.table ⟨38, 0⟩])

def elementCount : Cell → Nat
  | .array _ elements => elements.size
  | _ => 0

/-- The lowest index of all leads to the default, as the highest does. -/
theorem extreme_indices_bind :
    (Shape.calling.heap.WellFormed ∧ Shape.pair.left + Shape.pair.optional + Shape.pair.right < 2 ^ 63 ∧
      (∀ args, called = .arguments args → args.length < 2 ^ 63) ∧
      ∀ r elements, Shape.calling.elements? r = some elements → elements.size < 2 ^ 63) ∧
    bind? Shape.pair Shape.calling called [1, BitVec.intMin 64] .nil = some .nil ∧
    bind? Shape.pair Shape.calling called [BitVec.intMax 64, 0] .nil = some .nil ∧
    bind? Shape.pair Shape.calling called [(-2 : Word 63), -1] .nil = some (.int 3) := by
  have wf : Shape.calling.heap.WellFormed :=
    Runtime.wellFormed_after _ (Runtime.intact_boot {}).sound.heap
  have counts : Shape.pair.left + Shape.pair.optional + Shape.pair.right < 2 ^ 63 := by decide
  have given (args : List Val) (same : called = .arguments args) : args.length < 2 ^ 63 := by
    cases same
    decide
  have few : ∀ s ∈ Shape.calling.heap.slots.toList, ∀ c ∈ s.cell, elementCount c < 2 ^ 63 := by
    decide +kernel
  have short (r : Ref) (elements : Array Val) (found : Shape.calling.elements? r = some elements) :
      elements.size < 2 ^ 63 := by
    unfold Runtime.elements? at found
    split at found
    next there =>
      cases found
      obtain ⟨s, slot, -, occupied⟩ := (Heap.cell?_eq_some_iff ..).mp there
      exact few s (Array.mem_toList_iff.mpr (Array.mem_of_getElem? slot)) _ occupied
    next => cases found
  have safe (path : List (Word 63)) :=
    (binding_never_faults (η := Unit) wf Shape.pair called .nil counts given short path).1
  refine ⟨⟨wf, counts, given, short⟩, ?_, ?_, ?_⟩
  all_goals
    rw [safe]
    decide +kernel

end Word
end ObjectRuntime
