import ObjectRuntime.Proofs.Garbage
import ObjectRuntime.Proofs.Oblivious
import ObjectRuntime.Proofs.Outliving

/-! Splatting. A splat of an array, and of a value that is no array, makes a new array that nothing
else shares. But where a value answers `to_ary` with an array, the splat is that array itself, which
the value may keep. -/

namespace ObjectRuntime

namespace Runtime

variable {rt rt' : Runtime} {r a : Ref} {elements : Array Val}

theorem elements?_forget (r : Ref) : rt.forget.elements? r = rt.elements? r := by
  simp only [elements?, forget, Heap.cell?_forget]
  cases rt.heap.cell? r with
  | none => rfl
  | some c => cases c <;> rfl

/-! ## New arrays -/

theorem alloc_ne (wf : rt.heap.WellFormed) (c : Cell) (live : rt.heap.isLive a) :
    a ≠ (rt.alloc c).1 := by
  obtain ⟨c', found⟩ := (Heap.isLive_iff ..).mp live
  have cleared : ∃ ops : List Heap.Op, rt.room.heap = rt.heap.after ops ∧ ops.length ≤ 1 := by
    unfold room
    split
    · exact ⟨[.collect rt.frames rt.rootValues], rfl, Nat.le_refl 1⟩
    · exact ⟨[], rfl, Nat.zero_le 1⟩
  obtain ⟨ops, same, short⟩ := cleared
  have few : Heap.frees a.index rt.heap ops < 2 ^ 32 :=
    Nat.lt_of_le_of_lt ((Heap.frees_le_length ..).trans short) (by decide)
  rw [alloc_eq, place, same]
  exact (Heap.handle_ne wf found few false).symm

theorem cell?_alloc_of_ne (wf : rt.heap.WellFormed) (c : Cell) (apart : a ≠ (rt.alloc c).1)
    (live : (rt.alloc c).2.heap.isLive a) : (rt.alloc c).2.heap.cell? a = rt.heap.cell? a := by
  rw [alloc_eq] at apart live ⊢
  have kept : (rt.room.place c).2.heap.cell? a = rt.room.heap.cell? a := by
    rw [cell?_place (wellFormed_room wf), if_neg apart]
  have cleared : rt.room = rt.collect ∨ rt.room = rt := ite_eq_or_eq ..
  rw [Heap.isLive, kept] at live
  rw [kept]
  rcases cleared with same | same
  · rw [same] at live ⊢
    exact cell?_collect_of_isLive live
  · rw [same]

theorem elements?_modifyElements_of_ne (apart : a ≠ r) (f : Array Val → Array Val) :
    (rt.modifyElements r f).elements? a = rt.elements? a := by
  simp only [elements?, modifyElements, modifyCell, Heap.cell?_modify, if_neg apart]

/-- `r` is a new array of these elements. It is none of the cells that were there, and writing it
writes no other array. -/
structure MakesArray (rt : Runtime) (elements : Array Val) (r : Ref) (rt' : Runtime) : Prop where
  made : rt.alloc (.array CoreClass.array.ref elements) = (r, rt')
  holds : rt'.elements? r = some elements
  apart : ∀ a, rt.heap.isLive a → a ≠ r ∧ ∀ f, rt'.heap.isLive a →
    (rt'.modifyElements r f).elements? a = rt.elements? a

theorem makesArray (wf : rt.heap.WellFormed) (elements : Array Val) :
    rt.MakesArray elements (rt.alloc (.array CoreClass.array.ref elements)).1
      (rt.alloc (.array CoreClass.array.ref elements)).2 where
  made := rfl
  holds := by simp only [elements?, cell?_alloc_self wf]
  apart a live := by
    have other := alloc_ne wf (.array CoreClass.array.ref elements) live
    refine ⟨other, fun f still => ?_⟩
    rw [elements?_modifyElements_of_ne other, elements?, elements?, cell?_alloc_of_ne wf _ other still]

theorem MakesArray.forgotten {left : Runtime} (makes : left.MakesArray elements r rt')
    (same : left.forget = rt.forget) (live : rt.heap.isLive a) :
    a ≠ r ∧ ∀ f, rt'.heap.isLive a → (rt'.modifyElements r f).elements? a = rt.elements? a := by
  have heaps : left.heap.forget = rt.heap.forget := congrArg (fun rt => rt.heap) same
  rw [← Heap.isLive_forget, ← heaps, Heap.isLive_forget] at live
  have elements := congrArg (fun rt => rt.elements? a) same
  simp only [elements?_forget] at elements
  rw [← elements]
  exact makes.apart a live

end Runtime

namespace Machine
variable {η : Type} {caller : Caller η} {unwinding : Bool} {rt rt' : Runtime} {host host' : η}
  {v : Val} {r : Ref}

/-- The value is no array, a method answers `to_ary`, and the message ends with an answer. -/
def Asks (caller : Caller η) (unwinding : Bool) (rt : Runtime) (host : η) (v answer : Val)
    (rt' : Runtime) (host' : η) : Prop :=
  (∀ a, v ≠ .array a) ∧ ∃ m searched, rt.findMethod (rt.classOf v) .toAry none none =
    (some m, searched) ∧ step caller unwinding (Program.send v .toAry) searched host =
      .ended (.value answer) rt' host'

/-- How a splat comes by its array: it is a copy, or made around a value that answers `to_ary` with no
array or not at all, or it is what the value answers. -/
inductive Splats (caller : Caller η) (unwinding : Bool) (rt : Runtime) (host : η) (r : Ref)
    (rt' : Runtime) : Val → η → Prop
  | copied {a : Ref} (makes : rt.MakesArray ((rt.elements? a).getD #[]) r rt') :
      Splats caller unwinding rt host r rt' (.array a) host
  | wrapped {v : Val} {searched : Runtime} (plain : ∀ a, v ≠ .array a)
      (unanswered : rt.findMethod (rt.classOf v) .toAry none none = (none, searched))
      (makes : searched.MakesArray #[v] r rt') : Splats caller unwinding rt host r rt' v host
  | refused {v answer : Val} {left : Runtime} {host' : η}
      (asks : Asks caller unwinding rt host v answer left host')
      (other : ∀ a, answer ≠ .array a) (makes : left.MakesArray #[v] r rt') :
      Splats caller unwinding rt host r rt' v host'
  | shared {v : Val} {host' : η} (asks : Asks caller unwinding rt host v (.array r) rt' host') :
      Splats caller unwinding rt host r rt' v host'

theorem splat_ends (code : CodeRef → Code η) (budget : Nat) (wf : rt.heap.WellFormed)
    (ended : step (call code budget) unwinding (Program.splat v) rt host =
      .ended (.value r) rt' host') : Splats (call code budget) unwinding rt host r rt' v host' := by
  unfold Program.splat at ended
  split at ended
  next a =>
    cases ended
    exact .copied (Runtime.makesArray wf _)
  next plain =>
    unfold Program.toArray at ended
    split at ended
    next a => exact absurd rfl (plain a)
    next =>
      have same := Runtime.findMethod_forget rt (rt.classOf v) .toAry none none
      rw [step_findFor] at ended
      generalize lookup : rt.findMethod (rt.classOf v) .toAry none none = answered at same ended
      obtain ⟨found, searched⟩ := answered
      have wf' : searched.heap.WellFormed := (Runtime.Extends.of_forget same).heap wf
      cases found with
      | none =>
        cases ended
        exact .wrapped plain lookup (Runtime.makesArray wf' _)
      | some m =>
        obtain ⟨answer, left, host₁, sent, rest⟩ := step_bind ended
        have asks : Asks (call code budget) unwinding rt host v answer left host₁ :=
          ⟨plain, m, searched, lookup, sent⟩
        have formed : left.heap.WellFormed := by
          obtain ⟨moves, rfl⟩ := step_moves (call_moves code budget) _ sent
          exact Runtime.wellFormed_after moves wf'
        split at rest
        next a =>
          cases rest
          exact .shared asks
        next =>
          cases rest
          exact .refused asks nofun (Runtime.makesArray formed _)
        next other _ =>
          cases rest
          exact .refused asks other (Runtime.makesArray formed _)

/-- A splat that succeeds makes a new array: a copy of the array that it is given, or one with the
value in it. It is none of the arrays there were, and what is written to it leaves them all as they
are. The exception is a value, no array itself, whose method `to_ary` answers with an array: then
the splat is that array. -/
theorem splat_copies_or_shares (config : Config) (moves : List Move) (code : CodeRef → Code η)
    (budget : Nat)
    (ended : step (call code budget) unwinding (Program.splat v) ((Runtime.boot config).after moves)
      host = .ended (.value r) rt' host') :
    let rt := (Runtime.boot config).after moves
    Splats (call code budget) unwinding rt host r rt' v host' ∧
    ((∃ a, v = .array a) ∨ (rt.findMethod (rt.classOf v) .toAry none none).1 = none →
      ∀ a, rt.heap.isLive a → a ≠ r ∧ ∀ f, rt'.heap.isLive a →
        (rt'.modifyElements r f).elements? a = rt.elements? a) := by
  intro rt
  have wf : rt.heap.WellFormed :=
    Runtime.wellFormed_after moves (Runtime.intact_boot config).sound.heap
  have came := splat_ends code budget wf ended
  refine ⟨came, fun unasked a live => ?_⟩
  have never {answer : Val} {left : Runtime} {host₁ : η}
      (asks : Asks (call code budget) unwinding rt host v answer left host₁) : False := by
    obtain ⟨plain, m, searched, lookup, -⟩ := asks
    rcases unasked with ⟨b, array⟩ | unanswered
    · exact plain b array
    · rw [lookup] at unanswered
      cases unanswered
  cases came with
  | copied makes => exact makes.apart a live
  | wrapped plain unanswered makes =>
    have same := Runtime.findMethod_forget rt (rt.classOf v) .toAry none none
    rw [unanswered] at same
    exact makes.forgotten same live
  | refused asks => exact (never asks).elim
  | shared asks => exact (never asks).elim

theorem step_splat_array (a : Ref) :
    step caller unwinding (Program.splat (.array a)) rt host =
      .ended (.value (rt.alloc (.array CoreClass.array.ref ((rt.elements? a).getD #[]))).1)
        (rt.alloc (.array CoreClass.array.ref ((rt.elements? a).getD #[]))).2 host := rfl

def keptIn : Sym := ⟨50⟩

/-- A class whose objects answer `to_ary`, an object of it, and an array that the object keeps. -/
def keepingArray : List Move :=
  [.act (.subclass CoreClass.object.ref none none),
   .act (.defineMethod ⟨38, 0⟩ .toAry (.closure (.user 0)) 0), .act (.newObject ⟨38, 0⟩),
   .act (.newArray CoreClass.array.ref []),
   .act (.setIvar ⟨39, 0⟩ keptIn (.array ⟨40, 0⟩))]

/-- The method answers with what the object keeps. -/
def answersKept : CodeRef → Code Unit := CodeRef.code fun _ a => Program.check (·.getIvar a.self keptIn)

theorem permits_keepingArray : (Runtime.boot {}).PermitsRun keepingArray := by
  refine ⟨.of_roots (List.forall_mem_singleton.mpr (.core .object (by decide))) rfl,
    .of_roots (List.forall_mem_singleton.mpr (.handle ?_)) rfl,
    .of_roots (List.forall_mem_singleton.mpr (.handle ?_)) rfl,
    .of_roots (List.forall_mem_singleton.mpr (.core .array (by decide))) rfl,
    .of_roots (List.forall_mem_cons.mpr ⟨.handle ?_, List.forall_mem_singleton.mpr (.handle ?_)⟩) rfl,
    trivial⟩
  all_goals decide +kernel

/-- A copy of the array is another array: pushing to it leaves the array of the object alone. -/
theorem copy_is_apart : let rt := (Runtime.boot {}).after keepingArray
    ∃ r left, step (call answersKept 8) false (Program.splat (.array ⟨40, 0⟩)) rt () =
        .ended (.value r) left () ∧ ⟨40, 0⟩ ≠ r ∧
      (left.modifyElements r (·.push (.int 2))).elements? ⟨40, 0⟩ = some #[] := by
  intro rt
  have ended : step (call answersKept 8) false (Program.splat (.array ⟨40, 0⟩)) rt () = _ :=
    step_splat_array ⟨40, 0⟩
  have facts : rt.heap.isLive ⟨40, 0⟩ ∧ rt.elements? ⟨40, 0⟩ = some #[] ∧
      (rt.alloc (.array CoreClass.array.ref ((rt.elements? ⟨40, 0⟩).getD #[]))).2.heap.isLive
        ⟨40, 0⟩ := by
    decide +kernel
  obtain ⟨before, same, after⟩ := facts
  obtain ⟨other, written⟩ :=
    (splat_copies_or_shares {} keepingArray answersKept 8 ended).2 (.inl ⟨_, rfl⟩) ⟨40, 0⟩ before
  exact ⟨_, _, ended, other, (written _ after).trans same⟩

def pushing (v : Val) : Program Unit Val := do
  let r ← Program.splat v
  Program.perform (.push r (.int 2))
  return .array r

/-- A splat of the object is the array that it keeps, and pushing to one pushes to the other. -/
theorem kept_array_is_shared : let rt := (Runtime.boot {}).after keepingArray
    ((Runtime.boot {}).PermitsRun keepingArray ∧ rt.Reaches (.array ⟨40, 0⟩) ∧
      rt.elements? ⟨40, 0⟩ = some #[]) ∧
    (answered (step (call answersKept 8) false (pushing (.object ⟨39, 0⟩)) rt ())).map
        (fun (v, left) => (v, left.elements? ⟨40, 0⟩)) =
      some (.array ⟨40, 0⟩, some #[.int 2]) := by
  refine ⟨⟨permits_keepingArray, (Runtime.Root.handle ?_).reaches, ?_⟩, ?_⟩
  all_goals decide +kernel

end Machine
end ObjectRuntime
