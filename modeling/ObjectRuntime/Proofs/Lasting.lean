import ObjectRuntime.Proofs.Outliving
import ObjectRuntime.Proofs.Positions

/-! What lasts. What is held inside of a call or scope stays so behind the ensures in whose bodies it
was taken, up to the end of the call or scope, unless one of them unwinds. -/

namespace ObjectRuntime.Machine
variable {η α β γ : Type} {caller : Caller η} {within : Course η} {unwinding : Bool}

/-- Every program keeps it on its way. -/
def Preserves (caller : Caller η) (within : Course η) (I : Runtime → Prop) : Prop :=
  ∀ (γ : Type) (p : Program η γ) unwinding rt host, I rt →
    ∀ m ∈ trace caller within unwinding p rt host, I m.rt

section
variable {I : Runtime → Prop} {p : Program η α} {rt left : Runtime} {host host' : η}

namespace Preserves
variable (kept : Preserves caller within I)
include kept

theorem ends {outcome : Outcome α} (start : I rt)
    (ended : step caller unwinding p rt host = .ended outcome left host') : I left :=
  at_end ended (kept _ p unwinding rt host start)

theorem behindCleanup {next : Outcome Val → Program η α} {answer : Outcome Val} {cleaned : Run η Unit}
    (start : ∀ done left host', cleaned = .ended done left host' → I left) :
    ∀ m ∈ behindCleanup caller within unwinding next answer cleaned, I m.rt :=
  Run.forall_mem_follow.mpr fun done left host' ended =>
    kept _ _ unwinding left host' (start done left host' ended)

theorem behindBody {next : Outcome Val → Program η α} {cleanup : Program η Unit} {ran : Run η Val}
    (start : ∀ answer left host', ran = .ended answer left host' → I left) :
    ∀ m ∈ behindBody caller within unwinding cleanup next ran, I m.rt := by
  unfold Machine.behindBody
  split
  next => exact fun _ member => nomatch member
  next =>
    refine Run.forall_mem_follow.mpr fun answer left host' ended => List.forall_mem_append.mpr ?_
    have before := start answer left host' ended
    exact ⟨kept _ _ _ _ _ before, kept.behindCleanup fun _ _ _ cleaned => kept.ends before cleaned⟩

/-- What every program keeps on its way holds at every later moment, and where nothing unwinds, when
the program ends. -/
theorem arrives {inner whole : Bool} {q : Program η β} {there : Runtime} {host₁ : η}
    {later : List Moment}
    (arrives : Arrives caller within inner q there host₁ unwinding p rt host later whole)
    (start : I there) :
    (∀ m ∈ trace caller within inner q there host₁ ++ later, I m.rt) ∧
      (whole = true → ∀ outcome left host',
        step caller unwinding p rt host = .ended outcome left host' → I left) := by
  induction arrives with
  | here =>
    rw [List.append_nil]
    exact ⟨kept _ _ _ _ _ start, fun _ outcome left host' ended => kept.ends start ended⟩
  | goes goes _ ih =>
    refine ⟨ih.1, fun all outcome left host' ended => ih.2 all outcome left host' ?_⟩
    rwa [← goes.step_eq]
  | @body _ unwinding body cleanup rt host later whole _ next ih =>
    obtain ⟨moments, atEnd⟩ := ih
    refine ⟨?_, fun all outcome left host' ended => ?_⟩
    · rw [← List.append_assoc]
      refine List.forall_mem_append.mpr ⟨moments, ?_⟩
      split
      next all => exact kept.behindBody (atEnd all)
      next => exact fun _ member => nomatch member
    · obtain ⟨all, calm⟩ := Bool.and_eq_true_iff.mp all
      obtain ⟨answer, mid, host₁, done, left₁, host₂, ran, went, rest⟩ := step_ensure ended
      rw [ran] at calm
      have calm : (unwinding || answer.isPanic) = false := by simpa [unwinds] using calm
      rw [calm] at went
      exact kept.ends (kept.ends (atEnd all answer mid host₁ ran) went) rest
  | @cleanup _ unwinding body cleanup rt mid host host₁ answer later whole ran _ next ih =>
    obtain ⟨moments, atEnd⟩ := ih
    refine ⟨?_, fun all outcome left host' ended => ?_⟩
    · rw [← List.append_assoc]
      refine List.forall_mem_append.mpr ⟨moments, ?_⟩
      split
      next all => exact kept.behindCleanup (atEnd all)
      next => exact fun _ member => nomatch member
    · obtain ⟨answer', mid', host₁', done, left₁, host₂, ran', went, rest⟩ := step_ensure ended
      rw [ran] at ran'
      cases ran'
      exact kept.ends (atEnd all done left₁ host₂ went) rest

end Preserves
end

/-- Inside of a call or scope, the parts are held and are there. -/
structure Keeps (parts : List Val) (rt : Runtime) : Prop where
  heap : rt.heap.WellFormed
  inside : rt.atTopLevel = false
  held : ∀ w ∈ parts, w ∈ rt.handles
  live : ∀ w ∈ parts, rt.isLive w

/-- Whatever a program does, it keeps what it finds inside of a call or scope to its end. -/
theorem preserves_keeps (code : CodeRef → Code η) (budget : Nat) (parts : List Val) :
    Preserves (call code budget) (course code budget) (Keeps parts) := by
  intro _ p unwinding rt host keeps
  have retained := trace_retains (call_retains code budget) (course_retains code budget) p unwinding rt host
  have formed := Runtime.wellFormed_trace code budget unwinding p host keeps.heap
  have held (w : Val) (part : w ∈ parts) (m : Moment)
      (member : m ∈ trace (call code budget) (course code budget) unwinding p rt host) :
      w ∈ m.rt.handles :=
    (retained m member).mem_handles (fun ⟨top, _⟩ => by simp [keeps.inside] at top) (keeps.held w part)
  exact fun m member => {
    heap := formed m member
    inside := (retained m member).toStandsOn.inside keeps.inside
    held w part := held w part m member
    live w part := by
      cases w with
      | cell k r =>
        exact isLive_while code budget p keeps.heap
          (fun m member => (Runtime.Root.handle (held _ part m member)).reaches)
          (keeps.live _ part) m member
      | _ => rfl }

/-- What is held and there when a program ends inside of a call or scope, is held and there at every
later moment: to where an ensure unwinds that the program is inside of, or else to the end of the
program that the call or scope runs. -/
theorem Keeps.lasts {code : CodeRef → Code η} {budget : Nat} {parts : List Val} {inner outer whole : Bool}
    {q : Program η γ} {v : γ} {there left rt : Runtime} {host₁ host₂ host : η} {f : γ → Program η β}
    {p : Program η α} {later : List Moment} (keeps : Keeps parts left)
    (ended : step (call code budget) inner q there host₁ = .ended (.value v) left host₂)
    (arrives : Arrives (call code budget) (course code budget) inner (q >>= f) there host₁
      outer p rt host later whole) :
    let rest := trace (call code budget) (course code budget) inner (f v) left host₂ ++ later
    (∃ before more, trace (call code budget) (course code budget) outer p rt host =
      before ++ rest ++ more ∧ (whole = true → more = [])) ∧
    ∀ m ∈ rest, ∀ w ∈ parts, w ∈ m.rt.handles ∧ m.rt.isLive w := by
  have onward : Arrives (call code budget) (course code budget) inner (f v) left host₂
      outer p rt host later whole := (Arrives.on ((goesOn_of_ended ended).bind f)).further arrives
  have always := (preserves_keeps code budget parts).arrives onward keeps
  exact ⟨onward.trace_eq, fun m member w part =>
    ⟨(always.1 m member).held w part, (always.1 m member).live w part⟩⟩

/-- A program is run in an ensure that a panic unwinds, and a value is looked for behind it. -/
def seekingBehind (p : Program Unit γ) (v : Val) : Program Unit Val := do
  let _ ← (Program.withCleanup (p >>= fun _ => Program.panic "boom") collecting).attempt
  return .bool (← Program.asks (·.isLive v))

end ObjectRuntime.Machine
