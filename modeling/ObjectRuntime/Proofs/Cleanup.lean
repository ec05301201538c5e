import ObjectRuntime.Boot
import ObjectRuntime.Proofs.Depth

/-! Cleanups. A host can keep notes beside its own state without changing what runs, so a cleanup
that notes the state it starts in tells how often it runs, and on which stacks: once, on those of
the entry when the body panicked, and where nothing unwinds on those that the body left. -/

namespace ObjectRuntime

variable {η ν α : Type}

/-- The same program on a host that keeps notes, which it leaves alone. -/
def Program.beside (ν : Type) {α : Type} : Program η α → Program (η × ν) α
  | .done outcome => .done outcome
  | .endless => .endless
  | .read next => .read fun rt => (next rt).beside ν
  | .act action next => .act action fun b => (next b).beside ν
  | .host f next => .host (fun s => ((f s.1).1, (f s.1).2, s.2)) fun b => (next b).beside ν
  | .call c next => .call c fun o => (next o).beside ν
  | .scope body next => .scope (body.beside ν) fun o => (next o).beside ν
  | .ensure body cleanup next =>
    .ensure (body.beside ν) (cleanup.beside ν) fun o => (next o).beside ν
  | .holding v body next => .holding v (body.beside ν) fun o => (next o).beside ν

/-- The program, noting the state it starts in. -/
def Program.noting (p : Program η α) : Program (η × List Runtime) α :=
  .read fun rt => .host (fun s => ((), s.1, s.2 ++ [rt])) fun _ => p.beside (List Runtime)

def besideCode (ν : Type) (code : CodeRef → Code η) : CodeRef → Code (η × ν) :=
  fun ref activation => (code ref activation).beside ν

def Run.beside (notes : ν) : Run η α → Run (η × ν) α
  | .ended outcome rt host => .ended outcome rt (host, notes)
  | .endless => .endless
  | .exhausted => .exhausted

namespace Machine

/-! ## Running beside notes -/

theorem step_beside {caller : Caller η} {noted : Caller (η × ν)}
    (calls : ∀ unwinding c rt host notes,
      noted unwinding c rt (host, notes) = (caller unwinding c rt host).beside notes)
    (p : Program η α) (unwinding : Bool) (rt : Runtime) (host : η) (notes : ν) :
    step noted unwinding (p.beside ν) rt (host, notes) =
      (step caller unwinding p rt host).beside notes := by
  induction p generalizing unwinding rt host with
  | done outcome => rfl
  | endless => rfl
  | read next ih => exact ih rt unwinding rt host
  | act action next ih => exact ih _ unwinding _ host
  | host f next ih => exact ih _ unwinding rt _
  | call c next ih =>
    simp only [Program.beside, step, calls]
    cases caller unwinding c rt host with
    | ended answer left host₁ => exact ih answer unwinding left host₁
    | endless => rfl
    | exhausted => rfl
  | scope body next first ih =>
    simp only [Program.beside, step, first]
    cases step caller unwinding body rt.enterScope host with
    | ended answer left host₁ => exact ih answer unwinding _ host₁
    | endless => rfl
    | exhausted => rfl
  | holding v body next first ih =>
    simp only [Program.beside, step, first]
    cases step caller unwinding body (rt.hold v) host with
    | ended answer left host₁ => exact ih answer unwinding _ host₁
    | endless => rfl
    | exhausted => rfl
  | ensure body cleanup next first second ih =>
    simp only [Program.beside, step, first]
    cases step caller unwinding body rt host with
    | ended answer left host₁ =>
      simp only [Run.beside, second]
      cases step caller (unwinding || answer.isPanic) cleanup
          (if unwinding || answer.isPanic then left.restore rt.marks else left) host₁ with
      | ended done left₁ host₂ =>
        cases done with
        | panic message => exact ih (.panic message) unwinding left₁ host₂
        | _ => exact ih answer unwinding left₁ host₂
      | endless => rfl
      | exhausted => rfl
    | endless => rfl
    | exhausted => rfl

theorem body_beside (code : CodeRef → Code η) (rt : Runtime) (frame : Nat) (c : Call) :
    body (besideCode ν code) rt frame c = (body code rt frame c).beside ν := by
  unfold body
  split
  next => rfl
  next =>
    split
    next => rfl
    next => rfl

theorem call_beside (code : CodeRef → Code η) (budget : Nat) (unwinding : Bool) (c : Call)
    (rt : Runtime) (host : η) (notes : ν) :
    call (besideCode ν code) budget unwinding c rt (host, notes) =
      (call code budget unwinding c rt host).beside notes := by
  induction budget generalizing unwinding c rt host notes with
  | zero =>
    simp only [call]
    split <;> rfl
  | succ budget ih =>
    simp only [call]
    split
    next => rfl
    next =>
      rw [body_beside, step_beside ih]
      cases step (call code budget) unwinding (body code (rt.openFrame c).2 (rt.openFrame c).1 c)
          ((rt.openFrame c).2.pushCall (rt.openFrame c).1) host <;> rfl

/-! ## The start of a cleanup -/

theorem step_withCleanup {caller : Caller η} {unwinding : Bool} {body : Program η Val}
    {rt left : Runtime} {host host₁ : η} {answer : Outcome Val}
    (ran : step caller unwinding body rt host = .ended answer left host₁)
    (cleanup : Program η Unit) :
    step caller unwinding (Program.withCleanup body cleanup) rt host =
      match step caller (unwinding || answer.isPanic) cleanup
          (cleanupState (unwinding || answer.isPanic) rt left) host₁ with
      | .ended done rt host => .ended (ensured answer done) rt host
      | .endless => .endless
      | .exhausted => .exhausted := by
  simp only [Program.withCleanup, step, ran, cleanupState]
  cases step caller (unwinding || answer.isPanic) cleanup
      (if unwinding || answer.isPanic then left.restore rt.marks else left) host₁ with
  | ended done left₁ host₂ => cases done <;> rfl
  | endless => rfl
  | exhausted => rfl

/-- Whatever body has run, its cleanup runs once. After a panic it starts on the calls and scopes
of the entry, and on its handles unless the body let go of them outside of all calls and scopes;
after a body that answers, while nothing unwinds, it starts where the body ended. -/
theorem cleanup_starts_once (code : CodeRef → Code η) (budget : Nat) (unwinding : Bool)
    (body : Program η Val) (cleanup : Program η Unit) (rt : Runtime) (host : η)
    (seen : List Runtime) {answer : Outcome Val} {left : Runtime} {host₁ : η}
    (ran : step (call code budget) unwinding body rt host = .ended answer left host₁) :
    ∃ start : Runtime,
      step (call (besideCode (List Runtime) code) budget) unwinding
          (Program.withCleanup (body.beside (List Runtime)) cleanup.noting) rt (host, seen) =
        (step (call code budget) unwinding (Program.withCleanup body cleanup) rt host).beside
          (seen ++ [start]) ∧
      (answer.isPanic = true → start.calls = rt.calls ∧ start.scopes = rt.scopes ∧
        (start.handles = rt.handles ∨
          rt.atTopLevel = true ∧ LetsGo (call code budget) unwinding body rt host)) ∧
      (answer.isPanic = false → unwinding = false → start = left) := by
  have calls unwinding c rt host (notes : List Runtime) :
      call (besideCode (List Runtime) code) budget unwinding c rt (host, notes) =
        (call code budget unwinding c rt host).beside notes := call_beside code budget ..
  have retains := step_retains (call_retains code budget) body ran
  refine ⟨cleanupState (unwinding || answer.isPanic) rt left, ?_, fun panicked => ?_,
    fun answered calm => ?_⟩
  · have noted := step_beside calls body unwinding rt host seen
    rw [ran] at noted
    rw [step_withCleanup noted, step_withCleanup ran]
    have cleaned := step_beside calls cleanup (unwinding || answer.isPanic)
      (cleanupState (unwinding || answer.isPanic) rt left) host₁
      (seen ++ [cleanupState (unwinding || answer.isPanic) rt left])
    simp only [Program.noting, step, cleaned]
    cases step (call code budget) (unwinding || answer.isPanic) cleanup
      (cleanupState (unwinding || answer.isPanic) rt left) host₁ <;> rfl
  · rw [panicked, Bool.or_true]
    exact ⟨retains.calls_restore, retains.scopes_restore, retains.handles_restore⟩
  · rw [answered, calm]
    rfl

/-- A body that makes a string and answers with it. -/
def keeping : Program Unit Val := do
  return .string (← Program.perform (.newString CoreClass.string.ref "kept"))

/-- A body that lets go of all handles, and panics. -/
def releasing : Program Unit Val := do
  let _ ← Program.perform .releaseTopLevel
  Program.panic "boom"

def silent : CodeRef → Code Unit := fun _ _ => .done (.value .nil)

theorem step_keeping (rt : Runtime) (unwinding : Bool) :
    step (call silent 8) unwinding keeping rt () = .ended
      (.value (.string (rt.alloc (.string CoreClass.string.ref "kept")).1))
      (rt.alloc (.string CoreClass.string.ref "kept")).2 () := rfl

theorem keeping_starts_once : ∃ answer start,
    step (call silent 8) false keeping (Runtime.boot {}) () = .ended (.value answer) start () ∧
    step (call (besideCode (List Runtime) silent) 8) false
        (Program.withCleanup (keeping.beside (List Runtime)) (Program.done (.value ())).noting)
        (Runtime.boot {}) ((), []) =
      (step (call silent 8) false (Program.withCleanup keeping (.done (.value ())))
        (Runtime.boot {}) ()).beside ([] ++ [start]) := by
  have ran := step_keeping (Runtime.boot {}) false
  obtain ⟨start, once, -, answered⟩ :=
    cleanup_starts_once silent 8 false keeping (.done (.value ())) (Runtime.boot {}) () [] ran
  rw [← answered rfl rfl] at ran
  exact ⟨_, start, ran, once⟩

/-- The handles on which the cleanups of a run started. -/
def startHandles {α : Type} : Run (Unit × List Runtime) α → List (Array Val)
  | .ended _ _ (_, notes) => notes.map (·.handles)
  | _ => []

def endHandles {α : Type} : Run Unit α → Option (Bool × Array Val)
  | .ended outcome rt _ => some (outcome.isPanic, rt.handles)
  | _ => none

theorem releasing_leaves_none {rt : Runtime} (top : rt.atTopLevel = true) :
    endHandles (step (call silent 8) false releasing rt ()) = some (true, #[]) ∧
      startHandles (step (call (besideCode (List Runtime) silent) 8) false
        (Program.withCleanup (releasing.beside (List Runtime))
          (Program.done (.value ())).noting) rt ((), [])) = [#[]] := by
  have released : rt.releaseTopLevel = (rt.handles.size, rt.release 0 none) := if_pos top
  have ended : step (call silent 8) false releasing rt () =
      .ended (.panic "boom") rt.releaseTopLevel.2 () := rfl
  have started : startHandles (step (call (besideCode (List Runtime) silent) 8) false
      (Program.withCleanup (releasing.beside (List Runtime))
        (Program.done (.value ())).noting) rt ((), [])) =
      [rt.releaseTopLevel.2.handles.take rt.handles.size] := rfl
  rw [ended, started, released]
  simp [endHandles, Outcome.isPanic, Runtime.release]

theorem keeping_while_unwinding {rt : Runtime} (empty : rt.handles = #[]) :
    endHandles (step (call silent 8) true keeping rt ()) =
        some (false, (rt.alloc (.string CoreClass.string.ref "kept")).2.handles) ∧
      startHandles (step (call (besideCode (List Runtime) silent) 8) true
        (Program.withCleanup (keeping.beside (List Runtime))
          (Program.done (.value ())).noting) rt ((), [])) = [#[]] := by
  have started : startHandles (step (call (besideCode (List Runtime) silent) 8) true
      (Program.withCleanup (keeping.beside (List Runtime))
        (Program.done (.value ())).noting) rt ((), [])) =
      [(rt.alloc (.string CoreClass.string.ref "kept")).2.handles.take rt.handles.size] := rfl
  rw [started, step_keeping]
  exact ⟨rfl, by simp [empty]⟩

/-- A body that lets go of the handles it finds at the top cannot be given them back when it
panics. A body that answers has its string taken away while a panic unwinds. -/
theorem cleanup_misses_handles :
    (let rt := ((Runtime.boot {}).alloc (.string CoreClass.string.ref "kept")).2;
      rt.handles = #[.string ⟨38, 0⟩] ∧
        endHandles (step (call silent 8) false releasing rt ()) = some (true, #[]) ∧
        startHandles (step (call (besideCode (List Runtime) silent) 8) false
          (Program.withCleanup (releasing.beside (List Runtime))
            (Program.done (.value ())).noting) rt ((), [])) = [#[]]) ∧
    (let rt := Runtime.boot {};
      endHandles (step (call silent 8) true keeping rt ()) = some (false, #[.string ⟨38, 0⟩]) ∧
        startHandles (step (call (besideCode (List Runtime) silent) 8) true
          (Program.withCleanup (keeping.beside (List Runtime))
            (Program.done (.value ())).noting) rt ((), [])) = [#[]]) := by
  have kept : ((Runtime.boot {}).alloc (.string CoreClass.string.ref "kept")).2.handles =
      #[.string ⟨38, 0⟩] := by decide +kernel
  have top : ((Runtime.boot {}).alloc (.string CoreClass.string.ref "kept")).2.atTopLevel = true := by
    decide +kernel
  refine ⟨⟨kept, releasing_leaves_none top⟩, ?_⟩
  rw [← kept]
  exact keeping_while_unwinding (by decide +kernel)

end Machine
end ObjectRuntime
