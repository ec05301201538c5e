import ObjectRuntime.Machine
import ObjectRuntime.Proofs.Stacks

/-! The course of a run: the states that running a program passes through, each with the
number of calls, scopes and held values that it lies in. In a steady course everything that
is held outside of them stays held, and everything made outside of them is held. -/

namespace ObjectRuntime

/-- A state on the way of a run, and how many calls, scopes and held values of the run it lies
in. Where a program ends it is noted whether that program panicked. -/
structure Moment where
  depth : Nat
  rt : Runtime
  panics : Bool := false

/-- The same moment, seen from outside of a call, a scope or a held value. -/
def Moment.deeper (m : Moment) : Moment := { m with depth := m.depth + 1 }

def Run.follow {η α : Type} (run : Run η α) (next : Outcome α → Runtime → η → List Moment) :
    List Moment :=
  match run with
  | .ended outcome rt host => next outcome rt host
  | _ => []

def Run.andThen {η α β : Type} (run : Run η α) (next : Outcome α → Runtime → η → Run η β) :
    Run η β :=
  match run with
  | .ended outcome rt host => next outcome rt host
  | .endless => .endless
  | .exhausted => .exhausted

/-- To go on after a program is to attempt it, and to go on after a value. -/
theorem Program.bind_eq_attempt {η α β : Type} (p : Program η α) (f : α → Program η β) :
    p.bind f = p.attempt.bind fun
      | .value a => f a
      | .failure e => done (.failure e)
      | .panic message => done (.panic message) := by
  induction p with
  | done outcome => cases outcome <;> rfl
  | endless => rfl
  | read next ih => simp only [attempt, bind, ih]
  | act action next ih => simp only [attempt, bind, ih]
  | host step next ih => simp only [attempt, bind, ih]
  | call c next ih => simp only [attempt, bind, ih]
  | scope body next _ ih => simp only [attempt, bind, ih]
  | ensure body cleanup next _ _ ih => simp only [attempt, bind, ih]
  | holding v body next _ ih => simp only [attempt, bind, ih]

namespace Machine
variable {η : Type}

def cleanupState (unwound : Bool) (rt left : Runtime) : Runtime :=
  if unwound then left.restore rt.marks else left

def ensured (outcome : Outcome Val) : Outcome Unit → Outcome Val
  | .panic message => .panic message
  | _ => outcome

abbrev Course (η : Type) := Bool → Call → Runtime → η → List Moment

/-- The course of a program, given how its calls run and the courses they take. -/
def trace {α : Type} (caller : Caller η) (within : Course η) (unwinding : Bool) :
    Program η α → Runtime → η → List Moment
  | .done outcome, rt, _ => [⟨0, rt, outcome.isPanic⟩]
  | .endless, rt, _ => [⟨0, rt, false⟩]
  | .read next, rt, host => trace caller within unwinding (next rt) rt host
  | .act action next, rt, host =>
    ⟨0, rt, false⟩ ::
      trace caller within unwinding (next (action.run rt).1) (action.run rt).2 host
  | .host f next, rt, host => trace caller within unwinding (next (f host).1) rt (f host).2
  | .call c next, rt, host =>
    ⟨0, rt, false⟩ :: ((within unwinding c rt host).map Moment.deeper ++
      (caller unwinding c rt host).follow fun outcome rt host =>
        trace caller within unwinding (next outcome) rt host)
  | .scope body next, rt, host =>
    ⟨0, rt, false⟩ :: ((trace caller within unwinding body rt.enterScope host).map Moment.deeper ++
      (step caller unwinding body rt.enterScope host).follow fun outcome left host =>
        trace caller within unwinding (next outcome) (left.leaveScope rt.handles.size outcome) host)
  | .ensure body cleanup next, rt, host =>
    trace caller within unwinding body rt host ++
      (step caller unwinding body rt host).follow fun outcome left host =>
        let unwound := unwinding || outcome.isPanic
        let left := cleanupState unwound rt left
        trace caller within unwound cleanup left host ++
          (step caller unwound cleanup left host).follow fun done rt host =>
            trace caller within unwinding (next (ensured outcome done)) rt host
  | .holding v body next, rt, host =>
    ⟨0, rt, false⟩ :: ((trace caller within unwinding body (rt.hold v) host).map Moment.deeper ++
      (step caller unwinding body (rt.hold v) host).follow fun outcome left host =>
        trace caller within unwinding (next outcome) (left.letGo rt.handles.size outcome) host)

/-- The course of a call, inside of it. One that is refused only opens its frame. -/
def course (code : CodeRef → Code η) (budget : Nat) (unwinding : Bool) (c : Call) (rt : Runtime)
    (host : η) : List Moment :=
  match rt.openFrame c with
  | (frame, rt) =>
    if rt.atLimit then [⟨0, rt, false⟩]
    else
      match budget with
      | 0 => [⟨0, rt, false⟩]
      | budget + 1 =>
        trace (call code budget) (course code budget) unwinding (body code rt frame c)
          (rt.pushCall frame) host

/-! ## Calls -/

section
variable {code : CodeRef → Code η} {budget : Nat} {unwinding : Bool} {c : Call} {rt left : Runtime}
  {host host' : η} {answer outcome : Outcome Val}

theorem call_full (full : (rt.openFrame c).2.atLimit = true) :
    call code budget unwinding c rt host =
      .ended ((rt.openFrame c).2.refuseCall c rt.handles.size).1
        ((rt.openFrame c).2.refuseCall c rt.handles.size).2 host := by
  unfold call
  exact if_pos full

theorem call_room (room : (rt.openFrame c).2.atLimit = false) :
    call code (budget + 1) unwinding c rt host =
      (step (call code budget) unwinding (body code (rt.openFrame c).2 (rt.openFrame c).1 c)
        ((rt.openFrame c).2.pushCall (rt.openFrame c).1) host).andThen fun outcome left host =>
          .ended (left.closeCall c rt.handles.size outcome).1
            (left.closeCall c rt.handles.size outcome).2 host := by
  simp only [call, room, Bool.false_eq_true, if_false]
  cases step (call code budget) unwinding (body code (rt.openFrame c).2 (rt.openFrame c).1 c)
    ((rt.openFrame c).2.pushCall (rt.openFrame c).1) host <;> rfl

theorem call_ended (room : (rt.openFrame c).2.atLimit = false)
    (ran : step (call code budget) unwinding (body code (rt.openFrame c).2 (rt.openFrame c).1 c)
      ((rt.openFrame c).2.pushCall (rt.openFrame c).1) host = .ended outcome left host') :
    call code (budget + 1) unwinding c rt host =
      .ended (left.closeCall c rt.handles.size outcome).1
        (left.closeCall c rt.handles.size outcome).2 host' := by
  rw [call_room room, ran, Run.andThen]

/-- How a call ends: it is refused at the recursion limit, or its body ends in the frame that it
opened. -/
inductive CallEnds (code : CodeRef → Code η) (unwinding : Bool) (c : Call) (rt : Runtime) (host : η) :
    Nat → Outcome Val → Runtime → η → Prop
  | refused {budget : Nat} (full : (rt.openFrame c).2.atLimit = true) :
      CallEnds code unwinding c rt host budget ((rt.openFrame c).2.refuseCall c rt.handles.size).1
        ((rt.openFrame c).2.refuseCall c rt.handles.size).2 host
  | ran {budget : Nat} {outcome : Outcome Val} {left : Runtime} {host' : η}
      (room : (rt.openFrame c).2.atLimit = false)
      (ran : step (call code budget) unwinding (body code (rt.openFrame c).2 (rt.openFrame c).1 c)
        ((rt.openFrame c).2.pushCall (rt.openFrame c).1) host = .ended outcome left host') :
      CallEnds code unwinding c rt host (budget + 1) (left.closeCall c rt.handles.size outcome).1
        (left.closeCall c rt.handles.size outcome).2 host'

theorem callEnds_of_ended (ended : call code budget unwinding c rt host = .ended answer left host') :
    CallEnds code unwinding c rt host budget answer left host' := by
  cases full : (rt.openFrame c).2.atLimit with
  | true =>
    rw [call_full full] at ended
    cases ended
    exact .refused full
  | false =>
    cases budget with
    | zero => simp [call, full] at ended
    | succ budget =>
      rw [call_room full] at ended
      unfold Run.andThen at ended
      split at ended
      next ran =>
        cases ended
        exact .ran full ran
      next => cases ended
      next => cases ended

end

/-! ## Runs that end -/

section
variable {α : Type} {caller : Caller η} {unwinding : Bool} {rt rt' : Runtime} {host host' : η}
  {outcome : Outcome α}

theorem step_call {c : Call} {next : Outcome Val → Program η α}
    (ended : step caller unwinding (.call c next) rt host = .ended outcome rt' host') :
    ∃ answer left host₁, caller unwinding c rt host = .ended answer left host₁ ∧
      step caller unwinding (next answer) left host₁ = .ended outcome rt' host' := by
  simp only [step] at ended
  split at ended
  next answer left host₁ called => exact ⟨answer, left, host₁, called, ended⟩
  next => cases ended
  next => cases ended

theorem step_scope {body : Program η Val} {next : Outcome Val → Program η α}
    (ended : step caller unwinding (.scope body next) rt host = .ended outcome rt' host') :
    ∃ answer left host₁, step caller unwinding body rt.enterScope host = .ended answer left host₁ ∧
      step caller unwinding (next answer) (left.leaveScope rt.handles.size answer) host₁ =
        .ended outcome rt' host' := by
  simp only [step] at ended
  split at ended
  next answer left host₁ inner => exact ⟨answer, left, host₁, inner, ended⟩
  next => cases ended
  next => cases ended

theorem step_holding {v : Val} {body : Program η Unit} {next : Outcome Unit → Program η α}
    (ended : step caller unwinding (.holding v body next) rt host = .ended outcome rt' host') :
    ∃ answer left host₁, step caller unwinding body (rt.hold v) host = .ended answer left host₁ ∧
      step caller unwinding (next answer) (left.letGo rt.handles.size answer) host₁ =
        .ended outcome rt' host' := by
  simp only [step] at ended
  split at ended
  next answer left host₁ inner => exact ⟨answer, left, host₁, inner, ended⟩
  next => cases ended
  next => cases ended

theorem step_ensure {body : Program η Val} {cleanup : Program η Unit}
    {next : Outcome Val → Program η α}
    (ended : step caller unwinding (.ensure body cleanup next) rt host = .ended outcome rt' host') :
    ∃ answer left host₁ done left₁ host₂,
      step caller unwinding body rt host = .ended answer left host₁ ∧
      step caller (unwinding || answer.isPanic) cleanup
        (cleanupState (unwinding || answer.isPanic) rt left) host₁ = .ended done left₁ host₂ ∧
      step caller unwinding (next (ensured answer done)) left₁ host₂ = .ended outcome rt' host' := by
  simp only [step] at ended
  split at ended
  next answer left host₁ inner =>
    split at ended
    next message left₁ host₂ cleaned =>
      exact ⟨answer, left, host₁, .panic message, left₁, host₂, inner, cleaned, ended⟩
    next done left₁ host₂ calm cleaned =>
      refine ⟨answer, left, host₁, done, left₁, host₂, inner, cleaned, ?_⟩
      cases done with
      | panic message => exact absurd rfl (calm message)
      | _ => exact ended
    next => cases ended
    next => cases ended
  next => cases ended
  next => cases ended

/-- A program whose outcome another one goes on with, runs first. -/
theorem step_attempt {β : Type} (p : Program η α) (f : Outcome α → Program η β) :
    step caller unwinding (p.attempt.bind f) rt host =
      (step caller unwinding p rt host).andThen fun outcome left host =>
        step caller unwinding (f outcome) left host := by
  induction p generalizing rt host with
  | done o => rfl
  | endless => rfl
  | read next ih => exact ih rt f
  | host g next ih => exact ih (g host).1 f
  | act action next ih => exact ih (action.run rt).1 f
  | call c next ih =>
    simp only [Program.attempt, Program.bind, step]
    cases caller unwinding c rt host with
    | ended answer left host₁ => exact ih answer f
    | _ => rfl
  | scope body next _ ih =>
    simp only [Program.attempt, Program.bind, step]
    cases step caller unwinding body rt.enterScope host with
    | ended answer left host₁ => exact ih answer f
    | _ => rfl
  | holding v body next _ ih =>
    simp only [Program.attempt, Program.bind, step]
    cases step caller unwinding body (rt.hold v) host with
    | ended answer left host₁ => exact ih answer f
    | _ => rfl
  | ensure body cleanup next _ _ ih =>
    simp only [Program.attempt, Program.bind, step]
    cases step caller unwinding body rt host with
    | ended answer left host₁ =>
      dsimp only
      cases step caller (unwinding || answer.isPanic) cleanup
          (if (unwinding || answer.isPanic) = true then left.restore rt.marks else left) host₁ with
      | ended done left₁ host₂ =>
        cases done with
        | panic message => exact ih (.panic message) f
        | _ => exact ih answer f
      | _ => rfl
    | _ => rfl

/-- A run of two programs, one after the other, is a run of the first and then one of the second. -/
theorem step_bind {β : Type} {p : Program η α} {f : α → Program η β} {b : β}
    (ended : step caller unwinding (p.bind f) rt host = .ended (.value b) rt' host') :
    ∃ a left host₁, step caller unwinding p rt host = .ended (.value a) left host₁ ∧
      step caller unwinding (f a) left host₁ = .ended (.value b) rt' host' := by
  rw [Program.bind_eq_attempt, step_attempt] at ended
  cases ran : step caller unwinding p rt host with
  | ended answer left host₁ =>
    rw [ran] at ended
    cases answer with
    | value a => exact ⟨a, left, host₁, rfl, ended⟩
    | _ => cases ended
  | _ =>
    rw [ran] at ended
    cases ended

/-! ## Where a course begins and ends -/

theorem trace_begins (caller : Caller η) (within : Course η) (unwinding : Bool)
    (p : Program η α) (rt : Runtime) (host : η) :
    ∃ panics rest, trace caller within unwinding p rt host = ⟨0, rt, panics⟩ :: rest := by
  induction p generalizing unwinding rt host with
  | read next ih => exact ih rt unwinding rt host
  | host f next ih => exact ih (f host).1 unwinding rt (f host).2
  | ensure body cleanup next first _ _ =>
    obtain ⟨panics, rest, same⟩ := first unwinding rt host
    exact ⟨panics, _, by rw [trace, same, List.cons_append]⟩
  | _ => exact ⟨_, _, rfl⟩

theorem trace_ends (within : Course η) {p : Program η α}
    (ended : step caller unwinding p rt host = .ended outcome rt' host') :
    ∃ init, trace caller within unwinding p rt host =
      init ++ [⟨0, rt', outcome.isPanic⟩] := by
  induction p generalizing unwinding rt host with
  | done o =>
    cases ended
    exact ⟨[], rfl⟩
  | endless => cases ended
  | read next ih => exact ih rt ended
  | act action next ih =>
    have rest : step caller unwinding (next (action.run rt).1) (action.run rt).2 host =
      .ended outcome rt' host' := ended
    obtain ⟨init, same⟩ := ih (action.run rt).1 rest
    exact ⟨⟨0, rt, false⟩ :: init, by rw [trace, same, List.cons_append]⟩
  | host f next ih => exact ih (f host).1 ended
  | call c next ih =>
    obtain ⟨answer, left, host₁, called, rest⟩ := step_call ended
    obtain ⟨init, same⟩ := ih answer rest
    exact ⟨_, by rw [trace, called, Run.follow, same, ← List.append_assoc, ← List.cons_append]⟩
  | scope body next _ ih =>
    obtain ⟨answer, left, host₁, inner, rest⟩ := step_scope ended
    obtain ⟨init, same⟩ := ih answer rest
    exact ⟨_, by rw [trace, inner, Run.follow, same, ← List.append_assoc, ← List.cons_append]⟩
  | holding v body next _ ih =>
    obtain ⟨answer, left, host₁, inner, rest⟩ := step_holding ended
    obtain ⟨init, same⟩ := ih answer rest
    exact ⟨_, by rw [trace, inner, Run.follow, same, ← List.append_assoc, ← List.cons_append]⟩
  | ensure body cleanup next _ _ ih =>
    obtain ⟨answer, left, host₁, done, left₁, host₂, inner, cleaned, rest⟩ := step_ensure ended
    obtain ⟨init, same⟩ := ih (ensured answer done) rest
    exact ⟨_, by simp only [trace, inner, Run.follow, cleaned, same, ← List.append_assoc]; rfl⟩

end

end Machine
end ObjectRuntime
