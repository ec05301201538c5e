import ObjectRuntime.Proofs.Recursion

/-! Abandoned calls. A panic abandons the calls that it leaves: they stay on the call stack until an
ensure that unwinds takes them off. Behind a program, or behind a call, as many more calls are running
than before it as were abandoned on its way and left on the stack. -/

namespace ObjectRuntime

namespace Runtime

/-- So many more calls are running than before. -/
def Deepens (rt left : Runtime) (n : Nat) : Prop := left.calls.size = rt.calls.size + n

variable {rt mid left : Runtime} {m n : Nat}

namespace Deepens

theorem of_calls (same : left.calls = rt.calls) : Deepens rt left 0 := congrArg Array.size same

theorem trans (first : Deepens rt mid m) (second : Deepens mid left n) : Deepens rt left (m + n) := by
  unfold Deepens at *
  rw [second, first, Nat.add_assoc]

theorem behind (deepens : Deepens rt mid n) (same : left.calls = mid.calls) : Deepens rt left n :=
  deepens.trans (of_calls same)

theorem before (deepens : Deepens mid left n) (same : mid.calls = rt.calls) : Deepens rt left n :=
  Nat.zero_add n ▸ (of_calls same).trans deepens

theorem leaveScope (deepens : Deepens rt.enterScope left n) (mark : Nat) (outcome : Outcome Val) :
    Deepens rt (left.leaveScope mark outcome) n := by
  have around : Deepens rt left n := deepens.before rfl
  refine around.behind ?_
  unfold Runtime.leaveScope
  split
  · rfl
  · exact calls_release ..

theorem letGo {v : Val} (deepens : Deepens (rt.hold v) left n) (mark : Nat) (outcome : Outcome Unit) :
    Deepens rt (left.letGo mark outcome) n := by
  refine (deepens.before (calls_act (.hold v) rt)).behind ?_
  unfold Runtime.letGo
  split
  · rfl
  · exact calls_release ..

/-- An ensure that unwinds takes off what was abandoned. -/
theorem cleanup (deepens : Deepens rt left n) (unwound : Bool) :
    Deepens rt (Machine.cleanupState unwound rt left) (if unwound then 0 else n) := by
  unfold Machine.cleanupState
  cases unwound with
  | true =>
    have deep : rt.calls.size ≤ left.calls.size := deepens ▸ Nat.le_add_right ..
    simp [Deepens, restore, marks, deep]
  | false => exact deepens

theorem refuseCall (rt : Runtime) (c : Call) :
    Deepens rt ((rt.openFrame c).2.refuseCall c rt.handles.size).2 0 :=
  of_calls (calls_leaveCall ..)

/-- A call takes one frame off, whichever it is, unless it panics. -/
theorem closeCall {c : Call}
    (deepens : Deepens ((rt.openFrame c).2.pushCall (rt.openFrame c).1) left n)
    (outcome : Outcome Val) :
    Deepens rt (left.closeCall c rt.handles.size outcome).2 (outcome.isPanic.toNat + n) := by
  have pushed : ((rt.openFrame c).2.pushCall (rt.openFrame c).1).calls.size = rt.calls.size + 1 :=
    Array.size_push _
  have deep : left.calls.size = rt.calls.size + 1 + n := pushed ▸ deepens
  simp only [Deepens, Runtime.closeCall, calls_leaveCall]
  cases outcome.isPanic with
  | true => exact deep.trans (Nat.add_assoc ..)
  | false =>
    have popped : left.popCall.calls.size = left.calls.size - 1 := Array.size_pop
    simp only [Bool.false_eq_true, if_false, Bool.toNat_false]
    omega

end Deepens
end Runtime

/-! ## Runs -/

/-- What is counted behind the end of a run. -/
def Run.counts {η α : Type} (run : Run η α) (next : Outcome α → Runtime → η → Nat) : Nat :=
  match run with
  | .ended outcome rt host => next outcome rt host
  | _ => 0

namespace Machine
variable {η α : Type}

/-- How many calls a program abandons on its way that no ensure in it takes off the stack. -/
def abandoned {α : Type} (caller : Caller η) (inCall : Bool → Call → Runtime → η → Nat)
    (unwinding : Bool) : Program η α → Runtime → η → Nat
  | .done _, _, _ => 0
  | .endless, _, _ => 0
  | .read next, rt, host => abandoned caller inCall unwinding (next rt) rt host
  | .act action next, rt, host =>
    abandoned caller inCall unwinding (next (action.run rt).1) (action.run rt).2 host
  | .host f next, rt, host => abandoned caller inCall unwinding (next (f host).1) rt (f host).2
  | .call c next, rt, host =>
    inCall unwinding c rt host + (caller unwinding c rt host).counts fun answer left host =>
      abandoned caller inCall unwinding (next answer) left host
  | .scope body next, rt, host =>
    abandoned caller inCall unwinding body rt.enterScope host +
      (step caller unwinding body rt.enterScope host).counts fun answer left host =>
        abandoned caller inCall unwinding (next answer) (left.leaveScope rt.handles.size answer) host
  | .ensure body cleanup next, rt, host =>
    (step caller unwinding body rt host).counts fun answer left host' =>
      let unwound := unwinding || answer.isPanic
      let start := cleanupState unwound rt left
      (if unwound then 0 else abandoned caller inCall unwinding body rt host) +
        (abandoned caller inCall unwound cleanup start host' +
          (step caller unwound cleanup start host').counts fun done left host =>
            abandoned caller inCall unwinding (next (ensured answer done)) left host)
  | .holding v body next, rt, host =>
    abandoned caller inCall unwinding body (rt.hold v) host +
      (step caller unwinding body (rt.hold v) host).counts fun answer left host =>
        abandoned caller inCall unwinding (next answer) (left.letGo rt.handles.size answer) host

/-- A call that is let in is abandoned when it panics, beside those that are abandoned on its way. -/
def callAbandoned (code : CodeRef → Code η) : Nat → Bool → Call → Runtime → η → Nat
  | 0, _, _, _, _ => 0
  | budget + 1, unwinding, c, rt, host =>
    match rt.openFrame c with
    | (frame, rt) =>
      if rt.atLimit then 0
      else
        let p := body code rt frame c
        (step (call code budget) unwinding p (rt.pushCall frame) host).counts fun outcome _ _ =>
          outcome.isPanic.toNat +
            abandoned (call code budget) (callAbandoned code budget) unwinding p (rt.pushCall frame) host

section
variable {code : CodeRef → Code η} {budget : Nat} {unwinding : Bool} {c : Call} {rt left : Runtime}
  {host host' : η} {outcome : Outcome Val}

theorem callAbandoned_refused (full : (rt.openFrame c).2.atLimit = true) :
    callAbandoned code budget unwinding c rt host = 0 := by
  cases budget with
  | zero => rfl
  | succ budget => exact if_pos full

theorem callAbandoned_ran (room : (rt.openFrame c).2.atLimit = false)
    (ran : step (call code budget) unwinding (body code (rt.openFrame c).2 (rt.openFrame c).1 c)
      ((rt.openFrame c).2.pushCall (rt.openFrame c).1) host = .ended outcome left host') :
    callAbandoned code (budget + 1) unwinding c rt host = outcome.isPanic.toNat +
      abandoned (call code budget) (callAbandoned code budget) unwinding
        (body code (rt.openFrame c).2 (rt.openFrame c).1 c)
        ((rt.openFrame c).2.pushCall (rt.openFrame c).1) host := by
  simp only [callAbandoned, room, ran, Run.counts, Bool.false_eq_true, if_false]

end

theorem step_deepens {caller : Caller η} {inCall : Bool → Call → Runtime → η → Nat}
    (deepening : ∀ unwinding c rt host answer left host',
      caller unwinding c rt host = .ended answer left host' →
        Runtime.Deepens rt left (inCall unwinding c rt host))
    (p : Program η α) {unwinding : Bool} {rt rt' : Runtime} {host host' : η}
    {outcome : Outcome α} (ended : step caller unwinding p rt host = .ended outcome rt' host') :
    Runtime.Deepens rt rt' (abandoned caller inCall unwinding p rt host) := by
  induction p generalizing unwinding rt rt' host host' with
  | done o =>
    cases ended
    exact .of_calls rfl
  | endless => cases ended
  | read next ih => exact ih rt ended
  | host f next ih => exact ih (f host).1 ended
  | act action next ih =>
    have rest : step caller unwinding (next (action.run rt).1) (action.run rt).2 host =
      .ended outcome rt' host' := ended
    exact (ih (action.run rt).1 rest).before (Runtime.calls_act action rt)
  | call c next ih =>
    obtain ⟨answer, left, host₁, called, rest⟩ := step_call ended
    rw [abandoned, called]
    exact (deepening unwinding c rt host answer left host₁ called).trans (ih answer rest)
  | scope body next first ih =>
    obtain ⟨answer, left, host₁, inner, rest⟩ := step_scope ended
    rw [abandoned, inner]
    exact ((first inner).leaveScope _ answer).trans (ih answer rest)
  | holding v body next first ih =>
    obtain ⟨answer, left, host₁, inner, rest⟩ := step_holding ended
    rw [abandoned, inner]
    exact ((first inner).letGo _ answer).trans (ih answer rest)
  | ensure body cleanup next first second ih =>
    obtain ⟨answer, left, host₁, done, left₁, host₂, inner, cleaned, rest⟩ := step_ensure ended
    simp only [abandoned, inner, Run.counts, cleaned]
    exact ((first inner).cleanup _).trans ((second cleaned).trans (ih (ensured answer done) rest))

theorem call_deepens (code : CodeRef → Code η) (budget : Nat) (unwinding : Bool) (c : Call)
    (rt : Runtime) (host : η) (answer : Outcome Val) (left : Runtime) (host' : η)
    (ended : call code budget unwinding c rt host = .ended answer left host') :
    Runtime.Deepens rt left (callAbandoned code budget unwinding c rt host) := by
  induction budget using Nat.strongRecOn generalizing unwinding c rt host answer left host' with
  | ind budget ih =>
    cases callEnds_of_ended ended with
    | refused full =>
      rw [callAbandoned_refused full]
      exact .refuseCall rt c
    | ran room ran =>
      rw [callAbandoned_ran room ran]
      exact (step_deepens (ih _ (Nat.lt_succ_self _)) _ ran).closeCall _

end Machine
end ObjectRuntime
