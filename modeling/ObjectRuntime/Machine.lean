import ObjectRuntime.Program

/-! Running programs. A call runs its code in a frame of its own; when it returns, the
frame is popped and of the handles taken since only its result is kept. A panic pops
nothing: whoever cleans up restores the stacks. Runs are bounded by a budget of nested
calls, which the recursion limit never lets run out. -/

namespace ObjectRuntime

/-- The result of running a program: an outcome and the states after it, or no answer. -/
inductive Run (η α : Type)
  | ended (outcome : Outcome α) (rt : Runtime) (host : η)
  /-- The program never answers. -/
  | endless
  /-- The budget of nested calls ran out. -/
  | exhausted

structure Marks where
  calls : Nat
  scopes : Nat
  handles : Nat

namespace Runtime

def marks (rt : Runtime) : Marks := ⟨rt.calls.size, rt.scopes, rt.handles.size⟩

def restore (rt : Runtime) (m : Marks) : Runtime :=
  { rt with
    calls := rt.calls.take m.calls
    scopes := min rt.scopes m.scopes
    handles := rt.handles.take m.handles }

/-! ## Scopes and held values -/

def enterScope (rt : Runtime) : Runtime := { rt with scopes := rt.scopes + 1 }

/-- Leave a scope entered at `mark`. Its result is held when something encloses the scope. After
a panic the scope stays entered. -/
def leaveScope (rt : Runtime) (mark : Nat) (outcome : Outcome Val) : Runtime :=
  if outcome.isPanic then rt
  else
    let rt := { rt with scopes := rt.scopes - 1 }
    rt.release mark (if rt.atTopLevel then none else outcome.value?)

def letGo (rt : Runtime) (mark : Nat) (outcome : Outcome Unit) : Runtime :=
  if outcome.isPanic then rt else rt.release mark none

/-! ## Calls -/

/-- The frame a call runs in. Procs, and methods with a proc for a body, nest in the frame the
proc captured; a method rebinds self and the running method. -/
def callFrame (rt : Runtime) : Call → Frame
  | .method m receiver args block =>
    match m.body with
    | .proc p =>
      let parent := ((rt.proc? p).map (·.frame)).getD topFrame
      let lexicalModule := (rt.frames.store.getD parent default).lexicalModule
      { parent := some parent, self := receiver, method := some m, lexicalModule, args, block }
    | _ => { self := receiver, method := some m, lexicalModule := m.owner, args, block }
  | .proc p args block =>
    let parent := ((rt.proc? p).map (·.frame)).getD topFrame
    let outer := rt.frames.store.getD parent default
    { parent := some parent, self := outer.self, lexicalModule := outer.lexicalModule, args, block }

def callCode (rt : Runtime) : Call → Option CodeRef
  | .method m _ _ _ =>
    match m.body with
    | .native code | .closure code => some code
    | .proc p => (rt.proc? p).map (·.code)
  | .proc p _ _ => (rt.proc? p).map (·.code)

def callLabel (rt : Runtime) : Call → String
  | .method m _ _ _ => rt.methodLabel m
  | .proc _ _ _ => "in `block'"

def arityFailure (arity : Int) (given : Nat) : Option Failure :=
  if 0 ≤ arity then
    if (given : Int) = arity then none
    else some (.argumentError s!"wrong number of arguments (given {given}, expected {arity})")
  else
    let required := -(arity + 1)
    if required ≤ given then none
    else some (.argumentError s!"wrong number of arguments (given {given}, expected {required}+)")

def callFailure : Call → Option Failure
  | .method m _ args _ => arityFailure m.arity args.length
  | .proc _ _ _ => none

def openFrame (rt : Runtime) (c : Call) : Nat × Runtime :=
  match rt.frames.push (rt.callFrame c) with
  | (frame, frames) => (frame, { rt with frames })

def atLimit (rt : Runtime) : Bool := rt.recursionLimit ≤ rt.calls.size

def pushCall (rt : Runtime) (frame : Nat) : Runtime := { rt with calls := rt.calls.push frame }

def popCall (rt : Runtime) : Runtime := { rt with calls := rt.calls.pop }

def leaveCall (rt : Runtime) (c : Call) (mark : Nat) : Outcome Val → Outcome Val × Runtime
  | .value v => (.value v, rt.release mark (some v))
  | .failure e =>
    let rt := rt.release mark none
    (.failure (e.leave (rt.callLabel c)), rt)
  | .panic message => (.panic message, rt)

def refuseCall (rt : Runtime) (c : Call) (mark : Nat) : Outcome Val × Runtime :=
  rt.leaveCall c mark
    (.failure { kind := .systemStackError, message := "stack level too deep" })

/-- The end of a call that ran. A panic leaves the stacks as they are. -/
def closeCall (rt : Runtime) (c : Call) (mark : Nat) (outcome : Outcome Val) :
    Outcome Val × Runtime :=
  (if outcome.isPanic then rt else rt.popCall).leaveCall c mark outcome

end Runtime

namespace Machine
variable {η : Type}

abbrev Caller (η : Type) := Bool → Call → Runtime → η → Run η Val

/-- Run a program, given how its calls run. The flag says that a panic is under way: a cleanup
that then runs, runs with the stacks restored to where its body began. -/
def step {α : Type} (caller : Caller η) (unwinding : Bool) :
    Program η α → Runtime → η → Run η α
  | .done outcome, rt, host => .ended outcome rt host
  | .endless, _, _ => .endless
  | .read next, rt, host => step caller unwinding (next rt) rt host
  | .act action next, rt, host =>
    match action.run rt with
    | (b, rt) => step caller unwinding (next b) rt host
  | .host f next, rt, host =>
    match f host with
    | (b, host) => step caller unwinding (next b) rt host
  | .call c next, rt, host =>
    match caller unwinding c rt host with
    | .ended outcome rt host => step caller unwinding (next outcome) rt host
    | .endless => .endless
    | .exhausted => .exhausted
  | .scope body next, rt, host =>
    let mark := rt.handles.size
    match step caller unwinding body rt.enterScope host with
    | .ended outcome rt host =>
      step caller unwinding (next outcome) (rt.leaveScope mark outcome) host
    | .endless => .endless
    | .exhausted => .exhausted
  | .ensure body cleanup next, rt, host =>
    let marks := rt.marks
    match step caller unwinding body rt host with
    | .ended outcome rt host =>
      let unwound := unwinding || outcome.isPanic
      match step caller unwound cleanup (if unwound then rt.restore marks else rt) host with
      | .ended (.panic message) rt host =>
        step caller unwinding (next (.panic message)) rt host
      | .ended _ rt host => step caller unwinding (next outcome) rt host
      | .endless => .endless
      | .exhausted => .exhausted
    | .endless => .endless
    | .exhausted => .exhausted
  | .holding v body next, rt, host =>
    let mark := rt.handles.size
    match step caller unwinding body (rt.hold v) host with
    | .ended outcome rt host =>
      step caller unwinding (next outcome) (rt.letGo mark outcome) host
    | .endless => .endless
    | .exhausted => .exhausted

def body (code : CodeRef → Code η) (rt : Runtime) (frame : Nat) (c : Call) : Program η Val :=
  match Runtime.callFailure c with
  | some e => .fail e
  | none =>
    match rt.callCode c with
    | some ref =>
      let f := rt.frames.store.getD frame default
      code ref ⟨frame, f.self, f.args, f.block⟩
    | none => .done (.value .nil)

/-- Run a call with a budget of nested calls. At the recursion limit it is refused. -/
def call (code : CodeRef → Code η) (budget : Nat) (unwinding : Bool) (c : Call) (rt : Runtime)
    (host : η) : Run η Val :=
  let mark := rt.handles.size
  match rt.openFrame c with
  | (frame, rt) =>
    if rt.atLimit then
      match rt.refuseCall c mark with
      | (outcome, rt) => .ended outcome rt host
    else
      match budget with
      | 0 => .exhausted
      | budget + 1 =>
        match step (call code budget) unwinding (body code rt frame c) (rt.pushCall frame) host with
        | .ended outcome rt host =>
          match rt.closeCall c mark outcome with
          | (outcome, rt) => .ended outcome rt host
        | .endless => .endless
        | .exhausted => .exhausted

/-- Run a program from outside of all calls. The recursion limit is budget enough: every running
call is on the call stack. -/
def run {α : Type} (code : CodeRef → Code η) (p : Program η α) (rt : Runtime) (host : η) :
    Run η α :=
  step (call code rt.recursionLimit) false p rt host

end Machine
end ObjectRuntime
