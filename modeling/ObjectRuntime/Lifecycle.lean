import ObjectRuntime.Binder

/-! The end of a program: at-exit handlers, the report of a failure nothing rescued,
and the exit code. -/

namespace ObjectRuntime.Program
variable {η : Type}

def setGlobal (name : Sym) (v : Val) : Program η Unit := perform (.setGlobal name v)

def atExit (handler : Val) : Program η Unit := do
  if (handler.ofKind? .proc).isSome || (handler.ofKind? .bound).isSome then
    let handlers ← match ← asks (·.getGlobal .atExitHandlers) with
      | .cell .array r => pure r
      | _ => do
        let r ← newArray []
        setGlobal .atExitHandlers (.array r)
        pure r
    perform (.push handlers handler)
  else
    let cls ← asks (·.className handler)
    fail (.typeError s!"wrong argument type {cls} (expected Proc)")

def report (e : Failure) : Program η Unit := perform (.report e.report)

def runHandlers : List Val → Program η Unit
  | [] => pure ()
  | handler :: rest => do
    match ← (inScope (callValue handler [] none)).attempt with
    | .failure e => report e
    | .panic message => panic message
    | .value _ => pure ()
    runHandlers rest

/-- Run the registered handlers, the latest first, and forget them. The list is taken out of the
globals before they run, so it is held meanwhile. -/
def runAtExitHandlers : Program η Unit := do
  match ← asks (·.getGlobal .atExitHandlers) with
  | .cell .array registered =>
    let body : Program η Unit := do
      let fresh ← newArray []
      setGlobal .atExitHandlers (.array fresh)
      let handlers ← asks fun rt => (rt.elements? registered).getD #[]
      runHandlers handlers.toList.reverse
    holding (.array registered) body done
  | _ => pure ()

/-- Run the main body of a program and then the at-exit handlers. The exit code is 0 after a
value, the status of a system exit, and 1 after any other failure, which is reported. -/
def runMain (body : Program η Val) : Program η Int64 := do
  let outcome ← (inScope body).attempt
  match outcome with
  | .panic message => panic message
  | .value _ =>
    runAtExitHandlers
    return 0
  | .failure e =>
    runAtExitHandlers
    if e.isExit then return e.exitCode
    else
      report e
      return 1

end ObjectRuntime.Program
