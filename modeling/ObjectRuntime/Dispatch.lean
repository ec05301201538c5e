import ObjectRuntime.Machine

/-! Sending messages. A message calls the method its receiver's class answers the name
with, else `method_missing`, and else fails. -/

namespace ObjectRuntime

namespace Program
variable {η : Type}

def findFor (v : Val) (name : Sym) : Program η (Option Method) :=
  read fun rt => act (.findMethod (rt.classOf v) name none none) pure

def respondsTo (v : Val) (name : Sym) : Program η Bool := do
  return (← findFor v name).isSome

def callMethod (m : Method) (receiver : Val) (args : List Val) (block : Option Val) :
    Program η Val :=
  invoke (.method m receiver args block)

def answeredText (answer : Val) : Program η String :=
  asks fun rt =>
    match answer with
    | .cell .string r => (rt.text? r).getD ""
    | v => rt.defaultInspect v

/-- The text of a value in messages: what its inspect method answers, or the representation every
value has when there is no such method or it fails. -/
def inspectText (v : Val) : Program η String := do
  match ← findFor v .inspect with
  | none => asks (·.defaultInspect v)
  | some m => (callMethod m v [] none >>= answeredText).rescue fun _ => asks (·.defaultInspect v)

def send (receiver : Val) (name : Sym) (args : List Val := []) (block : Option Val := none) :
    Program η Val := do
  match ← findFor receiver name with
  | some m => callMethod m receiver args block
  | none =>
    match ← findFor receiver .methodMissing with
    | some hook => callMethod hook receiver (.sym name :: args) block
    | none =>
      let text ← inspectText receiver
      let name ← asks (·.symName name)
      fail (.noMethodError s!"undefined method `{name}' for {text}")

def inspect (v : Val) : Program η String := send v .inspect >>= answeredText

/-- Call the next definition of the method that runs in `frame`, behind the owner of the running
one in the ancestry of `self`. -/
def superSend (frame : Nat) (self : Val) (args : List Val) (block : Option Val) :
    Program η Val := do
  match ← asks (·.frames.currentMethod frame) with
  | none => fail (.noMethodError "super called outside of method")
  | some current =>
    let cls ← asks (·.classOf self)
    match ← perform (.findMethod cls current.name (some current) none) with
    | some next => callMethod next self args block
    | none =>
      let name ← asks (·.symName current.name)
      let text ← inspectText self
      fail (.noMethodError s!"super: no superclass method `{name}' for {text}")

def callProc (proc : Ref) (args : List Val) (block : Option Val) : Program η Val := do
  match ← asks (·.proc? proc) with
  | some { lambda := true, arity, .. } =>
    match Runtime.arityFailure arity args.length with
    | some e => fail e
    | none => invoke (.proc proc args block)
  | _ => invoke (.proc proc args block)

def callValue (callable : Val) (args : List Val) (block : Option Val) : Program η Val := do
  match callable with
  | .cell .proc proc => callProc proc args block
  | .cell .bound r =>
    match ← asks (·.bound? r) with
    | some (receiver, m) => callMethod m receiver args block
    | none => pure .nil
  | v => send v .call args block

end Program
end ObjectRuntime
