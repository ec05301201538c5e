import ObjectRuntime.Action

/-! Programs. A program reads the runtime, takes primitive steps, uses the state of its
host, and calls methods and procs. Scopes, cleanups and held values are part of its
shape, so that no program can unbalance the stacks they work on. -/

namespace ObjectRuntime

/-- How a program ends: with a value, with a failure that unwinds and can be rescued, or with a
panic that abandons the calls it leaves. -/
inductive Outcome (α : Type)
  | value (a : α)
  | failure (e : Failure)
  | panic (message : String)
deriving Inhabited

namespace Outcome

def isPanic {α : Type} : Outcome α → Bool
  | panic _ => true
  | _ => false

def value? {α : Type} : Outcome α → Option α
  | value a => some a
  | _ => none

end Outcome

inductive Call
  | method (m : Method) (receiver : Val) (args : List Val) (block : Option Val)
  | proc (proc : Ref) (args : List Val) (block : Option Val)
deriving DecidableEq

structure Activation where
  frame : Nat
  self : Val
  args : List Val
  block : Option Val

inductive Program (η : Type) : Type → Type 1
  | done {α : Type} (outcome : Outcome α) : Program η α
  | endless {α : Type} : Program η α
  | read {α : Type} (next : Runtime → Program η α) : Program η α
  | act {α β : Type} (action : Action β) (next : β → Program η α) : Program η α
  | host {α β : Type} (step : η → β × η) (next : β → Program η α) : Program η α
  | call {α : Type} (call : Call) (next : Outcome Val → Program η α) : Program η α
  | scope {α : Type} (body : Program η Val) (next : Outcome Val → Program η α) : Program η α
  /-- Run the body, and after it the cleanup, however the body ends. -/
  | ensure {α : Type} (body : Program η Val) (cleanup : Program η Unit)
      (next : Outcome Val → Program η α) : Program η α
  /-- Run the body with a value held, and then let go of all it holds. -/
  | holding {α : Type} (v : Val) (body : Program η Unit) (next : Outcome Unit → Program η α) :
      Program η α

abbrev Code (η : Type) := Activation → Program η Val

namespace Program
variable {η α β : Type}

def bind : Program η α → (α → Program η β) → Program η β
  | done (.value a), f => f a
  | done (.failure e), _ => done (.failure e)
  | done (.panic message), _ => done (.panic message)
  | endless, _ => endless
  | read next, f => read fun rt => (next rt).bind f
  | act action next, f => act action fun b => (next b).bind f
  | host step next, f => host step fun b => (next b).bind f
  | call c next, f => call c fun o => (next o).bind f
  | scope body next, f => scope body fun o => (next o).bind f
  | ensure body cleanup next, f => ensure body cleanup fun o => (next o).bind f
  | holding v body next, f => holding v body fun o => (next o).bind f

def attempt : Program η α → Program η (Outcome α)
  | done outcome => done (.value outcome)
  | endless => endless
  | read next => read fun rt => (next rt).attempt
  | act action next => act action fun b => (next b).attempt
  | host step next => host step fun b => (next b).attempt
  | call c next => call c fun o => (next o).attempt
  | scope body next => scope body fun o => (next o).attempt
  | ensure body cleanup next => ensure body cleanup fun o => (next o).attempt
  | holding v body next => holding v body fun o => (next o).attempt

instance : Inhabited (Program η α) := ⟨endless⟩

instance : Monad (Program η) where
  pure a := done (.value a)
  bind := bind

def fail (e : Failure) : Program η α := done (.failure e)

def panic (message : String) : Program η α := done (.panic message)

def asks (f : Runtime → α) : Program η α := read fun rt => done (.value (f rt))

def perform (action : Action α) : Program η α := act action fun a => done (.value a)

def hosted (step : η → α × η) : Program η α := host step fun a => done (.value a)

def ofExcept : Except Failure α → Program η α
  | .ok a => done (.value a)
  | .error e => done (.failure e)

def demand (action : Action (Except Failure α)) : Program η α := act action ofExcept

def check (f : Runtime → Except Failure α) : Program η α := read fun rt => ofExcept (f rt)

def resume : Outcome α → Program η α := done

def invoke (c : Call) : Program η Val := call c done

def inScope (body : Program η Val) : Program η Val := scope body done

def withCleanup (body : Program η Val) (cleanup : Program η Unit) : Program η Val :=
  ensure body cleanup done

def rescue (body : Program η α) (handler : Failure → Program η α) : Program η α :=
  body.attempt.bind fun
    | .failure e => handler e
    | outcome => done outcome

def ignoringFailure (body : Program η α) : Program η Unit :=
  body.attempt.bind fun
    | .panic message => done (.panic message)
    | _ => done (.value ())

end Program
end ObjectRuntime
