import ObjectRuntime.Text.Quote

/-! Failures of the language: the exceptions that unwind through calls. A failure
carries the labels of the calls it has left, innermost first. -/

namespace ObjectRuntime

inductive FailureKind
  | typeError | nameError | noMethodError | argumentError | systemExit | systemStackError
  | custom (name : String)
deriving DecidableEq, Inhabited

namespace FailureKind

def className : FailureKind → String
  | typeError => "TypeError"
  | nameError => "NameError"
  | noMethodError => "NoMethodError"
  | argumentError => "ArgumentError"
  | systemExit => "SystemExit"
  | systemStackError => "SystemStackError"
  | custom name => name

def debug : FailureKind → String
  | custom name => s!"Custom(Sym({name}))"
  | kind => kind.className

end FailureKind

structure Failure where
  kind : FailureKind
  message : String
  backtrace : List String := []
  status : Option Int64 := none
deriving DecidableEq, Inhabited

namespace Failure

def exit (status : Option Int64) : Failure := { kind := .systemExit, message := "exit", status }

def typeError (message : String) : Failure := { kind := .typeError, message }
def nameError (message : String) : Failure := { kind := .nameError, message }
def noMethodError (message : String) : Failure := { kind := .noMethodError, message }
def argumentError (message : String) : Failure := { kind := .argumentError, message }

def isExit (e : Failure) : Bool := e.kind = .systemExit

/-- The exit code of a program this failure ends: the status when it fits a byte, else 1. -/
def exitCode (e : Failure) : Int64 :=
  match e.kind, e.status with
  | .systemExit, some status => if 0 ≤ status ∧ status ≤ 255 then status else 1
  | _, _ => 1

def leave (e : Failure) (label : String) : Failure :=
  { e with backtrace := e.backtrace ++ [label] }

def display (e : Failure) : String := s!"{e.message} ({e.kind.className})"

def debug (e : Failure) : String :=
  let trace := ", ".intercalate (e.backtrace.map quote)
  "GError \x7b kind: " ++ e.kind.debug ++ ", message: " ++ quote e.message ++ ", backtrace: [" ++
    trace ++ "] \x7d"

def traceLines : Nat → List String → List String
  | _, [] => []
  | i, label :: rest => traceLines (i + 1) rest ++ [s!"        {i}: from {label}\n"]

def report (e : Failure) : String :=
  match e.backtrace with
  | [] => e.display ++ "\n"
  | innermost :: outer =>
    "Traceback (most recent call last):\n" ++ String.join (traceLines 1 outer) ++ innermost ++
      ": " ++ e.display ++ "\n"

end Failure
end ObjectRuntime
