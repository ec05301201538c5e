import ObjectRuntime.Core

/-! Methods. A method is an immutable definition with an identity of its own:
redefining a name installs another method, and whoever holds the old one can still
call it. Bodies are names of code, which a program gives meaning to. -/

namespace ObjectRuntime

inductive Builtin
  | objectInitialize | objectEq
  | classNew | classSuperclass
  | moduleInclude | moduleAncestors | moduleName | moduleConstGet | moduleConstSet
  | moduleDefineMethod
  | kernelClass | kernelInspect | kernelRespondTo | kernelIsA | kernelMethod | kernelSingletonClass
  | kernelAtExit | kernelExit
  | methodCall | methodOwner | methodArity | procCall
  | integerAdd | integerCoerce | floatAdd | floatCoerce
  | mainInspect
deriving DecidableEq, Inhabited

inductive CodeRef
  | builtin (b : Builtin)
  | user (n : Nat)
deriving DecidableEq, Inhabited

/-- The body of a method. A proc body runs inside the frame its proc captured, with the receiver
as self. -/
inductive Body
  | native (code : CodeRef)
  | closure (code : CodeRef)
  | proc (proc : Ref)
deriving DecidableEq, Inhabited

/-- Arity `n` takes exactly `n` arguments, arity `-(n + 1)` takes `n` or more. -/
structure Method where
  id : Nat
  name : Sym
  owner : Ref
  body : Body
  arity : Int
deriving DecidableEq, Inhabited

namespace Method

def children (m : Method) : List Val :=
  .module m.owner :: match m.body with
    | .proc p => [.proc p]
    | _ => []

end Method
end ObjectRuntime
