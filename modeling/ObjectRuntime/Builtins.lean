import ObjectRuntime.Definition
import ObjectRuntime.Lifecycle

/-! The methods the runtime defines itself: making objects, reflection on modules and
objects, the callable values, leaving the program, and adding numbers. -/

namespace ObjectRuntime

namespace Program
variable {η : Type}

def nameArgument (v : Val) : Program η Sym := do
  match v with
  | .sym s => return s
  | .cell .string r =>
    let text ← asks fun rt => (rt.text? r).getD ""
    perform (.intern text)
  | v =>
    let text ← inspectText v
    fail (.typeError s!"{text} is not a symbol nor a string")

def constArgument (v : Val) : Program η Sym := do
  let s ← nameArgument v
  let name ← asks (·.symName s)
  match name.toList with
  | c :: _ => if c.isUpper then return s else fail (.nameError s!"wrong constant name {name}")
  | [] => fail (.nameError s!"wrong constant name {name}")

def moduleArgument (v : Val) (expected : String) : Program η Ref := do
  match v with
  | .cell .module r => return r
  | v =>
    let given ← asks (·.conversionName v)
    fail (.typeError s!"wrong argument type {given} (expected {expected})")

def receiverOf (kind : Kind) (a : Activation) : Program η Ref := check (·.toKind kind a.self)

def argCount (a : Activation) (least : Nat) (most : Option Nat) : Program η Unit :=
  ofExcept (arityRange a.args.length least most)

/-- An argument that the arity of a builtin promises. Code lent to a method of another arity may
find it missing, which is a panic. -/
def argument (a : Activation) (index : Nat) : Program η Val :=
  match a.args[index]? with
  | some v => pure v
  | none => panic s!"index out of bounds: the len is {a.args.length} but the index is {index}"

/-- `new` of `Class` makes an anonymous class. Of any other class it makes an instance, in the
representation the class asks for, and sends it `initialize`. -/
def classNew : Code η := fun a => do
  let cls ← receiverOf .module a
  if cls = CoreClass.klass.ref then
    argCount a 0 (some 1)
    let sup ← match a.args with
      | v :: _ => moduleArgument v "Class"
      | [] => pure CoreClass.object.ref
    return .module (← demand (.subclass sup none none))
  else
    let isSingleton ← asks fun rt => ((rt.module? cls).map (·.isSingleton)).getD false
    if isSingleton then fail (.typeError "can't create instance of singleton class")
    let tag ← asks fun rt => ((rt.module? cls).map (·.tag)).getD .object
    let instanceVal ← match tag with
      | .object => do pure (Val.object (← perform (.newObject cls)))
      | .array => do pure (Val.array (← perform (.newArray cls [])))
      | .hash => do pure (Val.table (← perform (.newTable cls)))
      | .string => do pure (Val.string (← perform (.newString cls "")))
      | _ => do
        let name ← asks (·.moduleName cls)
        fail (.typeError s!"allocator undefined for {name}")
    let _ ← send instanceVal .initializer a.args a.block
    return instanceVal

def classSuperclass : Code η := fun a => do
  let cls ← receiverOf .module a
  asks fun rt => (((rt.module? cls).bind (·.superclass)).map Val.module).getD .nil

def includeAll (m : Ref) : List Ref → Program η Unit
  | [] => pure ()
  | other :: rest => do
    demand (.includeOnce m other)
    includeAll m rest

/-- Modules are included last first, which puts the first one first in the ancestry. -/
def moduleInclude : Code η := fun a => do
  let m ← receiverOf .module a
  let others ← a.args.mapM (moduleArgument · "Module")
  includeAll m others.reverse
  return a.self

def moduleAncestors : Code η := fun a => do
  let m ← receiverOf .module a
  let above ← perform (.ancestry m)
  return .array (← newArray (above.map .module))

def moduleName : Code η := fun a => do
  let m ← receiverOf .module a
  match ← asks (·.module? m) with
  | some { kind := .singleton, .. } => return .nil
  | some { name := some name, .. } => return .string (← newString name)
  | _ => return .nil

def moduleConstGet : Code η := fun a => do
  let m ← receiverOf .module a
  let name ← constArgument (← argument a 0)
  findConst m name

def moduleConstSet : Code η := fun a => do
  let m ← receiverOf .module a
  let name ← constArgument (← argument a 0)
  let v ← argument a 1
  perform (.setConst m name v)
  return v

/-- A proc given as body runs with the receiver as self; a bound method lends its body and
arity. -/
def moduleDefineMethod : Code η := fun a => do
  argCount a 1 (some 2)
  let m ← receiverOf .module a
  let name ← nameArgument (← argument a 0)
  let given := match a.args[1]? with
    | some v => some v
    | none => a.block
  let (body, arity) ← match given with
    | some (.cell .proc p) => do
      pure (Body.proc p, ← asks fun rt => ((rt.proc? p).map (·.arity)).getD 0)
    | some (.cell .bound r) => do
      match ← asks (·.bound? r) with
      | some (_, lent) => pure (lent.body, lent.arity)
      | none => fail (.typeError "wrong argument type (expected Proc/Method)")
    | some v => do
      let name ← asks (·.conversionName v)
      fail (.typeError s!"wrong argument type {name} (expected Proc/Method)")
    | none => fail (.argumentError "tried to create Proc object without a block")
  let _ ← perform (.defineMethod m name body arity)
  return .sym name

def kernelRespondTo : Code η := fun a => do
  argCount a 1 (some 2)
  let name ← nameArgument (← argument a 0)
  return .bool (← respondsTo a.self name)

def kernelIsA : Code η := fun a => do
  match ← argument a 0 with
  | .cell .module m => return .bool (← perform (.isA a.self m))
  | _ => fail (.typeError "class or module required")

def kernelMethod : Code η := fun a => do
  let name ← nameArgument (← argument a 0)
  match ← findFor a.self name with
  | some m => return .bound (← perform (.newBound a.self m))
  | none =>
    let text ← inspectText a.self
    let name ← asks (·.symName name)
    fail (.nameError s!"undefined method `{name}' for {text}")

def kernelAtExit : Code η := fun a => do
  match a.block with
  | some handler =>
    atExit handler
    return handler
  | none => fail (.argumentError "called without a block")

/-- The status asked for: true or nothing is success, false is failure, an integer is itself. -/
def exitStatus : List Val → Option Int64
  | [] => some 0
  | .bool true :: _ => some 0
  | .bool false :: _ => some 1
  | .int n :: _ => some n
  | _ => none

def kernelExit : Code η := fun a => do
  argCount a 0 (some 1)
  fail (.exit (exitStatus a.args))

def methodOf (a : Activation) : Program η (Option Method) := do
  let r ← receiverOf .bound a
  asks fun rt => (rt.bound? r).map (·.2)

def methodOwner : Code η := fun a => do
  return ((← methodOf a).map fun m => Val.module m.owner).getD .nil

def methodArity : Code η := fun a => do
  return .int (.ofInt (((← methodOf a).map (·.arity)).getD 0))

def procCall : Code η := fun a => do
  callProc (← receiverOf .proc a) a.args a.block

/-! ## Numbers -/

/-- Apply an operator through `rhs.coerce(lhs)`, for operands `lhs` does not know. -/
def coerced (lhs : Val) (op : Sym) (rhs : Val) (target : String) : Program η Val := do
  if ← respondsTo rhs .coerce then
    let (lhs, rhs) ← coerce rhs lhs
    send lhs op [rhs]
  else
    let name ← asks (·.conversionName rhs)
    fail (.typeError s!"{name} can't be coerced into {target}")

def integerSum? (x y : Int64) : Option Int64 :=
  let sum := x.toInt + y.toInt
  if Int64.minValue.toInt ≤ sum ∧ sum ≤ Int64.maxValue.toInt then some (.ofInt sum) else none

def integerAdd : Code η := fun a => do
  let lhs ← check (·.toInteger a.self)
  match ← argument a 0 with
  | .int rhs =>
    match integerSum? lhs rhs with
    | some sum => return .int sum
    | none => return .float (← newFloat (lhs.toFloat + rhs.toFloat))
  | .cell .float r =>
    let rhs ← check (·.toFloat (.float r))
    return .float (← newFloat (lhs.toFloat + rhs))
  | rhs => coerced a.self .add rhs "Integer"

def integerCoerce : Code η := fun a => do
  match ← argument a 0 with
  | .int n => return .array (← newArray [.int n, a.self])
  | .cell .float r =>
    let lhs ← check (·.toFloat (.float r))
    let rhs ← check (·.toFloat a.self)
    let lhs ← newFloat lhs
    let rhs ← newFloat rhs
    return .array (← newArray [.float lhs, .float rhs])
  | v =>
    let name ← asks (·.conversionName v)
    fail (.typeError s!"can't convert {name} into Float")

def floatSum (lhs : Float) (rhs : Val) : Program η Val := do
  let rhs ← check (·.toFloat rhs)
  return .float (← newFloat (lhs + rhs))

def floatAdd : Code η := fun a => do
  let lhs ← check (·.toFloat a.self)
  match ← argument a 0 with
  | .int n => floatSum lhs (.int n)
  | .cell .float r => floatSum lhs (.float r)
  | rhs => coerced a.self .add rhs "Float"

def floatCoerce : Code η := fun a => do
  match ← argument a 0 with
  | .int n =>
    let lhs ← newFloat n.toFloat
    return .array (← newArray [.float lhs, a.self])
  | .cell .float r => return .array (← newArray [.float r, a.self])
  | v =>
    let name ← asks (·.conversionName v)
    fail (.typeError s!"can't convert {name} into Float")

end Program

namespace Builtin
open Program

def signature : Builtin → CoreClass × Sym × Int
  | objectInitialize => (.basicObject, .initializer, 0)
  | objectEq => (.basicObject, .eq, 1)
  | classNew => (.klass, .new, -1)
  | classSuperclass => (.klass, .superclass, 0)
  | moduleInclude => (.module, .includes, -2)
  | moduleAncestors => (.module, .ancestors, 0)
  | moduleName => (.module, .name, 0)
  | moduleConstGet => (.module, .constGet, 1)
  | moduleConstSet => (.module, .constSet, 2)
  | moduleDefineMethod => (.module, .defineMethod, -2)
  | kernelClass => (.kernel, .classOf, 0)
  | kernelInspect => (.kernel, .inspect, 0)
  | kernelRespondTo => (.kernel, .respondTo, -2)
  | kernelIsA => (.kernel, .isA, 1)
  | kernelMethod => (.kernel, .method, 1)
  | kernelSingletonClass => (.kernel, .singletonClass, 0)
  | kernelAtExit => (.kernel, .atExit, 0)
  | kernelExit => (.kernel, .exit, -1)
  | methodCall => (.method, .call, -1)
  | methodOwner => (.method, .owner, 0)
  | methodArity => (.method, .arity, 0)
  | procCall => (.proc, .call, -1)
  | integerAdd => (.integer, .add, 1)
  | integerCoerce => (.integer, .coerce, 1)
  | floatAdd => (.float, .add, 1)
  | floatCoerce => (.float, .coerce, 1)
  | mainInspect => (.object, .inspect, 0)

def all : List Builtin :=
  [objectInitialize, objectEq, classNew, classSuperclass, moduleInclude, moduleAncestors,
   moduleName, moduleConstGet, moduleConstSet, moduleDefineMethod, kernelClass, kernelInspect,
   kernelRespondTo, kernelIsA, kernelMethod, kernelSingletonClass, kernelAtExit, kernelExit,
   methodCall, methodOwner, methodArity, procCall, integerAdd, integerCoerce, floatAdd,
   floatCoerce]

def code {η : Type} : Builtin → Code η
  | objectInitialize => fun _ => pure .nil
  | objectEq => fun a => do return .bool (a.self = (← argument a 0))
  | classNew => Program.classNew
  | classSuperclass => Program.classSuperclass
  | moduleInclude => Program.moduleInclude
  | moduleAncestors => Program.moduleAncestors
  | moduleName => Program.moduleName
  | moduleConstGet => Program.moduleConstGet
  | moduleConstSet => Program.moduleConstSet
  | moduleDefineMethod => Program.moduleDefineMethod
  | kernelClass => fun a => asks fun rt => .module (rt.realClassOf a.self)
  | kernelInspect => fun a => do
    return .string (← newString (← asks (·.defaultInspect a.self)))
  | kernelRespondTo => Program.kernelRespondTo
  | kernelIsA => Program.kernelIsA
  | kernelMethod => Program.kernelMethod
  | kernelSingletonClass => fun a => do return .module (← demand (.singletonClass a.self))
  | kernelAtExit => Program.kernelAtExit
  | kernelExit => Program.kernelExit
  | methodCall => fun a => callValue a.self a.args a.block
  | methodOwner => Program.methodOwner
  | methodArity => Program.methodArity
  | procCall => Program.procCall
  | integerAdd => Program.integerAdd
  | integerCoerce => Program.integerCoerce
  | floatAdd => Program.floatAdd
  | floatCoerce => Program.floatCoerce
  | mainInspect => fun _ => do return .string (← newString "main")

end Builtin
end ObjectRuntime
