import ObjectRuntime.Failure
import ObjectRuntime.Heap

/-! The state of a runtime: its heap, the frames and handles of running calls, the
global variables and the symbols. Everything a later call can observe is here, and
nothing here is a function. -/

namespace ObjectRuntime

/-- Answers of method lookup by class and name, an absence being an answer too. -/
structure MethodCache where
  enabled : Bool := true
  entries : Table (Ref × Sym) (Option Method) := {}
deriving Inhabited

namespace MethodCache

def find? (c : MethodCache) (cls : Ref) (name : Sym) : Option (Option Method) :=
  if c.enabled then c.entries.get? (cls, name) else none

def store (c : MethodCache) (cls : Ref) (name : Sym) (answer : Option Method) : MethodCache :=
  if c.enabled then { c with entries := c.entries.insert (cls, name) answer } else c

def clear (c : MethodCache) : MethodCache := { c with entries := {} }

end MethodCache

structure Runtime where
  heap : Heap
  frames : Frames
  calls : Array Nat := #[]
  /-- Cells kept alive by the running calls and scopes, in the order they were taken. -/
  handles : Array Val := #[]
  scopes : Nat := 0
  recursionLimit : Nat
  globals : Table Sym Val := {}
  symbols : SymbolTable
  cache : MethodCache
  /-- Counts the changes of the superclass and include edges. -/
  hierarchy : Nat := 0
  nextMethod : Nat := 0
  printed : String := ""
  drains : Bool := false
deriving Inhabited

namespace Runtime

/-! ## Reading cells -/

def object? (rt : Runtime) (r : Ref) : Option Object :=
  match rt.heap.cell? r with
  | some (.object o) => some o
  | _ => none

def module? (rt : Runtime) (r : Ref) : Option Module :=
  match rt.heap.cell? r with
  | some (.module m) => some m
  | _ => none

def elements? (rt : Runtime) (r : Ref) : Option (Array Val) :=
  match rt.heap.cell? r with
  | some (.array _ elements) => some elements
  | _ => none

def entries? (rt : Runtime) (r : Ref) : Option (Table Val Val) :=
  match rt.heap.cell? r with
  | some (.table _ entries) => some entries
  | _ => none

def text? (rt : Runtime) (r : Ref) : Option String :=
  match rt.heap.cell? r with
  | some (.string _ text) => some text
  | _ => none

def float? (rt : Runtime) (r : Ref) : Option Float :=
  match rt.heap.cell? r with
  | some (.float x) => some x
  | _ => none

def proc? (rt : Runtime) (r : Ref) : Option Proc :=
  match rt.heap.cell? r with
  | some (.proc p) => some p
  | _ => none

def bound? (rt : Runtime) (r : Ref) : Option (Val × Method) :=
  match rt.heap.cell? r with
  | some (.bound receiver m) => some (receiver, m)
  | _ => none

def isLive (rt : Runtime) (v : Val) : Bool :=
  match v.ref? with
  | some r => rt.heap.isLive r
  | none => true

def symName (rt : Runtime) (s : Sym) : String := rt.symbols.name s

/-! ## Writing cells -/

def modifyCell (rt : Runtime) (r : Ref) (f : Cell → Cell) : Runtime :=
  { rt with heap := rt.heap.modify r f }

def modifyModule (rt : Runtime) (r : Ref) (f : Module → Module) : Runtime :=
  rt.modifyCell r fun
    | .module m => .module (f m)
    | c => c

def modifyObject (rt : Runtime) (r : Ref) (f : Object → Object) : Runtime :=
  rt.modifyCell r fun
    | .object o => .object (f o)
    | c => c

def modifyElements (rt : Runtime) (r : Ref) (f : Array Val → Array Val) : Runtime :=
  rt.modifyCell r fun
    | .array cls elements => .array cls (f elements)
    | c => c

def modifyEntries (rt : Runtime) (r : Ref) (f : Table Val Val → Table Val Val) : Runtime :=
  rt.modifyCell r fun
    | .table cls entries => .table cls (f entries)
    | c => c

def modifyText (rt : Runtime) (r : Ref) (f : String → String) : Runtime :=
  rt.modifyCell r fun
    | .string cls text => .string cls (f text)
    | c => c

/-! ## Names -/

def intern (rt : Runtime) (name : String) : Sym × Runtime :=
  match rt.symbols.intern name with
  | (s, symbols) => (s, { rt with symbols })

/-! ## Handles -/

/-- Keep a value alive until the innermost running call or scope ends; immediates need no
keeping. -/
def hold (rt : Runtime) (v : Val) : Runtime :=
  if v.isImmediate then rt else { rt with handles := rt.handles.push v }

def release (rt : Runtime) (mark : Nat) (keep : Option Val) : Runtime :=
  let rt := { rt with handles := rt.handles.take mark }
  match keep with
  | some v => rt.hold v
  | none => rt

def atTopLevel (rt : Runtime) : Bool := rt.calls.isEmpty && rt.scopes = 0

def releaseTopLevel (rt : Runtime) : Nat × Runtime :=
  if rt.atTopLevel then (rt.handles.size, rt.release 0 none) else (0, rt)

/-! ## Collection -/

def topFrame : Nat := 0

/-- What a collection starts from, besides registered roots and pinned cells: the core classes,
the top frame, the globals, the handles and the frames of the running calls. -/
def rootValues (rt : Runtime) : List Val :=
  CoreClass.all.map (fun c => .module c.ref) ++ rt.frames.values topFrame ++ rt.globals.values ++
    rt.handles.toList ++ rt.calls.toList.flatMap rt.frames.values

def collect (rt : Runtime) : Runtime :=
  { rt with heap := rt.heap.collect rt.frames rt.rootValues, cache := rt.cache.clear }

/-- Put a cell on the heap, collecting first when it is full, and hold it. -/
def alloc (rt : Runtime) (c : Cell) : Ref × Runtime :=
  let rt := if rt.heap.full then rt.collect else rt
  match rt.heap.alloc c false with
  | (r, heap) => (r, { rt with heap }.hold (.cell c.kind r))

def shutdown (rt : Runtime) : Runtime :=
  if rt.drains then { rt with calls := #[], handles := #[], heap := rt.heap.drain } else rt

/-! ## Globals and instance variables -/

def getGlobal (rt : Runtime) (name : Sym) : Val := (rt.globals.get? name).getD .nil

def setGlobal (rt : Runtime) (name : Sym) (v : Val) : Runtime :=
  { rt with globals := rt.globals.insert name v }

def ivarOwner (v : Val) : Except Failure Ref :=
  match v with
  | .cell .object r => .ok r
  | .nil => .ok nilRef
  | .bool true => .ok trueRef
  | .bool false => .ok falseRef
  | v => .error (.typeError s!"can't access instance variables of {v.tag.name}")

def getIvar (rt : Runtime) (v : Val) (name : Sym) : Except Failure Val :=
  (ivarOwner v).map fun r => ((rt.object? r).bind (·.ivars.get? name)).getD .nil

def setIvar (rt : Runtime) (r : Ref) (name : Sym) (v : Val) : Runtime :=
  rt.modifyObject r fun o => { o with ivars := o.ivars.insert name v }

/-! ## Modules -/

def moduleName (rt : Runtime) (r : Ref) : String :=
  match rt.module? r with
  | some { name := some name, .. } => name
  | some m => (if m.isClass then "#<Class:0x" else "#<Module:0x") ++ hex 8 r.index ++ ">"
  | none => ""

def const? (rt : Runtime) (m : Ref) (name : Sym) : Option Val :=
  (rt.module? m).bind (·.consts.get? name)

def method? (rt : Runtime) (m : Ref) (name : Sym) : Option Method :=
  (rt.module? m).bind (·.methods.get? name)

end Runtime
end ObjectRuntime
