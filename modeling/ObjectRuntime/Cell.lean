import ObjectRuntime.Frame

/-! The cells of the heap. `children` lists the values a cell holds; following them is
what keeps cells alive. -/

namespace ObjectRuntime

structure Object where
  cls : Ref
  singleton : Option Ref := none
  ivars : Table Sym Val := {}
deriving DecidableEq, Inhabited

inductive ModuleKind
  | module | cls | singleton
deriving DecidableEq, Inhabited

namespace ModuleKind

def name : ModuleKind → String
  | module => "Module" | cls => "Class" | singleton => "Singleton"

end ModuleKind

/-- A module or class. Included modules are listed in the order in which they are searched, the
latest first. The linearization remembers the generation of the hierarchy it was computed in. -/
structure Module where
  kind : ModuleKind
  name : Option String := none
  superclass : Option Ref := none
  includes : List Ref := []
  methods : Table Sym Method := {}
  consts : Table Sym Val := {}
  singleton : Option Ref := none
  attached : Option Val := none
  lexicalParent : Option Ref := none
  tag : Tag := .object
  final : Bool := false
  linear : Option (Nat × List Ref) := none
deriving DecidableEq, Inhabited

namespace Module

def isClass (m : Module) : Bool := m.kind ≠ .module

def isSingleton (m : Module) : Bool := m.kind = .singleton

def parents (m : Module) : List Ref := m.includes ++ m.superclass.toList

def children (m : Module) : List Val :=
  m.superclass.toList.map .module ++ m.includes.map .module ++
    m.methods.values.flatMap Method.children ++ m.consts.values ++
    m.singleton.toList.map .module ++ m.attached.toList ++ m.lexicalParent.toList.map .module

end Module

/-- A closure: code and the frame it captured. Lambdas check the number of their arguments. -/
structure Proc where
  frame : Nat
  code : CodeRef
  arity : Int
  lambda : Bool
deriving DecidableEq, Inhabited

inductive Cell
  | object (o : Object)
  | module (m : Module)
  | array (cls : Ref) (elements : Array Val)
  | table (cls : Ref) (entries : Table Val Val)
  | string (cls : Ref) (text : String)
  | float (x : Float)
  | proc (p : Proc)
  | bound (receiver : Val) (method : Method)
deriving Inhabited

namespace Cell

def kind : Cell → Kind
  | object _ => .object
  | module _ => .module
  | array _ _ => .array
  | table _ _ => .table
  | string _ _ => .string
  | float _ => .float
  | proc _ => .proc
  | bound _ _ => .bound

/-- The values a cell holds. A proc holds everything its captured frames do. -/
def children (fs : Frames) : Cell → List Val
  | object o => .module o.cls :: (o.singleton.toList.map .module ++ o.ivars.values)
  | module m => m.children
  | array cls elements => .module cls :: elements.toList
  | table cls entries => .module cls :: entries.entries.flatMap fun e => [e.1, e.2]
  | string cls _ => [.module cls]
  | float _ => []
  | proc p => fs.values p.frame
  | bound receiver m => receiver :: m.children

end Cell
end ObjectRuntime
