import ObjectRuntime.Symbol

/-! Values. A value is an immediate or a handle to a heap cell. A handle names a
slot and the generation of that slot, and says nothing about whether the cell is
still there. Equality is structural, which for handles is identity. -/

namespace ObjectRuntime

/-- A slot of the heap in one of its generations. -/
structure Ref where
  index : Nat
  generation : UInt32 := 0
deriving DecidableEq, Inhabited

inductive Kind
  | object | module | array | table | string | float | proc | bound
deriving DecidableEq, Inhabited

inductive Val
  | nil
  | bool (b : Bool)
  | int (n : Int64)
  | sym (s : Sym)
  | cell (kind : Kind) (ref : Ref)
deriving DecidableEq, Inhabited

inductive Tag
  | nil | true | false | integer | symbol | object | module | array | hash | string | float | proc
  | method
deriving DecidableEq, Inhabited

namespace Tag

def name : Tag → String
  | nil => "Nil" | true => "True" | false => "False" | integer => "Integer" | symbol => "Symbol"
  | object => "Object" | module => "Module" | array => "Array" | hash => "Hash"
  | string => "String" | float => "Float" | proc => "Proc" | method => "Method"

end Tag

namespace Kind

def tag : Kind → Tag
  | object => .object | module => .module | array => .array | table => .hash | string => .string
  | float => .float | proc => .proc | bound => .method

def label : Kind → String
  | object => "Obj" | module => "Module" | array => "Arr" | table => "Tab" | string => "Str"
  | float => "Flo" | proc => "Proc" | bound => "Method"

def cellName : Kind → String
  | bound => "MethodObj"
  | k => k.label

end Kind

namespace Val

def tag : Val → Tag
  | nil => .nil
  | bool true => .true
  | bool false => .false
  | int _ => .integer
  | sym _ => .symbol
  | cell k _ => k.tag

def truthy : Val → Bool
  | nil => false
  | bool b => b
  | _ => true

def isImmediate : Val → Bool
  | cell _ _ => false
  | _ => true

def ref? : Val → Option Ref
  | cell _ r => some r
  | _ => none

def ofKind? (k : Kind) : Val → Option Ref
  | cell k' r => if k' = k then some r else none
  | _ => none

abbrev module (r : Ref) : Val := cell .module r
abbrev array (r : Ref) : Val := cell .array r
abbrev table (r : Ref) : Val := cell .table r
abbrev string (r : Ref) : Val := cell .string r
abbrev float (r : Ref) : Val := cell .float r
abbrev object (r : Ref) : Val := cell .object r
abbrev proc (r : Ref) : Val := cell .proc r
abbrev bound (r : Ref) : Val := cell .bound r

end Val
end ObjectRuntime
