import ObjectRuntime.Value

/-! The core classes and modules. They are the first cells of every heap and are
never freed, so each has the same handle in every runtime. -/

namespace ObjectRuntime

inductive CoreClass
  | basicObject | kernel | comparable | enumerable | object | module | klass | nilClass | trueClass
  | falseClass | numeric | integer | float | symbol | string | array | hash | proc | method
  | exception | scriptError | standardError | nameError | noMethodError | argumentError | typeError
  | systemExit | systemStackError
deriving DecidableEq, Inhabited

namespace CoreClass

/-- The core classes in the order of their slots. -/
def all : List CoreClass :=
  [basicObject, kernel, comparable, enumerable, object, module, klass, nilClass, trueClass,
   falseClass, numeric, integer, float, symbol, string, array, hash, proc, method, exception,
   scriptError, standardError, nameError, noMethodError, argumentError, typeError, systemExit,
   systemStackError]

def name : CoreClass → String
  | basicObject => "BasicObject" | kernel => "Kernel" | comparable => "Comparable"
  | enumerable => "Enumerable" | object => "Object" | module => "Module" | klass => "Class"
  | nilClass => "NilClass" | trueClass => "TrueClass" | falseClass => "FalseClass"
  | numeric => "Numeric" | integer => "Integer" | float => "Float" | symbol => "Symbol"
  | string => "String" | array => "Array" | hash => "Hash" | proc => "Proc" | method => "Method"
  | exception => "Exception" | scriptError => "ScriptError" | standardError => "StandardError"
  | nameError => "NameError" | noMethodError => "NoMethodError"
  | argumentError => "ArgumentError" | typeError => "TypeError" | systemExit => "SystemExit"
  | systemStackError => "SystemStackError"

def ref (c : CoreClass) : Ref := ⟨c.ctorIdx, 0⟩

def sym (c : CoreClass) : Sym := ⟨Sym.reserved.length + c.ctorIdx⟩

def isModule : CoreClass → Bool
  | kernel | comparable | enumerable => true
  | _ => false

def parent? : CoreClass → Option CoreClass
  | basicObject | kernel | comparable | enumerable => none
  | object => some basicObject
  | klass => some module
  | integer | float => some numeric
  | scriptError | standardError | systemExit | systemStackError => some exception
  | nameError | argumentError | typeError => some standardError
  | noMethodError => some nameError
  | module | nilClass | trueClass | falseClass | numeric | symbol | string | array | hash | proc
  | method | exception => some object

def tag : CoreClass → Tag
  | module | klass => .module
  | nilClass => .nil
  | trueClass => .true
  | falseClass => .false
  | integer => .integer
  | float => .float
  | symbol => .symbol
  | string => .string
  | array => .array
  | hash => .hash
  | proc => .proc
  | method => .method
  | _ => .object

end CoreClass

def SymbolTable.initial : SymbolTable := .ofNames (Sym.reserved ++ CoreClass.all.map (·.name))

/-- The top-level object, pinned behind the core classes. -/
def mainRef : Ref := ⟨28, 0⟩

def nilRef : Ref := ⟨29, 0⟩
def trueRef : Ref := ⟨30, 0⟩
def falseRef : Ref := ⟨31, 0⟩

end ObjectRuntime
