import ObjectRuntime.Table

/-! Interned names. A symbol is the position of its name in the symbol table, so
equality of symbols is equality of names. The reserved names fill the first
positions, which makes their symbols constants. -/

namespace ObjectRuntime

structure Sym where
  id : Nat
deriving DecidableEq, Inhabited

namespace Sym

/-- Names the runtime itself sends or defines, in the order of their symbols. -/
def reserved : List String :=
  ["initialize", "method_missing", "to_ary", "coerce", "call", "new", "inspect", "to_s",
   "respond_to?", "==", "+", "$__at_exit_handlers", "superclass", "include", "ancestors", "name",
   "const_get", "const_set", "define_method", "class", "is_a?", "method", "singleton_class",
   "at_exit", "exit", "owner", "arity"]

def stockCount : Nat := 12

def initializer : Sym := ⟨0⟩
def methodMissing : Sym := ⟨1⟩
def toAry : Sym := ⟨2⟩
def coerce : Sym := ⟨3⟩
def call : Sym := ⟨4⟩
def new : Sym := ⟨5⟩
def inspect : Sym := ⟨6⟩
def toS : Sym := ⟨7⟩
def respondTo : Sym := ⟨8⟩
def eq : Sym := ⟨9⟩
def add : Sym := ⟨10⟩
def atExitHandlers : Sym := ⟨11⟩
def superclass : Sym := ⟨12⟩
def includes : Sym := ⟨13⟩
def ancestors : Sym := ⟨14⟩
def name : Sym := ⟨15⟩
def constGet : Sym := ⟨16⟩
def constSet : Sym := ⟨17⟩
def defineMethod : Sym := ⟨18⟩
def classOf : Sym := ⟨19⟩
def isA : Sym := ⟨20⟩
def method : Sym := ⟨21⟩
def singletonClass : Sym := ⟨22⟩
def atExit : Sym := ⟨23⟩
def exit : Sym := ⟨24⟩
def owner : Sym := ⟨25⟩
def arity : Sym := ⟨26⟩

end Sym

structure SymbolTable where
  names : Array String := #[]
  ids : Table String Nat := {}
deriving Inhabited

namespace SymbolTable

def intern (t : SymbolTable) (name : String) : Sym × SymbolTable :=
  match t.ids.get? name with
  | some id => (⟨id⟩, t)
  | none => (⟨t.names.size⟩, ⟨t.names.push name, t.ids.insert name t.names.size⟩)

def name (t : SymbolTable) (s : Sym) : String := t.names.getD s.id ""

/-- The table holding exactly `names`, each at its position; they must be distinct. -/
def ofNames (names : List String) : SymbolTable := ⟨names.toArray, ⟨names.zipIdx⟩⟩

end SymbolTable
end ObjectRuntime
