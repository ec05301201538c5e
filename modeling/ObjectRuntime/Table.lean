/-! Insertion-ordered finite maps. A table is the list of its bindings, oldest first.
Writing under a present key keeps the place of its binding, a new key goes last,
and a key erased and written again goes last. Keys stay distinct because only
`insert` adds a binding. -/

namespace ObjectRuntime

structure Table (κ ν : Type) where
  entries : List (κ × ν) := []
deriving DecidableEq, Inhabited

namespace Table
variable {κ ν : Type} [DecidableEq κ]

def find : List (κ × ν) → κ → Option ν
  | [], _ => none
  | (k, v) :: rest, key => if k = key then some v else find rest key

/-- Rebind `key` in place, or bind it last. -/
def write : List (κ × ν) → κ → ν → List (κ × ν)
  | [], key, val => [(key, val)]
  | (k, v) :: rest, key, val => if k = key then (k, val) :: rest else (k, v) :: write rest key val

def drop : List (κ × ν) → κ → List (κ × ν)
  | [], _ => []
  | (k, v) :: rest, key => if k = key then rest else (k, v) :: drop rest key

def get? (t : Table κ ν) (key : κ) : Option ν := find t.entries key

def contains (t : Table κ ν) (key : κ) : Bool := (t.get? key).isSome

def insert (t : Table κ ν) (key : κ) (val : ν) : Table κ ν := ⟨write t.entries key val⟩

def erase (t : Table κ ν) (key : κ) : Table κ ν := ⟨drop t.entries key⟩

omit [DecidableEq κ] in
def keys (t : Table κ ν) : List κ := t.entries.map (·.1)

omit [DecidableEq κ] in
def values (t : Table κ ν) : List ν := t.entries.map (·.2)

omit [DecidableEq κ] in
def size (t : Table κ ν) : Nat := t.entries.length

omit [DecidableEq κ] in
def isEmpty (t : Table κ ν) : Bool := t.entries.isEmpty

end Table
end ObjectRuntime
