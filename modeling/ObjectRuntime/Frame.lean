import ObjectRuntime.Method

/-! Frames, the activations that calls run in. A frame outlives its call for as long
as a proc has captured it, so frames are kept by number and share their variables. -/

namespace ObjectRuntime

/-- What one call runs in: the frame it is nested in, if any, the receiver, the method it runs,
the module whose constants it sees, its arguments and block, and its variables. -/
structure Frame where
  parent : Option Nat := none
  self : Val
  method : Option Method := none
  lexicalModule : Ref
  args : List Val := []
  block : Option Val := none
  locals : Array Val := #[]
deriving DecidableEq, Inhabited

namespace Frame

def values (f : Frame) : List Val :=
  f.self :: .module f.lexicalModule :: (f.method.toList.flatMap Method.children ++
    f.block.toList ++ f.args ++ f.locals.toList)

end Frame

/-- Every frame ever made, by number. A frame is made after the one it is nested in, so parents
have smaller numbers. -/
structure Frames where
  store : Array Frame
deriving Inhabited

namespace Frames

def chainWithin (fs : Frames) : Nat → Nat → List (Nat × Frame)
  | 0, _ => []
  | fuel + 1, i =>
    match fs.store[i]? with
    | none => []
    | some f => (i, f) :: match f.parent with
      | some p => fs.chainWithin fuel p
      | none => []

/-- The lexical chain of frame `i`; numbers only fall along it. -/
def chain (fs : Frames) (i : Nat) : List (Nat × Frame) := fs.chainWithin (i + 1) i

def values (fs : Frames) (i : Nat) : List Val := (fs.chain i).flatMap (·.2.values)

def currentMethod (fs : Frames) (i : Nat) : Option Method :=
  (fs.chain i).findSome? (·.2.method)

def ancestor? (fs : Frames) (i depth : Nat) : Option Nat := (fs.chain i)[depth]?.map (·.1)

def push (fs : Frames) (f : Frame) : Nat × Frames := (fs.store.size, ⟨fs.store.push f⟩)

def getLocal (fs : Frames) (i depth index : Nat) : Val :=
  match fs.ancestor? i depth with
  | some j => (fs.store.getD j default).locals.getD index .nil
  | none => .nil

def putAt (vals : Array Val) (index : Nat) (val : Val) : Array Val :=
  if h : index < vals.size then vals.set index val
  else (vals ++ Array.replicate (index - vals.size) Val.nil).push val

def setLocal (fs : Frames) (i depth index : Nat) (val : Val) : Bool × Frames :=
  match fs.ancestor? i depth with
  | some j => (true, ⟨fs.store.modify j fun f => { f with locals := putAt f.locals index val }⟩)
  | none => (false, fs)

end Frames

end ObjectRuntime
