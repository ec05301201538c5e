import ObjectRuntime.Conversion

/-! Binding parameters. A shape describes a parameter list, and a path of indices picks
one parameter out of it: each index but the last goes into a nested array, the last
addresses a parameter of the shape. Negative indices count from the end. -/

namespace ObjectRuntime

inductive BindingSource
  | destructure | callArguments
deriving DecidableEq, Inhabited

namespace BindingSource

def name : BindingSource → String
  | destructure => "Destructure"
  | callArguments => "CallArgs"

end BindingSource

/-- A parameter list: required parameters on the left, optional ones, a splat, required ones on
the right, and keywords. -/
structure Shape where
  source : BindingSource
  left : Nat := 0
  optional : Nat := 0
  right : Nat := 0
  splat : Bool := false
  keywords : Bool := false
  rightToLeft : Bool := false
deriving DecidableEq, Inhabited

inductive Subject
  | arguments (args : List Val)
  | value (v : Val)

inductive Level
  | sequence (vals : List Val)
  | scalar (v : Val)
deriving DecidableEq

namespace Shape

def total (s : Shape) : Nat := s.left + s.optional + s.right

def required (s : Shape) : Nat := s.left + s.right

def takesKeywords (s : Shape) : Bool := s.keywords && s.source = .callArguments

def filled (s : Shape) (count : Nat) : Nat := min (count - s.required) s.optional

def unfilled (s : Shape) (count : Nat) : Nat := s.optional - s.filled count

/-- The position of the element bound to parameter `index` out of `count` elements. Optional
parameters that go unfilled move the ones behind them to the left. With too few elements,
negative indices count from the end of the parameter list instead. -/
def position? (s : Shape) (count : Nat) (index : Int) : Option Nat :=
  match index with
  | .negSucc back =>
    let anchor := max count s.total - s.unfilled count
    if back < anchor then some (anchor - (back + 1)) else none
  | .ofNat index =>
    if index < s.left then some index
    else if index < s.left + s.optional then
      let k := index - s.left
      if s.rightToLeft then
        if k < s.unfilled count then none else some (s.left + (k - s.unfilled count))
      else if s.filled count ≤ k then none
      else some (s.left + k)
    else some (index - s.unfilled count)

def pick? (s : Shape) (positional : List Val) (index : Int) : Option Val :=
  (s.position? positional.length index).bind (positional[·]?)

def positional (s : Shape) (vals : List Val) (outermost : Bool) : List Val :=
  match vals.getLast? with
  | some (.cell .table _) => if outermost && s.takesKeywords then vals.dropLast else vals
  | _ => vals

end Shape

namespace Level

def ofVal (rt : Runtime) : Val → Level
  | .cell .array r => sequence (((rt.elements? r).getD #[]).toList)
  | v => scalar v

def enter (rt : Runtime) : Level → Int → Option Level
  | sequence vals, index =>
    let position := if index < 0 then vals.length + index else index
    if position < 0 then none else (vals[position.toNat]?).map (ofVal rt)
  | scalar v, index => if index = 0 then some (scalar v) else none

end Level

namespace Subject

def level (rt : Runtime) : Subject → Level
  | arguments args => .sequence args
  | value v => .ofVal rt v

def descend (rt : Runtime) (subject : Subject) (outer : List Int) : Option Level :=
  outer.foldlM (·.enter rt) (subject.level rt)

def last? (rt : Runtime) : Subject → Option Val
  | arguments args => args.getLast?
  | value (.cell .array r) => (rt.elements? r).bind (·.back?)
  | value _ => none

end Subject

namespace Shape

def bind (s : Shape) (rt : Runtime) (subject : Subject) (path : List Int) (default : Val) : Val :=
  match path.getLast? with
  | none => default
  | some last =>
    match subject.descend rt path.dropLast with
    | none => default
    | some (.scalar v) => if last = 0 then v else default
    | some (.sequence vals) =>
      (s.pick? (s.positional vals path.dropLast.isEmpty) last).getD default

/-- The elements of a splat that begins at the last index of a path, up to the required
parameters on the right. -/
def splatElements (s : Shape) (rt : Runtime) (subject : Subject) (path : List Int) : List Val :=
  match path.getLast? with
  | none => []
  | some last =>
    match subject.descend rt path.dropLast with
    | some (.sequence vals) =>
      let positional := s.positional vals path.dropLast.isEmpty
      (positional.take (positional.length - s.right)).drop last.toNat
    | _ => []

end Shape

namespace Program
variable {η : Type}

def bindSplat (s : Shape) (subject : Subject) (path : List Int) : Program η Ref := do
  newArray (← asks (s.splatElements · subject path))

/-- Take a keyword out of the keyword table of a call. Its value is held, since the table no
longer keeps it. -/
def bindKeyword (s : Shape) (subject : Subject) (name : Sym) (default : Option Val) :
    Program η Val := do
  let found ← match ← asks fun rt => if s.takesKeywords then subject.last? rt else none with
    | some (.cell .table r) => perform (.erase r (.sym name))
    | _ => pure none
  match found, default with
  | some v, _ =>
    perform (.hold v)
    return v
  | none, some v => return v
  | none, none =>
    let name ← asks (·.symName name)
    fail (.argumentError s!"missing keyword: :{name}")

def takeLeading (array : Ref) (count : Int64) : Program η Ref := do
  if count < 0 then fail (.argumentError "negative array size")
  else
    let elements ← asks fun rt => (rt.elements? array).getD #[]
    newArray (elements.toList.take count.toInt.toNat)

end Program
end ObjectRuntime
