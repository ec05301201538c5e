import ObjectRuntime.Dispatch

/-! Conversions between values and data of the host, and the conversions that ask the
value: to an array, and of a pair of numbers. -/

namespace ObjectRuntime

/-- The complaint about `given` arguments where `least` to `most` are taken, if they do not fit;
without `most` any number from `least` up is taken. -/
def arityRange (given least : Nat) (most : Option Nat) : Except Failure Unit :=
  let wrong (expected : String) : Except Failure Unit :=
    .error (.argumentError s!"wrong number of arguments (given {given}, expected {expected})")
  match most with
  | some most =>
    if least = most then if given = least then .ok () else wrong (toString least)
    else if least ≤ given ∧ given ≤ most then .ok () else wrong s!"{least}..{most}"
  | none => if least ≤ given then .ok () else wrong s!"{least}+"

namespace Runtime

def conversionName (rt : Runtime) : Val → String
  | .nil => "nil"
  | .bool b => toString b
  | v => rt.className v

def noConversion {α : Type} (rt : Runtime) (v : Val) (target : String) : Except Failure α :=
  .error (.typeError s!"no implicit conversion of {rt.conversionName v} into {target}")

def toInteger (rt : Runtime) : Val → Except Failure Int64
  | .int n => .ok n
  | v => rt.noConversion v "Integer"

def toBool (rt : Runtime) : Val → Except Failure Bool
  | .bool b => .ok b
  | v => rt.noConversion v "true or false"

def toSym (rt : Runtime) : Val → Except Failure Sym
  | .sym s => .ok s
  | v => rt.noConversion v "Symbol"

def toNatural (rt : Runtime) : Val → Except Failure Nat
  | .int n => if 0 ≤ n then .ok n.toInt.toNat
    else .error (.argumentError s!"negative argument ({n.toInt})")
  | v => rt.noConversion v "Integer"

/-- Integers convert to floats, but not the other way round. -/
def toFloat (rt : Runtime) : Val → Except Failure Float
  | .cell .float r => .ok ((rt.float? r).getD 0)
  | .int n => .ok n.toFloat
  | v => rt.noConversion v "Float"

def toText (rt : Runtime) : Val → Except Failure String
  | .cell .string r => .ok ((rt.text? r).getD "")
  | v => rt.noConversion v "String"

def kindTarget (k : Kind) : String := k.tag.name

def toKind (rt : Runtime) (k : Kind) (v : Val) : Except Failure Ref :=
  match v.ofKind? k with
  | some r => .ok r
  | none => rt.noConversion v (kindTarget k)

def toOption {α : Type} (convert : Val → Except Failure α) : Val → Except Failure (Option α)
  | .nil => .ok none
  | v => (convert v).map some

end Runtime

namespace Val

def argAt (args : List Val) (index : Nat) : Val := args.getD index nil

def variant : Val → String
  | nil => "Nil"
  | bool _ => "Bool"
  | int _ => "Int"
  | sym _ => "Sym"
  | cell k _ => k.label

def unwrap (v : Val) (target : String) : Except String Val :=
  if v.variant = target then .ok v
  else .error s!"attempted to unwrap {v.tag.name} Val as {target}"

def asCell (v : Val) : Except Failure Ref :=
  match v with
  | cell _ r => .ok r
  | v => .error (.typeError s!"{v.tag.name} is an immediate value, not a heap cell")

end Val

/-! ## Data of the host -/

inductive Datum
  | unit
  | bool (b : Bool)
  | int (n : Int64)
  | float (x : Float)
  | text (s : String)
  | symbol (name : String)
  | option (d : Option Datum)
  | list (ds : List Datum)

namespace Program
variable {η : Type}

def newArray (elements : List Val) : Program η Ref :=
  perform (.newArray CoreClass.array.ref elements)

def newTable : Program η Ref := perform (.newTable CoreClass.hash.ref)

def newString (text : String) : Program η Ref := perform (.newString CoreClass.string.ref text)

def newFloat (x : Float) : Program η Ref := perform (.newFloat x)

mutual

/-- The value of host data. Every cell it is made of stays held by the running call or scope. -/
def ofDatum : Datum → Program η Val
  | .unit => pure .nil
  | .bool b => pure (.bool b)
  | .int n => pure (.int n)
  | .float x => do return .float (← newFloat x)
  | .text s => do return .string (← newString s)
  | .symbol name => do return .sym (← perform (.intern name))
  | .option none => pure .nil
  | .option (some d) => ofDatum d
  | .list ds => do
    let elements ← ofData ds
    return .array (← newArray elements)

def ofData : List Datum → Program η (List Val)
  | [] => pure []
  | d :: ds => do
    let v ← ofDatum d
    let vs ← ofData ds
    return v :: vs

end

/-! ## Conversions that ask the value -/

/-- Convert to an array: an array is itself, a value that answers `to_ary` with an array is that
array, anything else is put in an array of its own. With `strict`, an answer that is neither an
array nor nil is refused. -/
def toArray (v : Val) (strict : Bool) : Program η Ref := do
  match v with
  | .cell .array r => return r
  | v =>
    match ← findFor v .toAry with
    | none => newArray [v]
    | some _ =>
      match ← send v .toAry with
      | .cell .array r => return r
      | .nil => newArray [v]
      | answer =>
        if strict then
          let cls ← asks (·.className v)
          let gives ← asks (·.className answer)
          fail (.typeError s!"can't convert {cls} to Array ({cls}#to_ary gives {gives})")
        else newArray [v]

def splat (v : Val) : Program η Ref := do
  match v with
  | .cell .array r =>
    let elements ← asks fun rt => (rt.elements? r).getD #[]
    newArray elements.toList
  | v => toArray v false

/-- Numeric coercion: the pair `lhs.coerce(rhs)` answers, or the operands swapped when `lhs` does
not answer it. -/
def coerce (lhs rhs : Val) : Program η (Val × Val) := do
  match ← findFor lhs .coerce with
  | none => return (rhs, lhs)
  | some _ =>
    match ← send lhs .coerce [rhs] with
    | .cell .array r =>
      match ← asks fun rt => (rt.elements? r).map Array.toList with
      | some [x, y] => return (x, y)
      | _ => fail (.typeError "coerce must return [x, y]")
    | _ => fail (.typeError "coerce must return [x, y]")

def blockArguments (size : Nat) (args : List Val) : Program η Ref :=
  match args with
  | [v] => if 1 < size then toArray v true else newArray [v]
  | args => newArray args

def keywordTable (args : List Val) : Program η Ref :=
  match args.getLast? with
  | some (.cell .table r) => pure r
  | _ => newTable

end Program
end ObjectRuntime
