import ObjectRuntime.Binary

/-! Reading decimal numerals: an optional sign, then `inf`, `infinity`, `nan` in
any case, or digits with an optional point and an optional decimal exponent. The
value of a numeral is exact until it is rounded to a binary format. -/

namespace ObjectRuntime

inductive Numeral
  | nan
  | infinite (negative : Bool)
  | finite (negative : Bool) (digits : Nat) (exponent : Int)
deriving DecidableEq

namespace Numeral

def readDigits (value count : Nat) : List Char → Nat × Nat × List Char
  | c :: rest =>
    if c.isDigit then readDigits (value * 10 + (c.toNat - '0'.toNat)) (count + 1) rest
    else (value, count, c :: rest)
  | [] => (value, count, [])

def readSign : List Char → Bool × List Char
  | '-' :: rest => (true, rest)
  | '+' :: rest => (false, rest)
  | rest => (false, rest)

def readExponent : List Char → Option Int
  | [] => some 0
  | c :: rest =>
    if c = 'e' ∨ c = 'E' then
      match readSign rest with
      | (negative, rest) =>
        match readDigits 0 0 rest with
        | (_, 0, _) => none
        | (value, _ + 1, []) => some (if negative then -(value : Int) else value)
        | (_, _ + 1, _ :: _) => none
    else none

def readMagnitude (negative : Bool) (text : List Char) : Option Numeral :=
  match readDigits 0 0 text with
  | (whole, wholeCount, rest) =>
    match (match rest with
      | '.' :: rest => readDigits whole 0 rest
      | rest => (whole, 0, rest)) with
    | (digits, fractionCount, rest) =>
      if wholeCount + fractionCount = 0 then none
      else (readExponent rest).map fun e => finite negative digits (e - fractionCount)

def read (text : String) : Option Numeral :=
  match readSign text.toList with
  | (negative, rest) =>
    match String.ofList (rest.map Char.toLower) with
    | "inf" | "infinity" => some (infinite negative)
    | "nan" => some nan
    | _ => readMagnitude negative rest

def width (n : Nat) : Nat := (Nat.toDigits 10 n).length

/-- `digits * 10 ^ exponent` rounded to a format, or nothing when it is too large for it.
Numbers beyond every format are settled by their size, before any power is taken. -/
def round (f : BinaryFormat) (digits : Nat) (exponent : Int) : Option Scaled :=
  let size := width digits + exponent
  if digits = 0 ∨ size < -400 then some (f.round 0 1)
  else if 400 < size then none
  else
    let x := f.round (digits * Nat.pow 10 exponent.toNat) (Nat.pow 10 (-exponent).toNat)
    if f.fits x then some x else none

def doubleBits (negative : Bool) (x : Option Scaled) : UInt64 :=
  let sign : Nat := if negative then 1 <<< 63 else 0
  match x with
  | none => .ofNat (sign + 0x7ff <<< 52)
  | some x =>
    if x.significand < 1 <<< 52 then .ofNat (sign + x.significand)
    else .ofNat (sign + (x.exponent + 1075).toNat <<< 52 + (x.significand - 1 <<< 52))

def toFloat : Numeral → Float
  | nan => .ofBits 0x7ff8000000000000
  | infinite negative => .ofBits (doubleBits negative none)
  | finite negative digits exponent =>
    .ofBits (doubleBits negative (round .double digits exponent))

end Numeral
end ObjectRuntime
