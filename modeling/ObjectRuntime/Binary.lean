/-! Rounding of rationals to binary floating point, to nearest and ties to even.
A rounded number is a significand times a power of two, so arithmetic on it is
arithmetic on naturals. -/

namespace ObjectRuntime

/-- The number `significand * 2 ^ exponent`. -/
structure Scaled where
  significand : Nat
  exponent : Int
deriving DecidableEq, Inhabited

namespace Scaled

def num (x : Scaled) : Nat := x.significand <<< x.exponent.toNat

def den (x : Scaled) : Nat := 1 <<< (-x.exponent).toNat

def le (x y : Scaled) : Bool := x.num * y.den ≤ y.num * x.den

def mul (x y : Scaled) : Scaled := ⟨x.significand * y.significand, x.exponent + y.exponent⟩

def ceil (x : Scaled) : Nat := (x.num + x.den - 1) / x.den

end Scaled

structure BinaryFormat where
  precision : Nat
  least : Int
  greatest : Int

namespace BinaryFormat

def single : BinaryFormat := ⟨24, -149, 104⟩
def double : BinaryFormat := ⟨53, -1074, 971⟩

/-- The exponent `e` with `2 ^ e ≤ num / den < 2 ^ (e + 1)`, for positive `num` and `den`. -/
def floorLog (num den : Nat) : Int :=
  let e : Int := num.log2 - den.log2
  if num <<< (-e).toNat < den <<< e.toNat then e - 1 else e

/-- The multiple of `2 ^ unit` nearest to `num / den`, an even one on a tie. -/
def nearest (num den : Nat) (unit : Int) : Nat :=
  let n := num <<< (-unit).toNat
  let d := den <<< unit.toNat
  let q := n / d
  let r := n % d
  if d < 2 * r ∨ (2 * r = d ∧ q % 2 = 1) then q + 1 else q

/-- The number of the format nearest to `num / den`, with no bound on large exponents. -/
def round (f : BinaryFormat) (num den : Nat) : Scaled :=
  if num = 0 then ⟨0, f.least⟩
  else
    let unit := max f.least (floorLog num den - (f.precision - 1 : Nat))
    let s := nearest num den unit
    if s = 1 <<< f.precision then ⟨1 <<< (f.precision - 1), unit + 1⟩ else ⟨s, unit⟩

def fits (f : BinaryFormat) (x : Scaled) : Bool := x.exponent ≤ f.greatest

end BinaryFormat
end ObjectRuntime
