import ObjectRuntime.Text.Digits

/-! The ratio of a collection threshold to the population that survived the last
collection. It is a single-precision number of at least 1.2, kept exactly. -/

namespace ObjectRuntime

inductive Ratio
  | finite (x : Scaled)
  | infinite
deriving DecidableEq, Inhabited

namespace Ratio

/-- The single-precision number nearest to 1.2. -/
def minimum : Scaled := ⟨10066330, -23⟩

def standard : Ratio := finite ⟨12582912, -23⟩

/-- The ratio a numeral asks for: rounded to single precision, then raised to the minimum. What
is not a number asks for the minimum. -/
def ofNumeral : Numeral → Ratio
  | .infinite false => infinite
  | .finite false digits exponent =>
    match Numeral.round .single digits exponent with
    | none => infinite
    | some x => if minimum.le x then finite x else finite minimum
  | _ => finite minimum

def toFloat : Ratio → Float
  | finite x => .ofBits (Numeral.doubleBits false (some (BinaryFormat.double.round x.num x.den)))
  | infinite => .ofBits (Numeral.doubleBits false none)

def ceiling : Nat := UInt64.size - 1

/-- The population at which to collect again after `live` cells survived, computed in single
precision, rounded up and bounded by the ceiling. -/
def threshold (r : Ratio) (live : Nat) : Nat :=
  match r with
  | infinite => if live = 0 then 0 else ceiling
  | finite x =>
    let population := BinaryFormat.single.round live 1
    let product := population.mul x
    min ceiling (BinaryFormat.single.round product.num product.den).ceil

end Ratio
end ObjectRuntime
