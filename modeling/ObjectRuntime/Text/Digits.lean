import ObjectRuntime.Text.Numeral

/-! Writing numbers. A float is written with the fewest decimal digits that read
back as the same float, the closest of those to it, and upward on a tie. -/

namespace ObjectRuntime

def hex (width n : Nat) : String :=
  let digits := Nat.toDigits 16 n
  String.ofList (List.replicate (width - digits.length) '0' ++ digits)

/-- A decimal `0.d₁d₂… * 10 ^ point`. -/
structure Decimal where
  digits : List Nat
  point : Int

namespace Decimal

/-- One more unit in the last of the digits, given last digit first; a carry out of the front
leaves a single one and moves the point. -/
def increment : List Nat → List Nat × Bool
  | [] => ([], true)
  | d :: rest =>
    if d < 9 then ((d + 1) :: rest, false)
    else
      match increment rest with
      | (rest, carry) => (0 :: rest, carry)

/-- Digits of `r / s`, newest first, until what is left is within `below` of the digits so far
or within `above` of the next ones up. -/
def generate (inclusive : Bool) : Nat → Nat → Nat → Nat → Nat → List Nat → List Nat × Bool
  | 0, _, _, _, _, ds => (ds, false)
  | fuel + 1, r, s, below, above, ds =>
    let ds := r / s :: ds
    let r := r % s
    let down := if inclusive then decide (r ≤ below) else decide (r < below)
    let up := if inclusive then decide (s ≤ r + above) else decide (s < r + above)
    if down || up then (ds, up && (!down || decide (s ≤ 2 * r)))
    else generate inclusive fuel (r * 10) s (below * 10) (above * 10) ds

/-- The shortest decimal in the interval that rounds to `significand * 2 ^ exponent`, which is
positive. The interval is half as wide below a power of two, and holds its ends when the
significand is even. -/
def shortest (significand : Nat) (exponent : Int) : Decimal :=
  let edge := significand = 1 <<< 52 ∧ -1074 < exponent
  let inclusive := significand % 2 = 0
  let scale : Nat := if edge then 4 else 2
  let shift := exponent - (if edge then 2 else 1)
  let r := (significand * scale) <<< shift.toNat
  let below := 1 <<< shift.toNat
  let above := (if edge then 2 else 1) <<< shift.toNat
  let s := 1 <<< (-shift).toNat
  let reaches (k : Int) : Bool :=
    let top := (r + above) * Nat.pow 10 (-k).toNat
    let bound := s * Nat.pow 10 k.toNat
    if inclusive then bound ≤ top else bound < top
  let guess : Int := (BinaryFormat.floorLog (r + above) s * 30103) / 100000 - 1
  let point := (List.range 4).foldl (fun k _ => if reaches k then k + 1 else k) guess
  let up := Nat.pow 10 (1 - point).toNat
  let s := s * Nat.pow 10 (point - 1).toNat
  match generate inclusive 20 (r * up) s (below * up) (above * up) [] with
  | (ds, false) => ⟨ds.reverse, point⟩
  | (ds, true) =>
    match increment ds with
    | (ds, false) => ⟨ds.reverse, point⟩
    | (ds, true) => ⟨1 :: ds.reverse, point + 1⟩

def chars (ds : List Nat) : List Char := ds.map fun d => Char.ofNat ('0'.toNat + d)

def zeros (n : Nat) : List Char := List.replicate n '0'

def layout (d : Decimal) : String :=
  let ds := chars d.digits
  String.ofList <|
    if d.point ≤ -4 ∨ 16 < d.point then
      ds.take 1 ++ (if ds.length ≤ 1 then [] else '.' :: ds.drop 1) ++ 'e' ::
        (toString (d.point - 1)).toList
    else if d.point ≤ 0 then '0' :: '.' :: zeros (-d.point).toNat ++ ds
    else if ds.length ≤ d.point.toNat then ds ++ zeros (d.point.toNat - ds.length) ++ ['.', '0']
    else ds.take d.point.toNat ++ '.' :: ds.drop d.point.toNat

end Decimal

def floatText (x : Float) : String :=
  let bits := x.toBits.toNat
  let sign := if bits >>> 63 = 1 then "-" else ""
  let biased := (bits >>> 52) % 0x800
  let fraction := bits % 1 <<< 52
  if biased = 0x7ff then (if fraction = 0 then sign ++ "inf" else "NaN")
  else if biased = 0 then
    sign ++ (if fraction = 0 then "0.0" else (Decimal.shortest fraction (-1074)).layout)
  else sign ++ (Decimal.shortest (fraction + 1 <<< 52) (biased - 1075)).layout

end ObjectRuntime
