import QbScript.Number.Binary32
import QbScript.Text.Numeral

/-!
# Shortest decimal texts

The text of a float has the fewest digits that read back as the same float; of two such texts it is
the nearer one, and the greater one of two that are equally near. It is written without an exponent
and with at least one digit after the point.
-/

set_option autoImplicit false

namespace QbScript

namespace Binary32

/-- The numbers that read as one float, in quarters of its unit. -/
structure Basin where
  low : Nat
  mid : Nat
  high : Nat
  closed : Bool

/-- Below a power of two floats lie twice as close, so the lower side of its basin is half as
wide. The ends belong to the basin of the float with an even last bit. -/
def basin (x : Binary32) : Basin :=
  let gap := 1 <<< (x.exponentField - 1)
  let narrow := x.fractionField = 0 ∧ x.exponentField ≠ 0
  { low := 4 * x.units - (if narrow then gap else 2 * gap)
    mid := 4 * x.units
    high := 4 * x.units + 2 * gap
    closed := x.fractionField % 2 = 0 }

namespace Basin

def contains (b : Basin) (num den : Nat) : Bool :=
  if b.closed then b.low * den ≤ num ∧ num ≤ b.high * den
  else b.low * den < num ∧ num < b.high * den

/-- The multiple of `10 ^ e` in the basin that is nearest to its middle, if there is one, over
`10 ^ e`. -/
def pointOnGrid? (b : Basin) (e : Int) : Option Nat :=
  let step := Nat.pow 10 e.toNat <<< (BinaryFormat.single.scale + 2)
  let den := Nat.pow 10 (-e).toNat
  let below := b.mid * den / step
  let left := b.mid * den - below * step
  match b.contains (below * step) den, b.contains ((below + 1) * step) den with
  | true, false => some below
  | false, true => some (below + 1)
  | true, true => some (if step ≤ 2 * left then below + 1 else below)
  | false, false => none

def grids : List Int := (List.range 94).map fun k : Nat => 39 - (k : Int)

/-- The digits and the exponent of the shortest decimal in the basin. -/
def shortest (b : Basin) : Nat × Int :=
  (grids.findSome? fun e => (b.pointOnGrid? e).map (·, e)).getD (0, 0)

end Basin

/-- The number `digits * 10 ^ e` without an exponent, with a digit on each side of the point. -/
def positional (digits : Nat) (e : Int) : String :=
  let ds := Numeral.padded 10 ((-e).toNat + 1) digits ++ List.replicate e.toNat '0'
  let whole := ds.length - (-e).toNat
  let fraction := ds.drop whole
  String.ofList (ds.take whole ++ '.' :: (if fraction.isEmpty then ['0'] else fraction))

def magnitudeText (x : Binary32) : Magnitude → String
  | .infinite => "inf"
  | .finite 0 => "0.0"
  | .finite _ => positional x.basin.shortest.1 x.basin.shortest.2

def text (x : Binary32) : String :=
  match x.value with
  | .nan => "NaN"
  | .number negative m => (if negative then "-" else "") ++ x.magnitudeText m

end Binary32

end QbScript
