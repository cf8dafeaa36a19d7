/-!
# Rounding to binary formats

A binary format holds the numbers with a fixed count of significant bits between two bounds. All of
them are multiples of its smallest positive number, the unit, so a number that is not negative is a
count of units or infinite. Fractions are rounded to the nearest number of the format, a tie to the
even one.
-/

set_option autoImplicit false

namespace QbScript

inductive Magnitude where
  | finite (units : Nat)
  | infinite
  deriving DecidableEq

/-- The numbers with `precision` significant bits that are multiples of the unit, `2 ^ scale` units
being one, and less than `2 ^ limit` units. -/
structure BinaryFormat where
  precision : Nat
  scale : Nat
  limit : Nat

namespace BinaryFormat

def single : BinaryFormat := ⟨24, 149, 277⟩

def double : BinaryFormat := ⟨53, 1074, 2098⟩

def divideToNearest (num den : Nat) : Nat :=
  let q := num / den
  let r := num % den
  if 2 * r < den then q
  else if den < 2 * r then q + 1
  else q + q % 2

def excess (f : BinaryFormat) (units : Nat) : Nat := units.log2 + 1 - f.precision

def round (f : BinaryFormat) (num den : Nat) : Magnitude :=
  let s := f.excess (num / den)
  let units := divideToNearest num (den <<< s) <<< s
  if units < 1 <<< f.limit then .finite units else .infinite

def ofNat (f : BinaryFormat) (n : Nat) : Magnitude := f.round (n <<< f.scale) 1

/-- Ten times `m`, plus `n`, rounded once. -/
def tenfoldPlus (f : BinaryFormat) (m : Magnitude) (n : Nat) : Magnitude :=
  match m with
  | .finite units => f.round (10 * units + (n <<< f.scale)) 1
  | .infinite => .infinite

def plus (f : BinaryFormat) : Magnitude → Magnitude → Magnitude
  | .finite a, .finite b => f.round (a + b) 1
  | _, _ => .infinite

def quotient (f : BinaryFormat) (n : Nat) : Magnitude → Magnitude
  | .finite units => f.round (n <<< (2 * f.scale)) units
  | .infinite => .finite 0

def convert (f g : BinaryFormat) : Magnitude → Magnitude
  | .finite units => f.round units (1 <<< (g.scale - f.scale))
  | .infinite => .infinite

end BinaryFormat

end QbScript
