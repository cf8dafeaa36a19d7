import QbScript.Number.Rounding

/-!
# Floats of 32 bits

A float is its bits, so that every payload of a NaN is kept apart.
-/

set_option autoImplicit false

namespace QbScript

structure Binary32 where
  bits : UInt32
  deriving DecidableEq

namespace Binary32

inductive Value where
  | nan
  | number (negative : Bool) (magnitude : Magnitude)

def isNegative (x : Binary32) : Bool := 0x80000000 ≤ x.bits.toNat

def exponentField (x : Binary32) : Nat := (x.bits.toNat >>> 23) % 0x100

def fractionField (x : Binary32) : Nat := x.bits.toNat % 0x800000

/-- The size of a finite float in units of `2 ^ -149`. -/
def units (x : Binary32) : Nat :=
  if x.exponentField = 0 then x.fractionField
  else (0x800000 + x.fractionField) <<< (x.exponentField - 1)

def value (x : Binary32) : Value :=
  if x.exponentField = 255 then
    if x.fractionField = 0 then .number x.isNegative .infinite else .nan
  else .number x.isNegative (.finite x.units)

/-- The bits below the sign. A float with `s` bits to spare has them counted above its 24 bits,
the highest of which counts the exponent up by one. -/
def magnitudeBits : Magnitude → Nat
  | .finite units =>
    let s := BinaryFormat.single.excess units
    (s <<< 23) + (units >>> s)
  | .infinite => 0x7f800000

def ofMagnitude (negative : Bool) (m : Magnitude) : Binary32 :=
  ⟨UInt32.ofNat ((if negative then 0x80000000 else 0) + magnitudeBits m)⟩

def ofInt (i : Int) : Binary32 :=
  ofMagnitude (i < 0) (BinaryFormat.single.ofNat i.natAbs)

/-- The greatest integer that is not above `x`, or the nearest bound of a signed 32-bit integer;
zero for what is no number. -/
def floor (x : Binary32) : Int :=
  match x.value with
  | .nan => 0
  | .number false .infinite => 0x7fffffff
  | .number true .infinite => -0x80000000
  | .number negative (.finite units) =>
    let i : Int := if negative then -(units : Int) else units
    max (-0x80000000) (min 0x7fffffff (i >>> BinaryFormat.single.scale))

end Binary32

end QbScript
