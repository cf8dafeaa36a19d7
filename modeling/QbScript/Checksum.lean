import QbScript.Text.Numeral
import QbScript.Text.Utf8

/-!
# Checksums of names

A name is known in a stream by a 32-bit cyclic checksum of its bytes, without a final inversion.
Names that differ only in the case of ASCII letters, or in the direction of slashes, are the same
name and have the same checksum.
-/

set_option autoImplicit false

namespace QbScript

abbrev Checksum := UInt32

namespace Checksum

/-- The generator of the cyclic code, least power first. -/
def generator : UInt32 := 0xEDB88320

/-- Divides by the indeterminate, modulo the generator. -/
def shift (v : UInt32) : UInt32 :=
  if v &&& 1 = 0 then v >>> 1 else (v >>> 1) ^^^ generator

def shiftBy : Nat → UInt32 → UInt32
  | 0, v => v
  | n + 1, v => shiftBy n (shift v)

def update (v : UInt32) (b : UInt8) : UInt32 := shiftBy 8 (v ^^^ b.toUInt32)

def ofBytes (bs : List UInt8) : Checksum := bs.foldl update 0xFFFFFFFF

def normalizeByte (b : UInt8) : UInt8 :=
  if b = 0x2f then 0x5c
  else if 0x41 ≤ b ∧ b ≤ 0x5a then b + 0x20
  else b

def normalize (name : String) : List UInt8 := (Utf8.ofString name).map normalizeByte

def ofName (name : String) : Checksum := ofBytes (normalize name)

def digits (c : Checksum) : String := Numeral.paddedHex 8 c.toNat

theorem ofName_congr {a b : String} (h : normalize a = normalize b) : ofName a = ofName b := by
  rw [ofName, ofName, h]

theorem shiftBy_add (m n : Nat) (v : UInt32) : shiftBy (m + n) v = shiftBy n (shiftBy m v) := by
  induction m generalizing v with
  | zero => rw [Nat.zero_add, shiftBy]
  | succ m ih => rw [Nat.succ_add, shiftBy, shiftBy, ih]

theorem ofBytes_append (a b : List UInt8) : ofBytes (a ++ b) = b.foldl update (ofBytes a) := by
  simp [ofBytes]

end Checksum

end QbScript
