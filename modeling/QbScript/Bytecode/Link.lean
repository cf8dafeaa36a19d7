import QbScript.Bytecode.Field

/-!
# Linking addresses

Setting an address that was left open when its token was written. The distance is counted as the
reading of the address counts it.
-/

set_option autoImplicit false

namespace QbScript

namespace Bytecode

open LittleEndian

inductive Address where
  | long (pos : Nat)
  | short (pos : Nat)
  deriving DecidableEq

inductive LinkError where
  /-- The distance does not fit in the address. -/
  | tooFar (distance : Int)
  | stream (e : Error)
  deriving DecidableEq

def linkShort (b : Bytecode) (pos target : Nat) : Except LinkError Bytecode :=
  let distance : Int := target - pos
  if -0x8000 ≤ distance ∧ distance < 0x8000 then
    (b.overwrite pos (int16 (Int16.ofInt distance))).mapError .stream
  else .error (.tooFar distance)

def linkLong (b : Bytecode) (pos target : Nat) : Except LinkError Bytecode :=
  let distance : Int := target - (pos + 4 : Nat)
  if -0x80000000 ≤ distance ∧ distance < 0x80000000 then
    (b.overwrite pos (int32 (Int32.ofInt distance))).mapError .stream
  else .error (.tooFar distance)

end Bytecode

end QbScript
