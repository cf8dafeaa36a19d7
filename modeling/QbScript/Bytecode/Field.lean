import QbScript.Bytecode.Error
import QbScript.LittleEndian
import QbScript.Number.Binary32

/-!
# Fields of a stream

Bounded reads at a position, the addresses that are kept in fields, and writing over a field. A long
address counts from the end of its field and a short one from its start; both lead to a position of
the stream or to its end.
-/

set_option autoImplicit false

namespace QbScript

namespace Bytecode

open LittleEndian

def field (b : Bytecode) (pos n : Nat) : Except Error (List UInt8) :=
  if pos + n ≤ b.size then .ok (b.extract pos (pos + n)).toList
  else .error (.outOfRange pos n b.size)

def byteAt (b : Bytecode) (pos : Nat) : Except Error UInt8 :=
  match b[pos]? with
  | some byte => .ok byte
  | none => .error (.outOfRange pos 1 b.size)

def word16At (b : Bytecode) (pos : Nat) : Except Error UInt16 := (b.field pos 2).map toWord16

def int16At (b : Bytecode) (pos : Nat) : Except Error Int16 := (b.field pos 2).map toInt16

def word32At (b : Bytecode) (pos : Nat) : Except Error UInt32 := (b.field pos 4).map toWord32

def int32At (b : Bytecode) (pos : Nat) : Except Error Int32 := (b.field pos 4).map toInt32

def floatAt (b : Bytecode) (pos : Nat) : Except Error Binary32 :=
  (b.word32At pos).map Binary32.mk

def tagAt (b : Bytecode) (pos : Nat) : Except Error Tag := do
  let byte ← b.byteAt pos
  match Tag.ofByte? byte with
  | some tag => .ok tag
  | none => .error (.unknownTag byte pos)

/-- The position that lies `distance` after `base`, for the address at `pos`. -/
def target (b : Bytecode) (pos base : Nat) (distance : Int) : Except Error Nat :=
  let t := (base : Int) + distance
  if 0 ≤ t ∧ t ≤ b.size then .ok t.toNat else .error (.badAddress pos t)

def longAddress (b : Bytecode) (pos : Nat) : Except Error Nat := do
  b.target pos (pos + 4) (← b.int32At pos).toInt

def shortAddress (b : Bytecode) (pos : Nat) : Except Error Nat := do
  b.target pos pos (← b.int16At pos).toInt

/-- Writes `bytes` over those at `pos`; the size of the stream stays. -/
def overwrite (b : Bytecode) (pos : Nat) (bytes : List UInt8) : Except Error Bytecode :=
  if pos + bytes.length ≤ b.size then .ok (go b pos bytes)
  else .error (.outOfRange pos bytes.length b.size)
where
  go (b : Bytecode) (pos : Nat) : List UInt8 → Bytecode
    | [] => b
    | byte :: rest => go (b.setIfInBounds pos byte) (pos + 1) rest

theorem field_eq_ok_iff {b : Bytecode} {pos n : Nat} {bytes : List UInt8} :
    b.field pos n = .ok bytes ↔
      pos + n ≤ b.size ∧ bytes = (b.extract pos (pos + n)).toList := by
  unfold field
  split
  · rename_i hle
    exact ⟨fun h => ⟨hle, (Except.ok.inj h).symm⟩, fun h => by rw [h.2]⟩
  · rename_i hlt
    exact ⟨fun h => (nomatch h), fun h => absurd h.1 hlt⟩

theorem length_of_field_eq_ok {b : Bytecode} {pos n : Nat} {bytes : List UInt8}
    (h : b.field pos n = .ok bytes) : bytes.length = n := by
  obtain ⟨hle, rfl⟩ := field_eq_ok_iff.mp h
  simp only [Array.length_toList, Array.size_extract]
  omega

theorem lt_size_of_byteAt_eq_ok {b : Bytecode} {pos : Nat} {byte : UInt8}
    (h : b.byteAt pos = .ok byte) : pos < b.size := by
  unfold byteAt at h
  split at h
  · rename_i hs
    exact (Array.getElem?_eq_some_iff.mp hs).1
  · simp at h

theorem lt_size_of_tagAt_eq_ok {b : Bytecode} {pos : Nat} {tag : Tag}
    (h : b.tagAt pos = .ok tag) : pos < b.size := by
  unfold tagAt at h
  cases hb : b.byteAt pos with
  | error e => simp [hb, bind, Except.bind] at h
  | ok byte => exact lt_size_of_byteAt_eq_ok hb

end Bytecode

end QbScript
