import QbScript.Bytecode.Error
import QbScript.LittleEndian
import QbScript.Token

/-!
# The bytes of a token

A token is written as the byte of its tag and a payload whose form depends on the tag alone. Names
are written by their checksums. A token with an internal tag has no bytes.
-/

set_option autoImplicit false

namespace QbScript

open LittleEndian

def Tag.encode (t : Tag) : Except Bytecode.Error (List UInt8) :=
  if t.isInternal then .error (.internalTag t) else .ok [t.byte]

namespace Token

def terminated (bytes : List UInt8) : List UInt8 := bytes ++ [0]

/-- Bytes with a zero after them, and before them how many that makes. -/
def counted (bytes : List UInt8) : List UInt8 :=
  word32 (UInt32.ofNat (bytes.length + 1)) ++ terminated bytes

def leadTag : Token → Tag
  | .nameChecksum _ => .name
  | .argChecksum _ => .arg
  | t => t.tag

def float32 (x : Binary32) : List UInt8 := word32 x.bits

def payload : Token → List UInt8
  | .simple _ => []
  | .name text => word32 (Checksum.ofName text)
  | .arg text => Tag.name.byte :: word32 (Checksum.ofName text)
  | .nameChecksum checksum => word32 checksum
  | .argChecksum checksum => Tag.name.byte :: word32 checksum
  | .integer value => int32 value
  | .hexInteger value => word32 value
  | .float value => float32 value
  | .string bytes => counted bytes
  | .localString bytes => counted bytes
  | .pair x y => float32 x ++ float32 y
  | .vector x y z => float32 x ++ float32 y ++ float32 z
  | .endOfLineNumber line => word32 line
  | .jump distance => int32 distance
  | .shortBranch _ distance => int16 distance
  | .random _ weights jumps =>
    word32 (UInt32.ofNat weights.length) ++ weights.flatMap word16 ++ jumps.flatMap int32
  | .checksumName checksum text => word32 checksum ++ terminated (Utf8.ofString text)

def encode (t : Token) : Except Bytecode.Error (List UInt8) :=
  t.leadTag.encode.map (· ++ t.payload)

theorem encode_eq_ok_iff {t : Token} {bytes : List UInt8} :
    t.encode = .ok bytes ↔ t.leadTag.isInternal = false ∧ bytes = t.leadTag.byte :: t.payload := by
  unfold encode Tag.encode
  cases hi : t.leadTag.isInternal with
  | false =>
    simp only [Except.map, Bool.false_eq_true, if_false, List.cons_append, List.nil_append,
      true_and]
    exact ⟨fun h => (Except.ok.inj h).symm, fun h => by rw [h]⟩
  | true => simp [Except.map]

end Token

end QbScript
