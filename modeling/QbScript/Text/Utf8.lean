/-!
# UTF-8

Characters as bytes and bytes as characters. Bytes that are no character are kept apart, in the
longest runs that begin like a character; a lossy reading replaces each run by U+FFFD.
-/

set_option autoImplicit false

namespace QbScript

namespace Utf8

def encode (s : List Char) : List UInt8 := s.flatMap String.utf8EncodeChar

def ofString (s : String) : List UInt8 := encode s.toList

def size (s : List Char) : Nat := s.foldr (fun c n => c.utf8Size + n) 0

/-- A character, or bytes that are none. -/
inductive Segment where
  | char (c : Char)
  | invalid (bytes : List UInt8)
  deriving DecidableEq

/-- How many bytes follow the first byte of a character, and between which bounds the first of
them lies. -/
structure Lead where
  tail : Nat
  low : UInt8
  high : UInt8
  deriving DecidableEq

def lead? (b : UInt8) : Option Lead :=
  if b < 0x80 then some ⟨0, 0x80, 0xbf⟩
  else if b < 0xc2 then none
  else if b < 0xe0 then some ⟨1, 0x80, 0xbf⟩
  else if b = 0xe0 then some ⟨2, 0xa0, 0xbf⟩
  else if b = 0xed then some ⟨2, 0x80, 0x9f⟩
  else if b < 0xf0 then some ⟨2, 0x80, 0xbf⟩
  else if b = 0xf0 then some ⟨3, 0x90, 0xbf⟩
  else if b < 0xf4 then some ⟨3, 0x80, 0xbf⟩
  else if b = 0xf4 then some ⟨3, 0x80, 0x8f⟩
  else none

/-- At most `n` bytes that continue a character, the first between `low` and `high`. -/
def tail : (n : Nat) → (low high : UInt8) → List UInt8 → List UInt8
  | n + 1, low, high, b :: bs => if low ≤ b ∧ b ≤ high then b :: tail n 0x80 0xbf bs else []
  | _, _, _, _ => []

def leadBits (b : UInt8) : (tail : Nat) → Nat
  | 0 => b.toNat
  | 1 => b.toNat % 32
  | 2 => b.toNat % 16
  | _ => b.toNat % 8

def scalar (b : UInt8) (tail : List UInt8) : Char :=
  Char.ofNat (tail.foldl (fun v t => 64 * v + t.toNat % 64) (leadBits b tail.length))

def front (b : UInt8) (bs : List UInt8) : Segment × List UInt8 :=
  match lead? b with
  | none => (.invalid [b], bs)
  | some lead =>
    let t := tail lead.tail lead.low lead.high bs
    (if t.length = lead.tail then .char (scalar b t) else .invalid (b :: t), bs.drop t.length)

theorem length_front_le (b : UInt8) (bs : List UInt8) : (front b bs).2.length ≤ bs.length := by
  unfold front
  split <;> simp

def segmentsFrom (done : List Segment) (bytes : List UInt8) : List Segment :=
  match bytes with
  | [] => done.reverse
  | b :: bs => segmentsFrom ((front b bs).1 :: done) (front b bs).2
  termination_by bytes.length
  decreasing_by
    have := length_front_le b bs
    simp only [List.length_cons]
    omega

def segments (bytes : List UInt8) : List Segment := segmentsFrom [] bytes

theorem segmentsFrom_eq (done : List Segment) (bytes : List UInt8) :
    segmentsFrom done bytes = done.reverse ++ segments bytes := by
  suffices h : ∀ n (done : List Segment) (bytes : List UInt8), bytes.length ≤ n →
      segmentsFrom done bytes = done.reverse ++ segmentsFrom [] bytes from
    h bytes.length done bytes (Nat.le_refl _)
  intro n
  induction n with
  | zero =>
    intro done bytes h
    have : bytes = [] := List.length_eq_zero_iff.mp (by omega)
    subst this
    simp [segmentsFrom]
  | succ n ih =>
    intro done bytes h
    cases bytes with
    | nil => simp [segmentsFrom]
    | cons b bs =>
      have hl := length_front_le b bs
      have hn : (front b bs).2.length ≤ n := by
        simp only [List.length_cons] at h
        omega
      rw [segmentsFrom, segmentsFrom, ih _ _ hn, ih [_] _ hn]
      simp

@[simp] theorem segments_nil : segments [] = [] := by
  simp [segments, segmentsFrom]

theorem segments_cons (b : UInt8) (bs : List UInt8) :
    segments (b :: bs) = (front b bs).1 :: segments (front b bs).2 := by
  rw [segments, segmentsFrom, segmentsFrom_eq]
  simp

def Segment.charOrReplacement : Segment → Char
  | .char c => c
  | .invalid _ => '\uFFFD'

def Segment.char? : Segment → Option Char
  | .char c => some c
  | .invalid _ => none

/-- The text of bytes; what is no character becomes U+FFFD. -/
def decodeLossy (bytes : List UInt8) : String :=
  String.ofList ((segments bytes).map Segment.charOrReplacement)

def decode? (bytes : List UInt8) : Option String :=
  ((segments bytes).mapM Segment.char?).map String.ofList

end Utf8

end QbScript
