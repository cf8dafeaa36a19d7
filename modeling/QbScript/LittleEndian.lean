/-!
# Little-endian numbers

The number that bytes stand for, least byte first, and the bytes of a number. The two are inverse
for numbers that fit, and of a number that does not fit the low bytes are kept.
-/

set_option autoImplicit false

namespace QbScript

namespace LittleEndian

def toNat : List UInt8 → Nat
  | [] => 0
  | b :: bs => b.toNat + 256 * toNat bs

def ofNat : (width : Nat) → (n : Nat) → List UInt8
  | 0, _ => []
  | width + 1, n => UInt8.ofNat n :: ofNat width (n / 256)

def word16 (v : UInt16) : List UInt8 := ofNat 2 v.toNat

def word32 (v : UInt32) : List UInt8 := ofNat 4 v.toNat

def int16 (v : Int16) : List UInt8 := word16 v.toUInt16

def int32 (v : Int32) : List UInt8 := word32 v.toUInt32

def toWord16 (bs : List UInt8) : UInt16 := UInt16.ofNat (toNat bs)

def toWord32 (bs : List UInt8) : UInt32 := UInt32.ofNat (toNat bs)

def toInt16 (bs : List UInt8) : Int16 := (toWord16 bs).toInt16

def toInt32 (bs : List UInt8) : Int32 := (toWord32 bs).toInt32

/-- The least number that `width` bytes do not suffice for. -/
def bound : (width : Nat) → Nat
  | 0 => 1
  | width + 1 => 256 * bound width

@[simp] theorem length_ofNat (width n : Nat) : (ofNat width n).length = width := by
  induction width generalizing n with
  | zero => rfl
  | succ width ih => simp [ofNat, ih]

theorem toNat_lt_bound (bs : List UInt8) : toNat bs < bound bs.length := by
  induction bs with
  | nil => simp [toNat, bound]
  | cons b bs ih =>
    have := b.toNat_lt
    simp only [toNat, List.length_cons, bound]
    omega

theorem toNat_ofNat (width n : Nat) : toNat (ofNat width n) = n % bound width := by
  induction width generalizing n with
  | zero => simp [ofNat, toNat, bound, Nat.mod_one]
  | succ width ih =>
    rw [ofNat, toNat, ih, bound, Nat.mod_mul]
    simp

theorem ofNat_toNat (bs : List UInt8) : ofNat bs.length (toNat bs) = bs := by
  induction bs with
  | nil => rfl
  | cons b bs ih =>
    have hb := b.toNat_lt
    have hd : (b.toNat + 256 * toNat bs) / 256 = toNat bs := by omega
    have hm : UInt8.ofNat (b.toNat + 256 * toNat bs) = b := by
      apply UInt8.toNat_inj.mp
      rw [UInt8.toNat_ofNat']
      omega
    simp [ofNat, toNat, hd, hm, ih]

@[simp] theorem length_word16 (v : UInt16) : (word16 v).length = 2 := length_ofNat ..
@[simp] theorem length_word32 (v : UInt32) : (word32 v).length = 4 := length_ofNat ..
@[simp] theorem length_int16 (v : Int16) : (int16 v).length = 2 := length_word16 _
@[simp] theorem length_int32 (v : Int32) : (int32 v).length = 4 := length_word32 _

@[simp] theorem toWord16_word16 (v : UInt16) : toWord16 (word16 v) = v := by
  have := v.toNat_lt
  simp [toWord16, word16, toNat_ofNat, bound]

@[simp] theorem toWord32_word32 (v : UInt32) : toWord32 (word32 v) = v := by
  have := v.toNat_lt
  simp [toWord32, word32, toNat_ofNat, bound]

@[simp] theorem toInt16_int16 (v : Int16) : toInt16 (int16 v) = v := by
  simp [toInt16, int16]

@[simp] theorem toInt32_int32 (v : Int32) : toInt32 (int32 v) = v := by
  simp [toInt32, int32]

theorem word16_toWord16 {bs : List UInt8} (h : bs.length = 2) : word16 (toWord16 bs) = bs := by
  have hlt := toNat_lt_bound bs
  rw [h] at hlt
  have : (toWord16 bs).toNat = toNat bs := by
    rw [toWord16, UInt16.toNat_ofNat']
    exact Nat.mod_eq_of_lt hlt
  rw [word16, this, ← h, ofNat_toNat]

theorem word32_toWord32 {bs : List UInt8} (h : bs.length = 4) : word32 (toWord32 bs) = bs := by
  have hlt := toNat_lt_bound bs
  rw [h] at hlt
  have : (toWord32 bs).toNat = toNat bs := by
    rw [toWord32, UInt32.toNat_ofNat']
    exact Nat.mod_eq_of_lt hlt
  rw [word32, this, ← h, ofNat_toNat]

theorem int16_toInt16 {bs : List UInt8} (h : bs.length = 2) : int16 (toInt16 bs) = bs := by
  simp [int16, toInt16, word16_toWord16 h]

theorem int32_toInt32 {bs : List UInt8} (h : bs.length = 4) : int32 (toInt32 bs) = bs := by
  simp [int32, toInt32, word32_toWord32 h]

end LittleEndian

end QbScript
