import Mathlib
import QbScript.Text.Utf8

/-!
# Reading characters back

The bytes of a character are read as that character, and bytes that are read as a character are its
bytes. So every text survives as bytes, and every byte sequence as segments.
-/

set_option autoImplicit false

namespace QbScript

namespace Utf8

def LeadByNumber (b : UInt8) : Prop :=
  (b.toNat < 0x80 ∧ lead? b = some ⟨0, 0x80, 0xbf⟩) ∨
  (0xc2 ≤ b.toNat ∧ b.toNat < 0xe0 ∧ lead? b = some ⟨1, 0x80, 0xbf⟩) ∨
  (0xe0 ≤ b.toNat ∧ b.toNat < 0xf0 ∧ lead? b =
    some ⟨2, if b.toNat = 0xe0 then 0xa0 else 0x80, if b.toNat = 0xed then 0x9f else 0xbf⟩) ∨
  (0xf0 ≤ b.toNat ∧ b.toNat < 0xf5 ∧ lead? b =
    some ⟨3, if b.toNat = 0xf0 then 0x90 else 0x80, if b.toNat = 0xf4 then 0x8f else 0xbf⟩) ∨
  ((0x80 ≤ b.toNat ∧ b.toNat < 0xc2 ∨ 0xf5 ≤ b.toNat) ∧ lead? b = none)

instance (b : UInt8) : Decidable (LeadByNumber b) := by
  unfold LeadByNumber
  infer_instance

theorem leadByNumber (b : UInt8) : LeadByNumber b := by
  have h : ∀ n : Fin 256, LeadByNumber (UInt8.ofNat n) := by decide +kernel
  simpa using h ⟨b.toNat, b.toNat_lt⟩

theorem toNat_ofNat_of_lt {n : Nat} (h : n < 256) : (UInt8.ofNat n).toNat = n := by
  rw [UInt8.toNat_ofNat']
  exact Nat.mod_eq_of_lt h

theorem toNat_ite (p : Prop) [Decidable p] (x y : UInt8) :
    (if p then x else y).toNat = if p then x.toNat else y.toNat := by
  split <;> rfl

@[simp] theorem tail_zero (low high : UInt8) (bs : List UInt8) : tail 0 low high bs = [] := by
  cases bs <;> rfl

theorem tail_succ_cons {n : Nat} {low high t : UInt8} (hlow : low.toNat ≤ t.toNat)
    (hhigh : t.toNat ≤ high.toNat) (bs : List UInt8) :
    tail (n + 1) low high (t :: bs) = t :: tail n 0x80 0xbf bs := by
  rw [tail, if_pos ⟨UInt8.le_iff_toNat_le.mpr hlow, UInt8.le_iff_toNat_le.mpr hhigh⟩]

theorem tail_continuation {n : Nat} {t : UInt8} (hlow : 0x80 ≤ t.toNat) (hhigh : t.toNat < 0xc0)
    (bs : List UInt8) : tail (n + 1) 0x80 0xbf (t :: bs) = t :: tail n 0x80 0xbf bs := by
  apply tail_succ_cons
  · exact hlow
  · exact Nat.le_of_lt_succ hhigh

theorem front_one {b : UInt8} (hb : b.toNat < 0x80) (rest : List UInt8) :
    front b rest = (.char (Char.ofNat b.toNat), rest) := by
  rcases leadByNumber b with ⟨-, hl⟩ | hl | hl | hl | hl
  · simp [front, hl, scalar, leadBits]
  all_goals omega

theorem front_two {b x : UInt8} (hb : 0xc2 ≤ b.toNat ∧ b.toNat < 0xe0)
    (hx : 0x80 ≤ x.toNat ∧ x.toNat < 0xc0) (rest : List UInt8) :
    front b (x :: rest) = (.char (Char.ofNat (64 * (b.toNat % 32) + x.toNat % 64)), rest) := by
  rcases leadByNumber b with hl | ⟨-, -, hl⟩ | hl | hl | hl
  · omega
  · simp [front, hl, tail_continuation hx.1 hx.2, scalar, leadBits]
  all_goals omega

theorem front_three {b x y : UInt8} (hb : 0xe0 ≤ b.toNat ∧ b.toNat < 0xf0)
    (hx : 0x80 ≤ x.toNat ∧ x.toNat < 0xc0) (hy : 0x80 ≤ y.toNat ∧ y.toNat < 0xc0)
    (hlow : b.toNat = 0xe0 → 0xa0 ≤ x.toNat) (hhigh : b.toNat = 0xed → x.toNat < 0xa0)
    (rest : List UInt8) :
    front b (x :: y :: rest) =
      (.char (Char.ofNat (64 * (64 * (b.toNat % 16) + x.toNat % 64) + y.toNat % 64)), rest) := by
  rcases leadByNumber b with hl | hl | ⟨-, -, hl⟩ | hl | hl
  · omega
  · omega
  · have ht : tail 2 (if b.toNat = 0xe0 then 0xa0 else 0x80) (if b.toNat = 0xed then 0x9f else 0xbf)
        (x :: y :: rest) = [x, y] := by
      rw [tail_succ_cons, tail_continuation hy.1 hy.2, tail_zero]
      · rw [toNat_ite]
        split <;> simp <;> omega
      · rw [toNat_ite]
        split <;> simp <;> omega
    simp [front, hl, ht, scalar, leadBits]
  all_goals omega

theorem front_four {b x y z : UInt8} (hb : 0xf0 ≤ b.toNat ∧ b.toNat < 0xf5)
    (hx : 0x80 ≤ x.toNat ∧ x.toNat < 0xc0) (hy : 0x80 ≤ y.toNat ∧ y.toNat < 0xc0)
    (hz : 0x80 ≤ z.toNat ∧ z.toNat < 0xc0) (hlow : b.toNat = 0xf0 → 0x90 ≤ x.toNat)
    (hhigh : b.toNat = 0xf4 → x.toNat < 0x90) (rest : List UInt8) :
    front b (x :: y :: z :: rest) =
      (.char (Char.ofNat (64 * (64 * (64 * (b.toNat % 8) + x.toNat % 64) + y.toNat % 64)
        + z.toNat % 64)), rest) := by
  rcases leadByNumber b with hl | hl | hl | ⟨-, -, hl⟩ | hl
  · omega
  · omega
  · omega
  · have ht : tail 3 (if b.toNat = 0xf0 then 0x90 else 0x80) (if b.toNat = 0xf4 then 0x8f else 0xbf)
        (x :: y :: z :: rest) = [x, y, z] := by
      rw [tail_succ_cons, tail_continuation hy.1 hy.2, tail_continuation hz.1 hz.2, tail_zero]
      · rw [toNat_ite]
        split <;> simp <;> omega
      · rw [toNat_ite]
        split <;> simp <;> omega
    simp [front, hl, ht, scalar, leadBits]
  · omega

/-- The bytes of a character are read as it, whatever follows. -/
theorem segments_utf8EncodeChar_append (c : Char) (rest : List UInt8) :
    segments (String.utf8EncodeChar c ++ rest) = .char c :: segments rest := by
  have hv : c.val.toNat < 0xd800 ∨ (0xdfff < c.val.toNat ∧ c.val.toNat < 0x110000) := c.valid
  have hc : Char.ofNat c.val.toNat = c := Char.ofNat_toNat c
  generalize hn : c.val.toNat = n at hv hc
  have hlow := toNat_ofNat_of_lt (n := n % 64 + 128) (by omega)
  have hmid := toNat_ofNat_of_lt (n := n / 64 % 64 + 128) (by omega)
  have hhigh := toNat_ofNat_of_lt (n := n / 4096 % 64 + 128) (by omega)
  have h2 := toNat_ofNat_of_lt (n := n / 64 % 32 + 192) (by omega)
  have h3 := toNat_ofNat_of_lt (n := n / 4096 % 16 + 224) (by omega)
  have h4 := toNat_ofNat_of_lt (n := n / 262144 % 8 + 240) (by omega)
  simp only [String.utf8EncodeChar, hn]
  split
  · have h1 := toNat_ofNat_of_lt (n := n) (by omega)
    rw [List.cons_append, segments_cons, front_one (by omega), h1, hc, List.nil_append]
  split
  · rw [List.cons_append, segments_cons, List.cons_append, front_two (by omega) (by omega), h2,
      hlow, show 64 * ((n / 64 % 32 + 192) % 32) + (n % 64 + 128) % 64 = n by omega, hc,
      List.nil_append]
  split
  · rw [List.cons_append, segments_cons, List.cons_append, List.cons_append,
      front_three (by omega) (by omega) (by omega) (by omega) (by omega), h3, hmid, hlow,
      show 64 * (64 * ((n / 4096 % 16 + 224) % 16) + (n / 64 % 64 + 128) % 64)
        + (n % 64 + 128) % 64 = n by omega, hc, List.nil_append]
  · rw [List.cons_append, segments_cons, List.cons_append, List.cons_append, List.cons_append,
      front_four (by omega) (by omega) (by omega) (by omega) (by omega) (by omega), h4, hhigh,
      hmid, hlow,
      show 64 * (64 * (64 * ((n / 262144 % 8 + 240) % 8) + (n / 4096 % 64 + 128) % 64)
        + (n / 64 % 64 + 128) % 64) + (n % 64 + 128) % 64 = n by omega, hc, List.nil_append]

theorem segments_encode (s : List Char) : segments (encode s) = s.map .char := by
  induction s with
  | nil => simp [encode]
  | cons c s ih =>
    rw [encode, List.flatMap_cons, segments_utf8EncodeChar_append]
    simpa [encode] using ih

theorem decodeLossy_ofString (s : String) : decodeLossy (ofString s) = s := by
  rw [decodeLossy, ofString, segments_encode, List.map_map]
  have h : Segment.charOrReplacement ∘ Segment.char = id := rfl
  rw [h, List.map_id, String.ofList_toList]

theorem zero_mem_utf8EncodeChar_iff (c : Char) : 0 ∈ String.utf8EncodeChar c ↔ c = '\x00' := by
  constructor
  · intro h
    have hz : ∀ n, n < 256 → (0 : UInt8) = UInt8.ofNat n → n = 0 := by
      intro n hn h0
      rw [← toNat_ofNat_of_lt hn, ← h0]
      rfl
    apply Char.ext
    apply UInt32.toNat_inj.mp
    have hv : c.val.toNat < 0xd800 ∨ (0xdfff < c.val.toNat ∧ c.val.toNat < 0x110000) := c.valid
    simp only [String.utf8EncodeChar] at h
    split at h
    · have h0 := hz c.val.toNat (by omega) (List.mem_singleton.mp h)
      simpa using h0
    · exfalso
      split at h
      · rcases List.mem_pair.mp h with h | h <;> have := hz _ (by omega) h <;> omega
      split at h <;> simp only [List.mem_cons, List.not_mem_nil, or_false] at h
      · rcases h with h | h | h <;> have := hz _ (by omega) h <;> omega
      · rcases h with h | h | h | h <;> have := hz _ (by omega) h <;> omega
  · rintro rfl
    decide

theorem zero_mem_ofString_iff (s : String) : 0 ∈ ofString s ↔ '\x00' ∈ s.toList := by
  simp [ofString, encode, List.mem_flatMap, zero_mem_utf8EncodeChar_iff]

def Segment.bytes : Segment → List UInt8
  | .char c => String.utf8EncodeChar c
  | .invalid bytes => bytes

theorem tail_append_drop (n : Nat) (low high : UInt8) (bs : List UInt8) :
    tail n low high bs ++ bs.drop (tail n low high bs).length = bs := by
  induction bs generalizing n low high with
  | nil => cases n <;> simp [tail]
  | cons b bs ih =>
    cases n with
    | zero => simp
    | succ n =>
      rw [tail]
      split
      · simp [ih]
      · simp

theorem cons_of_length_tail {n : Nat} {low high : UInt8} {bs : List UInt8}
    (h : (tail (n + 1) low high bs).length = n + 1) :
    ∃ x bs', tail (n + 1) low high bs = x :: tail n 0x80 0xbf bs' ∧
      low.toNat ≤ x.toNat ∧ x.toNat ≤ high.toNat ∧ (tail n 0x80 0xbf bs').length = n := by
  cases bs with
  | nil => simp [tail] at h
  | cons b bs =>
    by_cases hb : low ≤ b ∧ b ≤ high
    · rw [tail, if_pos hb] at h
      exact ⟨b, bs, by rw [tail, if_pos hb], UInt8.le_iff_toNat_le.mp hb.1,
        UInt8.le_iff_toNat_le.mp hb.2, by simpa using h⟩
    · rw [tail, if_neg hb] at h
      simp at h

theorem toNat_val_ofNat {n : Nat} (h : n < 0xd800 ∨ (0xdfff < n ∧ n < 0x110000)) :
    (Char.ofNat n).val.toNat = n := by
  rw [Char.toNat_val, Char.toNat_ofNat, if_pos h]

theorem eq_ofNat {b : UInt8} {n : Nat} (h : b.toNat = n) : UInt8.ofNat n = b := by
  subst h
  simp

/-- What is read as a character is its bytes. -/
theorem utf8EncodeChar_scalar {b : UInt8} {lead : Lead} {bs : List UInt8}
    (hl : lead? b = some lead)
    (hn : (tail lead.tail lead.low lead.high bs).length = lead.tail) :
    String.utf8EncodeChar (scalar b (tail lead.tail lead.low lead.high bs)) =
      b :: tail lead.tail lead.low lead.high bs := by
  rcases leadByNumber b with ⟨h, hl'⟩ | ⟨h, h', hl'⟩ | ⟨h, h', hl'⟩ | ⟨h, h', hl'⟩ | ⟨-, hl'⟩
  · obtain rfl := Option.some.inj (hl.symm.trans hl')
    have hv := toNat_val_ofNat (n := b.toNat) (by omega)
    simp only [tail_zero, scalar, leadBits, List.foldl_nil, List.length_nil, String.utf8EncodeChar,
      hv]
    rw [if_pos (by omega), eq_ofNat rfl]
  · obtain rfl := Option.some.inj (hl.symm.trans hl')
    obtain ⟨x, bs', ht, hx, hx', -⟩ := cons_of_length_tail hn
    simp only [UInt8.reduceToNat] at hx hx'
    have hv := toNat_val_ofNat (n := 64 * (b.toNat % 32) + x.toNat % 64) (by omega)
    simp only [ht, tail_zero, scalar, leadBits, List.foldl_cons, List.foldl_nil, List.length_cons,
      List.length_nil, String.utf8EncodeChar, hv]
    rw [if_neg (by omega), if_pos (by omega), eq_ofNat (b := b) (by omega),
      eq_ofNat (b := x) (by omega)]
  · obtain rfl := Option.some.inj (hl.symm.trans hl')
    obtain ⟨x, bs', ht, hx, hx', hn⟩ := cons_of_length_tail hn
    obtain ⟨y, bs', ht', hy, hy', -⟩ := cons_of_length_tail hn
    simp only [toNat_ite, UInt8.reduceToNat] at hx hx' hy hy'
    have hxl : 0x80 ≤ x.toNat ∧ (b.toNat = 0xe0 → 0xa0 ≤ x.toNat) := by
      split at hx <;> omega
    have hxh : x.toNat < 0xc0 ∧ (b.toNat = 0xed → x.toNat < 0xa0) := by
      split at hx' <;> omega
    have hv := toNat_val_ofNat
      (n := 64 * (64 * (b.toNat % 16) + x.toNat % 64) + y.toNat % 64) (by omega)
    simp only [ht, ht', tail_zero, scalar, leadBits, List.foldl_cons, List.foldl_nil,
      List.length_cons, List.length_nil, String.utf8EncodeChar, hv]
    rw [if_neg (by omega), if_neg (by omega), if_pos (by omega), eq_ofNat (b := b) (by omega),
      eq_ofNat (b := x) (by omega), eq_ofNat (b := y) (by omega)]
  · obtain rfl := Option.some.inj (hl.symm.trans hl')
    obtain ⟨x, bs', ht, hx, hx', hn⟩ := cons_of_length_tail hn
    obtain ⟨y, bs', ht', hy, hy', hn⟩ := cons_of_length_tail hn
    obtain ⟨z, bs', ht'', hz, hz', -⟩ := cons_of_length_tail hn
    simp only [toNat_ite, UInt8.reduceToNat] at hx hx' hy hy' hz hz'
    have hxl : 0x80 ≤ x.toNat ∧ (b.toNat = 0xf0 → 0x90 ≤ x.toNat) := by
      split at hx <;> omega
    have hxh : x.toNat < 0xc0 ∧ (b.toNat = 0xf4 → x.toNat < 0x90) := by
      split at hx' <;> omega
    have hv := toNat_val_ofNat
      (n := 64 * (64 * (64 * (b.toNat % 8) + x.toNat % 64) + y.toNat % 64) + z.toNat % 64)
      (by omega)
    simp only [ht, ht', ht'', tail_zero, scalar, leadBits, List.foldl_cons, List.foldl_nil,
      List.length_cons, List.length_nil, String.utf8EncodeChar, hv]
    rw [if_neg (by omega), if_neg (by omega), if_neg (by omega), eq_ofNat (b := b) (by omega),
      eq_ofNat (b := x) (by omega), eq_ofNat (b := y) (by omega), eq_ofNat (b := z) (by omega)]
  · simp [hl'] at hl

theorem bytes_front (b : UInt8) (bs : List UInt8) :
    (front b bs).1.bytes ++ (front b bs).2 = b :: bs := by
  unfold front
  cases hl : lead? b with
  | none => rfl
  | some lead =>
    have ht := tail_append_drop lead.tail lead.low lead.high bs
    by_cases hn : (tail lead.tail lead.low lead.high bs).length = lead.tail
    · simp only [if_pos hn, Segment.bytes, utf8EncodeChar_scalar hl hn, List.cons_append, ht]
    · simp only [if_neg hn, Segment.bytes, List.cons_append, ht]

/-- No byte is lost among the segments. -/
theorem flatMap_bytes_segments (bytes : List UInt8) :
    (segments bytes).flatMap Segment.bytes = bytes := by
  suffices h : ∀ n (bytes : List UInt8), bytes.length ≤ n →
      (segments bytes).flatMap Segment.bytes = bytes from h bytes.length bytes le_rfl
  intro n
  induction n with
  | zero =>
    intro bytes h
    obtain rfl := List.length_eq_zero_iff.mp (Nat.le_zero.mp h)
    simp
  | succ n ih =>
    intro bytes h
    cases bytes with
    | nil => simp
    | cons b bs =>
      have hl := length_front_le b bs
      simp only [List.length_cons] at h
      rw [segments_cons, List.flatMap_cons, ih _ (by omega), bytes_front]

end Utf8

end QbScript
