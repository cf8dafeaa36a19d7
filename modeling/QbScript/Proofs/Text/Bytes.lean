import QbScript.Proofs.Text.Slice

/-!
# Characters among bytes

A byte below `0x80` is a character of its own, and no other character has such a byte. So what is
looked for among the bytes of a text, as long as it is no other character, is found where it stands
in the text.
-/

set_option autoImplicit false

namespace QbScript

namespace Utf8

def byteChar (b : UInt8) : Char := Char.ofNat b.toNat

/-- The property does not tell characters of several bytes apart. -/
def IsUniform (p : Char → Bool) : Prop := ∀ c d, 0x80 ≤ c.toNat → 0x80 ≤ d.toNat → p c = p d

theorem toNat_byteChar (b : UInt8) : (byteChar b).toNat = b.toNat := by
  have := b.toNat_lt
  exact toNat_val_ofNat (by omega)

theorem utf8EncodeChar_of_lt {c : Char} (h : c.toNat < 0x80) :
    String.utf8EncodeChar c = [UInt8.ofNat c.toNat] := by
  have hc : c.val.toNat ≤ 127 := Nat.le_of_lt_succ h
  simp only [String.utf8EncodeChar, if_pos hc]
  rfl

theorem utf8Size_of_lt {c : Char} (h : c.toNat < 0x80) : c.utf8Size = 1 := by
  rw [← String.length_utf8EncodeChar, utf8EncodeChar_of_lt h]
  rfl

theorem encode_cons_of_lt {c : Char} (h : c.toNat < 0x80) (cs : List Char) :
    encode (c :: cs) = UInt8.ofNat c.toNat :: encode cs := by
  rw [encode_cons, utf8EncodeChar_of_lt h, List.singleton_append]

theorem byteChar_ofNat {c : Char} (h : c.toNat < 0x80) : byteChar (UInt8.ofNat c.toNat) = c := by
  rw [byteChar, toNat_ofNat_of_lt (by omega)]
  exact Char.ofNat_toNat c

/-- A character of several bytes has none below `0x80`. -/
theorem le_of_mem_utf8EncodeChar {c : Char} (h : 0x80 ≤ c.toNat) {b : UInt8}
    (hb : b ∈ String.utf8EncodeChar c) : 0x80 ≤ b.toNat := by
  have hv : c.val.toNat < 0xd800 ∨ (0xdfff < c.val.toNat ∧ c.val.toNat < 0x110000) := c.valid
  have hc : 0x80 ≤ c.val.toNat := h
  generalize hn : c.val.toNat = n at hv hc
  have hmem : ∀ m, 0x80 ≤ m → m < 256 → 0x80 ≤ (UInt8.ofNat m).toNat := fun m hm hm' => by
    rwa [toNat_ofNat_of_lt hm']
  simp only [String.utf8EncodeChar, hn, if_neg (show ¬ n ≤ 127 by omega)] at hb
  split at hb
  · simp only [List.mem_cons, List.not_mem_nil, or_false] at hb
    rcases hb with rfl | rfl <;> exact hmem _ (by omega) (by omega)
  split at hb
  · simp only [List.mem_cons, List.not_mem_nil, or_false] at hb
    rcases hb with rfl | rfl | rfl <;> exact hmem _ (by omega) (by omega)
  · simp only [List.mem_cons, List.not_mem_nil, or_false] at hb
    rcases hb with rfl | rfl | rfl | rfl <;> exact hmem _ (by omega) (by omega)

/-- A byte of a character is the character, or both are no characters of one byte. -/
theorem eq_or_le_of_mem_utf8EncodeChar {c : Char} {b : UInt8} (hb : b ∈ String.utf8EncodeChar c) :
    c.toNat < 0x80 ∧ byteChar b = c ∨ 0x80 ≤ c.toNat ∧ 0x80 ≤ (byteChar b).toNat := by
  rcases Nat.lt_or_ge c.toNat 0x80 with hc | hc
  · rw [utf8EncodeChar_of_lt hc, List.mem_singleton] at hb
    exact Or.inl ⟨hc, hb ▸ byteChar_ofNat hc⟩
  · rw [toNat_byteChar]
    exact Or.inr ⟨hc, le_of_mem_utf8EncodeChar hc hb⟩

theorem size_of_lt {cs : List Char} (h : ∀ c ∈ cs, c.toNat < 0x80) : size cs = cs.length := by
  induction cs with
  | nil => rfl
  | cons c cs ih =>
    rw [size_cons, ih fun d hd => h d (List.mem_cons_of_mem c hd),
      utf8Size_of_lt (h c List.mem_cons_self), List.length_cons, Nat.add_comm]

theorem map_byteChar_encode {cs : List Char} (h : ∀ c ∈ cs, c.toNat < 0x80) :
    (encode cs).map byteChar = cs := by
  induction cs with
  | nil => rfl
  | cons c cs ih =>
    have hc := h c List.mem_cons_self
    rw [encode_cons, utf8EncodeChar_of_lt hc, List.singleton_append, List.map_cons,
      byteChar_ofNat hc, ih fun d hd => h d (List.mem_cons_of_mem c hd)]

/-- A property that is the same for all bytes of a character holds of a front of a text. -/
theorem takeWhile_encode {p : Char → Bool} (hp : IsUniform p) (cs : List Char) :
    (encode cs).takeWhile (fun b => p (byteChar b)) = encode (cs.takeWhile p) := by
  induction cs with
  | nil => rfl
  | cons c cs ih =>
    have hall : ∀ b ∈ String.utf8EncodeChar c, p (byteChar b) = p c := by
      intro b hb
      rcases eq_or_le_of_mem_utf8EncodeChar hb with ⟨-, hc⟩ | ⟨hc, hb⟩
      · rw [hc]
      · exact hp _ _ hb hc
    cases hpc : p c with
    | true =>
      rw [encode_cons, List.takeWhile_append_of_pos fun b hb => by rw [hall b hb, hpc], ih,
        List.takeWhile_cons_of_pos hpc, encode_cons]
    | false =>
      obtain ⟨b, bs, he, -⟩ := exists_utf8EncodeChar c
      have hb := hall b (by rw [he]; exact List.mem_cons_self)
      rw [encode_cons, he, List.cons_append, List.takeWhile_cons_of_neg (by rw [hb, hpc]; simp),
        List.takeWhile_cons_of_neg (by rw [hpc]; simp), encode_nil]

theorem isUniform_of_lt {p : Char → Bool} (h : ∀ c, p c → c.toNat < 0x80) : IsUniform p := by
  have hfalse : ∀ c : Char, 0x80 ≤ c.toNat → p c = false := fun c hc =>
    Bool.eq_false_iff.mpr fun hp => absurd (h c hp) (Nat.not_lt.mpr hc)
  intro c d hc hd
  rw [hfalse c hc, hfalse d hd]

theorem isUniform_of_not_lt {p : Char → Bool} (h : ∀ c, ¬ p c → c.toNat < 0x80) : IsUniform p := by
  have htrue : ∀ c : Char, 0x80 ≤ c.toNat → p c = true := fun c hc =>
    Decidable.not_not.mp fun hp => absurd (h c hp) (Nat.not_lt.mpr hc)
  intro c d hc hd
  rw [htrue c hc, htrue d hd]

end Utf8

end QbScript
