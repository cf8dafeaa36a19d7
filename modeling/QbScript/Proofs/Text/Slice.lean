import QbScript.Proofs.Text.Utf8

/-!
# Slices of a text

A text is cut at offsets of its bytes, and only between characters. The bytes of a character are one
below `0x80`, or several from there on, of which only the first is `0xc0` or more.
-/

set_option autoImplicit false

namespace QbScript

namespace Utf8

def isBoundary (bytes : List UInt8) (pos : Nat) : Bool :=
  pos = 0 ∨ pos = bytes.length ∨ bytes[pos]?.any fun b => b < 0x80 ∨ 0xc0 ≤ b

def slice? (bytes : List UInt8) (start stop : Nat) : Option String :=
  if start ≤ stop ∧ isBoundary bytes start ∧ isBoundary bytes stop then
    decode? (bytes.extract start stop)
  else none

@[simp] theorem encode_nil : encode [] = [] := rfl

@[simp] theorem encode_cons (c : Char) (cs : List Char) :
    encode (c :: cs) = String.utf8EncodeChar c ++ encode cs := rfl

@[simp] theorem encode_append (cs ds : List Char) : encode (cs ++ ds) = encode cs ++ encode ds :=
  List.flatMap_append

@[simp] theorem size_nil : size [] = 0 := rfl

@[simp] theorem size_cons (c : Char) (cs : List Char) : size (c :: cs) = c.utf8Size + size cs := rfl

@[simp] theorem length_encode (cs : List Char) : (encode cs).length = size cs := by
  induction cs with
  | nil => rfl
  | cons c cs ih => simp [ih]

@[simp] theorem size_append (cs ds : List Char) : size (cs ++ ds) = size cs + size ds := by
  rw [← length_encode, encode_append, List.length_append, length_encode, length_encode]

theorem length_le_size (cs : List Char) : cs.length ≤ size cs := by
  induction cs with
  | nil => exact le_rfl
  | cons c cs ih =>
    have := c.utf8Size_pos
    simp only [List.length_cons, size_cons]
    omega

theorem decode?_encode (cs : List Char) : decode? (encode cs) = some (String.ofList cs) := by
  have h : (cs.map Segment.char).mapM Segment.char? = some cs := by
    induction cs with
    | nil => rfl
    | cons c cs ih => rw [List.map_cons, List.mapM_cons, ih]; rfl
  rw [decode?, segments_encode, h]
  rfl

theorem encode_injective {cs ds : List Char} (h : encode cs = encode ds) : cs = ds := by
  have hs := congrArg String.toList (Option.some.inj
    ((decode?_encode cs).symm.trans ((congrArg decode? h).trans (decode?_encode ds))))
  simpa using hs

/-- The first byte of a character continues none. -/
theorem exists_utf8EncodeChar (c : Char) :
    ∃ b bs, String.utf8EncodeChar c = b :: bs ∧ (b < 0x80 ∨ 0xc0 ≤ b) := by
  have hv : c.val.toNat < 0xd800 ∨ (0xdfff < c.val.toNat ∧ c.val.toNat < 0x110000) := c.valid
  generalize hn : c.val.toNat = n at hv
  simp only [String.utf8EncodeChar, hn]
  split
  · refine ⟨_, _, rfl, Or.inl (UInt8.lt_iff_toNat_lt.mpr ?_)⟩
    rw [toNat_ofNat_of_lt (by omega)]
    exact Nat.lt_succ_of_le ‹_›
  split
  · refine ⟨_, _, rfl, Or.inr (UInt8.le_iff_toNat_le.mpr ?_)⟩
    rw [toNat_ofNat_of_lt (by omega)]
    exact Nat.le_add_left _ _
  split
  · refine ⟨_, _, rfl, Or.inr (UInt8.le_iff_toNat_le.mpr ?_)⟩
    rw [toNat_ofNat_of_lt (by omega)]
    exact le_trans (by decide) (Nat.le_add_left 0xe0 _)
  · refine ⟨_, _, rfl, Or.inr (UInt8.le_iff_toNat_le.mpr ?_)⟩
    rw [toNat_ofNat_of_lt (by omega)]
    exact le_trans (by decide) (Nat.le_add_left 0xf0 _)

theorem isBoundary_encode_append (cs ds : List Char) :
    isBoundary (encode (cs ++ ds)) (size cs) := by
  cases ds with
  | nil => simp [isBoundary]
  | cons d ds =>
    obtain ⟨b, bs, hd, hb⟩ := exists_utf8EncodeChar d
    have hget : (encode (cs ++ d :: ds))[size cs]? = some b := by
      rw [encode_append, List.getElem?_append_right (by simp)]
      simp [hd]
    rw [isBoundary, hget]
    simp [hb]

theorem extract_encode (cs w ds : List Char) :
    (encode (cs ++ (w ++ ds))).extract (size cs) (size cs + size w) = encode w := by
  rw [List.extract_eq_take_drop, Nat.add_sub_cancel_left, encode_append, encode_append,
    ← length_encode cs, List.drop_left, ← length_encode w, List.take_left]

/-- Between the offsets of a part of a text stands this part. -/
theorem slice?_encode (cs w ds : List Char) :
    slice? (encode (cs ++ (w ++ ds))) (size cs) (size cs + size w) = some (String.ofList w) := by
  have hstart := isBoundary_encode_append cs (w ++ ds)
  have hstop := isBoundary_encode_append (cs ++ w) ds
  rw [List.append_assoc, size_append] at hstop
  rw [slice?, if_pos ⟨Nat.le_add_right _ _, hstart, hstop⟩, extract_encode, decode?_encode]

theorem le_length_of_isBoundary {bytes : List UInt8} {pos : Nat} (h : isBoundary bytes pos) :
    pos ≤ bytes.length := by
  simp only [isBoundary, Option.any_eq_true, decide_eq_true_eq] at h
  rcases h with rfl | rfl | ⟨b, hb, -⟩
  · exact Nat.zero_le _
  · exact le_rfl
  · exact (List.getElem?_eq_some_iff.mp hb).1.le

theorem le_of_slice?_eq_some {bytes : List UInt8} {start stop : Nat} {s : String}
    (h : slice? bytes start stop = some s) : start ≤ stop ∧ stop ≤ bytes.length := by
  unfold slice? at h
  split at h
  · rename_i hs
    exact ⟨hs.1, le_length_of_isBoundary hs.2.2⟩
  · cases h

end Utf8

end QbScript
