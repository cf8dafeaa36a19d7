import QbScript.LittleEndian
import QbScript.Proofs.NameTable

/-!
# Names that differ in a few places

The register of the checksum is linear over the field of two elements, and no step of it loses
anything: the generator has the one bit that a shift makes free. So whatever the names have in
common in front of a difference, and whatever they have in common after it, the checksums differ as
much as the differing bytes do by themselves. Up to four bytes fill the register and no more, hence
they are never taken for other four bytes.
-/

set_option autoImplicit false

namespace QbScript

theorem LittleEndian.bound_le_bound {m n : Nat} (h : m ≤ n) : bound m ≤ bound n := by
  induction h with
  | refl => exact Nat.le_refl _
  | step _ ih =>
    rw [bound]
    omega

namespace Checksum

variable {v w : UInt32} {n : Nat} {bs x y : List UInt8}

theorem and_one_eq_zero_iff (v : UInt32) : v &&& 1 = 0 ↔ v.toNat % 2 = 0 := by
  rw [← UInt32.toNat_inj, UInt32.toNat_and]
  simp [Nat.and_one_is_mod]

theorem toNat_shiftRight_one (v : UInt32) : (v >>> 1).toNat = v.toNat / 2 := by
  simp [UInt32.toNat_shiftRight, Nat.shiftRight_eq_div_pow]

theorem shift_of_even (h : v.toNat % 2 = 0) : shift v = v >>> 1 := by
  rw [shift, if_pos ((and_one_eq_zero_iff v).mpr h)]

theorem shift_of_odd (h : v.toNat % 2 = 1) : shift v = (v >>> 1) ^^^ generator := by
  rw [shift, if_neg]
  rw [and_one_eq_zero_iff]
  omega

theorem xor_generator_twice (v w : UInt32) : (v ^^^ generator) ^^^ (w ^^^ generator) = v ^^^ w := by
  rw [UInt32.xor_comm w, UInt32.xor_assoc, ← UInt32.xor_assoc generator, UInt32.xor_self,
    UInt32.zero_xor]

theorem shift_xor (v w : UInt32) : shift (v ^^^ w) = shift v ^^^ shift w := by
  have hbit : (v ^^^ w).toNat % 2 = (v.toNat % 2) ^^^ (w.toNat % 2) := by
    rw [UInt32.toNat_xor]
    exact Nat.xor_mod_two_pow (n := 1)
  rcases Nat.mod_two_eq_zero_or_one v.toNat with hv | hv <;>
    rcases Nat.mod_two_eq_zero_or_one w.toNat with hw | hw <;>
    rw [hv, hw] at hbit
  · rw [shift_of_even hbit, shift_of_even hv, shift_of_even hw, UInt32.shiftRight_xor]
  · rw [shift_of_odd hbit, shift_of_even hv, shift_of_odd hw, UInt32.shiftRight_xor,
      UInt32.xor_assoc]
  · rw [shift_of_odd hbit, shift_of_odd hv, shift_of_even hw, UInt32.shiftRight_xor,
      UInt32.xor_assoc, UInt32.xor_assoc, UInt32.xor_comm generator]
  · rw [shift_of_even hbit, shift_of_odd hv, shift_of_odd hw, UInt32.shiftRight_xor,
      xor_generator_twice]

/-- An odd register gets the highest bit of the generator, which no shifted register has. -/
theorem eq_zero_of_shift_eq_zero (h : shift v = 0) : v = 0 := by
  have hlt := v.toNat_lt
  rcases Nat.mod_two_eq_zero_or_one v.toNat with hv | hv
  · rw [shift_of_even hv] at h
    have hhalf : v.toNat / 2 = 0 := by rw [← toNat_shiftRight_one, h, UInt32.toNat_zero]
    apply UInt32.toNat_inj.mp
    rw [UInt32.toNat_zero]
    omega
  · rw [shift_of_odd hv, UInt32.xor_eq_zero_iff] at h
    have hhalf : v.toNat / 2 = generator.toNat := by rw [← toNat_shiftRight_one, h]
    have hgenerator : generator.toNat = 0xEDB88320 := rfl
    omega

theorem shiftBy_xor (n : Nat) (v w : UInt32) :
    shiftBy n (v ^^^ w) = shiftBy n v ^^^ shiftBy n w := by
  induction n generalizing v w with
  | zero => rfl
  | succ n ih => rw [shiftBy, shift_xor, ih, shiftBy, shiftBy]

theorem eq_zero_of_shiftBy_eq_zero (h : shiftBy n v = 0) : v = 0 := by
  induction n generalizing v with
  | zero => exact h
  | succ n ih => exact eq_zero_of_shift_eq_zero (ih h)

theorem shiftBy_injective (n : Nat) : Function.Injective (shiftBy n) := by
  intro v w h
  apply UInt32.xor_eq_zero_iff.mp
  apply eq_zero_of_shiftBy_eq_zero (n := n)
  rw [shiftBy_xor, h, UInt32.xor_self]

theorem update_xor (v w : UInt32) (b : UInt8) :
    update (v ^^^ w) b = shiftBy 8 v ^^^ update w b := by
  rw [update, update, UInt32.xor_assoc, shiftBy_xor]

/-- A difference between two registers goes through the bytes that follow by itself. -/
theorem foldl_update_xor (v w : UInt32) (bs : List UInt8) :
    bs.foldl update (v ^^^ w) = shiftBy (8 * bs.length) v ^^^ bs.foldl update w := by
  induction bs generalizing v w with
  | nil => rfl
  | cons b bs ih =>
    have hlength : 8 * (b :: bs).length = 8 + 8 * bs.length := by
      rw [List.length_cons]
      omega
    rw [List.foldl_cons, List.foldl_cons, update_xor, ih, hlength, shiftBy_add]

theorem foldl_update_eq (v : UInt32) (bs : List UInt8) :
    bs.foldl update v = shiftBy (8 * bs.length) v ^^^ bs.foldl update 0 := by
  rw [← foldl_update_xor, UInt32.xor_zero]

theorem foldl_update_injective (bs : List UInt8) :
    Function.Injective fun v => bs.foldl update v := by
  intro v w h
  apply shiftBy_injective (8 * bs.length)
  simp only at h
  rw [foldl_update_eq v, foldl_update_eq w] at h
  exact (UInt32.xor_left_inj _).mp h

/-- Shifting drops a zero, as long as the number does not use up the register. -/
theorem shift_ofNat_double {n : Nat} (h : 2 * n < 4294967296) :
    shift (UInt32.ofNat (2 * n)) = UInt32.ofNat n := by
  have hn : (UInt32.ofNat (2 * n)).toNat = 2 * n := by
    rw [UInt32.toNat_ofNat']
    exact Nat.mod_eq_of_lt h
  rw [shift_of_even (by omega)]
  apply UInt32.toNat_inj.mp
  rw [toNat_shiftRight_one, hn, UInt32.toNat_ofNat']
  omega

theorem shiftBy_ofNat {k n : Nat} (h : 2 ^ k * n < 4294967296) :
    shiftBy k (UInt32.ofNat (2 ^ k * n)) = UInt32.ofNat n := by
  induction k with
  | zero => rw [pow_zero, one_mul, shiftBy]
  | succ k ih =>
    rw [pow_succ', mul_assoc] at h ⊢
    rw [shiftBy, shift_ofNat_double h]
    apply ih
    omega

/-- The least byte of a number is added to the others without a carry. -/
theorem ofNat_add_mul (b : UInt8) (n : Nat) :
    UInt32.ofNat (b.toNat + 256 * n) = b.toUInt32 ^^^ UInt32.ofNat (256 * n) := by
  have hb : UInt32.ofNat b.toNat = b.toUInt32 := by
    apply UInt32.toNat_inj.mp
    simp
  rw [← hb, ← UInt32.ofNat_xor]
  congr 1
  apply Nat.eq_of_testBit_eq
  intro i
  have hlt : b.toNat < 2 ^ 8 := b.toNat_lt
  have hadd := Nat.testBit_two_pow_mul_add n hlt i
  have hmul := Nat.testBit_two_pow_mul_add n (Nat.two_pow_pos 8) i
  rw [Nat.add_comm, Nat.testBit_xor]
  simp only [Nat.add_zero, Nat.zero_testBit] at hmul
  rw [show 256 = 2 ^ 8 from rfl, hadd, hmul]
  split
  · rw [Bool.xor_false]
  · rename_i hi
    have hclear : b.toNat.testBit i = false := by
      apply Nat.testBit_lt_two_pow
      calc b.toNat < 2 ^ 8 := hlt
        _ ≤ 2 ^ i := Nat.pow_le_pow_right (by decide) (by omega)
    rw [hclear, Bool.false_xor]

/-- In front of a difference the register is empty, and up to four bytes fill it without a
reduction: they are the number they stand for. -/
theorem foldl_update_zero (h : bs.length ≤ 4) :
    bs.foldl update 0 = shiftBy (8 * bs.length) (LittleEndian.toWord32 bs) := by
  induction bs with
  | nil => rfl
  | cons b bs ih =>
    rw [List.length_cons] at h
    have hfit : 256 * LittleEndian.toNat bs < 4294967296 := by
      have hb := LittleEndian.toNat_lt_bound bs
      have hle : LittleEndian.bound bs.length ≤ 16777216 :=
        LittleEndian.bound_le_bound (n := 3) (by omega)
      omega
    have hrest : shiftBy 8 (UInt32.ofNat (256 * LittleEndian.toNat bs)) =
        LittleEndian.toWord32 bs := shiftBy_ofNat (k := 8) hfit
    have hlength : 8 * (b :: bs).length = 8 + 8 * bs.length := by
      rw [List.length_cons]
      omega
    calc (b :: bs).foldl update 0
        = shiftBy (8 * bs.length) (shiftBy 8 b.toUInt32) ^^^ bs.foldl update 0 := by
          rw [List.foldl_cons, foldl_update_eq, update, UInt32.zero_xor]
      _ = shiftBy (8 * bs.length) (shiftBy 8 b.toUInt32 ^^^ LittleEndian.toWord32 bs) := by
          rw [ih (by omega), shiftBy_xor]
      _ = shiftBy (8 * (b :: bs).length)
            (b.toUInt32 ^^^ UInt32.ofNat (256 * LittleEndian.toNat bs)) := by
          rw [hlength, shiftBy_add, shiftBy_xor 8, hrest]
      _ = shiftBy (8 * (b :: bs).length) (LittleEndian.toWord32 (b :: bs)) := by
          rw [← ofNat_add_mul, LittleEndian.toWord32, LittleEndian.toNat.eq_2]

theorem foldl_update_zero_inj (hx : x.length ≤ 4) (hxy : x.length = y.length)
    (h : x.foldl update 0 = y.foldl update 0) : x = y := by
  rw [foldl_update_zero hx, foldl_update_zero (hxy ▸ hx), hxy] at h
  have hword := shiftBy_injective _ h
  have hfit {z : List UInt8} (hz : z.length ≤ 4) :
      (LittleEndian.toWord32 z).toNat = LittleEndian.toNat z := by
    rw [LittleEndian.toWord32, UInt32.toNat_ofNat']
    apply Nat.mod_eq_of_lt
    have hb := LittleEndian.toNat_lt_bound z
    have hle : LittleEndian.bound z.length ≤ 4294967296 :=
      LittleEndian.bound_le_bound (n := 4) hz
    exact Nat.lt_of_lt_of_le hb hle
  rw [← LittleEndian.ofNat_toNat x, ← LittleEndian.ofNat_toNat y, ← hfit hx,
    ← hfit (hxy ▸ hx), hword, hxy]

/-- Up to four bytes in the same surroundings are told apart by the checksum. -/
theorem ofBytes_surrounded_inj (front tail : List UInt8) (hx : x.length ≤ 4)
    (hxy : x.length = y.length) (h : ofBytes (front ++ x ++ tail) = ofBytes (front ++ y ++ tail)) :
    x = y := by
  rw [ofBytes_append, ofBytes_append, ofBytes_append, ofBytes_append] at h
  have hmiddle := foldl_update_injective tail h
  rw [foldl_update_eq _ x, foldl_update_eq _ y, hxy] at hmiddle
  exact foldl_update_zero_inj hx hxy ((UInt32.xor_right_inj _).mp hmiddle)

/-- What is the same outside of four places stands in front of them and after them. -/
theorem exists_of_eq_outside {k : Nat}
    (h : ∀ i, i < k ∨ k + 4 ≤ i → x[i]? = y[i]?) :
    ∃ front tail,
      x = front ++ (x.drop k).take 4 ++ tail ∧ y = front ++ (y.drop k).take 4 ++ tail := by
  have hfront : x.take k = y.take k := by
    apply List.ext_getElem?
    intro i
    rw [List.getElem?_take, List.getElem?_take]
    split
    · rename_i hi
      exact h i (Or.inl hi)
    · rfl
  have htail : (x.drop k).drop 4 = (y.drop k).drop 4 := by
    apply List.ext_getElem?
    intro i
    rw [List.drop_drop, List.drop_drop, List.getElem?_drop, List.getElem?_drop]
    exact h _ (Or.inr (by omega))
  refine ⟨x.take k, (x.drop k).drop 4, ?_, ?_⟩
  · rw [List.append_assoc, List.take_append_drop, List.take_append_drop]
  · rw [hfront, htail, List.append_assoc, List.take_append_drop, List.take_append_drop]

theorem length_normalize (name : String) :
    (normalize name).length = (Utf8.ofString name).length := by
  rw [normalize, List.length_map]

theorem normalize_append (a b : String) : normalize (a ++ b) = normalize a ++ normalize b := by
  simp [normalize, Utf8.ofString, Utf8.encode]

theorem normalize_eq_of_ofName_eq {a b : String} {k : Nat}
    (hlength : (Utf8.ofString a).length = (Utf8.ofString b).length)
    (houtside : ∀ i, i < k ∨ k + 4 ≤ i → (normalize a)[i]? = (normalize b)[i]?)
    (h : ofName a = ofName b) : normalize a = normalize b := by
  rw [← length_normalize, ← length_normalize] at hlength
  obtain ⟨front, tail, ha, hb⟩ := exists_of_eq_outside houtside
  have hmiddle : ((normalize a).drop k).take 4 = ((normalize b).drop k).take 4 := by
    apply ofBytes_surrounded_inj front tail (List.length_take_le 4 _)
    · rw [List.length_take, List.length_take, List.length_drop, List.length_drop, hlength]
    · rw [← ha, ← hb]
      exact h
  rw [ha, hb, hmiddle]

/-- Variants of one name, with the same bytes in front of at most four of their own and after
them, either are one name or have checksums of their own. -/
theorem normalize_eq_of_variants {stem tail v w : String}
    (hv : (Utf8.ofString v).length ≤ 4)
    (hvw : (Utf8.ofString v).length = (Utf8.ofString w).length)
    (h : ofName (stem ++ v ++ tail) = ofName (stem ++ w ++ tail)) :
    normalize (stem ++ v ++ tail) = normalize (stem ++ w ++ tail) := by
  simp only [ofName, normalize_append] at h ⊢
  rw [← length_normalize] at hv
  rw [← length_normalize, ← length_normalize] at hvw
  rw [ofBytes_surrounded_inj _ _ hv hvw h]

end Checksum

open Checksum

/-- The checksum tells names of one length apart when they differ in no more than four neighbouring
bytes, and so no table refuses one of the variants of a name that are up to four bytes wide. -/
theorem similar_names_never_collide :
    (∀ (a b : String) (k : Nat), (Utf8.ofString a).length = (Utf8.ofString b).length →
      normalize a ≠ normalize b →
      (∀ i, i < k ∨ k + 4 ≤ i → (normalize a)[i]? = (normalize b)[i]?) →
      ofName a ≠ ofName b) ∧
    ∀ (stem tail : String) (width : Nat) (variants : List String), width ≤ 4 →
      (∀ v ∈ variants, (Utf8.ofString v).length = width) →
      ¬ NameTable.RefusesOne (variants.map fun v => .own (stem ++ v ++ tail)) := by
  constructor
  · intro a b k hlength hne houtside h
    exact hne (normalize_eq_of_ofName_eq hlength houtside h)
  · intro stem tail width variants hwidth hvariants hrefuses
    obtain ⟨r, hr, s, hs, hchecksum, hne⟩ := NameTable.refusesOne_iff.mp hrefuses
    obtain ⟨v, hv, rfl⟩ := List.mem_map.mp hr
    obtain ⟨w, hw, rfl⟩ := List.mem_map.mp hs
    apply hne
    apply normalize_eq_of_variants
    · rw [hvariants v hv]
      exact hwidth
    · rw [hvariants v hv, hvariants w hw]
    · exact hchecksum

/-- Two numbered names of one stem, in the middle of which the numbers stand. -/
theorem numbered_names_never_collide :
    ofName "Path_07_Spline" ≠ ofName "path_12_spline" ∧
    ¬ NameTable.RefusesOne
      (["0007", "0012", "Z2/x"].map fun v => .own ("Path_" ++ v ++ "_Spline")) := by
  constructor
  · apply similar_names_never_collide.1 _ _ 5
    · decide
    · decide
    · rintro i (hi | hi)
      · interval_cases i <;> decide
      · obtain ⟨j, rfl⟩ := Nat.exists_eq_add_of_le hi
        have htail : (normalize "Path_07_Spline").drop (5 + 4) =
            (normalize "path_12_spline").drop (5 + 4) := by decide
        rw [← List.getElem?_drop, ← List.getElem?_drop, htail]
  · apply similar_names_never_collide.2 _ _ 4 _ (by decide)
    decide

end QbScript
