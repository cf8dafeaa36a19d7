import Mathlib.Algebra.Group.Nat.Defs
import QbScript.Source.Reading
import QbScript.Text.Numeral

/-!
# Numerals read back

The digits of a number stand for it in their base, with zeros before them or without.
-/

set_option autoImplicit false

namespace QbScript

theorem digitValue_digitChar {n : Nat} (h : n < 16) : digitValue n.digitChar = n := by
  have hall : ∀ m : Fin 16, digitValue (m : Nat).digitChar = m := by decide
  exact hall ⟨n, h⟩

theorem isHexDigit_digitChar {n : Nat} (h : n < 16) : isHexDigit n.digitChar := by
  have hall : ∀ m : Fin 16, isHexDigit (m : Nat).digitChar := by decide
  exact hall ⟨n, h⟩

theorem isOctalDigit_digitChar {n : Nat} (h : n < 8) : isOctalDigit n.digitChar := by
  have hall : ∀ m : Fin 8, isOctalDigit (m : Nat).digitChar := by decide
  exact hall ⟨n, h⟩

theorem numberOfDigits_concat (base : Nat) (ds : List Char) (d : Char) :
    numberOfDigits base (ds ++ [d]) = base * numberOfDigits base ds + digitValue d := by
  simp [numberOfDigits]

theorem wordOfDigits_ofNat (base : Nat) (ds : List Char) :
    wordOfDigits (UInt32.ofNat base) ds = UInt32.ofNat (numberOfDigits base ds) := by
  show ds.foldl _ (UInt32.ofNat 0) = _
  apply List.foldl_hom
  intro n d
  rw [UInt32.ofNat_add, UInt32.ofNat_mul]

namespace Numeral

variable {base : Nat}

theorem numberOfDigits_toDigits (hb : 1 < base) (hb' : base ≤ 16) (n : Nat) :
    numberOfDigits base (Nat.toDigits base n) = n := by
  induction n using Nat.strongRecOn with
  | ind n ih =>
    rw [Nat.toDigits_eq_if hb]
    split
    · rename_i hlt
      simp [numberOfDigits, digitValue_digitChar (Nat.lt_of_lt_of_le hlt hb')]
    · rename_i hge
      have hlt : n / base < n := Nat.div_lt_self (by omega) hb
      have hmod : n % base < 16 := Nat.lt_of_lt_of_le (Nat.mod_lt n (by omega)) hb'
      rw [numberOfDigits_concat, ih _ hlt, digitValue_digitChar hmod, Nat.div_add_mod]

theorem exists_digitChar_of_mem (hb : 1 < base) {n : Nat} {c : Char}
    (h : c ∈ Nat.toDigits base n) : ∃ d, d < base ∧ c = d.digitChar := by
  induction n using Nat.strongRecOn with
  | ind n ih =>
    rw [Nat.toDigits_eq_if hb] at h
    split at h
    · rename_i hlt
      exact ⟨n, hlt, List.mem_singleton.mp h⟩
    · rename_i hge
      rcases List.mem_append.mp h with h | h
      · exact ih _ (Nat.div_lt_self (by omega) hb) h
      · exact ⟨n % base, Nat.mod_lt n (by omega), List.mem_singleton.mp h⟩

theorem isHexDigit_of_mem_toDigits {n : Nat} {c : Char} (h : c ∈ Nat.toDigits 16 n) :
    isHexDigit c := by
  obtain ⟨d, hd, rfl⟩ := exists_digitChar_of_mem (by omega) h
  exact isHexDigit_digitChar hd

theorem numberOfDigits_replicate_append (base width : Nat) (ds : List Char) :
    numberOfDigits base (List.replicate width '0' ++ ds) = numberOfDigits base ds := by
  induction width with
  | zero => rfl
  | succ width ih =>
    rw [List.replicate_succ, List.cons_append, ← ih]
    simp [numberOfDigits, digitValue]

theorem numberOfDigits_padded (hb : 1 < base) (hb' : base ≤ 16) (width n : Nat) :
    numberOfDigits base (padded base width n) = n := by
  rw [padded, numberOfDigits_replicate_append, numberOfDigits_toDigits hb hb']

theorem exists_digitChar_of_mem_padded (hb : 1 < base) {width n : Nat} {c : Char}
    (h : c ∈ padded base width n) : ∃ d, d < base ∧ c = d.digitChar := by
  rcases List.mem_append.mp h with h | h
  · obtain ⟨-, rfl⟩ := List.mem_replicate.mp h
    exact ⟨0, by omega, rfl⟩
  · exact exists_digitChar_of_mem hb h

theorem length_padded (hb : 1 < base) {width n : Nat} (hw : 0 < width) (h : n < base ^ width) :
    (padded base width n).length = width := by
  have hl := (Nat.length_toDigits_le_iff hb hw).mpr h
  rw [padded, List.length_append, List.length_replicate]
  omega

end Numeral

end QbScript
