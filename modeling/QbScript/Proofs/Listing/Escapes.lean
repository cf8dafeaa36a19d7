import QbScript.Proofs.Bytecode.Reading
import QbScript.Proofs.Listing.Names
import QbScript.Proofs.Source.Strings

/-!
# Strings survive

Bytes are listed as a text that stays on its line and between its quotes, however they are cut into
characters and escapes. The text is read as one string of the same bytes, and so are the bytes that
this string is written as, with zeros in them and after them.
-/

set_option autoImplicit false

namespace QbScript

namespace Literal

def endsOpen (cs : List Char) : Bool := cs.foldl (fun taken c => !taken && c = '\\') false

/-- A quote stands in the text that no backslash takes with it. -/
def HasBareQuote (cs : List Char) : Prop := ∃ u v, cs = u ++ '"' :: v ∧ endsOpen u = false

/-- The text does not end a line or a string, and takes nothing of what comes after it. -/
structure IsSealed (cs : List Char) : Prop where
  newline_notMem : '\n' ∉ cs
  bareQuote : ¬ HasBareQuote cs
  endsOpen_eq : endsOpen cs = false

variable {cs ds : List Char} {c : Char}

theorem endsOpen_append (h : endsOpen cs = false) (ds : List Char) :
    endsOpen (cs ++ ds) = endsOpen ds := by
  rw [endsOpen, List.foldl_append]
  rw [endsOpen] at h
  rw [h, endsOpen]

theorem isSealed_nil : IsSealed [] := by
  refine ⟨List.not_mem_nil, ?_, rfl⟩
  rintro ⟨u, v, h, -⟩
  simp at h

theorem IsSealed.append (hc : IsSealed cs) (hd : IsSealed ds) : IsSealed (cs ++ ds) := by
  refine ⟨?_, ?_, ?_⟩
  · intro h
    rcases List.mem_append.mp h with h | h
    · exact hc.newline_notMem h
    · exact hd.newline_notMem h
  · rintro ⟨u, v, h, hu⟩
    rcases List.append_eq_append_iff.mp h with ⟨w, rfl, hw⟩ | ⟨w, hw, hv⟩
    · -- The quote stands in the second text, and the first one takes nothing of it.
      rw [endsOpen_append hc.endsOpen_eq] at hu
      exact hd.bareQuote ⟨w, v, hw, hu⟩
    · cases w with
      | nil =>
        rw [List.append_nil] at hw
        rw [List.nil_append] at hv
        exact hd.bareQuote ⟨[], v, hv.symm, rfl⟩
      | cons q w =>
        obtain ⟨rfl, -⟩ := List.cons.inj hv
        exact hc.bareQuote ⟨u, w, hw, hu⟩
  · rw [endsOpen_append hc.endsOpen_eq]
    exact hd.endsOpen_eq

theorem isSealed_flatMap {α : Type} {f : α → List Char} {as : List α}
    (h : ∀ a ∈ as, IsSealed (f a)) : IsSealed (as.flatMap f) := by
  induction as with
  | nil => exact isSealed_nil
  | cons a as ih =>
    rw [List.flatMap_cons]
    apply (h a List.mem_cons_self).append
    exact ih fun b hb => h b (List.mem_cons_of_mem a hb)

/-- A backslash, and the character that it takes. -/
theorem isSealed_mark (h : c ≠ '\n') : IsSealed ['\\', c] := by
  refine ⟨?_, ?_, rfl⟩
  · simpa using h.symm
  · rintro ⟨u, v, hcs, hu⟩
    match u with
    | [] => cases hcs
    | [d] =>
      obtain ⟨rfl, -⟩ := List.cons.inj hcs
      cases hu
    | d :: e :: u => simp at hcs

theorem isSealed_char (h1 : c ≠ '\\') (h2 : c ≠ '"') (h3 : c ≠ '\n') : IsSealed [c] := by
  refine ⟨?_, ?_, ?_⟩
  · simpa using h3.symm
  · rintro ⟨u, v, hcs, -⟩
    have hq : '"' ∈ [c] := hcs ▸ List.mem_append_right u List.mem_cons_self
    exact h2 (List.mem_singleton.mp hq).symm
  · simpa [endsOpen] using h1

theorem isSealed_octal {n : Nat} (h : n < 256) : IsSealed (octal n) := by
  have hplain {d : Char} (hd : isOctalDigit d) : d ≠ '\\' ∧ d ≠ '"' ∧ d ≠ '\n' := by
    refine ⟨?_, ?_, ?_⟩
    all_goals rintro rfl; revert hd; decide
  have hdigit {d : Char} (hd : isOctalDigit d) : IsSealed [d] :=
    isSealed_char (hplain hd).1 (hplain hd).2.1 (hplain hd).2.2
  obtain ⟨e, d₁, d₂, ho, -, he, h₁, h₂, -⟩ := exists_octal h
  rw [ho]
  exact (isSealed_mark (hplain he).2.2).append ((hdigit h₁).append (hdigit h₂))

theorem isSealed_escapeChar (c : Char) : IsSealed (escapeChar c) := by
  unfold escapeChar
  split
  any_goals exact isSealed_mark (by decide)
  rename_i h1 h2 _ _ _ h3 _ _ _
  split
  · rename_i hc
    apply isSealed_octal
    simp only [Bool.or_eq_true, decide_eq_true_eq] at hc
    omega
  · exact isSealed_char h1 h2 h3

theorem isSealed_escapeText (bytes : List UInt8) : IsSealed (escapeText bytes).toList := by
  rw [escapeText, String.toList_ofList]
  apply isSealed_flatMap
  intro segment _
  cases segment with
  | char c => exact isSealed_escapeChar c
  | invalid bs => exact isSealed_flatMap fun b _ => isSealed_octal b.toNat_lt

end Literal

theorem Utf8.newline_mem_ofString_iff (s : String) : 0x0a ∈ ofString s ↔ '\n' ∈ s.toList := by
  rw [ofString, encode, List.mem_flatMap]
  constructor
  · rintro ⟨c, hc, hb⟩
    rcases eq_or_le_of_mem_utf8EncodeChar hb with ⟨-, rfl⟩ | ⟨-, hle⟩
    · exact hc
    · exact absurd hle (by decide)
  · intro h
    exact ⟨'\n', h, by decide⟩

/-- A token that holds a string can be written, and is read again wherever its bytes stand among
others. -/
theorem Token.exists_encode_string {t : Token} {bytes : List UInt8}
    (ht : t = .string bytes ∨ t = .localString bytes) (hb : bytes.length < 0x100000000 - 1) :
    ∃ wire, t.encode = .ok wire ∧ ∀ before after : List UInt8,
      Bytecode.tokenAt (before ++ wire ++ after).toArray before.length = .ok t ∧
      Bytecode.tokenEnd (before ++ wire ++ after).toArray before.length =
        .ok (some (before.length + wire.length)) := by
  have hfits : bytes.length + 1 < 0x100000000 := by omega
  have hstands : t.Stands := by rcases ht with rfl | rfl <;> exact hfits
  refine ⟨t.wire, encode_eq_ok_iff.mpr ⟨isInternal_of_stands hstands, rfl⟩, fun before after => ?_⟩
  have hread : Bytecode.ReadsAt (before ++ t.wire ++ after).toArray before.length t := by
    apply Bytecode.readsAt_of_stands hstands
    exact Bytecode.holdsAt_of_eq_append rfl rfl
  exact ⟨hread.tokenAt, hread.tokenEnd⟩

open Literal

/-- Every string comes back from its text and from its bytes. The text of the bytes has no line end
and no bare quote in it, and takes nothing of the quote that closes it; in quotes it is read as one
string, and after a number sign as one local string. What these are written as is read as them, as
long as the length of the string can be written. -/
theorem string_survives_escaping (bytes : List UInt8) :
    0x0a ∉ Utf8.ofString (escapeText bytes) ∧
    ¬ HasBareQuote (escapeText bytes).toList ∧
    endsOpen (escapeText bytes).toList = false ∧
    ReadsOne ("\"" ++ escapeText bytes ++ "\"") (.string bytes) ∧
    ReadsOne ("#\"" ++ escapeText bytes ++ "\"") (.localString bytes) ∧
    (bytes.length < 0x100000000 - 1 → ∀ t : Token, t = .string bytes ∨ t = .localString bytes →
      ∃ wire, t.encode = .ok wire ∧ ∀ before after : List UInt8,
        Bytecode.tokenAt (before ++ wire ++ after).toArray before.length = .ok t ∧
        Bytecode.tokenEnd (before ++ wire ++ after).toArray before.length =
          .ok (some (before.length + wire.length))) := by
  have hsealed : IsSealed (escapeText bytes).toList := isSealed_escapeText bytes
  refine ⟨?_, hsealed.bareQuote, hsealed.endsOpen_eq, ?_, ?_, ?_⟩
  · rw [Utf8.newline_mem_ofString_iff]
    exact hsealed.newline_notMem
  · exact readsOne_of_frontReads (frontReads_string bytes)
  · have hread : ReadsOne ("#" ++ stringText bytes) (.localString bytes) :=
      readsOne_of_frontReads (frontReads_localString bytes)
    rw [stringText, ← String.append_assoc, ← String.append_assoc] at hread
    exact hread
  · intro hb t ht
    exact Token.exists_encode_string ht hb

/-- A quote, a backslash, a line end, an octal escape in front of a digit, characters that are cut
off, and zeros. -/
theorem string_survives_escaping_mixed :
    ∃ wire,
      (Token.localString [0x22, 0x5c, 0x0a, 0x01, 0x37, 0xc3, 0x30, 0x00, 0x7f, 0x00]).encode =
        .ok wire ∧
      Bytecode.tokenAt ([0x24] ++ wire ++ [0x00, 0x0a]).toArray 1 =
        .ok (.localString [0x22, 0x5c, 0x0a, 0x01, 0x37, 0xc3, 0x30, 0x00, 0x7f, 0x00]) := by
  obtain ⟨-, -, -, -, -, hwire⟩ :=
    string_survives_escaping [0x22, 0x5c, 0x0a, 0x01, 0x37, 0xc3, 0x30, 0x00, 0x7f, 0x00]
  obtain ⟨wire, hencode, hread⟩ := hwire (by decide) _ (Or.inr rfl)
  exact ⟨wire, hencode, (hread [0x24] [0x00, 0x0a]).1⟩

end QbScript
