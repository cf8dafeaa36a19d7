import QbScript.Listing.Literal
import QbScript.Proofs.Source.Numbers
import QbScript.Proofs.Text.Bytes

/-!
# Strings read back

The text of a string, between its marks, is read as the bytes that it was made from, also where
these are no characters.
-/

set_option autoImplicit false

namespace QbScript

namespace Literal

structure IsEscape (cs : List Char) (bytes : List UInt8) : Prop where
  bodyLength_append : ∀ n rest, bodyLength '"' n (cs ++ rest) = bodyLength '"' (n + cs.length) rest
  unescapeFrom_append : ∀ done rest,
    unescapeFrom done (cs ++ rest) = unescapeFrom (bytes.reverse ++ done) rest

theorem isEscape_nil : IsEscape [] [] := ⟨fun _ _ => rfl, fun _ _ => rfl⟩

theorem IsEscape.append {cs ds : List Char} {xs ys : List UInt8} (hx : IsEscape cs xs)
    (hy : IsEscape ds ys) : IsEscape (cs ++ ds) (xs ++ ys) := by
  constructor
  · intro n rest
    rw [List.append_assoc, hx.bodyLength_append, hy.bodyLength_append, List.length_append,
      Nat.add_assoc]
  · intro done rest
    rw [List.append_assoc, hx.unescapeFrom_append, hy.unescapeFrom_append, List.reverse_append,
      List.append_assoc]

theorem isEscape_flatMap {α : Type} {f : α → List Char} {g : α → List UInt8} {as : List α}
    (h : ∀ a ∈ as, IsEscape (f a) (g a)) : IsEscape (as.flatMap f) (as.flatMap g) := by
  induction as with
  | nil => exact isEscape_nil
  | cons a as ih =>
    rw [List.flatMap_cons, List.flatMap_cons]
    apply (h a List.mem_cons_self).append
    exact ih fun b hb => h b (List.mem_cons_of_mem a hb)

/-- A backslash and a character that stands for bytes by itself. -/
theorem isEscape_mark {e : Char} {bytes : List UInt8} (h : ∀ rest, escape e rest = (bytes, 0)) :
    IsEscape ['\\', e] bytes := by
  constructor
  · intro n rest
    rfl
  · intro done rest
    rw [List.cons_append, List.cons_append, List.nil_append, unescapeFrom, h rest]
    rfl

theorem isEscape_char {c : Char} (h1 : c ≠ '\\') (h2 : c ≠ '"') (h3 : c ≠ '\n') :
    IsEscape [c] (String.utf8EncodeChar c) := by
  constructor
  · intro n rest
    have hstep : bodyLength '"' n (c :: rest) = bodyLength '"' (n + 1) rest := by
      rw [bodyLength, if_neg h3, if_neg h2]
      · exact fun he _ => h1 he
      · exact fun _ _ he _ => h1 he
    exact hstep
  · intro done rest
    rw [List.singleton_append, unescapeFrom]
    exact fun _ _ he _ => h1 he

theorem exists_octal {n : Nat} (h : n < 256) :
    ∃ e d₁ d₂, octal n = ['\\', e, d₁, d₂] ∧ e ∉ ['a', 'b', 'f', 'n', 'r', 't', 'v', 'x'] ∧
      isOctalDigit e ∧ isOctalDigit d₁ ∧ isOctalDigit d₂ ∧ numberOfDigits 8 [e, d₁, d₂] = n := by
  have hlen := @Numeral.length_padded 8 (by omega) 3 n (by omega) (by omega)
  have hdigit : ∀ c ∈ Numeral.padded 8 3 n, isOctalDigit c := by
    intro c hc
    obtain ⟨d, hd, rfl⟩ := Numeral.exists_digitChar_of_mem_padded (by omega) hc
    exact isOctalDigit_digitChar hd
  have hvalue := @Numeral.numberOfDigits_padded 8 (by omega) (by omega) 3 n
  obtain ⟨e, d₁, d₂, he⟩ := List.length_eq_three.mp hlen
  rw [he] at hdigit hvalue
  refine ⟨e, d₁, d₂, by rw [octal, he], ?_, hdigit e (by simp), hdigit d₁ (by simp),
    hdigit d₂ (by simp), hvalue⟩
  intro hmem
  have ho := hdigit e (by simp)
  simp only [List.mem_cons, List.not_mem_nil, or_false] at hmem
  rcases hmem with rfl | rfl | rfl | rfl | rfl | rfl | rfl | rfl
  all_goals revert ho; decide

theorem isEscape_octal {n : Nat} (h : n < 256) : IsEscape (octal n) [UInt8.ofNat n] := by
  obtain ⟨e, d₁, d₂, ho, hmark, he, h₁, h₂, hn⟩ := exists_octal h
  have hescape : ∀ rest, escape e (d₁ :: d₂ :: rest) = ([UInt8.ofNat n], 2) := by
    intro rest
    unfold escape
    split
    all_goals try simp at hmark
    simp [he, h₁, h₂, hn]
  have hplain : ∀ {d : Char}, isOctalDigit d → d ≠ '\\' ∧ d ≠ '"' ∧ d ≠ '\n' := by
    intro d hd
    refine ⟨?_, ?_, ?_⟩
    all_goals rintro rfl; revert hd; decide
  rw [ho]
  constructor
  · intro n rest
    have hd₁ := (isEscape_char (hplain h₁).1 (hplain h₁).2.1 (hplain h₁).2.2).bodyLength_append
    have hd₂ := (isEscape_char (hplain h₂).1 (hplain h₂).2.1 (hplain h₂).2.2).bodyLength_append
    show bodyLength '"' (n + 2) ([d₁] ++ ([d₂] ++ rest)) = _
    rw [hd₁, hd₂]
    rfl
  · intro done rest
    show unescapeFrom done ('\\' :: e :: (d₁ :: d₂ :: rest)) = _
    rw [unescapeFrom, hescape]
    rfl

theorem isEscape_escapeChar (c : Char) : IsEscape (escapeChar c) (String.utf8EncodeChar c) := by
  unfold escapeChar
  split
  · exact isEscape_mark fun _ => rfl
  · exact isEscape_mark fun _ => rfl
  · exact isEscape_mark fun _ => rfl
  · exact isEscape_mark fun _ => rfl
  · exact isEscape_mark fun _ => rfl
  · exact isEscape_mark fun _ => rfl
  · exact isEscape_mark fun _ => rfl
  · exact isEscape_mark fun _ => rfl
  · exact isEscape_mark fun _ => rfl
  · rename_i h1 h2 _ _ _ h3 _ _ _
    split
    · rename_i hc
      have hlt : c.toNat < 128 := by
        simp only [Bool.or_eq_true, decide_eq_true_eq] at hc
        omega
      rw [Utf8.utf8EncodeChar_of_lt hlt]
      exact isEscape_octal (by omega)
    · exact isEscape_char h1 h2 h3

theorem isEscape_escapeText (bytes : List UInt8) :
    IsEscape (escapeText bytes).toList bytes := by
  have h : IsEscape ((Utf8.segments bytes).flatMap escapeSegment)
      ((Utf8.segments bytes).flatMap Utf8.Segment.bytes) := by
    apply isEscape_flatMap
    intro segment _
    cases segment with
    | char c => exact isEscape_escapeChar c
    | invalid bs =>
      have hb := @isEscape_flatMap _ (fun b => octal b.toNat) (fun b => [UInt8.ofNat b.toNat]) bs
        fun b _ => isEscape_octal b.toNat_lt
      simpa [Utf8.Segment.bytes, escapeSegment] using hb
  rw [Utf8.flatMap_bytes_segments] at h
  rwa [escapeText, String.toList_ofList]

theorem string_escapeText (bytes : List UInt8) (rest : List Char) :
    string '"' ((escapeText bytes).toList ++ '"' :: rest) =
      .ok bytes ((escapeText bytes).toList.length + 1) := by
  have h := isEscape_escapeText bytes
  have hlen : bodyLength '"' 0 ((escapeText bytes).toList ++ '"' :: rest) =
      .ok (escapeText bytes).toList.length := by
    rw [h.bodyLength_append, Nat.zero_add]
    rfl
  have hbytes : unescape (escapeText bytes).toList = bytes := by
    have he := h.unescapeFrom_append [] []
    rw [List.append_nil, List.append_nil] at he
    rw [unescape, he, unescapeFrom, List.reverse_reverse]
  rw [string, hlen]
  simp only [List.take_left, hbytes]

variable {signed : Bool} {rest : List Char}

theorem frontReads_string (bytes : List UInt8) :
    FrontReads signed (stringText bytes).toList rest (.string bytes) := by
  have h := string_escapeText bytes rest
  refine ⟨'"', (escapeText bytes).toList ++ ['"'], by simp [stringText], ?_, ?_⟩
  · exact Blank.front_other (by decide) (by decide) (by decide) _
  · rw [List.append_assoc, List.singleton_append]
    unfold Cursor.read
    rw [if_neg (by decide), if_neg (by decide), if_neg (by simp)]
    simp [h, Reading.map, Reading.ok, Except.map]

theorem frontReads_localString (bytes : List UInt8) :
    FrontReads signed ("#" ++ stringText bytes).toList rest (.localString bytes) := by
  have h := string_escapeText bytes rest
  refine ⟨'#', '"' :: (escapeText bytes).toList ++ ['"'], by simp [stringText], ?_, ?_⟩
  · exact Blank.front_other (by decide) (by decide) (by decide) _
  · rw [List.append_assoc, List.cons_append, List.singleton_append]
    unfold Cursor.read
    rw [if_neg (by decide), if_neg (by decide), if_neg (by simp)]
    simp [h, Reading.map, Reading.ok, Reading.after, Except.map]
    omega

end Literal

end QbScript
