import QbScript.Proofs.Outcome
import QbScript.Proofs.Scanner.Place

/-!
# Scans and readings

At a place of a text, the scanner scans a number, a name or an argument as the text there reads, and
stops where the reading does, between two characters.
-/

set_option autoImplicit false

namespace QbScript

namespace Scanner

open Utf8

variable {α β : Type} {bs : List UInt8} {off : Nat} {c k : Char} {cs w : List Char}

theorem lt_of_isDigit (c : Char) (h : c.isDigit) : c.toNat < 0x80 :=
  lt_of_isNameChar (isNameChar_of_isDigit h)

theorem lt_of_isHexDigit (c : Char) (h : isHexDigit c) : c.toNat < 0x80 :=
  lt_of_isNameChar (isNameChar_of_isHexDigit h)

theorem lt_of_isNameStart (c : Char) (h : isNameStart c) : c.toNat < 0x80 :=
  lt_of_isNameChar (isNameChar_of_isNameStart h)

/-- The scan that a reading of the characters from an offset on is. -/
def ofReading (r : Reading α) (off : Nat) (cs : List Char) : Scan α :=
  (r.result, off + size (cs.take r.length))

theorem ofReading_append (r : Reading α) (w : List Char) :
    ofReading (r.after w.length) off (w ++ cs) = ofReading r (off + size w) cs := by
  simp only [ofReading, Reading.after, List.take_length_add_append, size_append, Nat.add_assoc]

theorem ofReading_after (r : Reading α) (hc : c.toNat < 0x80) :
    ofReading (r.after 1) off (c :: cs) = ofReading r (off + 1) cs := by
  exact (ofReading_append r [c]).trans (by rw [size_cons, size_nil, utf8Size_of_lt hc])

theorem change_ofReading (f : α → β) (r : Reading α) :
    change f (ofReading r off cs) = ofReading (r.map f) off cs := rfl

theorem size_take_of_le {p : Char → Bool} (hp : ∀ c, p c → c.toNat < 0x80) {n : Nat}
    (hn : n ≤ (cs.takeWhile p).length) : size (cs.take n) = n := by
  have htake : cs.take n = (cs.takeWhile p).take n := by
    rw [← List.takeWhile_append_dropWhile (p := p) (l := cs), List.take_append_of_le_length hn,
      List.takeWhile_append_dropWhile]
  rw [htake, size_of_lt fun c hc => hp c (List.mem_takeWhile_imp (List.mem_of_mem_take hc)),
    List.length_take, Nat.min_eq_left hn]

theorem size_take_takeWhile {p : Char → Bool} (hp : ∀ c, p c → c.toNat < 0x80) (cs : List Char) :
    size (cs.take (cs.takeWhile p).length) = (cs.takeWhile p).length := size_take_of_le hp le_rfl

theorem size_take_succ {n : Nat} (h : cs.drop n = k :: w) (hk : k.toNat < 0x80) :
    size (cs.take (n + 1)) = size (cs.take n) + 1 := by
  rw [List.take_add, h, List.take_succ_cons, List.take_zero, size_append, size_cons, size_nil,
    utf8Size_of_lt hk]

/-! ### Numbers -/

theorem closeNumber_eq (h : At bs off cs) (t : Token) (n : Nat) :
    closeNumber bs t off = ((Literal.closeNumber t cs n).result, off) := by
  rw [closeNumber, h.any_peek? fun c => lt_of_isNameChar, Literal.closeNumber]
  split <;> rfl

theorem hexNumber_eq (h : At bs off cs) (negative : Bool) :
    hexNumber bs negative off = ofReading (Literal.hexNumber negative cs) off cs := by
  have hat := h.pass (isUniform_of_lt lt_of_isHexDigit)
  have hstop := h.pass_eq_of_lt lt_of_isHexDigit
  have hsize := size_take_takeWhile lt_of_isHexDigit cs
  simp only [hexNumber, Literal.hexNumber, h.digits_eq lt_of_isHexDigit]
  by_cases hd : cs.takeWhile isHexDigit = []
  · rw [hd, List.length_nil, Nat.add_zero] at hstop
    rw [hd, hstop, if_pos rfl, List.isEmpty_nil, if_pos rfl]
    rfl
  · have hpos := List.length_pos_of_ne_nil hd
    rw [if_neg (by omega), if_neg (mt List.isEmpty_iff.mp hd), closeNumber_eq hat, ofReading,
      Literal.length_closeNumber, hsize, hstop]

theorem decimalNumber_eq (h : At bs off cs) (negative : Bool) :
    decimalNumber bs negative off = ofReading (Literal.decimalNumber negative cs) off cs := by
  have hat := h.pass (isUniform_of_lt lt_of_isDigit)
  have hstop := h.pass_eq_of_lt lt_of_isDigit
  have hsize := size_take_takeWhile lt_of_isDigit cs
  simp only [decimalNumber, Literal.decimalNumber, h.digits_eq lt_of_isDigit]
  generalize cs.takeWhile Char.isDigit = whole at *
  generalize pass bs Char.isDigit off = stop at *
  split
  · rename_i hc
    obtain ⟨rest, hrest, hat₁⟩ := hat.exists_of_peek? hc.1 (by decide)
    rw [hat₁.any_peek? lt_of_isDigit] at hc
    have hat₂ := hat₁.pass (isUniform_of_lt lt_of_isDigit)
    have hstop₂ := hat₁.pass_eq_of_lt lt_of_isDigit
    have hsize₂ := size_take_takeWhile lt_of_isDigit rest
    have hf : Literal.fractionDigits (cs.drop whole.length) = rest.takeWhile Char.isDigit := by
      rw [hrest]
      rfl
    have hne : rest.takeWhile Char.isDigit ≠ [] := by
      cases rest with
      | nil => simp at hc
      | cons d rest => simpa using hc.2
    rw [hf, if_neg (mt List.isEmpty_iff.mp hne), hat₁.digits_eq lt_of_isDigit]
    generalize rest.takeWhile Char.isDigit = fraction at *
    have hdrop : (cs.drop whole.length).drop (1 + fraction.length) = rest.drop fraction.length := by
      rw [hrest, Nat.add_comm, List.drop_succ_cons]
    have htake : size (cs.take (whole.length + 1 + fraction.length)) =
        whole.length + 1 + fraction.length := by
      have hpoint : ('.').utf8Size = 1 := rfl
      rw [Nat.add_assoc, List.take_add, hrest, Nat.add_comm 1, List.take_succ_cons, size_append,
        size_cons, hsize, hsize₂, hpoint]
      omega
    rw [closeNumber_eq hat₂ _ (whole.length + 1 + fraction.length), hdrop, ofReading,
      Literal.length_closeNumber, htake, hstop₂, hstop, Nat.add_assoc, Nat.add_assoc, Nat.add_assoc]
  · rename_i hc
    have hf : Literal.fractionDigits (cs.drop whole.length) = [] := by
      by_contra hne
      obtain ⟨tail, htail, hfraction⟩ := Literal.exists_of_fractionDigits_ne_nil hne
      rw [htail] at hat
      refine hc ⟨hat.peek?_cons (by decide), ?_⟩
      rw [(hat.next (by decide)).any_peek? lt_of_isDigit]
      cases tail with
      | nil => exact absurd hfraction hne
      | cons d tail =>
        by_contra hd
        exact hne (hfraction.trans (List.takeWhile_cons_of_neg hd))
    rw [hf, List.isEmpty_nil, if_pos rfl, closeNumber_eq hat, ofReading,
      Literal.length_closeNumber, hsize, hstop]

theorem number_eq (h : At bs off cs) (negative : Bool) :
    number bs negative off = ofReading (Literal.number negative cs) off cs := by
  unfold Literal.number
  split
  · have h₁ := h.next (by decide)
    have h₂ := h₁.next (by decide)
    rw [number, if_pos ⟨h.peek?_cons (by decide), Or.inl (h₁.peek?_cons (by decide))⟩,
      hexNumber_eq h₂]
    exact (ofReading_append _ ['0', 'x']).symm
  · have h₁ := h.next (by decide)
    have h₂ := h₁.next (by decide)
    rw [number, if_pos ⟨h.peek?_cons (by decide), Or.inr (h₁.peek?_cons (by decide))⟩,
      hexNumber_eq h₂]
    exact (ofReading_append _ ['0', 'X']).symm
  · rename_i hx hX
    rw [number, if_neg, decimalNumber_eq h]
    rintro ⟨h0, hmark⟩
    obtain ⟨cs, rfl, h₁⟩ := h.exists_of_peek? h0 (by decide)
    rcases hmark with hmark | hmark
    · obtain ⟨cs, rfl, -⟩ := h₁.exists_of_peek? hmark (by decide)
      exact hx _ rfl
    · obtain ⟨cs, rfl, -⟩ := h₁.exists_of_peek? hmark (by decide)
      exact hX _ rfl

/-! ### Names and arguments -/

theorem word_eq (h : At bs off (c :: cs)) (hc : isNameStart c) :
    word bs off = .ok (ofReading ((Name.word c cs).after 1) off (c :: cs)) := by
  have hlt := lt_of_isNameChar (isNameChar_of_isNameStart hc)
  have hs : size (c :: cs.takeWhile isNameChar) = 1 + (cs.takeWhile isNameChar).length := by
    rw [size_of_lt, List.length_cons, Nat.add_comm]
    rintro d (_ | ⟨_, hd⟩)
    · exact hlt
    · exact lt_of_isNameChar (List.mem_takeWhile_imp hd)
  have hsplit : At bs off (c :: cs.takeWhile isNameChar ++ cs.dropWhile isNameChar) := by
    rwa [List.cons_append, List.takeWhile_append_dropWhile]
  rw [ofReading_after _ hlt, ofReading, Name.word, Reading.ok,
    size_take_takeWhile fun c => lt_of_isNameChar]
  simp only [word, (h.next hlt).pass_eq_of_lt fun c => lt_of_isNameChar, Nat.add_assoc, ← hs,
    hsplit.text_eq]
  rfl

theorem isUniform_quoted : IsUniform fun c => c ≠ '"' ∧ c ≠ '\n' := by
  refine isUniform_of_not_lt fun c hc => ?_
  rw [decide_eq_true_eq, not_and_or, not_not, not_not] at hc
  rcases hc with rfl | rfl
  · decide
  · decide

theorem quoted_eq (h : At bs off cs) : quoted bs off = .ok (ofReading (Name.quoted cs) off cs) := by
  have hat := h.pass isUniform_quoted
  have hstop := h.pass_eq isUniform_quoted
  have hhead := List.head?_dropWhile_not (fun c => c ≠ '"' ∧ c ≠ '\n') cs
  have htake : cs.takeWhile _ = cs.take (cs.takeWhile fun c => c ≠ '"' ∧ c ≠ '\n').length :=
    List.prefix_iff_eq_take.mp (List.takeWhile_prefix _)
  rw [← drop_length_takeWhile] at hhead
  simp only [quoted, Name.quoted, h.text_pass isUniform_quoted]
  generalize cs.takeWhile (fun c => c ≠ '"' ∧ c ≠ '\n') = w at *
  generalize pass bs (fun c => c ≠ '"' ∧ c ≠ '\n') off = stop at *
  cases hr : cs.drop w.length with
  | nil =>
    rw [hr] at hat
    rw [hat.peek?_nil]
    simp only [ofReading, Reading.fail, ← htake, hstop]
    rfl
  | cons d rest =>
    rw [hr] at hat hhead
    have hd : d = '"' ∨ d = '\n' := by
      by_contra hne
      rw [not_or] at hne
      simp [hne] at hhead
    have hsize : d.toNat < 0x80 → size (cs.take (w.length + 1)) = size w + 1 := fun hlt => by
      rw [size_take_succ hr hlt, ← htake]
    rcases hd with rfl | rfl
    · rw [hat.peek?_cons (by decide)]
      show Except.ok (Except.ok _, stop + 1) =
        Except.ok (Except.ok _, off + size (cs.take (w.length + 1)))
      rw [hsize (by decide), hstop, Nat.add_assoc]
    · rw [hat.peek?_cons (by decide)]
      show Except.ok (Except.error _, stop + 1) =
        Except.ok (Except.error _, off + size (cs.take (w.length + 1)))
      rw [hsize (by decide), hstop, Nat.add_assoc]

theorem checksum_eq (h : At bs off cs) :
    checksum bs off = ofReading (Name.checksumDigits cs) off cs := by
  have hat := h.pass (isUniform_of_lt lt_of_isHexDigit)
  have hstop := h.pass_eq_of_lt lt_of_isHexDigit
  have hsize := size_take_takeWhile lt_of_isHexDigit cs
  simp only [checksum, Name.checksumDigits, h.digits_eq lt_of_isHexDigit]
  rw [hstop, Nat.add_sub_cancel_left, ← hstop]
  split
  · rename_i h8
    rw [ofReading, Reading.fail, size_take_of_le lt_of_isHexDigit h8.le]
  generalize cs.takeWhile isHexDigit = ds at *
  split
  · rename_i hc
    obtain ⟨rest, hrest, -⟩ := hat.exists_of_peek? hc.2 (by decide)
    cases ds with
    | nil => simp only [List.length_nil] at hstop; omega
    | cons d ds =>
      rw [hrest]
      simp only [ofReading, Reading.ok, size_take_succ hrest (by decide), hsize, hstop, Nat.add_assoc]
  · rename_i hc
    split
    · rename_i hrest
      rw [hrest] at hat
      refine absurd ⟨?_, hat.peek?_cons (by decide)⟩ hc
      rw [hstop, List.length_cons]
      omega
    · rw [ofReading, Reading.fail, hsize, hstop]

theorem percent_eq (h : At bs off cs) :
    percent bs off = .ok (ofReading (Name.percent cs) off cs) := by
  unfold percent
  split
  · rename_i hmark
    obtain ⟨rest, rfl, h₁⟩ := h.exists_of_peek? hmark (by decide)
    rw [quoted_eq h₁, Name.percent, ofReading_after _ (by decide)]
  rename_i hquote
  split
  · rename_i hopen
    obtain ⟨rest, rfl, h₁⟩ := h.exists_of_peek? hopen (by decide)
    split
    · rename_i hzero
      obtain ⟨rest, rfl, h₂⟩ := h₁.exists_of_peek? hzero (by decide)
      split
      · rename_i hmark
        rcases hmark with hx | hX
        · obtain ⟨rest, rfl, h₃⟩ := h₂.exists_of_peek? hx (by decide)
          rw [checksum_eq h₃, Name.percent]
          exact congrArg _ (ofReading_append _ ['(', '0', 'x']).symm
        · obtain ⟨rest, rfl, h₃⟩ := h₂.exists_of_peek? hX (by decide)
          rw [checksum_eq h₃, Name.percent]
          exact congrArg _ (ofReading_append _ ['(', '0', 'X']).symm
      · rename_i hmark
        rw [Name.percent]
        · rfl
        · rintro _ rfl
          exact hmark (Or.inl (h₂.peek?_cons (by decide)))
        · rintro _ rfl
          exact hmark (Or.inr (h₂.peek?_cons (by decide)))
    · rename_i hzero
      rw [Name.percent]
      · rfl
      · rintro _ rfl
        exact hzero (h₁.peek?_cons (by decide))
      · rintro _ rfl
        exact hzero (h₁.peek?_cons (by decide))
      · rintro _ rfl
        exact hzero (h₁.peek?_cons (by decide))
  · rename_i hopen
    rw [Name.percent]
    · rfl
    · rintro _ rfl
      exact hquote (h.peek?_cons (by decide))
    all_goals
      rintro _ rfl
      exact hopen (h.peek?_cons (by decide))

/-- Characters of one byte that are at the front of the bytes are at the front of the text. -/
theorem exists_append_of_take (hw : ∀ c ∈ w, c.toNat < 0x80)
    (h : ((encode cs).map byteChar).take w.length = w) : ∃ rest, cs = w ++ rest := by
  induction w generalizing cs with
  | nil => exact ⟨cs, rfl⟩
  | cons k w ih =>
    have hk := hw k List.mem_cons_self
    have hpeek : peek? (encode cs) 0 = some k := by
      have hhead := congrArg List.head? h
      rwa [List.length_cons, List.head?_take, if_neg (Nat.succ_ne_zero _), List.head?_map,
        List.head?_eq_getElem?] at hhead
    obtain ⟨rest, rfl, -⟩ := (at_start cs).exists_of_peek? hpeek hk
    rw [encode_cons, utf8EncodeChar_of_lt hk, List.singleton_append, List.map_cons,
      List.length_cons, List.take_succ_cons] at h
    obtain ⟨rest, rfl⟩ := ih (fun c hc => hw c (List.mem_cons_of_mem k hc)) (List.cons.inj h).2
    exact ⟨rest, rfl⟩

theorem take_map_byteChar (hw : ∀ c ∈ w, c.toNat < 0x80) (rest : List Char) :
    ((encode (w ++ rest)).map byteChar).take w.length = w := by
  rw [encode_append, List.map_append, map_byteChar_encode hw, List.take_left]

theorem closeArg_eq (h : At bs off cs) (r : Reading Name.Ref) :
    closeArg bs (ofReading r off cs) = ofReading (Name.closeArg r (cs.drop r.length)) off cs := by
  obtain ⟨result, n⟩ := r
  cases result with
  | error m => rfl
  | ok ref =>
    have hat := h.drop n
    dsimp only [ofReading, closeArg]
    split
    · rename_i hclose
      obtain ⟨tail, htail, -⟩ := hat.exists_of_peek? hclose (by decide)
      have hread : Name.closeArg ⟨.ok ref, n⟩ (cs.drop n) = .ok ref.asArg (n + 1) := by
        rw [htail]
        rfl
      rw [hread, Reading.ok, size_take_succ htail (by decide), Nat.add_assoc]
    · rename_i hclose
      have hread : Name.closeArg ⟨.ok ref, n⟩ (cs.drop n) = .fail .badArgument n := by
        unfold Name.closeArg
        split
        · rename_i htail
          rw [htail] at hat
          exact absurd (hat.peek?_cons (by decide)) hclose
        · rfl
        · rename_i herror
          cases herror
      rw [hread, Reading.fail]

theorem plainArg_eq (h : At bs off cs) (h1 : ∀ rest, cs ≠ '.' :: '.' :: '.' :: '>' :: rest)
    (h2 : ∀ rest, cs ≠ '<' :: rest) (h3 : ∀ rest, cs ≠ '=' :: rest)
    (h4 : ∀ rest, cs ≠ '%' :: rest) :
    plainArg bs off = .ok (ofReading (Name.angle cs) off cs) := by
  have hat := h.pass (isUniform_of_lt fun c => lt_of_isNameChar)
  have hstop := h.pass_eq_of_lt fun c => lt_of_isNameChar
  have htext := h.text_pass (isUniform_of_lt fun c => lt_of_isNameChar)
  have hsize := size_take_takeWhile (fun c => lt_of_isNameChar) cs
  rw [plainArg, h.any_peek? lt_of_isNameStart]
  cases cs with
  | nil => rfl
  | cons c rest =>
    rw [Name.angle]
    · split
      · rename_i hc
        obtain ⟨tail, htail, -⟩ := hat.exists_of_peek? hc.2 (by decide)
        have hname : isNameStart c = true := hc.1
        rw [htext, hname, htail]
        simp only [ofReading, Reading.ok, size_take_succ htail (by decide), hsize, hstop,
          Nat.add_assoc]
        rfl
      · rename_i hc
        split
        · rename_i hname htail
          rw [htail] at hat
          exact absurd ⟨hname, hat.peek?_cons (by decide)⟩ hc
        · rfl
    · exact fun tail hc hr => h1 tail (by rw [hc, hr])
    · exact fun hc => h2 rest (by rw [hc])
    · exact fun hc => h3 rest (by rw [hc])
    · exact fun hc => h4 rest (by rw [hc])

theorem angle_eq (h : At bs off cs) : angle bs off = .ok (ofReading (Name.angle cs) off cs) := by
  have hdots : ∀ c ∈ ['.', '.', '.', '>'], c.toNat < 0x80 := by
    intro c hc
    simp only [List.mem_cons, List.not_mem_nil, or_false] at hc
    rcases hc with rfl | rfl | rfl | rfl
    all_goals decide
  unfold angle
  rw [h.tail_eq, ok_bind]
  dsimp only
  split
  · rename_i hall
    obtain ⟨rest, rfl⟩ := exists_append_of_take hdots hall
    rfl
  rename_i hall
  split
  · rename_i hmark
    obtain ⟨rest, rfl, -⟩ := h.exists_of_peek? hmark (by decide)
    rfl
  rename_i hless
  split
  · rename_i hmark
    obtain ⟨rest, rfl, -⟩ := h.exists_of_peek? hmark (by decide)
    rfl
  rename_i hequals
  split
  · rename_i hmark
    obtain ⟨rest, rfl, h₁⟩ := h.exists_of_peek? hmark (by decide)
    rw [percent_eq h₁, ok_bind, closeArg_eq h₁, Name.angle, ofReading_after _ (by decide)]
    rfl
  rename_i hpercent
  refine plainArg_eq h ?_ ?_ ?_ ?_
  · rintro rest rfl
    exact hall (take_map_byteChar hdots rest)
  · rintro rest rfl
    exact hless (h.peek?_cons (by decide))
  · rintro rest rfl
    exact hequals (h.peek?_cons (by decide))
  · rintro rest rfl
    exact hpercent (h.peek?_cons (by decide))

end Scanner

end QbScript
