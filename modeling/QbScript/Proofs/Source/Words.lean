import QbScript.Listing.Literal
import QbScript.Proofs.Source.Numbers

/-!
# Words read back

Reserved words, signs, names and arguments are read as what they are written for. A word is followed
by a blank or a line end, if by anything; some of what it is made of is followed by other signs.
-/

set_option autoImplicit false

namespace QbScript

def EndsWord (rest : List Char) : Prop := ∀ c ∈ rest.head?, c = ' ' ∨ c = '\n'

variable {signed : Bool} {rest : List Char}

theorem EndsWord.isBoundary (h : EndsWord rest) : IsBoundary rest := by
  intro c hc
  rcases h c hc with rfl | rfl
  · decide
  · decide

theorem isBoundary_cons {c : Char} (h : isNameChar c = false) (hc : c ≠ '.') (cs : List Char) :
    IsBoundary (c :: cs) := by
  intro d hd
  obtain rfl : c = d := by simpa using hd
  exact ⟨h, hc⟩

namespace Literal

theorem exists_of_isWord {s : String} (h : isWord s) :
    ∃ c cs, s.toList = c :: cs ∧ isNameStart c ∧ ∀ d ∈ cs, isNameChar d := by
  unfold isWord at h
  split at h
  · rename_i c cs hs
    simp only [Bool.and_eq_true, List.all_eq_true] at h
    exact ⟨c, cs, hs, h.1, h.2⟩
  · cases h

def wordToken (s : String) : Token :=
  match Tag.ofKeyword? s with
  | some tag => .simple tag
  | none => .name s

theorem frontReads_word {s : String} (h : isWord s) (hr : IsBoundary rest) :
    FrontReads signed s.toList rest (wordToken s) := by
  obtain ⟨c, cs, hs, hc, hcs⟩ := exists_of_isWord h
  have hw : (cs ++ rest).takeWhile isNameChar = cs :=
    takeWhile_append_stop hcs fun d hd => (hr d hd).1
  have hofList : String.ofList (c :: cs) = s := by rw [← hs, String.ofList_toList]
  refine ⟨c, cs, hs, Blank.front_plain (Or.inl (isNameChar_of_isNameStart hc)) _, ?_⟩
  unfold Cursor.read
  rw [if_pos hc, Name.word]
  simp only [hw, hofList]
  rfl

theorem ne_of_isQuotable {s : String} (h : isQuotable s) :
    ∀ c ∈ s.toList, c ≠ '"' ∧ c ≠ '\n' := by
  intro c hc
  have hq := List.all_eq_true.mp h c hc
  simp only [Bool.and_eq_true, decide_eq_true_eq, Bool.not_eq_true'] at hq
  refine ⟨hq.1, ?_⟩
  rintro rfl
  exact absurd hq.2 (by decide)

theorem percent_quoted {s : String} (h : isQuotable s) :
    Name.percent ('"' :: (s.toList ++ '"' :: rest)) = .ok (.text s) (s.toList.length + 2) := by
  have hw : (s.toList ++ '"' :: rest).takeWhile (fun c => c ≠ '"' ∧ c ≠ '\n') = s.toList := by
    apply takeWhile_append_stop
    · intro c hc
      simpa using ne_of_isQuotable h c hc
    · intro c hc
      obtain rfl : '"' = c := by simpa using hc
      rfl
  simp only [Name.percent, Name.quoted, hw, List.drop_left, String.ofList_toList, Reading.after,
    Reading.ok]
  congr 1
  omega

theorem percent_checksum (c : Checksum) :
    Name.percent ('(' :: '0' :: 'x' :: (c.digits.toList ++ ')' :: rest)) =
      .ok (.checksum c) (c.digits.toList.length + 4) := by
  have hlen := @Numeral.length_padded 16 (by omega) 8 c.toNat (by omega) c.toNat_lt
  have hd : ∀ d ∈ Numeral.padded 16 8 c.toNat, isHexDigit d := by
    intro d hd
    obtain ⟨n, hn, rfl⟩ := Numeral.exists_digitChar_of_mem_padded (by omega) hd
    exact isHexDigit_digitChar hn
  have hvalue := @Numeral.numberOfDigits_padded 16 (by omega) (by omega) 8 c.toNat
  have hdigits : c.digits.toList = Numeral.padded 16 8 c.toNat := String.toList_ofList
  have hw : (Numeral.padded 16 8 c.toNat ++ ')' :: rest).takeWhile isHexDigit =
      Numeral.padded 16 8 c.toNat :=
    takeWhile_append_stop hd (isBoundary_cons (by decide) (by decide) rest).not_isHexDigit
  obtain ⟨d, ds, hcons⟩ := List.exists_cons_of_ne_nil
    (show Numeral.padded 16 8 c.toNat ≠ [] by rw [← List.length_pos_iff]; omega)
  simp only [hdigits, Name.percent, Name.checksumDigits, hw, List.drop_left]
  rw [if_neg (by omega)]
  simp only [hcons] at hvalue ⊢
  rw [hvalue, UInt32.ofNat_toNat]
  simp only [Reading.after, Reading.ok]
  congr 1
  omega

/-- A name in a form that is read back: as a word, in quotes, or by its checksum. -/
inductive NameForm where
  | word (s : String) (hw : isWord s) (hk : Tag.ofKeyword? s = none)
  | quoted (s : String) (hq : isQuotable s)
  | checksum (c : Checksum)

namespace NameForm

def text : NameForm → String
  | word s .. => s
  | quoted s _ => "%\"" ++ s ++ "\""
  | checksum c => checksumText c

def ref : NameForm → Name.Ref
  | word s .. | quoted s _ => .text s
  | checksum c => .checksum c

/-- A form that is no word starts with a percent sign. -/
theorem cases (f : NameForm) :
    (∃ s, isWord s ∧ Tag.ofKeyword? s = none ∧ f.text = s ∧ f.ref = .text s) ∨
      ∃ body, f.text.toList = '%' :: body ∧
        ∀ rest, Name.percent (body ++ rest) = .ok f.ref body.length := by
  cases f with
  | word s hw hk => exact Or.inl ⟨s, hw, hk, rfl, rfl⟩
  | quoted s hq =>
    refine Or.inr ⟨'"' :: (s.toList ++ ['"']), by simp [text], ?_⟩
    intro rest
    simpa [ref] using percent_quoted hq
  | checksum c =>
    refine Or.inr ⟨'(' :: '0' :: 'x' :: (c.digits.toList ++ [')']), ?_, ?_⟩
    · simp [text, checksumText]
    intro rest
    simpa [ref] using percent_checksum c

theorem frontReads_text (f : NameForm) (hr : IsBoundary rest) :
    FrontReads signed f.text.toList rest f.ref.asName := by
  rcases f.cases with ⟨s, hw, hk, ht, hf⟩ | ⟨body, ht, hp⟩
  · have h := @frontReads_word signed _ _ hw hr
    rw [wordToken, hk] at h
    rw [ht, hf]
    exact h
  · refine ⟨'%', body, ht, Blank.front_other (by decide) (by decide) (by decide) _, ?_⟩
    unfold Cursor.read
    rw [if_neg (by decide), if_neg (by decide), if_neg (by simp)]
    simp [hp, Reading.map, Reading.ok, Except.map]

end NameForm

theorem angle_word {s : String} (h : isWord s) :
    Name.angle (s.toList ++ '>' :: rest) = .ok (.arg s) (s.toList.length + 1) := by
  obtain ⟨c, cs, hs, hc, hcs⟩ := exists_of_isWord h
  have hall : ∀ d ∈ c :: cs, isNameChar d := by
    intro d hd
    rcases List.mem_cons.mp hd with rfl | hd
    · exact isNameChar_of_isNameStart hc
    · exact hcs d hd
  have hw : (c :: (cs ++ '>' :: rest)).takeWhile isNameChar = c :: cs := by
    rw [← List.cons_append]
    apply takeWhile_append_stop hall
    intro d hd
    obtain rfl : '>' = d := by simpa using hd
    decide
  have hne : ∀ d, isNameStart d = false → c ≠ d := by
    rintro d hd rfl
    rw [hd] at hc
    cases hc
  have hofList : String.ofList (c :: cs) = s := by rw [← hs, String.ofList_toList]
  rw [hs, List.cons_append]
  unfold Name.angle
  split
  · rename_i he
    exact absurd (List.cons.inj he).1 (hne _ (by decide))
  · rename_i he
    exact absurd (List.cons.inj he).1 (hne _ (by decide))
  · rename_i he
    exact absurd (List.cons.inj he).1 (hne _ (by decide))
  · rename_i he
    exact absurd (List.cons.inj he).1 (hne _ (by decide))
  · rename_i he
    obtain ⟨rfl, rfl⟩ := List.cons.inj he
    have hdrop : (c :: (cs ++ '>' :: rest)).drop (c :: cs).length = '>' :: rest := by
      rw [← List.cons_append, List.drop_left]
    simp only [hw, hc, hdrop, hofList]
  · rename_i he
    cases he

theorem NameForm.frontReads_arg (f : NameForm) :
    FrontReads signed ("<" ++ f.text ++ ">").toList rest f.ref.asArg := by
  have hread : ∀ {cs : List Char} {t : Token} {n : Nat}, Name.angle cs = .ok t n →
      Cursor.read signed '<' cs = .ok t n := by
    intro cs t n h
    unfold Cursor.read
    rw [if_neg (by decide), if_neg (by decide), if_neg (by simp)]
    simpa using h
  refine ⟨'<', f.text.toList ++ ['>'], by simp,
    Blank.front_other (by decide) (by decide) (by decide) _, hread ?_⟩
  rw [List.append_assoc, List.singleton_append, List.length_append]
  rcases f.cases with ⟨s, hw, hk, ht, hf⟩ | ⟨body, ht, hp⟩
  · rw [ht, hf]
    exact angle_word hw
  · rw [ht, List.cons_append]
    unfold Name.angle
    simp only [hp, Reading.ok, List.drop_left, Name.closeArg, Reading.after, List.length_cons,
      List.length_nil]
    congr 1
    omega

def nameForm (names : NameTable) (c : Checksum) : NameForm :=
  match names.get? c with
  | some name =>
    if h : isWord name ∧ Tag.ofKeyword? name = none then .word name h.1 h.2
    else if hq : isQuotable name then .quoted name hq
    else .checksum c
  | none => .checksum c

def nameRef (names : NameTable) (c : Checksum) : Name.Ref :=
  match names.get? c with
  | some name => .text name
  | none => .checksum c

def AllQuotable (names : NameTable) : Prop := ∀ c name, names.get? c = some name → isQuotable name

section

variable {names : NameTable}

theorem text_nameForm (names : NameTable) (c : Checksum) :
    (nameForm names c).text = nameText names c := by
  unfold nameForm nameText
  cases names.get? c with
  | none => rfl
  | some name =>
    simp only [Bool.and_eq_true, Option.isNone_iff_eq_none]
    split
    · rfl
    · split <;> rfl

theorem ref_nameForm (hq : AllQuotable names) (c : Checksum) :
    (nameForm names c).ref = nameRef names c := by
  unfold nameForm nameRef
  cases hn : names.get? c with
  | none => rfl
  | some name =>
    dsimp only
    rw [dif_pos (hq c name hn)]
    split <;> rfl

end

end Literal

theorem EndsWord.cases (h : EndsWord rest) :
    rest = [] ∨ ∃ c cs, rest = c :: cs ∧ (c = ' ' ∨ c = '\n') := by
  cases rest with
  | nil => exact Or.inl rfl
  | cons c cs => exact Or.inr ⟨c, cs, rfl, h c rfl⟩

theorem EndsWord.any_isDigit (h : EndsWord rest) : rest.head?.any Char.isDigit = false := by
  rcases h.cases with rfl | ⟨c, cs, rfl, rfl | rfl⟩
  all_goals rfl

/-- Only a solidus, a plus and a minus may mean something else before other signs. -/
theorem frontReads_sign {c : Char} {tag : Tag} (h : Cursor.sign? c = some tag)
    (hr : EndsWord rest ∨ c ≠ '/' ∧ c ≠ '-' ∧ c ≠ '+') :
    FrontReads signed [c] rest (.simple tag) := by
  have hdigit : ¬ ((c = '-' ∨ c = '+') ∧ signed ∧ rest.head?.any Char.isDigit) := by
    rintro ⟨hc, -, hd⟩
    rcases hr with hr | ⟨-, h1, h2⟩
    · rw [hr.any_isDigit] at hd
      cases hd
    · exact hc.elim h1 h2
  have hfront : Blank.front (c :: rest) = .other := by
    by_cases hc : c = '/'
    · subst hc
      rcases hr with hr | ⟨hne, -⟩
      · rcases hr.cases with rfl | ⟨c, cs, rfl, rfl | rfl⟩
        all_goals rfl
      · exact absurd rfl hne
    · apply Blank.front_other hc
      · rintro rfl
        cases h
      · apply Bool.eq_false_iff.mpr
        intro hb
        simp only [Blank.isBlank, decide_eq_true_eq] at hb
        rcases hb with rfl | rfl | rfl | rfl | rfl
        all_goals cases h
  refine ⟨c, [], rfl, hfront, ?_⟩
  rw [List.nil_append]
  unfold Cursor.read
  rw [if_neg, if_neg, if_neg hdigit]
  · rw [h]
    unfold Cursor.sign? at h
    split at h
    all_goals first | rfl | cases h
  · rintro hc
    unfold Cursor.sign? at h
    split at h
    all_goals first | exact absurd hc (by decide) | cases h
  · rintro hc
    unfold Cursor.sign? at h
    split at h
    all_goals first | exact absurd hc (by decide) | cases h

theorem frontReads_minus (h : rest.head?.any Char.isDigit = false) :
    FrontReads signed ['-'] rest (.simple .minus) := by
  refine ⟨'-', [], rfl, Blank.front_plain (Or.inr (Or.inr rfl)) _, ?_⟩
  unfold Cursor.read
  rw [if_neg (by decide), if_neg (by decide), if_neg (by simp [h])]
  rfl

def angleSigns : List (List Char × Tag) :=
  [(['<'], .lessThan), (['<', '='], .lessThanEqual), (['<', '<'], .shiftLeft),
   (['<', '.', '.', '.', '>'], .allArgs), (['>'], .greaterThan), (['>', '='], .greaterThanEqual),
   (['>', '>'], .shiftRight), (['='], .equals), (['=', '='], .sameAs)]

theorem frontReads_angleSign {entry : List Char × Tag} (h : entry ∈ angleSigns)
    (hr : EndsWord rest) : FrontReads signed entry.1 rest (.simple entry.2) := by
  simp only [angleSigns, List.mem_cons, List.not_mem_nil, or_false] at h
  rcases hr.cases with rfl | ⟨c, cs, rfl, rfl | rfl⟩
  all_goals
    rcases h with rfl | rfl | rfl | rfl | rfl | rfl | rfl | rfl | rfl
    all_goals exact ⟨_, _, rfl, rfl, by cases signed <;> rfl⟩

theorem isWord_of_mem_keywords :
    ∀ entry ∈ Tag.keywords, Literal.isWord entry.1 ∧
      Literal.wordToken entry.1 = .simple entry.2 := by
  decide +kernel

theorem frontReads_keyword {tag : Tag} {s : String} (h : tag.keyword? = some s)
    (hr : IsBoundary rest) : FrontReads signed s.toList rest (.simple tag) := by
  obtain ⟨entry, hf, rfl⟩ := Option.map_eq_some_iff.mp h
  obtain ⟨hw, ht⟩ := isWord_of_mem_keywords entry (List.mem_of_find?_eq_some hf)
  have htag : entry.2 = tag := by simpa using List.find?_some hf
  rw [← htag, ← ht]
  exact Literal.frontReads_word hw hr

/-- A tag that is written as itself is a reserved word or a sign. -/
theorem text?_cases {tag : Tag} {text : String} (h : tag.text? = some text) (hi : tag ≠ .fastIf)
    (he : tag ≠ .fastElse) : tag.keyword? = some text ∨
      (text.toList, tag) ∈ angleSigns ∨ ∃ c, text.toList = [c] ∧ Cursor.sign? c = some tag := by
  cases tag
  all_goals first
    | exact absurd rfl hi
    | exact absurd rfl he
    | exact Or.inl h
    | cases h; exact Or.inr (Or.inl (by decide))
    | cases h; exact Or.inr (Or.inr ⟨_, rfl, rfl⟩)

theorem frontReads_tag {tag : Tag} {text : String} (h : tag.text? = some text) (hi : tag ≠ .fastIf)
    (he : tag ≠ .fastElse) (hr : EndsWord rest) :
    FrontReads signed text.toList rest (.simple tag) := by
  rcases text?_cases h hi he with hk | ha | ⟨c, hc, hs⟩
  · exact frontReads_keyword hk hr.isBoundary
  · exact frontReads_angleSign ha hr
  · rw [hc]
    exact frontReads_sign hs (Or.inl hr)

/-- A phrase of a script that is a tag alone is written as itself. -/
theorem exists_text? {tag : Tag} (h : (Token.simple tag).IsPhrase) (hne : tag ≠ .endOfLine) :
    ∃ text, tag.text? = some text ∧ tag ≠ .fastIf ∧ tag ≠ .fastElse := by
  cases tag
  all_goals first
    | exact absurd rfl hne
    | exact ⟨_, rfl, by decide, by decide⟩
    | simp [Token.IsPhrase, Tag.layout] at h

end QbScript
