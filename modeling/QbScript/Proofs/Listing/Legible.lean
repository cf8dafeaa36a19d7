import QbScript.Proofs.Listing.Elements
import QbScript.Proofs.Script.Mirror
import QbScript.Proofs.Source.Strings
import QbScript.Proofs.Source.Words

/-!
# Legible words

The words of a listing are read as the phrases that they are listed for. Most are read as one token;
pairs, vectors and the heads of random blocks are read as several, which are gathered again.
-/

set_option autoImplicit false

namespace QbScript

open Phrase

/-- Wherever it stands in a listing, the word is read as the tokens. -/
def ReadsAs (w : List Char) (us : List Token) : Prop :=
  ∀ {gap rest : List Char} {op : Bool} {ts : List Token}, IsGap gap → (gap = [] → op = false) →
    EndsWord rest → (∀ op, Spells op rest ts) → Spells op (gap ++ (w ++ rest)) (us ++ ts)

structure Readable (w : List Char) (us : List Token) : Prop where
  last : ∃ v c, w = v ++ [c] ∧ c ≠ '\n'
  reads : ReadsAs w us

/-- A word is read as the phrase, wherever it stands in a listing. It does not end in a newline. -/
structure Legible (w : List Char) (t : Token) : Prop where
  last : ∃ v c, w = v ++ [c] ∧ c ≠ '\n'
  spells : ∃ us, Composes us [t] ∧ ReadsAs w us

theorem Legible.exists_readable {w : List Char} {t : Token} (h : Legible w t) :
    ∃ us, Composes us [t] ∧ Readable w us :=
  h.spells.imp fun _ ⟨hc, hr⟩ => ⟨hc, h.last, hr⟩

theorem readsAs_of_frontReads {w : List Char} {t : Token}
    (h : ∀ rest, EndsWord rest → FrontReads true w rest t) : ReadsAs w [t] := by
  intro gap rest op ts hg hop hr hs
  apply Spells.step hg _ (hs _)
  have hsigned : (!gap.isEmpty || !op) = true := by
    cases gap with
    | nil => rw [hop rfl]; rfl
    | cons c gap => rfl
  rw [hsigned]
  exact h rest hr

theorem legible_of_frontReads {w : List Char} {t : Token}
    (h : ∀ rest, EndsWord rest → FrontReads true w rest t) (ht : ¬ StartsList t)
    (hw : w.getLast? ≠ some '\n') : Legible w t := by
  constructor
  · obtain rfl | ⟨v, c, rfl⟩ := List.eq_nil_or_concat' w
    · obtain ⟨c, cs, hc, -⟩ := h [] nofun
      cases hc
    · refine ⟨v, c, rfl, ?_⟩
      rintro rfl
      exact hw List.getLast?_concat
  · exact ⟨[t], .other ht .nil, readsAs_of_frontReads h⟩

theorem toList_intercalate_cons (sep w : String) (ws : List String) :
    (sep.intercalate (w :: ws)).toList =
      w.toList ++ ws.flatMap fun v => sep.toList ++ v.toList := by
  induction ws generalizing w with
  | nil => simp
  | cons v ws ih =>
    have hv : (sep.intercalate (w :: v :: ws)).toList =
        w.toList ++ (sep.toList ++ (sep.intercalate (v :: ws)).toList) := by
      simp [String.toList_intercalate, List.intercalate]
    rw [hv, ih, List.flatMap_cons, List.append_assoc]

def ReadsNumber (w : String) (u : Token) : Prop :=
  ∀ rest, IsBoundary rest → FrontReads true w.toList rest u

def ReadsItem (w : String) (us : List Token) : Prop :=
  ∀ {gap rest : List Char} {ts : List Token}, IsGap gap → IsBoundary rest →
    (∀ op, Spells op rest ts) → Spells false (gap ++ (w.toList ++ rest)) (us ++ ts)

theorem ReadsNumber.readsItem {w : String} {u : Token} (h : ReadsNumber w u) : ReadsItem w [u] := by
  intro gap rest ts hg hr hs
  apply Spells.step hg _ (hs _)
  rw [Bool.not_false, Bool.or_true]
  exact h rest hr

def listTokens : List Token → List Token
  | [] => [.simple .closeParenth]
  | u :: us => u :: us.flatMap (fun v => [.simple .comma, v]) ++ [.simple .closeParenth]

def itemTokens : List (List Token) → List Token
  | [] => [.simple .closeParenth]
  | us :: uss => us ++ uss.flatMap (fun vs => .simple .comma :: vs) ++ [.simple .closeParenth]

theorem itemTokens_map_singleton (us : List Token) :
    itemTokens (us.map fun u => [u]) = listTokens us := by
  cases us with
  | nil => rfl
  | cons u us => simp [itemTokens, listTokens, List.flatMap_map]

section

variable {rest : List Char} {ws : List String} {us ts : List Token} {uss : List (List Token)}
  {op : Bool}

theorem isBoundary_items (ws : List String) (rest : List Char) :
    IsBoundary (ws.flatMap (fun v => ", ".toList ++ v.toList) ++ ')' :: rest) := by
  cases ws with
  | nil => exact isBoundary_cons (by decide) (by decide) _
  | cons w ws => exact isBoundary_cons (by decide) (by decide) _

theorem frontReads_listSign {signed : Bool} {c : Char} {tag : Tag}
    (h : Cursor.sign? c = some tag) (hc : c ∈ ['(', ',', ')']) :
    FrontReads signed [c] rest (.simple tag) := by
  apply frontReads_sign h
  right
  simp only [List.mem_cons, List.not_mem_nil, or_false] at hc
  rcases hc with rfl | rfl | rfl
  all_goals decide

theorem spells_items (h : List.Forall₂ ReadsItem ws uss) (hs : ∀ op, Spells op rest ts) :
    Spells op (ws.flatMap (fun v => ", ".toList ++ v.toList) ++ ')' :: rest)
      (uss.flatMap (fun vs => .simple .comma :: vs) ++ .simple .closeParenth :: ts) := by
  induction h generalizing op with
  | nil => exact .step isGap_nil (frontReads_listSign rfl (by decide)) (hs _)
  | @cons w us ws uss hw _ ih =>
    have hitem : Spells false ([' '] ++ (w.toList ++ _)) (us ++ _) :=
      hw isGap_blank (isBoundary_items ws rest) fun _ => ih
    have hcomma : Spells op ([] ++ ([','] ++ _)) (.simple .comma :: _) :=
      .step isGap_nil (frontReads_listSign rfl (by decide)) hitem
    simpa using hcomma

theorem spells_listText (h : List.Forall₂ ReadsItem ws uss) (hs : ∀ op, Spells op rest ts) :
    Spells false ((Literal.listText ws).toList ++ rest)
      (.simple .openParenth :: itemTokens uss ++ ts) := by
  have hopen : ∀ {cs : List Char} {vs : List Token}, Spells false cs vs →
      Spells false ('(' :: cs) (.simple .openParenth :: vs) := by
    intro cs vs hv
    exact .step isGap_nil (frontReads_listSign rfl (by decide)) hv
  cases h with
  | nil =>
    have hclose := hopen (@spells_items rest [] ts [] false .nil hs)
    simpa [Literal.listText, itemTokens] using hclose
  | @cons w us ws uss hw hws =>
    have hitem : Spells false ([] ++ (w.toList ++ _)) (us ++ _) :=
      hw isGap_nil (isBoundary_items ws rest) fun _ => spells_items hws hs
    have htext : (Literal.listText (w :: ws)).toList =
        '(' :: (w.toList ++ ws.flatMap (fun v => ", ".toList ++ v.toList) ++ [')']) := by
      rw [Literal.listText, String.toList_append, String.toList_append, toList_intercalate_cons]
      simp
    rw [htext]
    simpa [itemTokens] using hopen hitem

end

theorem readsAs_items {tag : Tag} {word : String} {ws : List String} {uss : List (List Token)}
    (hw : tag.keyword? = some word) (h : List.Forall₂ ReadsItem ws uss)
    (hop : Token.isOperand (.simple tag) = false) :
    ReadsAs (word ++ Literal.listText ws).toList
      (.simple tag :: .simple .openParenth :: itemTokens uss) := by
  intro gap rest op ts hg _ _ hs
  have hlist := spells_listText h hs
  have hword : FrontReads (!gap.isEmpty || !op) word.toList
      ((Literal.listText ws).toList ++ rest) (.simple tag) := by
    apply frontReads_keyword hw
    simp only [Literal.listText, String.toList_append, List.append_assoc]
    exact isBoundary_cons (by decide) (by decide) _
  have hall := Spells.step hg hword (hop ▸ hlist)
  simpa using hall

theorem readsAs_list {tag : Tag} {word : String} {ws : List String} {us : List Token}
    (hw : tag.keyword? = some word) (h : List.Forall₂ ReadsNumber ws us)
    (hop : Token.isOperand (.simple tag) = false) :
    ReadsAs (word ++ Literal.listText ws).toList
      (.simple tag :: .simple .openParenth :: listTokens us) := by
  rw [← itemTokens_map_singleton]
  refine readsAs_items hw ?_ hop
  exact List.forall₂_map_right_iff.mpr (h.imp fun _ _ hn => hn.readsItem)

theorem exists_last_listText (word : String) (ws : List String) :
    ∃ v c, (word ++ Literal.listText ws).toList = v ++ [c] ∧ c ≠ '\n' :=
  ⟨(word ++ ("(" ++ ", ".intercalate ws)).toList, ')', by simp [Literal.listText], by decide⟩

/-- A reserved word with a list is read as what is gathered from it. -/
theorem legible_list {tag : Tag} {word : String} {ws : List String} {us : List Token} {t : Token}
    (hw : tag.keyword? = some word) (h : List.Forall₂ ReadsNumber ws us)
    (hop : Token.isOperand (.simple tag) = false)
    (hc : Composes (.simple tag :: .simple .openParenth :: listTokens us) [t]) :
    Legible (word ++ Literal.listText ws).toList t :=
  ⟨exists_last_listText word ws, _, hc, readsAs_list hw h hop⟩

namespace Token

def floats : Token → List Binary32
  | .float x => [x]
  | .pair x y => [x, y]
  | .vector x y z => [x, y, z]
  | _ => []

theorem exists_of_floats_ne_nil {t : Token} (ht : t.floats ≠ []) :
    (∃ x, t = .float x) ∨ (∃ x y, t = .pair x y) ∨ ∃ x y z, t = .vector x y z := by
  cases t with
  | float x => exact Or.inl ⟨x, rfl⟩
  | pair x y => exact Or.inr (Or.inl ⟨x, y, rfl⟩)
  | vector x y z => exact Or.inr (Or.inr ⟨x, y, z, rfl⟩)
  | _ => exact absurd rfl ht

end Token

theorem getLast?_ne_newline {w : List Char} (h : ∀ c ∈ w, c ≠ '\n') : w.getLast? ≠ some '\n' := by
  intro hl
  exact h '\n' (List.mem_of_getLast? hl) rfl

theorem IsPlain.ne {c d : Char} (h : IsPlain c)
    (hd : isNameChar d = false ∧ d ≠ '.' ∧ d ≠ '-') : c ≠ d := by
  rintro rfl
  rcases h with h | h | h
  · rw [hd.1] at h
    cases h
  · exact hd.2.1 h
  · exact hd.2.2 h

theorem IsPlain.ne_newline {c : Char} (h : IsPlain c) : c ≠ '\n' := h.ne (by decide)

namespace Numeral

theorem isPlain_of_mem_decimal {n : Nat} {c : Char} (h : c ∈ (decimal n).toList) : IsPlain c := by
  rw [decimal, String.toList_ofList] at h
  exact isPlain_of_isDigit (Nat.isDigit_of_mem_toDigits (by omega) (by omega) h)

theorem isPlain_of_mem_signed {i : Int} {c : Char} (h : c ∈ (signed i).toList) : IsPlain c := by
  unfold signed at h
  split at h
  · rw [String.toList_append] at h
    rcases List.mem_append.mp h with h | h
    · exact Or.inr (Or.inr (by simpa using h))
    · exact isPlain_of_mem_decimal h
  · exact isPlain_of_mem_decimal h

theorem legible_signed (v : Int32) : Legible (signed v.toInt).toList (.integer v) := by
  apply legible_of_frontReads
  · intro rest hr
    exact frontReads_signed v hr.isBoundary
  · exact id
  · apply getLast?_ne_newline
    intro c hc
    exact (isPlain_of_mem_signed hc).ne_newline

theorem legible_hex (v : UInt32) : Legible ("0x" ++ hex v.toNat).toList (.hexInteger v) := by
  apply legible_of_frontReads
  · intro rest hr
    exact frontReads_hex v hr.isBoundary
  · exact id
  · apply getLast?_ne_newline
    intro c hc
    have hc : c = '0' ∨ c = 'x' ∨ c ∈ Nat.toDigits 16 v.toNat := by simpa [hex] using hc
    rcases hc with rfl | rfl | hc
    · decide
    · decide
    · exact IsPlain.ne_newline (Or.inl (isNameChar_of_isHexDigit (isHexDigit_of_mem_toDigits hc)))

end Numeral

theorem Binary32.legible_text {x : Binary32} (hx : x.IsReadable) :
    Legible x.text.toList (.float x) := by
  apply legible_of_frontReads
  · intro rest hr
    exact frontReads_text hx hr.isBoundary
  · exact id
  · apply getLast?_ne_newline
    intro c hc
    exact (isPlain_of_mem_text hc).ne_newline

namespace Literal

variable {names : NameTable}

theorem legible_stringText (bytes : List UInt8) :
    Legible (stringText bytes).toList (.string bytes) := by
  apply legible_of_frontReads
  · exact fun rest _ => frontReads_string bytes
  · exact id
  · have htext : (stringText bytes).toList = ('"' :: (escapeText bytes).toList) ++ ['"'] := by
      simp [stringText]
    rw [htext, List.getLast?_concat]
    decide

theorem legible_localString (bytes : List UInt8) :
    Legible ("#" ++ stringText bytes).toList (.localString bytes) := by
  apply legible_of_frontReads
  · exact fun rest _ => frontReads_localString bytes
  · exact id
  · have htext : ("#" ++ stringText bytes).toList =
        ('#' :: '"' :: (escapeText bytes).toList) ++ ['"'] := by
      simp [stringText]
    rw [htext, List.getLast?_concat]
    decide

theorem newline_notMem_nameText (hq : AllQuotable names) (c : Checksum) :
    '\n' ∉ (nameText names c).toList := by
  have hchecksum : '\n' ∉ (checksumText c).toList := by
    intro h
    have h : '\n' ∈ Numeral.padded 16 8 c.toNat := by
      simpa [checksumText, Checksum.digits, Numeral.paddedHex] using h
    obtain ⟨d, hd, he⟩ := Numeral.exists_digitChar_of_mem_padded (by omega) h
    have hdigit := isHexDigit_digitChar hd
    rw [← he] at hdigit
    revert hdigit
    decide
  unfold nameText
  split
  · rename_i name hn
    have hname : '\n' ∉ name.toList := fun h => (ne_of_isQuotable (hq c name hn) _ h).2 rfl
    split
    · exact hname
    · split
      · simpa using hname
      · exact hchecksum
  · exact hchecksum

theorem legible_nameText (hq : AllQuotable names) (c : Checksum) :
    Legible (nameText names c).toList (nameRef names c).asName := by
  apply legible_of_frontReads
  · intro rest hr
    rw [← text_nameForm, ← ref_nameForm hq]
    exact (nameForm names c).frontReads_text hr.isBoundary
  · cases nameRef names c <;> exact id
  · apply getLast?_ne_newline
    rintro d hd rfl
    exact newline_notMem_nameText hq c hd

theorem legible_argText (hq : AllQuotable names) (c : Checksum) :
    Legible ("<" ++ nameText names c ++ ">").toList (nameRef names c).asArg := by
  apply legible_of_frontReads
  · intro rest _
    rw [← text_nameForm, ← ref_nameForm hq]
    exact (nameForm names c).frontReads_arg
  · cases nameRef names c <;> exact id
  · rw [String.toList_append, show ">".toList = ['>'] from rfl, List.getLast?_concat]
    decide

end Literal

theorem newline_notMem_text? : ∀ tag ∈ Tag.all, ∀ text ∈ tag.text?, '\n' ∉ text.toList := by
  decide +kernel

theorem not_startsList_of_isPhrase {tag : Tag} (h : (Token.simple tag).IsPhrase) :
    ¬ StartsList (.simple tag) := by
  rcases h with ⟨-, hl | rfl | rfl⟩
  · rintro (rfl | rfl | hr)
    · cases hl
    · cases hl
    · revert hl hr
      cases tag <;> simp [Tag.layout, Tag.isRandomHeader]
  · rintro (h | h | h) <;> cases h
  · rintro (h | h | h) <;> cases h

theorem legible_tag {tag : Tag} (h : (Token.simple tag).IsPhrase) (hne : tag ≠ .endOfLine) :
    ∃ text, tag.text? = some text ∧ Legible text.toList (.simple tag) := by
  obtain ⟨text, ht, hi, he⟩ := exists_text? h hne
  refine ⟨text, ht, ?_⟩
  apply legible_of_frontReads
  · intro rest hr
    exact frontReads_tag ht hi he hr
  · exact not_startsList_of_isPhrase h
  · apply getLast?_ne_newline
    rintro c hc rfl
    exact newline_notMem_text? tag tag.mem_all text ht hc

theorem readsNumber_decimal (n : Nat) :
    ReadsNumber (Numeral.decimal n) (.integer (Int32.ofInt n)) := by
  intro rest hr
  exact Numeral.frontReads_decimal n hr

theorem readsNumber_text {x : Binary32} (hx : x.IsReadable) : ReadsNumber x.text (.float x) := by
  intro rest hr
  exact Binary32.frontReads_text hx hr

theorem weight?_toNat (w : UInt16) : weight? (.integer (Int32.ofInt w.toNat)) = some w := by
  have h : (Int32.ofInt w.toNat).toUInt32 = UInt32.ofNat w.toNat := by
    rw [← UInt32.toBitVec_inj]
    exact BitVec.ofInt_natCast 32 w.toNat
  rw [weight?, h, UInt32.toUInt16_ofNat', UInt16.ofNat_toNat]

def weightTokens (ws : List UInt16) : List Token :=
  ws.map fun w => .integer (Int32.ofInt w.toNat)

theorem weightList_listTokens (ws : List UInt16) :
    WeightList (listTokens (weightTokens ws)) ws := by
  induction ws with
  | nil => exact .close
  | cons w ws ih =>
    cases ws with
    | nil => exact .last (weight?_toNat w)
    | cons v ws => exact .more (weight?_toNat w) ih

theorem legible_pair {x y : Binary32} (hx : x.IsReadable) (hy : y.IsReadable) :
    Legible ("PAIR" ++ Literal.listText [x.text, y.text]).toList (.pair x y) := by
  apply @legible_list .pair _ _ [.float x, .float y] _ rfl
  · exact .cons (readsNumber_text hx) (.cons (readsNumber_text hy) .nil)
  · rfl
  · exact .pair rfl rfl .nil

theorem legible_vector {x y z : Binary32} (hx : x.IsReadable) (hy : y.IsReadable)
    (hz : z.IsReadable) :
    Legible ("VECTOR" ++ Literal.listText [x.text, y.text, z.text]).toList (.vector x y z) := by
  apply @legible_list .vector _ _ [.float x, .float y, .float z] _ rfl
  · exact .cons (readsNumber_text hx) (.cons (readsNumber_text hy)
      (.cons (readsNumber_text hz) .nil))
  · rfl
  · exact .vector rfl rfl rfl .nil

theorem readsNumber_weights (ws : List UInt16) :
    List.Forall₂ ReadsNumber (ws.map fun w => Numeral.decimal w.toNat) (weightTokens ws) := by
  rw [weightTokens, List.forall₂_map_left_iff, List.forall₂_map_right_iff, List.forall₂_same]
  exact fun w _ => readsNumber_decimal w.toNat

theorem exists_keyword?_of_isRandomHeader {tag : Tag} (ht : tag.isRandomHeader) :
    ∃ word, tag.keyword? = some word ∧ Token.isOperand (.simple tag) = false := by
  revert ht
  cases tag <;> intro ht <;> first | exact ⟨_, rfl, rfl⟩ | cases ht

theorem legible_random {tag : Tag} (ht : tag.isRandomHeader) (ws : List UInt16) :
    Legible ((tag.keyword?.getD "RANDOM") ++
      Literal.listText (ws.map fun w => Numeral.decimal w.toNat)).toList
      (.random tag ws (List.replicate ws.length 0)) := by
  obtain ⟨word, hw, hop⟩ := exists_keyword?_of_isRandomHeader ht
  rw [hw, Option.getD_some]
  apply legible_list hw (readsNumber_weights ws) hop
  have hc := Composes.random ht (weightList_listTokens ws) .nil
  simpa using hc

section

variable {names : NameTable} {t : Token}

theorem respelled_checksum (c : Checksum) :
    (Token.nameChecksum c).respelled names = (Literal.nameRef names c).asName ∧
      (Token.argChecksum c).respelled names = (Literal.nameRef names c).asArg := by
  unfold Literal.nameRef
  cases hn : names.get? c <;> simp [Token.respelled, Token.checksum?, hn, Name.Ref.asName,
    Name.Ref.asArg]

theorem respelled_text {text : String} (h : (names.get? (Checksum.ofName text)).isSome) :
    (Token.name text).respelled names =
        (Literal.nameRef names (Checksum.ofName text)).asName ∧
      (Token.arg text).respelled names =
        (Literal.nameRef names (Checksum.ofName text)).asArg := by
  unfold Literal.nameRef
  obtain ⟨first, hn⟩ := Option.isSome_iff_exists.mp h
  simp [Token.respelled, Token.checksum?, hn, Name.Ref.asName, Name.Ref.asArg]

/-- What a listing needs to say a phrase again: the names and the floats in it can be read. -/
structure Token.IsListable (names : NameTable) (t : Token) : Prop where
  isPhrase : t.IsPhrase
  isSome_name : ∀ text, t.spelling? = some text → (names.get? (Checksum.ofName text)).isSome
  isReadable : ∀ x ∈ t.floats, x.IsReadable

theorem Token.IsListable.exists_word (h : t.IsListable names) (hq : Literal.AllQuotable names)
    (hne : t ≠ .simple .endOfLine) :
    ∃ w, t.listing names = [.word w] ∧ Legible w.text.toList (t.respelled names) := by
  obtain ⟨ht, hn, hf⟩ := h
  cases t with
  | simple tag =>
    have hne : tag ≠ .endOfLine := fun he => hne (by rw [he])
    obtain ⟨text, htext, hl⟩ := legible_tag ht hne
    by_cases he : tag = .randomEnd
    · subst he
      cases htext
      exact ⟨_, rfl, hl⟩
    · refine ⟨⟨text, tag.shift⟩, ?_, hl⟩
      have ha := ht.1
      rw [Assembly.listing_of_ne (by simpa using he)]
      cases tag <;> first
        | exact absurd rfl hne
        | exact absurd rfl ha
        | simp [contents, parts, elements, htext]
  | name text =>
    refine ⟨_, rfl, ?_⟩
    rw [(respelled_text (hn text rfl)).1]
    exact Literal.legible_nameText hq _
  | arg text =>
    refine ⟨_, rfl, ?_⟩
    rw [(respelled_text (hn text rfl)).2]
    exact Literal.legible_argText hq _
  | nameChecksum c =>
    refine ⟨_, rfl, ?_⟩
    rw [(respelled_checksum c).1]
    exact Literal.legible_nameText hq c
  | argChecksum c =>
    refine ⟨_, rfl, ?_⟩
    rw [(respelled_checksum c).2]
    exact Literal.legible_argText hq c
  | integer v => exact ⟨_, rfl, Numeral.legible_signed v⟩
  | hexInteger v => exact ⟨_, rfl, Numeral.legible_hex v⟩
  | float x => exact ⟨_, rfl, Binary32.legible_text (hf x (by simp [floats]))⟩
  | string bytes => exact ⟨_, rfl, Literal.legible_stringText bytes⟩
  | localString bytes => exact ⟨_, rfl, Literal.legible_localString bytes⟩
  | pair x y =>
    exact ⟨_, rfl, legible_pair (hf x (by simp [floats])) (hf y (by simp [floats]))⟩
  | vector x y z =>
    exact ⟨_, rfl, legible_vector (hf x (by simp [floats])) (hf y (by simp [floats]))
      (hf z (by simp [floats]))⟩
  | random tag ws js =>
    obtain ⟨hr, rfl⟩ := ht
    exact ⟨_, rfl, legible_random hr ws⟩
  | endOfLineNumber | jump | shortBranch | checksumName => exact ht.elim

end

end QbScript
