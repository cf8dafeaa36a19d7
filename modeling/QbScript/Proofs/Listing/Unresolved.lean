import QbScript.Proofs.Listing.Independence
import QbScript.Proofs.Listing.Legible
import QbScript.Proofs.Listing.Names

/-!
# Unresolved names

A stream that is listed may refer to names that are not in its table, and to names that cannot stand
in quotes. Both are listed by their checksums, but only the first are reported.
-/

set_option autoImplicit false

namespace QbScript

open Bytecode

def Bytecode.RefersTo (b : Bytecode) (c : Checksum) : Prop :=
  ∃ pos, (pos, .nameChecksum c) ∈ b.scan.tokens

def ShowsChecksum (es : List Element) (c : Checksum) : Prop :=
  .plain (Literal.checksumText c) ∈ es ∨ .plain ("<" ++ Literal.checksumText c ++ ">") ∈ es

theorem Token.unknown?_eq_some_iff {names : NameTable} {t : Token} {c : Checksum} :
    t.unknown? names = some c ↔ t = .nameChecksum c ∧ names.get? c = none := by
  cases t with
  | nameChecksum k =>
    simp only [Token.unknown?, Option.ite_none_right_eq_some, Option.isNone_iff_eq_none,
      Option.some.injEq, Token.nameChecksum.injEq]
    constructor
    · rintro ⟨hn, rfl⟩
      exact ⟨rfl, hn⟩
    · rintro ⟨rfl, hn⟩
      exact ⟨hn, rfl⟩
  | _ => simp [Token.unknown?]

theorem mem_unknownNames_iff {names : NameTable} {tokens : List (Nat × Token)} {c : Checksum} :
    c ∈ unknownNames names tokens ↔
      (∃ pos, (pos, .nameChecksum c) ∈ tokens) ∧ names.get? c = none := by
  simp only [unknownNames_eq, List.mem_filterMap, Token.unknown?_eq_some_iff, List.mem_map]
  constructor
  · rintro ⟨_, ⟨⟨pos, _⟩, hp, rfl⟩, rfl, hn⟩
    exact ⟨⟨pos, hp⟩, hn⟩
  · rintro ⟨⟨pos, hp⟩, hn⟩
    exact ⟨_, ⟨_, hp, rfl⟩, rfl, hn⟩

section

variable {options : ListingOptions} {s : Survey} {tokens : List (Nat × Token)}

theorem pairwise_unresolved : (listing options s tokens).unresolved.Pairwise (· < ·) := by
  have h := Std.TreeSet.ordered_toList (t := Std.TreeSet.ofList (unknownNames s.names tokens))
  exact h.imp fun hab => Std.compare_eq_lt.mp hab

theorem mem_unresolved_iff {c : Checksum} :
    c ∈ (listing options s tokens).unresolved ↔
      (∃ pos, (pos, .nameChecksum c) ∈ tokens) ∧ s.names.get? c = none := by
  rw [← mem_unknownNames_iff, listing, Std.TreeSet.mem_toList, Std.TreeSet.mem_ofList,
    List.contains_iff_mem]

end

namespace Literal

def StartsOther (text : String) : Prop :=
  text.toList.head? ≠ some '%' ∧ text.toList.take 2 ≠ ['<', '%']

instance (text : String) : Decidable (StartsOther text) := inferInstanceAs (Decidable (_ ∧ _))

theorem startsOther_of_head? {text : String} (h : ∀ c ∈ text.toList.head?, c ≠ '%' ∧ c ≠ '<') :
    StartsOther text := by
  unfold StartsOther
  cases hl : text.toList with
  | nil => simp
  | cons c cs =>
    obtain ⟨hp, ha⟩ := h c (by rw [hl]; rfl)
    simp [hp, ha]

theorem startsOther_append {s : String} (h : s.toList.head?.any fun c => c ≠ '%' && c ≠ '<')
    (u : String) : StartsOther (s ++ u) := by
  apply startsOther_of_head?
  intro c hc
  rw [String.toList_append] at hc
  cases hs : s.toList with
  | nil => simp [hs] at h
  | cons d ds =>
    obtain rfl : d = c := by simpa [hs] using hc
    simpa [hs] using h

theorem startsOther_stringText (bytes : List UInt8) : StartsOther (stringText bytes) := by
  rw [stringText]
  exact startsOther_append (by simp) _

theorem startsOther_of_isPlain {text : String} (h : ∀ c ∈ text.toList, IsPlain c) :
    StartsOther text := by
  apply startsOther_of_head?
  intro c hc
  have hplain := h c (List.mem_of_head? hc)
  exact ⟨hplain.ne (by decide), hplain.ne (by decide)⟩

theorem StartsOther.ne {text : String} (h : StartsOther text) (c : Checksum) :
    text ≠ checksumText c ∧ text ≠ "<" ++ checksumText c ++ ">" := by
  constructor
  · rintro rfl
    exact h.1 (by simp [checksumText])
  · rintro rfl
    exact h.2 (by simp [checksumText])

/-- A form of a name that is the text of a checksum refers to this checksum. -/
theorem NameForm.ref_of_text_eq {f : NameForm} {c : Checksum} (h : f.text = checksumText c) :
    f.ref = .checksum c := by
  have hlist : f.text.toList = '%' :: '(' :: '0' :: 'x' :: (c.digits.toList ++ [')']) := by
    rw [h]
    simp [checksumText]
  rcases f.cases with ⟨s, hw, -, ht, -⟩ | ⟨body, ht, hp⟩
  · obtain ⟨d, ds, hs, hd, -⟩ := exists_of_isWord hw
    rw [ht, hs] at hlist
    obtain ⟨rfl, -⟩ := List.cons.inj hlist
    exact absurd hd (by decide)
  · rw [ht] at hlist
    obtain ⟨-, rfl⟩ := List.cons.inj hlist
    have hread := (hp []).symm.trans (by simpa using @percent_checksum [] c)
    injection hread with hresult
    exact Except.ok.inj hresult

theorem isQuotable_of_isWord {s : String} (h : isWord s) : isQuotable s := by
  have hbounded : ∀ n : Fin 0x80, isNameChar (Char.ofNat n) →
      (Char.ofNat n ≠ '"' && !isControl (Char.ofNat n)) = true := by decide
  have hchar : ∀ c : Char, isNameChar c → (c ≠ '"' && !isControl c) = true := by
    intro c hc
    have h := hbounded ⟨c.toNat, lt_of_isNameChar hc⟩
    rw [Char.ofNat_toNat] at h
    exact h hc
  obtain ⟨c, cs, hs, hc, hcs⟩ := exists_of_isWord h
  rw [isQuotable, hs, List.all_cons, Bool.and_eq_true, List.all_eq_true]
  exact ⟨hchar c (isNameChar_of_isNameStart hc), fun d hd => hchar d (hcs d hd)⟩

theorem head?_nameText (names : NameTable) (c : Checksum) :
    (nameText names c).toList.head? ≠ some '<' := by
  rw [← text_nameForm]
  rcases (nameForm names c).cases with ⟨s, hw, -, ht, -⟩ | ⟨body, ht, -⟩
  · obtain ⟨d, ds, hs, hd, -⟩ := exists_of_isWord hw
    rw [ht, hs, List.head?_cons, ne_eq, Option.some_inj]
    rintro rfl
    exact absurd hd (by decide)
  · simp [ht]

/-- A name is listed by a checksum only if it is its own, and no name that can stand in quotes is
known for it. -/
theorem nameText_eq_checksumText_iff {names : NameTable} {c k : Checksum} :
    nameText names k = checksumText c ↔
      k = c ∧ ∀ name, names.get? c = some name → ¬ isQuotable name := by
  constructor
  · intro h
    rw [← text_nameForm] at h
    have href := NameForm.ref_of_text_eq h
    unfold nameForm at href
    cases hn : names.get? k with
    | none =>
      simp only [hn] at href
      obtain rfl := Name.Ref.checksum.inj href
      exact ⟨rfl, fun name h => by rw [hn] at h; cases h⟩
    | some name =>
      simp only [hn] at href
      split at href
      · cases href
      · split at href
        · cases href
        · rename_i hq
          obtain rfl := Name.Ref.checksum.inj href
          refine ⟨rfl, fun first h => ?_⟩
          obtain rfl := Option.some.inj (hn.symm.trans h)
          exact hq
  · rintro ⟨rfl, h⟩
    unfold nameText
    cases hn : names.get? k with
    | none => rfl
    | some name =>
      have hq := h name hn
      have hw : isWord name = false := by
        rw [Bool.eq_false_iff]
        exact fun hw => hq (isQuotable_of_isWord hw)
      simp [hw, hq]

end Literal

theorem startsOther_text? : ∀ tag ∈ Tag.all, ∀ text ∈ tag.text?, Literal.StartsOther text := by
  decide +kernel

/-- Only names are listed as checksums. -/
theorem Token.startsOther_of_mem_elements {names : NameTable} {isArg : Bool} {t : Token} {w : Word}
    (ht : ∀ c, t ≠ .nameChecksum c) (hw : .word w ∈ t.elements names isArg) :
    Literal.StartsOther w.text := by
  have htag : ∀ tag : Tag, .word w ∈ (tag.text?.map fun text =>
      Element.word ⟨text, tag.shift⟩).toList → Literal.StartsOther w.text := by
    intro tag hm
    cases hx : tag.text? with
    | none => simp [hx] at hm
    | some text =>
      obtain rfl : w = ⟨text, tag.shift⟩ := by simpa [hx] using hm
      exact startsOther_text? tag (Tag.mem_all tag) text hx
  have hplain : ∀ text, Literal.StartsOther text → .word w ∈ [Element.plain text] →
      Literal.StartsOther w.text := by
    intro text htext hm
    obtain rfl := Element.word.inj (List.mem_singleton.mp hm)
    exact htext
  have hheader : ∀ tag ∈ Tag.all, (tag.keyword?.getD "RANDOM").toList.head?.any
      fun c => c ≠ '%' && c ≠ '<' := by decide +kernel
  cases t with
  | nameChecksum c => exact absurd rfl (ht c)
  | simple tag =>
    unfold Token.elements at hw
    split at hw
    all_goals first | exact htag _ hw | simp_all
  | shortBranch tag d => exact htag tag hw
  | integer v =>
    exact hplain _ (Literal.startsOther_of_isPlain fun c => Numeral.isPlain_of_mem_signed) hw
  | float x =>
    exact hplain _ (Literal.startsOther_of_isPlain fun c => Binary32.isPlain_of_mem_text) hw
  | hexInteger v => exact hplain ("0x" ++ _) (Literal.startsOther_append rfl _) hw
  | string bytes => exact hplain _ (Literal.startsOther_stringText bytes) hw
  | localString bytes => exact hplain ("#" ++ _) (Literal.startsOther_append rfl _) hw
  | pair x y => exact hplain ("PAIR" ++ _) (Literal.startsOther_append rfl _) hw
  | vector x y z => exact hplain ("VECTOR" ++ _) (Literal.startsOther_append rfl _) hw
  | random tag ws js =>
    obtain rfl := Element.word.inj (List.mem_singleton.mp hw)
    exact Literal.startsOther_append (hheader tag (Tag.mem_all tag)) _
  | endOfLineNumber => cases List.mem_singleton.mp hw
  | _ => cases hw

theorem Label.startsOther_of_mem_elements {options : ListingOptions} {pos : Nat} {l : Label}
    {w : Word} (hw : .word w ∈ l.elements options pos) : Literal.StartsOther w.text := by
  unfold Label.elements at hw
  split at hw
  · split at hw
    · obtain rfl := Element.word.inj (List.mem_singleton.mp hw)
      rw [String.append_assoc]
      exact Literal.startsOther_append (s := "LABEL_") rfl _
    · cases hw
  · obtain rfl := Element.word.inj (List.mem_singleton.mp hw)
    exact by decide
  · obtain rfl := Element.word.inj (List.mem_singleton.mp hw)
    exact by decide

section

variable {names : NameTable} {marks : Nat → List Element} {isArg : Bool}
  {tokens : List (Nat × Token)} {c : Checksum}

theorem mem_markedElements {e : Element} (h : e ∈ markedElements names marks isArg tokens) :
    (∃ pos, e ∈ marks pos) ∨ ∃ t ∈ tokens, ∃ isArg, e ∈ t.2.elements names isArg := by
  induction tokens generalizing isArg with
  | nil => cases h
  | cons t tokens ih =>
    rw [markedElements, List.append_assoc, List.mem_append, List.mem_append] at h
    rcases h with h | h | h
    · exact Or.inl ⟨t.1, h⟩
    · exact Or.inr ⟨t, List.mem_cons_self, isArg, h⟩
    · rcases ih h with hm | ⟨u, hu, hm⟩
      · exact Or.inl hm
      · exact Or.inr ⟨u, List.mem_cons_of_mem t hu, hm⟩

theorem exists_elements_subset {t : Nat × Token} (h : t ∈ tokens) :
    ∃ isArg', t.2.elements names isArg' ⊆ markedElements names marks isArg tokens := by
  induction tokens generalizing isArg with
  | nil => cases h
  | cons u tokens ih =>
    rw [markedElements]
    rcases List.mem_cons.mp h with rfl | h
    · exact ⟨isArg, fun e he => List.mem_append_left _ (List.mem_append_right _ he)⟩
    · exact (ih h).imp fun _ hs => fun e he => List.mem_append_right _ (hs he)

/-- A name or an argument that is shown as a checksum is listed by it. -/
theorem nameText_eq_of_shows {k : Checksum} {text : String}
    (ht : text = if isArg then "<" ++ Literal.nameText names k ++ ">" else Literal.nameText names k)
    (h : text = Literal.checksumText c ∨ text = "<" ++ Literal.checksumText c ++ ">") :
    Literal.nameText names k = Literal.checksumText c := by
  rcases h with rfl | rfl
  · cases isArg with
    | false => exact ht.symm
    | true =>
      have hhead := congrArg (fun s => s.toList.head?) ht
      simp [Literal.checksumText] at hhead
  · cases isArg with
    | false =>
      have hhead := congrArg (fun s => s.toList.head?) ht
      exact absurd (by simpa using hhead.symm) (Literal.head?_nameText names k)
    | true => simpa [← String.toList_inj] using ht.symm

/-- The elements of a stream show a checksum exactly if the stream refers to it and no name that can
stand in quotes is known for it. -/
theorem showsChecksum_iff (hm : ∀ pos w, .word w ∈ marks pos → Literal.StartsOther w.text) :
    ShowsChecksum (markedElements names marks isArg tokens) c ↔
      (∃ pos, (pos, .nameChecksum c) ∈ tokens) ∧
        ∀ name, names.get? c = some name → ¬ Literal.isQuotable name := by
  constructor
  · intro h
    obtain ⟨text, hmem, htext⟩ : ∃ text, .plain text ∈ markedElements names marks isArg tokens ∧
        (text = Literal.checksumText c ∨ text = "<" ++ Literal.checksumText c ++ ">") :=
      h.elim (fun h => ⟨_, h, Or.inl rfl⟩) fun h => ⟨_, h, Or.inr rfl⟩
    have hother : ¬ Literal.StartsOther text := fun ho =>
      htext.elim (ho.ne c).1 (ho.ne c).2
    rcases mem_markedElements hmem with ⟨pos, hp⟩ | ⟨⟨pos, t⟩, ht, isArg, he⟩
    · exact absurd (hm pos _ hp) hother
    · -- Of the tokens only names can be shown so.
      by_cases hk : ∃ k, t = .nameChecksum k
      · obtain ⟨k, rfl⟩ := hk
        have hshown := congrArg Word.text (Element.word.inj (List.mem_singleton.mp he))
        obtain ⟨rfl, hq⟩ :=
          Literal.nameText_eq_checksumText_iff.mp (nameText_eq_of_shows hshown htext)
        exact ⟨⟨pos, ht⟩, hq⟩
      · exact absurd (Token.startsOther_of_mem_elements (fun k h => hk ⟨k, h⟩) he) hother
  · rintro ⟨⟨pos, hp⟩, hq⟩
    have htext : Literal.nameText names c = Literal.checksumText c :=
      Literal.nameText_eq_checksumText_iff.mpr ⟨rfl, hq⟩
    obtain ⟨isArg', hsub⟩ := @exists_elements_subset names marks isArg _ _ hp
    cases isArg' with
    | false => exact Or.inl (hsub (List.mem_singleton.mpr (by rw [htext]; rfl)))
    | true => exact Or.inr (hsub (List.mem_singleton.mpr (by rw [htext]; rfl)))

end

/-- What a listing tells about the names of a stream. -/
structure Listing.Reports (l : Listing) (options : ListingOptions) (b : Bytecode) (s : Survey) :
    Prop where
  text : l.text = (Sheet.ofElements (elements options s b.scan.tokens)).text options.indent
  ascending : l.unresolved.Pairwise (· < ·)
  /-- What is reported is referred to and has no name. -/
  unresolved : ∀ c, c ∈ l.unresolved ↔ b.RefersTo c ∧ s.names.get? c = none
  /-- What is shown as a checksum may also have a name that cannot stand in quotes. -/
  shown : ∀ c, ShowsChecksum (elements options s b.scan.tokens) c ↔
    b.RefersTo c ∧ ∀ name, s.names.get? c = some name → ¬ Literal.isQuotable name
  /-- Both are the same if there are no such names, and only then. -/
  complete : (∀ c, c ∈ l.unresolved ↔ ShowsChecksum (elements options s b.scan.tokens) c) ↔
    ∀ c name, b.RefersTo c → s.names.get? c = some name → Literal.isQuotable name

/-- Which names are reported as unresolved. Of every stream that is listed, under all options, they
are in ascending order the checksums that the stream refers to and that no name is known for. These
are all that the listing shows as checksums, unless the stream refers to a known name that cannot
stand in quotes: it is shown as a checksum, but not reported. -/
theorem unresolved_of_disassemble {options : ListingOptions} {b : Bytecode} {l : Listing}
    (h : (disassemble options b).result = .ok l) :
    ∃ s, (resolve b).result = .ok s ∧ l.Reports options b s := by
  unfold disassemble at h
  dsimp only at h
  split at h
  · cases h
  · rename_i s hs
    obtain rfl := Except.ok.inj h
    have hunresolved : ∀ c, c ∈ (listing options s b.scan.tokens).unresolved ↔
        b.RefersTo c ∧ s.names.get? c = none := fun c => mem_unresolved_iff
    have hshown : ∀ c, ShowsChecksum (elements options s b.scan.tokens) c ↔
        b.RefersTo c ∧ ∀ name, s.names.get? c = some name → ¬ Literal.isQuotable name := by
      intro c
      rw [elements_eq]
      apply showsChecksum_iff
      intro pos w hw
      obtain ⟨label, -, hw⟩ := List.mem_flatMap.mp hw
      exact Label.startsOther_of_mem_elements hw
    refine ⟨s, hs, rfl, pairwise_unresolved, hunresolved, hshown, ?_, ?_⟩
    · intro hsame c name hr hname
      -- A name that cannot stand in quotes would be shown, and so it would not be known.
      by_contra hq
      have hmem : c ∈ (listing options s b.scan.tokens).unresolved := by
        rw [hsame, hshown]
        refine ⟨hr, fun first hf => ?_⟩
        obtain rfl := Option.some.inj (hname.symm.trans hf)
        exact hq
      rw [((hunresolved c).mp hmem).2] at hname
      cases hname
    · intro hq c
      rw [hunresolved, hshown]
      refine and_congr_right fun hr => ⟨fun hn name hname => ?_, fun hn => ?_⟩
      · rw [hn] at hname
        cases hname
      · cases hname : s.names.get? c with
        | none => rfl
        | some name => exact absurd (hq c name hr hname) (hn name hname)

/-- A name that is known, and a name and an argument that are not. -/
theorem unresolved_of_disassemble_unknown :
    ∃ s l, (disassemble ⟨"\t", false⟩ #[22, 188, 65, 72, 23, 7, 22, 0xef, 0xbe, 0xad, 0xde, 45, 22,
        0x12, 0, 0, 0, 43, 188, 65, 72, 23, 97, 0, 0]).result = .ok l ∧
      l = ⟨"a = %(0xdeadbeef) <%(0x00000012)>", [0x12, 0xdeadbeef]⟩ ∧
      l.Reports ⟨"\t", false⟩ #[22, 188, 65, 72, 23, 7, 22, 0xef, 0xbe, 0xad, 0xde, 45, 22,
        0x12, 0, 0, 0, 43, 188, 65, 72, 23, 97, 0, 0] s := by
  have h : (disassemble ⟨"\t", false⟩ #[22, 188, 65, 72, 23, 7, 22, 0xef, 0xbe, 0xad, 0xde, 45, 22,
      0x12, 0, 0, 0, 43, 188, 65, 72, 23, 97, 0, 0]).result =
      .ok ⟨"a = %(0xdeadbeef) <%(0x00000012)>", [0x12, 0xdeadbeef]⟩ := by decide +kernel
  obtain ⟨s, -, hreports⟩ := unresolved_of_disassemble h
  exact ⟨s, _, h, rfl, hreports⟩

/-- The name `a"b` is in the table. It cannot stand in quotes, so the listing shows its checksum;
but no name is reported as unresolved. -/
theorem not_reported_of_unquotable_name :
    ∃ s l, (resolve #[22, 174, 193, 165, 77, 43, 174, 193, 165, 77, 97, 34, 98, 0, 0]).result =
        .ok s ∧
      (disassemble ⟨"\t", false⟩
        #[22, 174, 193, 165, 77, 43, 174, 193, 165, 77, 97, 34, 98, 0, 0]).result = .ok l ∧
      l = ⟨"%(0x4da5c1ae)", []⟩ ∧
      ¬ ∀ c, c ∈ l.unresolved ↔ ShowsChecksum (elements ⟨"\t", false⟩ s
        (Bytecode.scan #[22, 174, 193, 165, 77, 43, 174, 193, 165, 77, 97, 34, 98, 0, 0]).tokens)
        c := by
  obtain ⟨s, hs⟩ : ∃ s, (resolve #[22, 174, 193, 165, 77, 43, 174, 193, 165, 77, 97, 34, 98, 0,
      0]).result = .ok s := by
    rw [exists_resolve_iff]
    decide +kernel
  have h : (disassemble ⟨"\t", false⟩
      #[22, 174, 193, 165, 77, 43, 174, 193, 165, 77, 97, 34, 98, 0, 0]).result =
      .ok ⟨"%(0x4da5c1ae)", []⟩ := by decide +kernel
  refine ⟨s, _, hs, h, rfl, fun hall => ?_⟩
  have hshown : ShowsChecksum (elements ⟨"\t", false⟩ s
      (Bytecode.scan #[22, 174, 193, 165, 77, 43, 174, 193, 165, 77, 97, 34, 98, 0, 0]).tokens)
      0x4da5c1ae := by
    rw [ofFindings_of_resolve hs]
    exact Or.inl (by decide +kernel)
  cases (hall _).mpr hshown

end QbScript
