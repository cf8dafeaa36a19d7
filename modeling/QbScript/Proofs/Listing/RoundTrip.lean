import QbScript.Proofs.Listing.Independence
import QbScript.Proofs.Listing.Sheet

/-!
# Listings compile to their streams

The listing of a compiled stream is a source of the same stream. Its names have their first
spellings and its line ends may stand more densely; its random blocks may be closed earlier. None of
this shows in the stream.
-/

set_option autoImplicit false

namespace QbScript

open Bytecode Assembly

namespace Assembly

variable {options : CompileOptions} {line : Nat} {lines : LineMap} {a a' : Assembly} {t : Token}
  {ts us : List Token} {links : List Link} {ps : List Phrase} {x : Binary32}

/-- A phrase with floats is written as itself, and nothing else happens. -/
theorem Step.eq_of_floats (h : Step options line a t us links a') (ht : t.floats ≠ []) :
    us = [t] ∧ a' = { a with out := a.out.extend [t] } := by
  obtain ⟨x, rfl⟩ | ⟨x, y, rfl⟩ | ⟨x, y, z, rfl⟩ := Token.exists_of_floats_ne_nil ht
  all_goals
    cases h with
    | plain => exact ⟨rfl, rfl⟩
    | named hn => cases hn

theorem Run.mem_of_floats (h : Run options lines ps ts a) {p : Phrase} (hp : p ∈ ps)
    (hx : x ∈ p.token.floats) : p.token ∈ ts := by
  induction h with
  | start => cases hp
  | step _ _ hs ih =>
    rcases List.mem_append.mp hp with hp | hp
    · exact List.mem_append_left _ (ih hp)
    · obtain rfl := List.mem_singleton.mp hp
      rw [(hs.eq_of_floats (List.ne_nil_of_mem hx)).1]
      exact List.mem_append_right _ List.mem_cons_self

/-- A listing has no phrases but those of the script and ends of random blocks. -/
theorem mem_of_mem_listed {u : Token} (h : u ∈ a.listed t) : u = t ∨ u = .simple .randomEnd := by
  unfold listed at h
  split at h <;> (try split at h) <;> simp at h <;> tauto

theorem mem_of_mem_listedFrom {u : Token} (h : u ∈ listedFrom options lines a ps) :
    (∃ p ∈ ps, u = p.token) ∨ u = .simple .randomEnd := by
  induction ps generalizing a with
  | nil => cases h
  | cons p ps ih =>
    rcases List.mem_append.mp h with h | h
    · exact (mem_of_mem_listed h).imp_left fun he => ⟨p, List.mem_cons_self, he⟩
    · split at h
      · exact (ih h).imp_left fun ⟨q, hq, he⟩ => ⟨q, List.mem_cons_of_mem _ hq, he⟩
      · cases h

end Assembly

theorem Token.floats_blank (t : Token) : t.blank.floats = t.floats := by
  cases t <;> rfl

theorem Token.IsListable.exists_element {names : NameTable} {t : Token} (h : t.IsListable names)
    (hq : Literal.AllQuotable names) :
    ∃ e, t.listing names = [e] ∧ e.Says (t.respelled names) := by
  by_cases he : t = .simple .endOfLine
  · subst he
    exact ⟨.lineEnd, rfl, rfl⟩
  · obtain ⟨w, hw, hl⟩ := h.exists_word hq he
    exact ⟨.word w, hw, hl⟩

/-- What the elements of phrases are related to one by one, so are those of their listing. -/
theorem exists_forall₂_listing {β : Type} {R : Element → β → Prop} {P : Token → β → Prop}
    {names : NameTable} {ts : List Token}
    (h : ∀ t ∈ ts, ∃ e x, t.listing names = [e] ∧ R e x ∧ P t x) :
    ∃ xs, List.Forall₂ R (ts.flatMap (Token.listing names)) xs ∧ List.Forall₂ P ts xs := by
  induction ts with
  | nil => exact ⟨[], .nil, .nil⟩
  | cons t ts ih =>
    obtain ⟨e, x, he, hr, hp⟩ := h t List.mem_cons_self
    obtain ⟨xs, hrs, hps⟩ := ih fun u hu => h u (List.mem_cons_of_mem _ hu)
    refine ⟨x :: xs, ?_, .cons hp hps⟩
    rw [List.flatMap_cons, he]
    exact .cons hr hrs

theorem forall₂_says {names : NameTable} {ts : List Token} (h : ∀ t ∈ ts, t.IsListable names)
    (hq : Literal.AllQuotable names) :
    List.Forall₂ Element.Says (ts.flatMap (Token.listing names))
      (ts.map (Token.respelled names)) := by
  obtain ⟨us, hs, hu⟩ := exists_forall₂_listing (R := Element.Says)
    (P := fun t u => t.respelled names = u) fun t ht => by
      obtain ⟨e, he, hs⟩ := (h t ht).exists_element hq
      exact ⟨e, _, he, hs, rfl⟩
  rw [← List.forall₂_map_left_iff, List.forall₂_eq_eq_eq] at hu
  rwa [hu]

/-- The identifiers of a source have no control characters. -/
def NoControlNames (ls : List Lexeme) : Prop :=
  ∀ l ∈ ls, ∀ text ∈ l.token.spelling?, ∀ c ∈ text.toList, Literal.isControl c = false

instance (ls : List Lexeme) : Decidable (NoControlNames ls) :=
  decidable_of_iff (∀ l ∈ ls, ∀ text ∈ l.token.spelling?,
    text.toList.all (fun c => !Literal.isControl c) = true) (by simp [NoControlNames])

theorem NoControlNames.noZeroNames {ls : List Lexeme} (h : NoControlNames ls) : NoZeroNames ls :=
  fun l hl text ht h0 => absurd (h l hl text ht _ h0) (by decide)

namespace Compiled

variable {options : CompileOptions} {source : String} {b : Bytecode} {ls : List Lexeme}
  {ps : List Phrase} {ts us : List Token} {a : Assembly}

theorem allQuotable (h : Compiled options source b ls ps ts us a) (hn : NoControlNames ls) :
    Literal.AllQuotable a.names := by
  intro c name hg
  rw [h.run.get?_names, firstSpelling] at hg
  have hm := List.mem_of_find?_eq_some hg
  obtain ⟨l, hl, hsp⟩ := h.mem_spellings_iff.mp hm
  have hquote : ∀ d ∈ name.toList, d ≠ '"' := by
    obtain ⟨t, ht, hsp⟩ := List.mem_filterMap.mp hm
    obtain ⟨p, hp, rfl⟩ := List.mem_map.mp ht
    have hphrase := h.isPhrase p hp
    generalize p.token = t at hphrase hsp
    cases t with
    | name | arg =>
      obtain rfl := Option.some.inj hsp
      exact fun d hd => (hphrase d hd).1
    | _ => cases hsp
  refine List.all_eq_true.mpr fun d hd => ?_
  simp [hquote d hd, hn l hl name hsp d hd]

/-- The table has the names of the script. -/
theorem isSome_get?_of_spelling? (h : Compiled options source b ls ps ts us a) {p : Phrase}
    (hp : p ∈ ps) {text : String} (hsp : p.token.spelling? = some text) :
    (a.names.get? (Checksum.ofName text)).isSome := by
  obtain ⟨first, hg, -⟩ :=
    h.run.normalize_eq (List.mem_filterMap.mpr ⟨_, List.mem_map_of_mem hp, hsp⟩)
  rw [hg]
  rfl

/-- The stream has the floats of the script. -/
theorem exists_mem_scan_of_floats (h : Compiled options source b ls ps ts us a)
    (hs : b.size < 0x80000000) (hn : NoZeroNames ls) {p : Phrase} (hp : p ∈ ps) {x : Binary32}
    (hx : x ∈ p.token.floats) : ∃ q ∈ b.scan.tokens, q.2.floats = p.token.floats := by
  have hm := h.run.mem_of_floats hp hx
  rw [← map_snd_placed 0 ts] at hm
  obtain ⟨⟨pos, u⟩, hu, rfl⟩ := List.mem_map.mp hm
  obtain ⟨v, hv, hb⟩ := h.exists_mem_scan_of_mem_placed hs hn hu
  exact ⟨_, hv, by rw [← v.floats_blank, hb, Token.floats_blank]⟩

/-- A listed phrase has only floats of the stream. -/
theorem exists_mem_scan_of_mem_listedFrom (h : Compiled options source b ls ps ts us a)
    (hs : b.size < 0x80000000) (hn : NoZeroNames ls) {t : Token} {x : Binary32}
    (ht : t ∈ listedFrom options (LineMap.ofText source.toList) start ps) (hx : x ∈ t.floats) :
    ∃ p ∈ b.scan.tokens, x ∈ p.2.floats := by
  rcases mem_of_mem_listedFrom ht with ⟨p, hp, rfl⟩ | rfl
  · obtain ⟨q, hq, he⟩ := h.exists_mem_scan_of_floats hs hn hp hx
    exact ⟨q, hq, he ▸ hx⟩
  · cases hx

theorem isListable_of_mem (h : Compiled options source b ls ps ts us a) {t : Token}
    (ht : t ∈ listedFrom options (LineMap.ofText source.toList) start ps)
    (hf : ∀ x ∈ t.floats, x.IsReadable) : t.IsListable a.names := by
  rcases mem_of_mem_listedFrom ht with ⟨p, hp, rfl⟩ | rfl
  · exact ⟨h.isPhrase p hp, fun text hsp => h.isSome_get?_of_spelling? hp hsp, hf⟩
  · exact ⟨by simp [Token.IsPhrase], nofun, nofun⟩

/-- The phrases of the listed script can be listed, if the floats in the stream can be read. -/
theorem isListable (h : Compiled options source b ls ps ts us a) (hs : b.size < 0x80000000)
    (hn : NoZeroNames ls) (hf : ∀ p ∈ b.scan.tokens, ∀ x ∈ p.2.floats, x.IsReadable) :
    ∀ t ∈ listedFrom options (LineMap.ofText source.toList) start ps, t.IsListable a.names := by
  intro t ht
  refine h.isListable_of_mem ht fun x hx => ?_
  obtain ⟨p, hp, hx⟩ := h.exists_mem_scan_of_mem_listedFrom hs hn ht hx
  exact hf p hp x hx

end Compiled

/-- A listing is a source of the stream it was made from. A stream that was compiled without line
numbers, from a source whose identifiers have no control characters and with floats whose texts are
read as themselves, is listed, and the listing compiles to the stream. -/
theorem compile_listing_of_compile {options : CompileOptions} {source indent : String}
    {b : Bytecode} (h : compile options source = .ok b) (hs : b.size < 0x80000000)
    (hl : options.lineNumbers = false) (hi : ∀ c ∈ indent.toList, c = ' ' ∨ c = '\t') :
    ∃ ls, Lexeme.ofText source.toList = .ok ls ∧ (NoControlNames ls →
      (∀ p ∈ b.scan.tokens, ∀ x ∈ p.2.floats, x.IsReadable) →
        ∃ l, (disassemble ⟨indent, false⟩ b).result = .ok l ∧ compile options l.text = .ok b) := by
  obtain ⟨ls, ps, ts, us, a, hc⟩ := exists_compiled h
  refine ⟨ls, hc.ofText, fun hn hf => ⟨_, hc.disassemble_eq hs hn.noZeroNames rfl, ?_⟩⟩
  have hsays := forall₂_says (hc.isListable hs hn.noZeroNames hf) (hc.allQuotable hn)
  obtain ⟨us', vs, hspells, hcomposes, hrespaces⟩ := spells_sheet hi hsays
  obtain ⟨ms, hm, rfl⟩ := hspells.exists_ofText
  exact hc.compile_eq_ok hl hm hcomposes hrespaces

theorem compile_listing_of_compile_pair :
    ∃ b l, compile ⟨.fast, false⟩
        "x = PAIR(1.5,-2)\nRANDOM(1)RANDOMCASE IF %\"b c\" RANDOMEND ENDIF" = .ok b ∧
      (disassemble ⟨"\t", false⟩ b).result = .ok l ∧ compile ⟨.fast, false⟩ l.text = .ok b := by
  have hb : compile ⟨.fast, false⟩
      "x = PAIR(1.5,-2)\nRANDOM(1)RANDOMCASE IF %\"b c\" RANDOMEND ENDIF" =
      .ok #[22, 124, 233, 35, 115, 7, 31, 0, 0, 192, 63, 0, 0, 0, 192, 1, 47, 1, 0, 0, 0, 1, 0, 0,
        0, 0, 0, 71, 8, 0, 22, 227, 45, 210, 10, 40, 43, 227, 45, 210, 10, 98, 32, 99, 0, 43, 124,
        233, 35, 115, 120, 0, 0] := by decide +kernel
  have hs : Array.size #[(22 : UInt8), 124, 233, 35, 115, 7, 31, 0, 0, 192, 63, 0, 0, 0, 192, 1, 47,
      1, 0, 0, 0, 1, 0, 0, 0, 0, 0, 71, 8, 0, 22, 227, 45, 210, 10, 40, 43, 227, 45, 210, 10, 98,
      32, 99, 0, 43, 124, 233, 35, 115, 120, 0, 0] < 0x80000000 := by decide
  have hf : ∀ p ∈ (Bytecode.scan #[22, 124, 233, 35, 115, 7, 31, 0, 0, 192, 63, 0, 0, 0, 192, 1, 47,
      1, 0, 0, 0, 1, 0, 0, 0, 0, 0, 71, 8, 0, 22, 227, 45, 210, 10, 40, 43, 227, 45, 210, 10, 98,
      32, 99, 0, 43, 124, 233, 35, 115, 120, 0, 0]).tokens, ∀ x ∈ p.2.floats, x.IsReadable := by
    decide +kernel
  obtain ⟨ls, hl, hall⟩ := @compile_listing_of_compile _ _ "\t" _ hb hs rfl (by simp)
  have hn : (Lexeme.ofText
      "x = PAIR(1.5,-2)\nRANDOM(1)RANDOMCASE IF %\"b c\" RANDOMEND ENDIF".toList).toOption.any
      (fun ls => decide (NoControlNames ls)) = true := by decide +kernel
  rw [hl] at hn
  obtain ⟨l, hlist, hcompile⟩ := hall (by simpa [Except.toOption] using hn) hf
  exact ⟨_, l, hb, hlist, hcompile⟩

end QbScript
