import QbScript.Proofs.Listing.Elements
import QbScript.Proofs.Script.Balance
import QbScript.Proofs.Script.Content

/-!
# Listings do not depend on the target

What is listed of a compiled stream follows from the phrases of its source. Two streams of one
source have the same listing, whatever their targets and whether their line ends have numbers.
-/

set_option autoImplicit false

namespace QbScript

open Bytecode Assembly

namespace Assembly

variable {options options' : CompileOptions} {lines lines' : LineMap} {a a' : Assembly}
  {ts ts' : List Token} {ps : List Phrase}

theorem listed_congr (hl : a.lineEnd = some a.out.size ↔ a'.lineEnd = some a'.out.size)
    (hr : a.randomDepths = a'.randomDepths) (t : Token) : a.listed t = a'.listed t := by
  unfold randomDepths at hr
  unfold listed
  cases hf : a.randoms with
  | nil =>
    rw [hf] at hr
    have hf' := List.map_eq_nil_iff.mp hr.symm
    simp only [hf', hl]
  | cons f fs =>
    rw [hf, List.map_cons] at hr
    obtain ⟨g, gs, hf', he, -⟩ := List.map_eq_cons_iff.mp hr.symm
    have hc : g.count = f.count := (Prod.mk.inj he).1
    simp only [hf', hl]
    split <;> simp_all

theorem Run.exists_of_concat {p : Phrase} (h : Run options lines (ps ++ [p]) ts a) :
    ∃ ts₀ a₀, Run options lines ps ts₀ a₀ := by
  have hall := h.ofPhrases
  rw [ofPhrases_append] at hall
  obtain ⟨a₀, h₀, -⟩ := bind_eq_ok_iff.mp hall
  obtain ⟨ts₀, hr⟩ := exists_run_of_ofPhrases h₀
  exact ⟨ts₀, a₀, hr⟩

theorem Run.randomDepths_eq (h : Run options lines ps ts a) (h' : Run options' lines' ps ts' a') :
    a.randomDepths = a'.randomDepths := by
  obtain ⟨n, hn, hd⟩ := h.exists_bracketing? rfl Step.moves_random
  obtain ⟨m, hm, hd'⟩ := h'.exists_bracketing? rfl Step.moves_random
  obtain rfl := Option.some.inj (hn.symm.trans hm)
  exact hd.symm.trans hd'

theorem Run.lineEnd_iff (h : Run options lines ps ts a) (h' : Run options' lines' ps ts' a')
    (hp : ∀ p ∈ ps, p.token.IsPhrase) :
    a.lineEnd = some a.out.size ↔ a'.lineEnd = some a'.out.size := by
  have hd := (h.tells hp).afterLineEnd
  rw [(h'.tells hp).afterLineEnd] at hd
  exact (decide_eq_decide.mp hd).symm

/-- What is listed is the same after every front part of a script. -/
theorem Run.listedFrom_eq (h : Run options lines ps ts a) (h' : Run options' lines' ps ts' a')
    (hp : ∀ p ∈ ps, p.token.IsPhrase) :
    listedFrom options lines Assembly.start ps = listedFrom options' lines' Assembly.start ps := by
  induction ps using List.reverseRecOn generalizing ts a ts' a' with
  | nil => rfl
  | append_singleton ps p ih =>
    have hps : ∀ q ∈ ps, q.token.IsPhrase := fun q hq => hp q (List.mem_append_left _ hq)
    obtain ⟨us, c, hc⟩ := h.exists_of_concat
    obtain ⟨us', c', hc'⟩ := h'.exists_of_concat
    rw [hc.listedFrom_concat, hc'.listedFrom_concat, ih hc hc' hps,
      listed_congr (hc.lineEnd_iff hc' hps) (hc.randomDepths_eq hc')]

theorem Run.get?_names_eq (h : Run options lines ps ts a) (h' : Run options' lines' ps ts' a')
    (k : Checksum) : a.names.get? k = a'.names.get? k := by
  rw [h.get?_names, h'.get?_names]

end Assembly

section

variable {names names' : NameTable} {isArg : Bool}

theorem contents_congr (h : ∀ k, names.get? k = names'.get? k) (ts : List Token) :
    contents names isArg ts = contents names' isArg ts := by
  induction ts generalizing isArg with
  | nil => rfl
  | cons t ts ih => rw [contents, contents, elements_congr h, ih]

theorem Token.listing_congr (h : ∀ k, names.get? k = names'.get? k) (t : Token) :
    t.listing names = t.listing names' := by
  unfold Token.listing
  split
  · rfl
  · exact contents_congr h _

def Token.unknown? (names : NameTable) : Token → Option Checksum
  | .nameChecksum c => if (names.get? c).isNone then some c else none
  | _ => none

theorem unknownNames_eq (names : NameTable) (tokens : List (Nat × Token)) :
    unknownNames names tokens = (tokens.map Prod.snd).filterMap (Token.unknown? names) := by
  rw [List.filterMap_map]
  rfl

theorem Token.unknown?_congr (h : ∀ k, names.get? k = names'.get? k) (t : Token) :
    t.unknown? names = t.unknown? names' := by
  cases t with
  | nameChecksum c => simp only [Token.unknown?, h]
  | _ => rfl

/-- The names of a stream are part of its content. -/
theorem Token.content?_bind_unknown? (t : Token) :
    t.content?.bind (Token.unknown? names) = t.unknown? names := by
  cases t with
  | shortBranch tag d => cases tag <;> rfl
  | _ => rfl

end

namespace Compiled

variable {options options' : CompileOptions} {source : String} {b b' : Bytecode} {ls : List Lexeme}
  {ps : List Phrase} {ts us ts' us' : List Token} {a a' : Assembly}

theorem unknownNames_of_scan (h : Compiled options source b ls ps ts us a)
    (hb : b.scan = ⟨placed 0 (us ++ a.names.entries ++ [.simple .endOfFile]), none⟩)
    (names : NameTable) :
    unknownNames names b.scan.tokens =
      (Content.ofTokens (ps.map Phrase.token)).tokens.filterMap (Token.unknown? names) := by
  have hblank : ∀ t : Token, t.blank.unknown? names = t.unknown? names := fun t => by
    cases t <;> rfl
  have htable : (a.names.entries ++ [Token.simple .endOfFile]).filterMap
      (Token.unknown? names) = [] := by
    simp [NameTable.entries, Token.unknown?, List.filterMap_map, Function.comp_def]
  have hus : us.filterMap (Token.unknown? names) = ts.filterMap (Token.unknown? names) := by
    have hmap := congrArg (List.filterMap (Token.unknown? names)) h.blank
    simpa [List.filterMap_map, Function.comp_def, hblank] using hmap
  rw [unknownNames_eq, hb, map_snd_placed, List.append_assoc, List.filterMap_append, htable,
    List.append_nil, hus, ← (h.run.tells h.isPhrase).tokens, List.filterMap_filterMap]
  congr 1
  funext t
  exact t.content?_bind_unknown?.symm

/-- What is listed of a stream follows from its elements and its table. -/
theorem disassemble_of_elements (h : Compiled options source b ls ps ts us a)
    (hb : b.scan = ⟨placed 0 (us ++ a.names.entries ++ [.simple .endOfFile]), none⟩)
    (hf : b.findings.fault = none)
    (hk : ∀ k, (Survey.ofFindings b.findings.found).names.get? k = a.names.get? k)
    {lo : ListingOptions} {es : List Element}
    (he : elements lo (Survey.ofFindings b.findings.found) b.scan.tokens = es) :
    (disassemble lo b).result = .ok {
      text := (Sheet.ofElements es).text lo.indent
      unresolved := (Std.TreeSet.ofList ((Content.ofTokens (ps.map Phrase.token)).tokens.filterMap
        (Token.unknown? a.names))).toList } := by
  have hunknown : Token.unknown? (Survey.ofFindings b.findings.found).names =
      Token.unknown? a.names := funext (Token.unknown?_congr hk)
  simp only [disassemble, resolve, hf, listing, he, h.unknownNames_of_scan hb, hunknown]

theorem disassemble_eq (h : Compiled options source b ls ps ts us a) (hs : b.size < 0x80000000)
    (hn : NoZeroNames ls) {lo : ListingOptions} (hlo : lo.branchLabels = false) :
    (disassemble lo b).result = .ok {
      text := (Sheet.ofElements ((listedFrom options (LineMap.ofText source.toList) start
        ps).flatMap (Token.listing a.names))).text lo.indent
      unresolved := (Std.TreeSet.ofList ((Content.ofTokens (ps.map Phrase.token)).tokens.filterMap
        (Token.unknown? a.names))).toList } := by
  have hentries := h.stands_entries hn
  exact h.disassemble_of_elements (h.scan hs hentries)
    (congrArg Findings.fault (h.findings hs hentries)) (h.get?_names_survey hs hentries)
    (h.elements_eq hs hentries hlo)

end Compiled

/-- A source has one listing. Two streams that it compiles to, for any targets and with or without
the numbers of lines, are listed with the same text and the same unknown names. -/
theorem disassemble_eq_of_compile {options options' : CompileOptions} {source : String}
    {b b' : Bytecode} (h : compile options source = .ok b) (h' : compile options' source = .ok b')
    (hs : b.size < 0x80000000) (hs' : b'.size < 0x80000000) :
    ∃ ls, Lexeme.ofText source.toList = .ok ls ∧ (NoZeroNames ls →
      ∀ lo : ListingOptions, lo.branchLabels = false →
        ∃ l, (disassemble lo b).result = .ok l ∧ (disassemble lo b').result = .ok l) := by
  obtain ⟨ls, ps, ts, us, a, hc⟩ := exists_compiled h
  obtain ⟨ls', ps', ts', us', a', hc'⟩ := exists_compiled h'
  refine ⟨ls, hc.ofText, fun hn lo hlo => ⟨_, hc.disassemble_eq hs hn hlo, ?_⟩⟩
  obtain rfl := Except.ok.inj (hc.ofText.symm.trans hc'.ofText)
  obtain rfl := hc.phrases.trans hc'.phrases.symm
  have hnames := hc.run.get?_names_eq hc'.run
  have hlisting : Token.listing a'.names = Token.listing a.names :=
    funext fun t => t.listing_congr fun k => (hnames k).symm
  have hunknown : Token.unknown? a'.names = Token.unknown? a.names :=
    funext fun t => t.unknown?_congr fun k => (hnames k).symm
  rw [hc'.disassemble_eq hs' hn hlo, hlisting, hunknown, hc.run.listedFrom_eq hc'.run hc.isPhrase]

theorem disassemble_eq_of_compile_lineEnds :
    ∃ b b' l, compile ⟨.plain, false⟩ "RANDOM(1,1)RANDOMCASE\nIF a RANDOMCASE ENDIF RANDOMEND" =
        .ok b ∧
      compile ⟨.fast, true⟩ "RANDOM(1,1)RANDOMCASE\nIF a RANDOMCASE ENDIF RANDOMEND" = .ok b' ∧
      (disassemble ⟨"  ", false⟩ b).result = .ok l ∧
      (disassemble ⟨"  ", false⟩ b').result = .ok l := by
  have hb : compile ⟨.plain, false⟩ "RANDOM(1,1)RANDOMCASE\nIF a RANDOMCASE ENDIF RANDOMEND" =
      .ok #[47, 2, 0, 0, 0, 1, 0, 1, 0, 4, 0, 0, 0, 12, 0, 0, 0, 1, 37, 22, 188, 65, 72, 23, 46, 1,
        0, 0, 0, 40, 43, 188, 65, 72, 23, 97, 0, 0] := by decide +kernel
  have hb' : compile ⟨.fast, true⟩ "RANDOM(1,1)RANDOMCASE\nIF a RANDOMCASE ENDIF RANDOMEND" =
      .ok #[47, 2, 0, 0, 0, 1, 0, 1, 0, 4, 0, 0, 0, 18, 0, 0, 0, 2, 1, 0, 0, 0, 71, 13, 0, 22, 188,
        65, 72, 23, 46, 1, 0, 0, 0, 40, 43, 188, 65, 72, 23, 97, 0, 0] := by decide +kernel
  have hs : Array.size #[(47 : UInt8), 2, 0, 0, 0, 1, 0, 1, 0, 4, 0, 0, 0, 12, 0, 0, 0, 1, 37, 22,
      188, 65, 72, 23, 46, 1, 0, 0, 0, 40, 43, 188, 65, 72, 23, 97, 0, 0] < 0x80000000 := by decide
  have hs' : Array.size #[(47 : UInt8), 2, 0, 0, 0, 1, 0, 1, 0, 4, 0, 0, 0, 18, 0, 0, 0, 2, 1, 0, 0,
      0, 71, 13, 0, 22, 188, 65, 72, 23, 46, 1, 0, 0, 0, 40, 43, 188, 65, 72, 23, 97, 0, 0] <
      0x80000000 := by decide
  obtain ⟨ls, hl, hall⟩ := disassemble_eq_of_compile hb hb' hs hs'
  have hn : (Lexeme.ofText
      "RANDOM(1,1)RANDOMCASE\nIF a RANDOMCASE ENDIF RANDOMEND".toList).toOption.any
      (fun ls => decide (NoZeroNames ls)) = true := by decide +kernel
  rw [hl] at hn
  obtain ⟨l, h, h'⟩ := hall (by simpa [Except.toOption] using hn) ⟨"  ", false⟩ rfl
  exact ⟨_, _, l, hb, hb', h, h'⟩

end QbScript
