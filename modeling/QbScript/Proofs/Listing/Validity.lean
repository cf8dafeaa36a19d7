import QbScript.Proofs.Listing.Floats
import QbScript.Proofs.Listing.RoundTrip

/-!
# Listings are sources

The listing of a compiled stream compiles again if its floats are finite, with line numbers or
without. Floats may be read as others than were listed, and line ends may stand on other lines, but
neither changes the size of what is written; and on its size alone depends which branches reach.
-/

set_option autoImplicit false

namespace QbScript

open Bytecode Assembly Phrase

namespace Token

def unvalued : Token → Token
  | .float _ => .float ⟨0⟩
  | .pair _ _ => .pair ⟨0⟩ ⟨0⟩
  | .vector _ _ _ => .vector ⟨0⟩ ⟨0⟩ ⟨0⟩
  | t => t

def components : Token → List Binary32
  | .pair x y => [x, y]
  | .vector x y z => [x, y, z]
  | _ => []

variable {t u : Token}

theorem mem_floats_of_mem_components {x : Binary32} (h : x ∈ t.components) : x ∈ t.floats := by
  cases t <;> first | exact h | cases h

theorem components_blank (t : Token) : t.blank.components = t.components := by
  cases t <;> rfl

theorem unvalued_of_floats (h : t.floats = []) : t.unvalued = t := by
  cases t <;> first | rfl | cases h

theorem floats_unvalued_eq_nil_iff : t.unvalued.floats = [] ↔ t.floats = [] := by
  cases t <;> simp [unvalued, floats]

theorem eq_of_unvalued_eq (h : t.unvalued = u.unvalued) (ht : t.floats = []) : u = t := by
  have hu : u.floats = [] := by
    rw [← floats_unvalued_eq_nil_iff, ← h, floats_unvalued_eq_nil_iff, ht]
  rw [unvalued_of_floats ht, unvalued_of_floats hu] at h
  exact h.symm

theorem length_wire_unvalued (t : Token) : t.unvalued.wire.length = t.wire.length := by
  cases t <;> simp [unvalued, wire, payload, float32]

theorem plain_of_floats (target : Target) (ht : t.floats ≠ []) :
    t.IsPlain target ∧ t.leadTag.isInternal = false ∧ t.checksum? = none := by
  obtain ⟨x, rfl⟩ | ⟨x, y, rfl⟩ | ⟨x, y, z, rfl⟩ := exists_of_floats_ne_nil ht
  all_goals exact ⟨trivial, rfl, rfl⟩

theorem floats_respelled (names : NameTable) (t : Token) :
    (t.respelled names).floats = t.floats := by
  unfold respelled
  split <;> rfl

end Token

namespace Assembly

variable {options : CompileOptions} {line : Nat} {lines : LineMap} {a a' c : Assembly} {t u : Token}
  {ts us vs : List Token} {links : List Link} {ps : List Phrase} {names : NameTable}

-- The mirror is not exact: where floats are read as others, streams have the same size only.

theorem listed_of_floats (ht : t.floats ≠ []) : a.listed t = [t] := by
  obtain ⟨x, rfl⟩ | ⟨x, y, rfl⟩ | ⟨x, y, z, rfl⟩ := Token.exists_of_floats_ne_nil ht
  all_goals rfl

/-- Other floats in a phrase take the same step, up to what they write. -/
theorem Mirrors.step_of_floats (hm : Mirrors False names a c)
    (h : Step options line a t us links a') (ht : t.floats ≠ []) (hu : t.unvalued = u.unvalued) :
    Leads options [u] (Mirrors False names a') c := by
  have hfloats : u.floats ≠ [] := by
    rwa [Ne, ← Token.floats_unvalued_eq_nil_iff, ← hu, Token.floats_unvalued_eq_nil_iff]
  obtain ⟨hp, hi, -⟩ := Token.plain_of_floats options.target hfloats
  have hl : (wires u.parts).length = (wires [t]).length := by
    rw [Token.wires_parts, wires_cons, wires_nil, List.append_nil, ← u.length_wire_unvalued, ← hu,
      t.length_wire_unvalued]
  obtain ⟨-, rfl⟩ := h.eq_of_floats ht
  intro place
  exact ⟨_, (Step.plain hp hi).add, { hm with out := hm.out.extend hl False.elim }⟩

/-- Added to the mirror, the listed phrases do what the phrase does, also with other floats. -/
theorem Mirrors.step_unvalued (hm : Mirrors False names a c)
    (h : Step options line a t us links a') (hk : names.IsSound)
    (hn : ∀ k, (a'.names.get? k).isSome → (names.get? k).isSome)
    (he : ∀ f ∈ a.randoms, f.filled ≤ 1 → f.ends = [])
    (hv : vs.map Token.unvalued =
      ((a.listed t).map (Token.respelled names)).map Token.unvalued) :
    Leads options vs (Mirrors False names a') c := by
  -- Without floats the listed phrases are known; with floats a phrase is listed alone.
  by_cases ht : t.floats = []
  · have hfloats : ∀ u ∈ (a.listed t).map (Token.respelled names), u.floats = [] := by
      intro u hu
      obtain ⟨w, hw, rfl⟩ := List.mem_map.mp hu
      rw [Token.floats_respelled]
      rcases mem_of_mem_listed hw with rfl | rfl
      · exact ht
      · rfl
    obtain rfl : vs = (a.listed t).map (Token.respelled names) := by
      generalize (a.listed t).map (Token.respelled names) = ws at hv hfloats
      induction ws generalizing vs with
      | nil => exact List.map_eq_nil_iff.mp hv
      | cons w ws ih =>
        obtain ⟨v, vs, rfl, hvw, hvs⟩ := List.map_eq_cons_iff.mp hv
        rw [Token.eq_of_unvalued_eq hvw.symm (hfloats w List.mem_cons_self),
          ih hvs fun u hu => hfloats u (List.mem_cons_of_mem w hu)]
    exact hm.step h False.elim hk hn he
  · have hc := (Token.plain_of_floats options.target ht).2.2
    rw [listed_of_floats ht, map_respelled_singleton hc] at hv
    obtain ⟨v, rfl, hvt⟩ := List.map_eq_singleton_iff.mp hv
    exact hm.step_of_floats h ht hvt.symm

/-- The listed script with other floats leads to an assembly that mirrors all but these. -/
theorem Run.leads_unvalued (h : Run options lines ps ts a) (hp : ∀ p ∈ ps, p.token.IsPhrase)
    (hk : names.IsSound) (hn : ∀ k, (a.names.get? k).isSome → (names.get? k).isSome)
    (hv : vs.map Token.unvalued = ((listedFrom options lines Assembly.start ps).map
      (Token.respelled names)).map Token.unvalued) :
    Leads options vs (Mirrors False names a) Assembly.start := by
  induction h generalizing vs with
  | start =>
    obtain rfl := List.map_eq_nil_iff.mp hv
    exact mirrors_start
  | @step ps ts us a a' p links hr _ hs ih =>
    have hps : ∀ q ∈ ps, q.token.IsPhrase := fun q hq => hp q (List.mem_append_left _ hq)
    rw [hr.listedFrom_concat, List.map_append, List.map_append] at hv
    obtain ⟨vs, ws, rfl, hvs, hws⟩ := List.map_eq_append_iff.mp hv
    rw [leads_append]
    refine (ih hps (fun k hk => hn k (hs.isSome_names hk)) hvs).imp fun c hm => ?_
    exact hm.step_unvalued hs hk hn (hr.agrees hps).ends_eq_nil hws

end Assembly

/-- A source whose phrases are those of the listed script, up to the values of floats, compiles. -/
theorem Compiled.exists_compile_eq_ok {options : CompileOptions} {source text : String}
    {b : Bytecode} {ls ms : List Lexeme} {ps : List Phrase} {ts us vs ws : List Token}
    {a : Assembly}
    (h : Compiled options source b ls ps ts us a) (hm : Lexeme.ofText text.toList = .ok ms)
    (hc : Composes (ms.map Lexeme.token) ws) (hr : Respaces (.simple .endOfLine) vs ws)
    (hv : vs.map Token.unvalued = ((listedFrom options (LineMap.ofText source.toList) start ps).map
      (Token.respelled a.names)).map Token.unvalued) :
    ∃ b', compile options text = .ok b' ∧ b'.size = b.size := by
  obtain ⟨hf, rfl⟩ := Phrase.ofLexemes_of_composes hc
  have hleads := h.run.leads_unvalued h.isPhrase h.run.isSound_names (fun _ hk => hk) hv
  obtain ⟨c, hc, hmirror⟩ := (hleads.respace hr).foldlM
  obtain ⟨hu, he⟩ := hmirror.finish h.unclosed
  refine ⟨_, compile_eq_ok_iff.mpr ⟨ms, c, hm, hf, hc, hu, rfl⟩, ?_⟩
  rw [h.stream, he, size_extend, size_extend, hmirror.out.size]

section

variable {names : NameTable} {t : Token}

/-- A phrase whose floats are finite is listed as an element that says it up to their values. -/
theorem exists_says_of_isFinite (hl : t.floats = [] → t.IsListable names)
    (hf : ∀ x ∈ t.floats, x.IsFinite) (hq : Literal.AllQuotable names) :
    ∃ e u, t.listing names = [e] ∧ e.Says u ∧ u.unvalued = (t.respelled names).unvalued := by
  by_cases ht : t.floats = []
  · obtain ⟨e, he, hs⟩ := (hl ht).exists_element hq
    exact ⟨e, _, he, hs, rfl⟩
  · rw [Token.respelled_of_checksum?_eq_none (Token.plain_of_floats .plain ht).2.2]
    obtain ⟨x, rfl⟩ | ⟨x, y, rfl⟩ | ⟨x, y, z, rfl⟩ := Token.exists_of_floats_ne_nil ht
    · obtain ⟨x', hx⟩ := (hf x (by simp [Token.floats])).exists_legible
      exact ⟨_, .float x', rfl, hx, rfl⟩
    · obtain ⟨x', hx⟩ := (hf x (by simp [Token.floats])).exists_readsNumber
      obtain ⟨y', hy⟩ := (hf y (by simp [Token.floats])).exists_readsNumber
      refine ⟨_, .pair x' y', rfl, ?_, rfl⟩
      exact @legible_list .pair _ _ [.float x', .float y'] _ rfl (.cons hx (.cons hy .nil)) rfl
        (.pair rfl rfl .nil)
    · obtain ⟨x', hx⟩ := (hf x (by simp [Token.floats])).exists_readsNumber
      obtain ⟨y', hy⟩ := (hf y (by simp [Token.floats])).exists_readsNumber
      obtain ⟨z', hz⟩ := (hf z (by simp [Token.floats])).exists_readsNumber
      refine ⟨_, .vector x' y' z', rfl, ?_, rfl⟩
      exact @legible_list .vector _ _ [.float x', .float y', .float z'] _ rfl
        (.cons hx (.cons hy (.cons hz .nil))) rfl (.vector rfl rfl rfl .nil)

/-- A phrase is listed as an element whose tokens make up a script, or begin none. They begin none
if a component of a pair or a vector is not finite. -/
theorem exists_reads (hl : t.floats = [] → t.IsListable names) (hq : Literal.AllQuotable names) :
    ∃ e us, t.listing names = [e] ∧ e.Reads us ∧ ((∃ ts, Composes us ts) ∨ IsStuck us) ∧
      ((∃ x ∈ t.components, ¬ x.IsFinite) → IsStuck us) := by
  by_cases hf : ∀ x ∈ t.floats, x.IsFinite
  · obtain ⟨e, u, he, hs, -⟩ := exists_says_of_isFinite hl hf hq
    obtain ⟨us, hr, hc⟩ := hs.exists_reads
    refine ⟨e, us, he, hr, Or.inl ⟨_, hc⟩, ?_⟩
    rintro ⟨x, hx, hn⟩
    exact absurd (hf x (Token.mem_floats_of_mem_components hx)) hn
  · obtain ⟨w, hw, hn⟩ : ∃ w ∈ t.floats, ¬ w.IsFinite := by
      simpa only [not_forall, exists_prop] using hf
    obtain ⟨x, rfl⟩ | ⟨x, y, rfl⟩ | ⟨x, y, z, rfl⟩ :=
      Token.exists_of_floats_ne_nil (List.ne_nil_of_mem hw)
    · obtain rfl := List.mem_singleton.mp hw
      obtain ⟨us, ts, hr, hc⟩ := Binary32.exists_readable_of_not_isFinite hn
      exact ⟨_, us, rfl, hr, Or.inl ⟨ts, hc⟩, fun ⟨_, hx, _⟩ => nomatch hx⟩
    · obtain ⟨us, hx, hu, hxn⟩ := x.exists_readsItem
      obtain ⟨vs, hy, -, hyn⟩ := y.exists_readsItem
      have hstuck : IsStuck (.simple .pair :: .simple .openParenth :: itemTokens [us, vs]) := by
        simp only [Token.floats, List.mem_cons, List.not_mem_nil, or_false] at hw
        rcases hw with rfl | rfl
        · exact isStuck_pair hu (Or.inl (hxn hn))
        · exact isStuck_pair hu (Or.inr (hyn hn))
      refine ⟨_, _, rfl, ⟨exists_last_listText "PAIR" _, ?_⟩, Or.inr hstuck, fun _ => hstuck⟩
      exact readsAs_items rfl (.cons hx (.cons hy .nil)) rfl
    · obtain ⟨us, hx, hu, hxn⟩ := x.exists_readsItem
      obtain ⟨vs, hy, hv, hyn⟩ := y.exists_readsItem
      obtain ⟨ws, hz, -, hzn⟩ := z.exists_readsItem
      have hstuck : IsStuck
          (.simple .vector :: .simple .openParenth :: itemTokens [us, vs, ws]) := by
        simp only [Token.floats, List.mem_cons, List.not_mem_nil, or_false] at hw
        rcases hw with rfl | rfl | rfl
        · exact isStuck_vector hu hv (Or.inl (hxn hn))
        · exact isStuck_vector hu hv (Or.inr (Or.inl (hyn hn)))
        · exact isStuck_vector hu hv (Or.inr (Or.inr (hzn hn)))
      refine ⟨_, _, rfl, ⟨exists_last_listText "VECTOR" _, ?_⟩, Or.inr hstuck, fun _ => hstuck⟩
      exact readsAs_items rfl (.cons hx (.cons hy (.cons hz .nil))) rfl

end

section

variable {names : NameTable} {ts : List Token} {indent : String}

/-- The text that lists phrases with finite floats is read as phrases with the same, up to the
values of floats and line ends. -/
theorem exists_composes_listing (hi : IsGap indent.toList) (hq : Literal.AllQuotable names)
    (hl : ∀ t ∈ ts, t.floats = [] → t.IsListable names)
    (hf : ∀ t ∈ ts, ∀ x ∈ t.floats, x.IsFinite) :
    ∃ ms vs ws, Lexeme.ofText ((Sheet.ofElements (ts.flatMap (Token.listing names))).text
        indent).toList = .ok ms ∧ Composes (ms.map Lexeme.token) ws ∧
      Respaces (.simple .endOfLine) vs ws ∧
      vs.map Token.unvalued = (ts.map (Token.respelled names)).map Token.unvalued := by
  obtain ⟨vs, hs, hv⟩ := exists_forall₂_listing fun t ht =>
    exists_says_of_isFinite (hl t ht) (hf t ht) hq
  obtain ⟨us, ws, hspells, hc, hr⟩ := spells_sheet hi hs
  obtain ⟨ms, hm, rfl⟩ := hspells.exists_ofText
  refine ⟨ms, vs, ws, hm, hc, hr, ?_⟩
  rw [← List.forall₂_eq_eq_eq, List.forall₂_map_left_iff, List.forall₂_map_right_iff,
    List.forall₂_map_right_iff]
  exact hv.flip

/-- The text that lists a pair or a vector with a component that is not finite makes up no
script. -/
theorem exists_not_composes_listing (hi : IsGap indent.toList) (hq : Literal.AllQuotable names)
    (hl : ∀ t ∈ ts, t.floats = [] → t.IsListable names)
    (hn : ∃ t ∈ ts, ∃ x ∈ t.components, ¬ x.IsFinite) :
    ∃ ms, Lexeme.ofText ((Sheet.ofElements (ts.flatMap (Token.listing names))).text
        indent).toList = .ok ms ∧ ∀ ws, ¬ Composes (ms.map Lexeme.token) ws := by
  obtain ⟨uss, hu, hc⟩ := exists_forall₂_listing fun t ht => exists_reads (hl t ht) hq
  obtain ⟨xss, hspells, hr⟩ := reads_sheet hi hu
  obtain ⟨ms, hm, hmap⟩ := hspells.exists_ofText
  refine ⟨ms, hm, ?_⟩
  rw [hmap]
  apply not_composes_flatten
  · intro us hus
    obtain ⟨t, -, hu, -⟩ := exists_of_forall₂_right hc (hr.mem_iff.mp hus)
    exact hu
  · obtain ⟨t, ht, hx⟩ := hn
    obtain ⟨us, hus, -, hstuck⟩ := exists_of_forall₂_right hc.flip ht
    exact ⟨us, hr.mem_iff.mpr hus, hstuck hx⟩

end

namespace Assembly

variable {options : CompileOptions} {line : Nat} {lines : LineMap} {a a' : Assembly} {t u : Token}
  {ts us : List Token} {links : List Link} {ps : List Phrase}

theorem eq_of_mem_parts_of_floats (hu : u ∈ t.parts) (hf : u.floats ≠ []) : u = t := by
  cases t with
  | name =>
    obtain rfl := List.mem_singleton.mp hu
    exact absurd rfl hf
  | arg | argChecksum =>
    simp only [Token.parts, List.mem_cons, List.not_mem_nil, or_false] at hu
    rcases hu with rfl | rfl <;> exact absurd rfl hf
  | _ => exact List.mem_singleton.mp hu

/-- Floats are written for themselves only. -/
theorem Step.eq_of_mem_of_floats (h : Step options line a t us links a') (hu : u ∈ us)
    (hf : u.floats ≠ []) : u = t := by
  cases h with
  | plain | named => exact eq_of_mem_parts_of_floats hu hf
  | openRandom => exact List.mem_singleton.mp hu
  | lineEndKept =>
    obtain rfl := List.mem_singleton.mp hu
    unfold lineMark at hf
    split at hf <;> exact absurd rfl hf
  | firstBranch | nextBranch =>
    simp only [List.mem_cons, List.not_mem_nil, or_false] at hu
    rcases hu with rfl | rfl | rfl <;> exact absurd rfl hf
  | lineEndDropped | firstCase | closeRandom => cases hu
  | _ =>
    obtain rfl := List.mem_singleton.mp hu
    exact absurd rfl hf

theorem Run.mem_listedFrom_of_floats (h : Run options lines ps ts a) (hu : u ∈ ts)
    (hf : u.floats ≠ []) : u ∈ listedFrom options lines Assembly.start ps := by
  induction h with
  | start => cases hu
  | step hr _ hs ih =>
    rw [hr.listedFrom_concat, List.mem_append]
    rcases List.mem_append.mp hu with hu | hu
    · exact Or.inl (ih hu)
    · obtain rfl := hs.eq_of_mem_of_floats hu hf
      rw [listed_of_floats hf]
      exact Or.inr List.mem_cons_self

end Assembly

namespace Compiled

variable {options : CompileOptions} {source : String} {b : Bytecode} {ls : List Lexeme}
  {ps : List Phrase} {ts us : List Token} {a : Assembly}

/-- The floats of the stream are those of a listed phrase, as parts of the same. -/
theorem exists_mem_listedFrom_of_mem_scan (h : Compiled options source b ls ps ts us a)
    (hs : b.size < 0x80000000) (hn : NoZeroNames ls) {p : Nat × Token} (hp : p ∈ b.scan.tokens)
    (hf : p.2.floats ≠ []) :
    ∃ t ∈ listedFrom options (LineMap.ofText source.toList) start ps, t.blank = p.2.blank := by
  have hentry : p.2.tag ≠ .checksumName ∧ p.2 ≠ .simple .endOfFile := by
    obtain ⟨x, he⟩ | ⟨x, y, he⟩ | ⟨x, y, z, he⟩ := Token.exists_of_floats_ne_nil hf
    all_goals rw [he]; exact ⟨nofun, nofun⟩
  obtain ⟨t, ht, hb⟩ := h.exists_mem_placed_of_mem_scan hs hn hp hentry.1 hentry.2
  refine ⟨t, ?_, hb⟩
  apply h.run.mem_listedFrom_of_floats
  · rw [← map_snd_placed 0 ts]
    exact List.mem_map_of_mem ht
  · rwa [← t.floats_blank, hb, Token.floats_blank]

end Compiled

/-- A listing is a source, if its floats are. A stream that was compiled from a source whose
identifiers have no control characters is listed. Where all its floats are finite, the listing
compiles with the same options, and to as many bytes; but where a component of a pair or a vector is
not finite, it compiles with none. -/
theorem compiles_listing_of_compile {options : CompileOptions} {source indent : String}
    {b : Bytecode} (h : compile options source = .ok b) (hs : b.size < 0x80000000)
    (hi : ∀ c ∈ indent.toList, c = ' ' ∨ c = '\t') :
    ∃ ls, Lexeme.ofText source.toList = .ok ls ∧ (NoControlNames ls →
      ∃ l, (disassemble ⟨indent, false⟩ b).result = .ok l ∧
        ((∀ p ∈ b.scan.tokens, ∀ x ∈ p.2.floats, x.IsFinite) →
          ∃ b', compile options l.text = .ok b' ∧ b'.size = b.size) ∧
        ((∃ p ∈ b.scan.tokens, ∃ x ∈ p.2.components, ¬ x.IsFinite) →
          ∀ options' b', compile options' l.text ≠ .ok b')) := by
  obtain ⟨ls, ps, ts, us, a, hc⟩ := exists_compiled h
  refine ⟨ls, hc.ofText, fun hn => ⟨_, hc.disassemble_eq hs hn.noZeroNames rfl, ?_, ?_⟩⟩
  · intro hf
    obtain ⟨ms, vs, ws, hm, hcomposes, hr, hv⟩ := exists_composes_listing hi (hc.allQuotable hn)
      (fun t ht hf => hc.isListable_of_mem ht (by simp [hf])) fun t ht x hx => by
        obtain ⟨p, hp, hx⟩ := hc.exists_mem_scan_of_mem_listedFrom hs hn.noZeroNames ht hx
        exact hf p hp x hx
    exact hc.exists_compile_eq_ok hm hcomposes hr hv
  · rintro ⟨p, hp, x, hx, hinf⟩ options' b' hb'
    obtain ⟨t, ht, hb⟩ := hc.exists_mem_listedFrom_of_mem_scan hs hn.noZeroNames hp
      (List.ne_nil_of_mem (Token.mem_floats_of_mem_components hx))
    obtain ⟨ms, hm, hnot⟩ := exists_not_composes_listing hi (hc.allQuotable hn)
      (fun t ht hf => hc.isListable_of_mem ht (by simp [hf]))
      ⟨t, ht, x, by rwa [← t.components_blank, hb, Token.components_blank], hinf⟩
    obtain ⟨ls', ps', ts', us', a', hc'⟩ := exists_compiled hb'
    obtain rfl := Except.ok.inj (hm.symm.trans hc'.ofText)
    exact hnot _ hc'.composes

theorem compiles_listing_of_compile_pair :
    ∃ b l b', compile ⟨.fast, true⟩ "x = PAIR(1.5,-2)\n\nIF %\"b c\"\nENDIF" = .ok b ∧
      (disassemble ⟨"\t", false⟩ b).result = .ok l ∧ compile ⟨.fast, true⟩ l.text = .ok b' ∧
      b'.size = b.size := by
  have hb : compile ⟨.fast, true⟩ "x = PAIR(1.5,-2)\n\nIF %\"b c\"\nENDIF" =
      .ok #[22, 124, 233, 35, 115, 7, 31, 0, 0, 192, 63, 0, 0, 0, 192, 2, 1, 0, 0, 0, 71, 13, 0, 22,
        227, 45, 210, 10, 2, 3, 0, 0, 0, 40, 43, 227, 45, 210, 10, 98, 32, 99, 0, 43, 124, 233, 35,
        115, 120, 0, 0] := by decide +kernel
  have hs : Array.size #[(22 : UInt8), 124, 233, 35, 115, 7, 31, 0, 0, 192, 63, 0, 0, 0, 192, 2, 1,
      0, 0, 0, 71, 13, 0, 22, 227, 45, 210, 10, 2, 3, 0, 0, 0, 40, 43, 227, 45, 210, 10, 98, 32, 99,
      0, 43, 124, 233, 35, 115, 120, 0, 0] < 0x80000000 := by decide
  have hf : ∀ p ∈ (Bytecode.scan #[22, 124, 233, 35, 115, 7, 31, 0, 0, 192, 63, 0, 0, 0, 192, 2, 1,
      0, 0, 0, 71, 13, 0, 22, 227, 45, 210, 10, 2, 3, 0, 0, 0, 40, 43, 227, 45, 210, 10, 98, 32, 99,
      0, 43, 124, 233, 35, 115, 120, 0, 0]).tokens, ∀ x ∈ p.2.floats, x.IsFinite := by
    decide +kernel
  obtain ⟨ls, hl, hall⟩ := @compiles_listing_of_compile _ _ "\t" _ hb hs (by simp)
  have hn : (Lexeme.ofText
      "x = PAIR(1.5,-2)\n\nIF %\"b c\"\nENDIF".toList).toOption.any
      (fun ls => decide (NoControlNames ls)) = true := by decide +kernel
  rw [hl] at hn
  obtain ⟨l, hlist, hcompile, -⟩ := hall (by simpa [Except.toOption] using hn)
  obtain ⟨b', hb', hsize⟩ := hcompile hf
  exact ⟨_, l, b', hb, hlist, hb', hsize⟩

/-- A component that overflows is listed as a name, which no pair can have. -/
theorem not_compiles_listing_of_infinite_pair :
    ∃ ls b, Lexeme.ofText "PAIR(9999999999999999999999999999999999999999.0,1)".toList = .ok ls ∧
      NoControlNames ls ∧
      compile ⟨.plain, false⟩ "PAIR(9999999999999999999999999999999999999999.0,1)" = .ok b ∧
      b.size < 0x80000000 ∧ (disassemble ⟨"\t", false⟩ b).result = .ok ⟨"PAIR(inf, 1.0)", []⟩ ∧
      compile ⟨.plain, false⟩ "PAIR(inf, 1.0)" = .error (.malformed ⟨1, 6⟩ .expectedNumber) := by
  refine ⟨[⟨.simple .pair, ⟨0, 4⟩⟩, ⟨.simple .openParenth, ⟨4, 5⟩⟩, ⟨.float ⟨0x7f800000⟩, ⟨5, 47⟩⟩,
    ⟨.simple .comma, ⟨47, 48⟩⟩, ⟨.integer 1, ⟨48, 49⟩⟩, ⟨.simple .closeParenth, ⟨49, 50⟩⟩],
    #[31, 0, 0, 128, 127, 0, 0, 128, 63, 0], ?_⟩
  decide +kernel

end QbScript
