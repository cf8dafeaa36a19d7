import QbScript.Proofs.Script.Blocks
import QbScript.Proofs.Script.Names

/-!
# Compiled streams

A compiled stream consists of the tokens of its run, the table of names and the end mark. It is read
as these, provided that no name has a zero in it.
-/

set_option autoImplicit false

namespace QbScript

open Bytecode Assembly

/-- How a source compiles: by its lexemes `ls`, the phrases `ps`, and a run that writes `ts`. The
tokens `us` are those with their addresses. -/
structure Compiled (options : CompileOptions) (source : String) (b : Bytecode) (ls : List Lexeme)
    (ps : List Phrase) (ts us : List Token) (a : Assembly) : Prop where
  lexes : Lexes (Cursor.start source.toList) ls
  gathers : (Phrase.ofLexemes ls).fault = none
  phrases : ps = (Phrase.ofLexemes ls).phrases
  run : Run options (LineMap.ofText source.toList) ps ts a
  unclosed : a.unclosed? = none
  stream : b = a.out.extend (a.names.entries ++ [.simple .endOfFile])
  blank : us.map Token.blank = ts.map Token.blank
  wires : a.out.toList = wires us

theorem exists_compiled {options : CompileOptions} {source : String} {b : Bytecode}
    (h : compile options source = .ok b) :
    ∃ ls ps ts us a, Compiled options source b ls ps ts us a := by
  obtain ⟨ls, ts, a, hl, hf, hr, hu, hb⟩ := exists_run_of_compile h
  obtain ⟨us, hbl, hw⟩ := (hr.sound (hl.isPhrase hf)).wires
  exact ⟨ls, _, ts, us, a, hl, hf, rfl, hr, hu, hb, hbl, hw⟩

namespace Assembly

theorem stands_of_parts {t u : Token} (ht : t.IsPhrase) (hu : u ∈ t.parts)
    (hr : ∀ tag, t = .simple tag → tag.layout = .fixed 1) (hl : u.wire.length < 0x100000000) :
    u.Stands := by
  have hcounted : ∀ bytes : List UInt8, (Token.counted bytes).length = bytes.length + 5 := by
    simp [Token.counted, Token.terminated]
    omega
  cases t with
  | simple tag =>
    obtain rfl := List.mem_singleton.mp hu
    exact hr tag rfl
  | name =>
    obtain rfl := List.mem_singleton.mp hu
    trivial
  | arg | argChecksum =>
    simp only [Token.parts, List.mem_cons, List.not_mem_nil, or_false] at hu
    rcases hu with rfl | rfl
    · rfl
    · trivial
  | string bytes =>
    obtain rfl := List.mem_singleton.mp hu
    simp only [Token.wire, Token.payload, List.length_cons, hcounted] at hl
    show bytes.length + 1 < 0x100000000
    omega
  | localString bytes =>
    obtain rfl := List.mem_singleton.mp hu
    simp only [Token.wire, Token.payload, List.length_cons, hcounted] at hl
    show bytes.length + 1 < 0x100000000
    omega
  | random tag ws js =>
    obtain ⟨htag, rfl⟩ := ht
    obtain rfl := List.mem_singleton.mp hu
    rw [Token.length_wire_random] at hl
    exact ⟨htag, List.length_replicate, by omega⟩
  | endOfLineNumber | jump | shortBranch | checksumName => exact ht.elim
  | _ =>
    obtain rfl := List.mem_singleton.mp hu
    trivial

/-- What a step writes is read as itself, unless it is too long. -/
theorem Step.stands {options : CompileOptions} {line : Nat} {a a' : Assembly} {t u : Token}
    {us : List Token} {links : List Link} (h : Step options line a t us links a')
    (ht : t.IsPhrase) (hu : u ∈ us) (hl : u.wire.length < 0x100000000) : u.Stands := by
  cases h with
  | plain hp =>
    refine stands_of_parts ht hu (fun tag he => ?_) hl
    subst he
    rcases ht.2 with hl | rfl | rfl
    · exact hl
    · exact hp.elim
    · exact hp.elim
  | named hn =>
    refine stands_of_parts ht hu (fun tag he => ?_) hl
    subst he
    cases hn
  | lineEndKept =>
    obtain rfl := List.mem_singleton.mp hu
    unfold lineMark
    split
    · trivial
    · rfl
  | openRandom => exact stands_of_parts ht hu (by simp) hl
  | firstBranch _ htag =>
    simp only [List.mem_cons, List.not_mem_nil, or_false] at hu
    rcases htag with rfl | rfl <;> rcases hu with rfl | rfl <;> rfl
  | nextBranch _ htag =>
    simp only [List.mem_cons, List.not_mem_nil, or_false] at hu
    rcases htag with rfl | rfl <;> rcases hu with rfl | rfl | rfl <;> rfl
  | lineEndDropped | firstCase | closeRandom => cases hu
  | nextCase =>
    obtain rfl := List.mem_singleton.mp hu
    trivial
  | openConditional | startElse | closeConditional | openSwitch | closeSwitch =>
    obtain rfl := List.mem_singleton.mp hu
    rfl

theorem Run.stands {options : CompileOptions} {lines : LineMap} {ps : List Phrase}
    {ts : List Token} {a : Assembly} (h : Run options lines ps ts a)
    (hp : ∀ p ∈ ps, p.token.IsPhrase) {u : Token} (hu : u ∈ ts)
    (hl : u.wire.length < 0x100000000) : u.Stands := by
  induction h with
  | start => cases hu
  | @step ps ts us a a' p links _ _ hs ih =>
    rcases List.mem_append.mp hu with hu | hu
    · exact ih (fun q hq => hp q (List.mem_append_left _ hq)) hu
    · exact hs.stands (hp p (List.mem_append_right _ List.mem_cons_self)) hu hl

theorem Step.ne_checksumName {options : CompileOptions} {line : Nat} {a a' : Assembly} {t : Token}
    {us : List Token} {links : List Link} (h : Step options line a t us links a')
    (ht : t.IsPhrase) : ∀ u ∈ us, u.tag ≠ .checksumName := by
  have hparts : ∀ u ∈ t.parts, u.tag ≠ .checksumName ∨ t = .simple .checksumName := by
    intro u hu
    cases t with
    | simple tag =>
      obtain rfl := List.mem_singleton.mp hu
      by_cases htag : tag = .checksumName
      · exact Or.inr (by rw [htag])
      · exact Or.inl htag
    | random tag ws js =>
      obtain rfl := List.mem_singleton.mp hu
      refine Or.inl fun htag => ?_
      have hr := ht.1
      rw [show tag = .checksumName from htag] at hr
      cases hr
    | arg | argChecksum =>
      simp only [Token.parts, List.mem_cons, List.not_mem_nil, or_false] at hu
      rcases hu with rfl | rfl <;> exact Or.inl (by simp [Token.tag])
    | endOfLineNumber | jump | shortBranch | checksumName => exact ht.elim
    | _ =>
      obtain rfl := List.mem_singleton.mp hu
      exact Or.inl (by simp [Token.tag])
  have hne : t ≠ .simple .checksumName := by
    rintro rfl
    rcases ht.2 with h | h | h <;> cases h
  intro u hu
  cases h with
  | plain => exact (hparts u hu).resolve_right hne
  | named => exact (hparts u hu).resolve_right hne
  | openRandom => exact (hparts u hu).resolve_right hne
  | lineEndKept =>
    obtain rfl := List.mem_singleton.mp hu
    unfold lineMark
    split <;> simp [Token.tag]
  | firstBranch _ htag =>
    simp only [List.mem_cons, List.not_mem_nil, or_false] at hu
    rcases htag with rfl | rfl <;> rcases hu with rfl | rfl <;> simp [Token.tag]
  | nextBranch _ htag =>
    simp only [List.mem_cons, List.not_mem_nil, or_false] at hu
    rcases htag with rfl | rfl <;> rcases hu with rfl | rfl | rfl <;> simp [Token.tag]
  | lineEndDropped | firstCase | closeRandom => cases hu
  | _ =>
    obtain rfl := List.mem_singleton.mp hu
    simp [Token.tag]

theorem Run.ne_checksumName {options : CompileOptions} {lines : LineMap} {ps : List Phrase}
    {ts : List Token} {a : Assembly} (h : Run options lines ps ts a)
    (hp : ∀ p ∈ ps, p.token.IsPhrase) : ∀ u ∈ ts, u.tag ≠ .checksumName := by
  induction h with
  | start => simp
  | @step ps ts us a a' p links _ _ hs ih =>
    intro u hu
    rcases List.mem_append.mp hu with hu | hu
    · exact ih (fun q hq => hp q (List.mem_append_left _ hq)) u hu
    · exact hs.ne_checksumName (hp p (List.mem_append_right _ List.mem_cons_self)) u hu

end Assembly

theorem Token.tag_blank (t : Token) : t.blank.tag = t.tag := by
  cases t <;> rfl

theorem length_wire_le_of_mem {t : Token} {ts : List Token} (h : t ∈ ts) :
    t.wire.length ≤ (wires ts).length := by
  induction ts with
  | nil => cases h
  | cons u ts ih =>
    rw [wires_cons, List.length_append]
    rcases List.mem_cons.mp h with rfl | h
    · omega
    · have := ih h
      omega

namespace Compiled

variable {options : CompileOptions} {source : String} {b : Bytecode} {ls : List Lexeme}
  {ps : List Phrase} {ts us : List Token} {a : Assembly}

theorem ofText (h : Compiled options source b ls ps ts us a) :
    Lexeme.ofText source.toList = .ok ls :=
  Lexeme.ofText_eq_ok_iff.mpr h.lexes

theorem isPhrase (h : Compiled options source b ls ps ts us a) : ∀ p ∈ ps, p.token.IsPhrase := by
  rw [h.phrases]
  exact h.lexes.isPhrase h.gathers

theorem composes (h : Compiled options source b ls ps ts us a) :
    Phrase.Composes (ls.map Lexeme.token) (ps.map Phrase.token) := by
  rw [h.phrases]
  exact Phrase.composes_of_ofLexemes h.gathers

theorem sound (h : Compiled options source b ls ps ts us a) : a.Sound ts := h.run.sound h.isPhrase

theorem size_out (h : Compiled options source b ls ps ts us a) :
    a.out.size = (Bytecode.wires us).length := by
  rw [← Array.length_toList, h.wires]

theorem toList (h : Compiled options source b ls ps ts us a) :
    b.toList = Bytecode.wires us ++ Bytecode.wires a.names.entries ++ [0] := by
  rw [h.stream, toList_extend h.wires, wires_append, wires_append, ← List.append_assoc]
  rfl

theorem size (h : Compiled options source b ls ps ts us a) :
    b.size = a.out.size + (Bytecode.wires a.names.entries).length + 1 := by
  rw [← Array.length_toList, h.toList, h.size_out, List.length_append, List.length_append]
  rfl

theorem stands (h : Compiled options source b ls ps ts us a) (hs : b.size < 0x80000000) :
    ∀ u ∈ us, u.Stands := by
  intro u hu
  have hm : u.blank ∈ ts.map Token.blank := h.blank ▸ List.mem_map_of_mem hu
  obtain ⟨t, ht, hb⟩ := List.mem_map.mp hm
  have hl := length_wire_le_of_mem hu
  have hsize := h.size
  have hout := h.size_out
  have hw : t.wire.length = u.wire.length := by
    rw [← t.length_wire_blank, hb, u.length_wire_blank]
  rw [← u.stands_blank_iff, ← hb, t.stands_blank_iff]
  exact h.run.stands h.isPhrase ht (by omega)

theorem ne_checksumName (h : Compiled options source b ls ps ts us a) :
    ∀ u ∈ us, u.tag ≠ .checksumName := by
  intro u hu
  have hm : u.blank ∈ ts.map Token.blank := h.blank ▸ List.mem_map_of_mem hu
  obtain ⟨t, ht, hb⟩ := List.mem_map.mp hm
  rw [← u.tag_blank, ← hb, t.tag_blank]
  exact h.run.ne_checksumName h.isPhrase t ht

theorem holdsAt_body (h : Compiled options source b ls ps ts us a) :
    b.HoldsAt 0 (Bytecode.wires us) :=
  @holdsAt_of_eq_append _ _ _ [] (Bytecode.wires a.names.entries ++ [0])
    (by simpa using h.toList) rfl

theorem holdsAt_table (h : Compiled options source b ls ps ts us a) :
    b.HoldsAt a.out.size (Bytecode.wires a.names.entries) :=
  holdsAt_of_eq_append h.toList h.size_out.symm

theorem holdsAt_end (h : Compiled options source b ls ps ts us a) :
    b.HoldsAt (a.out.size + (Bytecode.wires a.names.entries).length) [0] := by
  refine @holdsAt_of_eq_append _ _ _ (Bytecode.wires us ++ Bytecode.wires a.names.entries) []
    (by rw [h.toList, List.append_nil]) ?_
  rw [List.length_append, h.size_out]

/-- The stream is read as its tokens up to the table of names, if each of them can be. -/
theorem scan_body_of_stands (h : Compiled options source b ls ps ts us a)
    (hu : ∀ u ∈ us, u.Stands) :
    b.scan = ⟨placed 0 us ++ (b.scanFrom a.out.size).tokens, (b.scanFrom a.out.size).fault⟩ := by
  rw [scan, scanFrom_of_holdsAt hu h.holdsAt_body, Nat.zero_add, h.size_out]

theorem scan_of_stands (h : Compiled options source b ls ps ts us a) (hu : ∀ u ∈ us, u.Stands)
    (hn : ∀ t ∈ a.names.entries, t.Stands) :
    b.scan = ⟨placed 0 (us ++ a.names.entries ++ [.simple .endOfFile]), none⟩ := by
  rw [h.scan_body_of_stands hu, scanFrom_of_holdsAt hn h.holdsAt_table,
    scanFrom_endOfFile h.holdsAt_end]
  simp [placed_append, placed, h.size_out]

/-- The stream is read as its tokens, its table and the end mark. -/
theorem scan (h : Compiled options source b ls ps ts us a) (hs : b.size < 0x80000000)
    (hn : ∀ t ∈ a.names.entries, t.Stands) :
    b.scan = ⟨placed 0 (us ++ a.names.entries ++ [.simple .endOfFile]), none⟩ :=
  h.scan_of_stands (h.stands hs) hn

end Compiled

end QbScript
