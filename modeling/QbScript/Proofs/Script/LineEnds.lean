import QbScript.Proofs.Listing.Independence

/-!
# Line ends

No line end of a compiled stream stands right after another one, whatever lies between them in the
source. With the numbers of lines or without them, the streams of a source differ in their line ends
and in addresses only.
-/

set_option autoImplicit false

namespace QbScript

open Bytecode Assembly

namespace Token

def isLineEnd : Token → Bool
  | .simple .endOfLine | .endOfLineNumber _ => true
  | _ => false

def unnumbered (t : Token) : Token :=
  match t.blank with
  | .endOfLineNumber _ => .simple .endOfLine
  | t => t

/-- What stands for `t` where lines have no numbers: a line end without its number, and for another
token one that has other addresses at most. -/
def Numbers (t u : Token) : Prop :=
  (∃ line, t = .endOfLineNumber line) ∧ u = .simple .endOfLine ∨
    t.isLineEnd = false ∧ t.blank = u.blank

variable {t u : Token}

theorem isLineEnd_blank (t : Token) : t.blank.isLineEnd = t.isLineEnd := by
  cases t <;> rfl

theorem isLineEnd_unnumbered (t : Token) : t.unnumbered.isLineEnd = t.isLineEnd := by
  cases t <;> rfl

theorem unnumbered_blank (t : Token) : t.blank.unnumbered = t.unnumbered := by
  rw [unnumbered, blank_blank, ← unnumbered]

theorem unnumbered_of_not_isLineEnd (h : t.isLineEnd = false) : t.unnumbered = t.blank := by
  cases t <;> first | rfl | cases h

/-- Two tokens that are the same without numbers, in a stream with numbers and in one without. -/
theorem numbers_of_unnumbered_eq (h : t.unnumbered = u.unnumbered)
    (ht : t.isLineEnd = true → ∃ line, t = .endOfLineNumber line)
    (hu : u.isLineEnd = true → u = .simple .endOfLine) : t.Numbers u := by
  have hsame : t.isLineEnd = u.isLineEnd := by
    rw [← isLineEnd_unnumbered t, h, isLineEnd_unnumbered]
  cases hl : t.isLineEnd with
  | true => exact Or.inl ⟨ht hl, hu (hsame.symm.trans hl)⟩
  | false =>
    refine Or.inr ⟨hl, ?_⟩
    rwa [unnumbered_of_not_isLineEnd hl, unnumbered_of_not_isLineEnd (hsame.symm.trans hl)] at h

end Token

namespace Assembly

/-- What a phrase writes on a target, apart from addresses and the numbers of lines. It depends on
whether a line end or a branch is the first of several. -/
def writes (target : Target) (a : Assembly) (t : Token) : List Token :=
  match t, target with
  | .simple .endOfLine, _ => if a.lineEnd = some a.out.size then [] else [t]
  | .simple .randomCase, _ =>
    match a.randomDepths with
    | (_, 0) :: _ => []
    | _ => [.jump 0]
  | .simple .randomEnd, _ => []
  | .simple .if, .fast => [.shortBranch .fastIf 0]
  | .simple .else, .fast => [.shortBranch .fastElse 0]
  | .simple .case, .fast | .simple .default, .fast =>
    match a.switchDepths with
    | (_, 0) :: _ => [t, .shortBranch .shortJump 0]
    | _ => [.shortBranch .shortJump 0, t, .shortBranch .shortJump 0]
  | t, _ => t.parts

variable {options options' : CompileOptions} {line : Nat} {lines lines' : LineMap}
  {a a' : Assembly} {t u : Token} {ts us ts' : List Token} {links : List Link} {ps : List Phrase}

theorem writes_congr {target : Target}
    (hl : a.lineEnd = some a.out.size ↔ a'.lineEnd = some a'.out.size)
    (hr : a.randomDepths = a'.randomDepths)
    (hs : target = .fast → a.switchDepths = a'.switchDepths) (t : Token) :
    a.writes target t = a'.writes target t := by
  unfold writes
  split
  case h_6 | h_7 => rw [hs rfl]
  all_goals simp only [hl, hr]

theorem map_unnumbered_parts (ht : t.IsPhrase) : t.parts.map Token.unnumbered = t.parts := by
  cases t with
  | random tag ws js =>
    obtain ⟨-, rfl⟩ := ht
    simp [Token.parts, Token.unnumbered, Token.blank]
  | endOfLineNumber | jump | shortBranch | checksumName => exact ht.elim
  | _ => rfl

theorem Step.map_unnumbered (h : Step options line a t us links a') (ht : t.IsPhrase) :
    us.map Token.unnumbered = a.writes options.target t := by
  cases h with
  | plain hp =>
    rw [map_unnumbered_parts ht]
    cases hf : options.target <;> rw [hf] at hp <;> unfold writes <;> split <;>
      first | rfl | exact hp.elim | contradiction
  | named hn =>
    rw [map_unnumbered_parts ht]
    cases t <;> first | rfl | cases hn
  | lineEndKept hl =>
    simp only [writes, if_neg hl]
    unfold lineMark
    split <;> rfl
  | lineEndDropped hl => simp only [writes, if_pos hl, List.map_nil]
  | openRandom => exact map_unnumbered_parts ht
  | firstCase hr hf => simp only [writes, randomDepths, hr, List.map_cons, hf, List.map_nil]
  | @nextCase f outer out hr hf =>
    simp only [writes, randomDepths, hr, List.map_cons]
    split
    · rename_i he
      exact absurd (Prod.mk.inj (List.cons.inj he).1).2 hf
    · rfl
  | closeRandom => rfl
  | openConditional hfast | startElse hfast =>
    rw [hfast]
    rfl
  | closeConditional hfast | openSwitch hfast | closeSwitch hfast =>
    rw [hfast]
    rfl
  | firstBranch hfast htag hs hc =>
    rcases htag with rfl | rfl
    all_goals
      simp only [writes, hfast, switchDepths, hs, List.map_cons, hc, List.length_nil]
      rfl
  | @nextBranch tag f outer hfast htag hs hc =>
    have hne : f.cases.length ≠ 0 := by simpa using hc
    rcases htag with rfl | rfl
    all_goals
      simp only [writes, hfast, switchDepths, hs, List.map_cons]
      split
      · rename_i he
        exact absurd (Prod.mk.inj (List.cons.inj he).1).2 hne
      · rfl

/-- A step that writes a line end writes nothing else, and it writes none after a line end. -/
theorem Step.lineEnds (h : Step options line a t us links a') (ht : t.IsPhrase) :
    (∀ u ∈ us, u.isLineEnd = false) ∧ a'.lineEnd = a.lineEnd ∨
      us = [lineMark options line] ∧ a.lineEnd ≠ some a.out.size ∧
        a'.lineEnd = some a'.out.size := by
  have hparts : t ≠ .simple .endOfLine → ∀ u ∈ t.parts, u.isLineEnd = false := by
    intro hne u hu
    cases t with
    | simple tag =>
      obtain rfl := List.mem_singleton.mp hu
      cases tag <;> first | rfl | exact absurd rfl hne
    | endOfLineNumber | jump | shortBranch | checksumName => exact ht.elim
    | arg | argChecksum =>
      simp only [Token.parts, List.mem_cons, List.not_mem_nil, or_false] at hu
      rcases hu with rfl | rfl <;> rfl
    | _ =>
      obtain rfl := List.mem_singleton.mp hu
      rfl
  cases h with
  | plain hp =>
    refine Or.inl ⟨hparts ?_, rfl⟩
    rintro rfl
    exact hp
  | named hn =>
    refine Or.inl ⟨hparts ?_, rfl⟩
    rintro rfl
    cases hn
  | lineEndKept hl => exact Or.inr ⟨rfl, hl, rfl⟩
  | openRandom => exact Or.inl ⟨hparts (by simp), rfl⟩
  | firstBranch _ htag | nextBranch _ htag =>
    refine Or.inl ⟨?_, rfl⟩
    rcases htag with rfl | rfl <;> simp [Token.isLineEnd]
  | _ => exact Or.inl ⟨by simp [Token.isLineEnd], rfl⟩

/-- A line end stands apart from the one before it. After a line end the assembly knows of it. -/
theorem Run.lineEnds_apart (h : Run options lines ps ts a) (hp : ∀ p ∈ ps, p.token.IsPhrase) :
    ts.IsChain (fun t u => ¬ (t.isLineEnd = true ∧ u.isLineEnd = true)) ∧
      ∀ t ∈ ts.getLast?, t.isLineEnd = true → a.lineEnd = some a.out.size := by
  induction h with
  | start => exact ⟨.nil, nofun⟩
  | @step ps ts us a a' p links _ _ hs ih =>
    obtain ⟨hchain, hlast⟩ := ih fun q hq => hp q (List.mem_append_left _ hq)
    rcases hs.lineEnds (hp p (List.mem_append_right _ List.mem_cons_self)) with
      ⟨hus, hkept⟩ | ⟨rfl, hne, hend⟩
    · have hnone : us.IsChain (fun t u => ¬ (t.isLineEnd = true ∧ u.isLineEnd = true)) := by
        refine (List.pairwise_of_forall_mem_list fun t ht u _ he => ?_).isChain
        rw [hus t ht] at he
        cases he.1
      constructor
      · refine hchain.append hnone fun t _ u hu he => ?_
        rw [hus u (List.mem_of_mem_head? hu)] at he
        cases he.2
      · intro t ht hl
        rcases List.eq_nil_or_concat us with rfl | ⟨vs, u, rfl⟩
        · rw [List.append_nil] at ht
          have hsize : a'.out.size = a.out.size := hs.size_out
          rw [hkept, hsize]
          exact hlast t ht hl
        · obtain rfl : u = t := by simpa using ht
          rw [hus u (by simp)] at hl
          cases hl
    · constructor
      · refine hchain.append (.singleton _) fun t ht u _ he => ?_
        exact hne (hlast t ht he.1)
      · exact fun _ _ _ => hend

/-- Line ends have numbers exactly if the options say so. -/
theorem Run.exists_lineMark (h : Run options lines ps ts a) (hp : ∀ p ∈ ps, p.token.IsPhrase)
    (hu : u ∈ ts) (hl : u.isLineEnd = true) : ∃ line, u = lineMark options line := by
  induction h with
  | start => cases hu
  | @step ps ts us a a' p links _ _ hs ih =>
    rcases List.mem_append.mp hu with hu | hu
    · exact ih (fun q hq => hp q (List.mem_append_left _ hq)) hu
    · rcases hs.lineEnds (hp p (List.mem_append_right _ List.mem_cons_self)) with
        ⟨hus, -⟩ | ⟨rfl, -, -⟩
      · rw [hus u hu] at hl
        cases hl
      · exact ⟨_, List.mem_singleton.mp hu⟩

theorem Run.exists_step_of_concat {p : Phrase} (h : Run options lines (ps ++ [p]) ts a) :
    ∃ ts₀ us a₀ links, Run options lines ps ts₀ a₀ ∧
      Step options (lines.position p.start).line a₀ p.token us links a ∧ ts = ts₀ ++ us := by
  generalize hq : ps ++ [p] = qs at h
  cases h with
  | start => simp at hq
  | step h _ hs =>
    obtain ⟨rfl, he⟩ := List.append_inj' hq rfl
    obtain rfl := List.singleton_inj.mp he
    exact ⟨_, _, _, _, h, hs, rfl⟩

theorem Run.eq_nil (h : Run options lines [] ts a) : ts = [] := by
  generalize hq : ([] : List Phrase) = qs at h
  cases h with
  | start => rfl
  | step => simp at hq

theorem Run.switchDepths_eq (hf : options.target = .fast) (hf' : options'.target = .fast)
    (h : Run options lines ps ts a) (h' : Run options' lines' ps ts' a') :
    a.switchDepths = a'.switchDepths := by
  obtain ⟨n, hn, hd⟩ := h.exists_bracketing? rfl (Step.moves_switch hf)
  obtain ⟨m, hm, hd'⟩ := h'.exists_bracketing? rfl (Step.moves_switch hf')
  obtain rfl := Option.some.inj (hn.symm.trans hm)
  exact hd.symm.trans hd'

/-- Two runs of a script for one target write the same, apart from addresses and numbers. -/
theorem Run.map_unnumbered_eq (h : Run options lines ps ts a) (h' : Run options' lines' ps ts' a')
    (ht : options.target = options'.target) (hp : ∀ p ∈ ps, p.token.IsPhrase) :
    ts.map Token.unnumbered = ts'.map Token.unnumbered := by
  induction ps using List.reverseRecOn generalizing ts a ts' a' with
  | nil => rw [h.eq_nil, h'.eq_nil]
  | append_singleton ps p ih =>
    have hps : ∀ q ∈ ps, q.token.IsPhrase := fun q hq => hp q (List.mem_append_left _ hq)
    have hphrase := hp p (List.mem_append_right _ List.mem_cons_self)
    obtain ⟨ts₀, us, b, links, hr, hs, rfl⟩ := h.exists_step_of_concat
    obtain ⟨ts₀', us', b', links', hr', hs', rfl⟩ := h'.exists_step_of_concat
    have hswitch : options'.target = .fast → b.switchDepths = b'.switchDepths :=
      fun hf => Run.switchDepths_eq (ht.trans hf) hf hr hr'
    rw [List.map_append, List.map_append, ih hr hr' hps, hs.map_unnumbered hphrase,
      hs'.map_unnumbered hphrase, ht,
      writes_congr (hr.lineEnd_iff hr' hps) (hr.randomDepths_eq hr') hswitch]

end Assembly

namespace Compiled

variable {options options' : CompileOptions} {source : String} {b b' : Bytecode} {ls : List Lexeme}
  {ps : List Phrase} {ts us ts' us' : List Token} {a a' : Assembly}

theorem map_isLineEnd (h : Compiled options source b ls ps ts us a) :
    us.map Token.isLineEnd = ts.map Token.isLineEnd := by
  have hmap := congrArg (List.map Token.isLineEnd) h.blank
  simpa [Function.comp_def, Token.isLineEnd_blank] using hmap

theorem map_unnumbered (h : Compiled options source b ls ps ts us a) :
    us.map Token.unnumbered = ts.map Token.unnumbered := by
  have hmap := congrArg (List.map Token.unnumbered) h.blank
  simpa [Function.comp_def, Token.unnumbered_blank] using hmap

/-- A line end of the stream was written as one. -/
theorem exists_lineMark (h : Compiled options source b ls ps ts us a) {u : Token} (hu : u ∈ us)
    (hl : u.isLineEnd = true) : ∃ line, u = lineMark options line := by
  have hm : u.blank ∈ ts.map Token.blank := h.blank ▸ List.mem_map_of_mem hu
  obtain ⟨t, ht, hb⟩ := List.mem_map.mp hm
  have htl : t.isLineEnd = true := by rw [← t.isLineEnd_blank, hb, u.isLineEnd_blank, hl]
  obtain ⟨line, rfl⟩ := h.run.exists_lineMark h.isPhrase ht htl
  refine ⟨line, ?_⟩
  unfold lineMark at hb ⊢
  split at hb <;> cases u <;> simp_all [Token.blank]

/-- No line ends but those of the run are in the table, and none at the end. -/
theorem not_isLineEnd_of_mem_table {t : Token}
    (ht : t ∈ a.names.entries ++ [.simple .endOfFile]) : t.isLineEnd = false := by
  rcases List.mem_append.mp ht with ht | ht
  · obtain ⟨entry, -, rfl⟩ := List.mem_map.mp ht
    rfl
  · obtain rfl := List.mem_singleton.mp ht
    rfl

theorem lineEnds_apart (h : Compiled options source b ls ps ts us a) (hs : b.size < 0x80000000)
    (hn : NoZeroNames ls) :
    (b.scan.tokens.map Prod.snd).IsChain
      fun t u => ¬ (t.isLineEnd = true ∧ u.isLineEnd = true) := by
  have hbody : us.IsChain fun t u => ¬ (t.isLineEnd = true ∧ u.isLineEnd = true) := by
    have hts := (h.run.lineEnds_apart h.isPhrase).1
    rw [← @List.isChain_map _ _ (fun x y => ¬ (x = true ∧ y = true)) Token.isLineEnd] at hts ⊢
    rwa [h.map_isLineEnd]
  rw [h.scan hs (h.stands_entries hn), map_snd_placed, List.append_assoc]
  refine hbody.append ?_ fun t _ u hu he => ?_
  · refine (List.pairwise_of_forall_mem_list fun t ht u _ he => ?_).isChain
    rw [not_isLineEnd_of_mem_table ht] at he
    cases he.1
  · rw [not_isLineEnd_of_mem_table (List.mem_of_mem_head? hu)] at he
    cases he.2

theorem entries_eq (h : Compiled options source b ls ps ts us a)
    (h' : Compiled options' source b' ls ps ts' us' a') : a.names.entries = a'.names.entries := by
  rw [NameTable.entries, NameTable.entries,
    NameTable.toList_congr fun k => h.run.get?_names_eq h'.run k]

/-- The stream with the numbers of lines and the one without them, token by token. -/
theorem forall₂_numbers (h : Compiled options source b ls ps ts us a)
    (h' : Compiled options' source b' ls ps ts' us' a') (ht : options.target = options'.target)
    (hl : options.lineNumbers = true) (hl' : options'.lineNumbers = false)
    (hs : b.size < 0x80000000) (hs' : b'.size < 0x80000000) (hn : NoZeroNames ls) :
    List.Forall₂ Token.Numbers (b.scan.tokens.map Prod.snd) (b'.scan.tokens.map Prod.snd) := by
  have hmap : us.map Token.unnumbered = us'.map Token.unnumbered := by
    rw [h.map_unnumbered, h'.map_unnumbered, h.run.map_unnumbered_eq h'.run ht h.isPhrase]
  have hbody : List.Forall₂ Token.Numbers us us' := by
    refine List.forall₂_iff_zip.mpr ⟨by simpa using congrArg List.length hmap, ?_⟩
    intro t u hm
    have heq : t.unnumbered = u.unnumbered := by
      have hzip : List.Forall₂ (fun t u => t.unnumbered = u.unnumbered) us us' := by
        rw [← List.forall₂_eq_eq_eq, List.forall₂_map_left_iff, List.forall₂_map_right_iff] at hmap
        exact hmap
      exact (List.forall₂_iff_zip.mp hzip).2 hm
    refine Token.numbers_of_unnumbered_eq heq (fun htl => ?_) fun hul => ?_
    · obtain ⟨line, rfl⟩ := h.exists_lineMark (List.of_mem_zip hm).1 htl
      exact ⟨_, by rw [lineMark, hl]; rfl⟩
    · obtain ⟨line, rfl⟩ := h'.exists_lineMark (List.of_mem_zip hm).2 hul
      rw [lineMark, hl']
      rfl
  rw [h.scan hs (h.stands_entries hn), h'.scan hs' (h'.stands_entries hn), map_snd_placed,
    map_snd_placed, List.append_assoc, List.append_assoc, h.entries_eq h']
  refine List.rel_append hbody (List.forall₂_same.mpr fun t ht => ?_)
  exact Or.inr ⟨not_isLineEnd_of_mem_table ht, rfl⟩

end Compiled

/-- In a compiled stream no two line ends stand next to each other. The stream that the source has
for the same target without the numbers of lines is the same token by token, up to these numbers and
to addresses. -/
theorem lineEnds_of_compile {options : CompileOptions} {source : String} {b : Bytecode}
    (h : compile options source = .ok b) (hs : b.size < 0x80000000) :
    ∃ ls, Lexeme.ofText source.toList = .ok ls ∧ (NoZeroNames ls →
      (b.scan.tokens.map Prod.snd).IsChain
          (fun t u => ¬ (t.isLineEnd = true ∧ u.isLineEnd = true)) ∧
        (options.lineNumbers = true → ∀ b', compile { options with lineNumbers := false } source =
            .ok b' → b'.size < 0x80000000 →
          List.Forall₂ Token.Numbers (b.scan.tokens.map Prod.snd)
            (b'.scan.tokens.map Prod.snd))) := by
  obtain ⟨ls, ps, ts, us, a, hc⟩ := exists_compiled h
  refine ⟨ls, hc.ofText, fun hn => ⟨hc.lineEnds_apart hs hn, fun hl b' h' hs' => ?_⟩⟩
  obtain ⟨ls', ps', ts', us', a', hc'⟩ := exists_compiled h'
  obtain rfl := Except.ok.inj (hc.ofText.symm.trans hc'.ofText)
  obtain rfl := hc.phrases.trans hc'.phrases.symm
  exact hc.forall₂_numbers hc' rfl hl rfl hs hs' hn

theorem lineEnds_of_compile_comment :
    ∃ b b', compile ⟨.fast, true⟩ "RANDOM(1)RANDOMCASE\nIF a\n\n// b\nENDIF\nRANDOMEND\n" = .ok b ∧
      compile ⟨.fast, false⟩ "RANDOM(1)RANDOMCASE\nIF a\n\n// b\nENDIF\nRANDOMEND\n" = .ok b' ∧
      (b.scan.tokens.map Prod.snd).IsChain
        (fun t u => ¬ (t.isLineEnd = true ∧ u.isLineEnd = true)) ∧
      List.Forall₂ Token.Numbers (b.scan.tokens.map Prod.snd) (b'.scan.tokens.map Prod.snd) := by
  have hb : compile ⟨.fast, true⟩ "RANDOM(1)RANDOMCASE\nIF a\n\n// b\nENDIF\nRANDOMEND\n" =
      .ok #[47, 1, 0, 0, 0, 1, 0, 0, 0, 0, 0, 2, 1, 0, 0, 0, 71, 13, 0, 22, 188, 65, 72, 23, 2, 2,
        0, 0, 0, 40, 2, 5, 0, 0, 0, 43, 188, 65, 72, 23, 97, 0, 0] := by decide +kernel
  have hb' : compile ⟨.fast, false⟩ "RANDOM(1)RANDOMCASE\nIF a\n\n// b\nENDIF\nRANDOMEND\n" =
      .ok #[47, 1, 0, 0, 0, 1, 0, 0, 0, 0, 0, 1, 71, 9, 0, 22, 188, 65, 72, 23, 1, 40, 1, 43, 188,
        65, 72, 23, 97, 0, 0] := by decide +kernel
  have hs : Array.size #[(47 : UInt8), 1, 0, 0, 0, 1, 0, 0, 0, 0, 0, 2, 1, 0, 0, 0, 71, 13, 0, 22,
      188, 65, 72, 23, 2, 2, 0, 0, 0, 40, 2, 5, 0, 0, 0, 43, 188, 65, 72, 23, 97, 0, 0] <
      0x80000000 := by decide
  have hs' : Array.size #[(47 : UInt8), 1, 0, 0, 0, 1, 0, 0, 0, 0, 0, 1, 71, 9, 0, 22, 188, 65, 72,
      23, 1, 40, 1, 43, 188, 65, 72, 23, 97, 0, 0] < 0x80000000 := by decide
  obtain ⟨ls, hl, hall⟩ := lineEnds_of_compile hb hs
  have hn : (Lexeme.ofText
      "RANDOM(1)RANDOMCASE\nIF a\n\n// b\nENDIF\nRANDOMEND\n".toList).toOption.any
      (fun ls => decide (NoZeroNames ls)) = true := by decide +kernel
  rw [hl] at hn
  obtain ⟨hchain, hnumbers⟩ := hall (by simpa [Except.toOption] using hn)
  exact ⟨_, _, hb, hb', hchain, hnumbers rfl _ hb' hs'⟩

end QbScript
