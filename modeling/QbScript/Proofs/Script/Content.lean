import QbScript.Proofs.Script.RandomBlocks

/-!
# The content of a compiled stream

A compiled stream says the same as its source: the tokens that the assembly adds taken away, and
line ends that follow a line end apart, the one is the other token by token.
-/

set_option autoImplicit false

namespace QbScript

open Bytecode Assembly

/-- What a token of a stream says of the source. Jumps are added by the assembly, both conditionals
are read as the plain ones, and a line end is read without its number. -/
def Token.content? (t : Token) : Option Token :=
  match t.blank with
  | .jump _ | .shortBranch .shortJump _ => none
  | .shortBranch .fastIf _ => some (.simple .if)
  | .shortBranch .fastElse _ => some (.simple .else)
  | .endOfLineNumber _ => some (.simple .endOfLine)
  | t => some t

/-- What a source says up to some place: its tokens, how many branches each open random block has,
from the innermost outwards, and whether a line end here would follow a line end. -/
structure Content where
  tokens : List Token
  branches : List Nat
  afterLineEnd : Bool

namespace Content

def start : Content := ⟨[], [], false⟩

/-- The marks of a random block are no tokens, and only the start of a branch other than the first
stands between two line ends. -/
def add (c : Content) (t : Token) : Content :=
  match t with
  | .simple .endOfLine =>
    { c with
      tokens := if c.afterLineEnd then c.tokens else c.tokens ++ [.simple .endOfLine]
      afterLineEnd := true }
  | .simple .randomEnd => { c with branches := c.branches.tail }
  | .simple .randomCase =>
    match c.branches with
    | n :: outer =>
      { c with branches := (n + 1) :: outer, afterLineEnd := c.afterLineEnd && n = 0 }
    | [] => c
  | .random .. => ⟨c.tokens ++ [t], 0 :: c.branches, false⟩
  | t => { c with tokens := c.tokens ++ t.parts, afterLineEnd := false }

def ofTokens (ts : List Token) : Content := ts.foldl add start

theorem ofTokens_concat (ts : List Token) (t : Token) :
    ofTokens (ts ++ [t]) = (ofTokens ts).add t := by
  simp [ofTokens]

end Content

namespace Assembly

variable {options : CompileOptions} {line : Nat} {lines : LineMap} {a a' : Assembly} {t : Token}
  {ts us : List Token} {links : List Link} {c : Content}

structure Tells (a : Assembly) (ts : List Token) (c : Content) : Prop where
  tokens : ts.filterMap Token.content? = c.tokens
  branches : c.branches = a.randoms.map RandomFrame.filled
  afterLineEnd : c.afterLineEnd = decide (a.lineEnd = some a.out.size)
  lineEnd_le : ∀ n, a.lineEnd = some n → n ≤ a.out.size

theorem filterMap_content?_parts (hp : t.IsPhrase) (ht : ¬ t = .simple .endOfLine) :
    t.parts.filterMap Token.content? = t.parts := by
  cases t with
  | random tag ws js =>
    obtain ⟨-, rfl⟩ := hp
    simp [Token.parts, Token.content?, Token.blank]
  | endOfLineNumber | jump | shortBranch | checksumName => exact hp.elim
  | _ => rfl

theorem Content.add_of_isPlain {target : Target} (h : t.IsPlain target) :
    c.add t = { c with tokens := c.tokens ++ t.parts, afterLineEnd := false } := by
  unfold Content.add
  split <;> first | exact h.elim | rfl

theorem Content.add_named {text : String} (h : t.spelling? = some text) :
    c.add t = { c with tokens := c.tokens ++ t.parts, afterLineEnd := false } := by
  cases t <;> first | rfl | cases h

/-- A step that writes something makes room for a line end. -/
theorem Tells.write (hc : a.Tells ts c) (h : Step options line a t us links a') (hu : us ≠ [])
    (hl : a'.lineEnd = a.lineEnd) :
    false = decide (a'.lineEnd = some a'.out.size) ∧ ∀ n, a'.lineEnd = some n → n ≤ a'.out.size := by
  have hsize := h.size_out
  have hpos : 0 < (wires us).length := by
    cases us with
    | nil => exact absurd rfl hu
    | cons u us => simp [Token.wire]
  rw [hl]
  constructor
  · symm
    rw [decide_eq_false_iff_not]
    intro he
    have := hc.lineEnd_le _ he
    omega
  · intro n hn
    have := hc.lineEnd_le n hn
    omega

theorem Tells.step (hc : a.Tells ts c) (h : Step options line a t us links a') (ht : t.IsPhrase) :
    a'.Tells (ts ++ us) (c.add t) := by
  have hsize := h.size_out
  have hw := hc.write h
  cases h with
  | plain hp =>
    have hne : ¬ t = .simple .endOfLine := by
      rintro rfl
      exact hp
    have hparts : t.parts ≠ [] := by cases t <;> simp [Token.parts]
    rw [Content.add_of_isPlain hp]
    obtain ⟨h1, h2⟩ := hw hparts rfl
    exact ⟨by rw [List.filterMap_append, hc.tokens, filterMap_content?_parts ht hne], hc.branches,
      h1, h2⟩
  | named hn =>
    have hne : ¬ t = .simple .endOfLine := by
      rintro rfl
      cases hn
    have hparts : t.parts ≠ [] := by cases t <;> simp [Token.parts]
    rw [Content.add_named hn]
    obtain ⟨h1, h2⟩ := hw hparts rfl
    exact ⟨by rw [List.filterMap_append, hc.tokens, filterMap_content?_parts ht hne], hc.branches,
      h1, h2⟩
  | lineEndKept hl =>
    have hq : c.afterLineEnd = false := by rw [hc.afterLineEnd, decide_eq_false hl]
    have hm : [lineMark options line].filterMap Token.content? = [.simple .endOfLine] := by
      unfold lineMark
      split <;> rfl
    refine ⟨?_, hc.branches, by simp [Content.add], by simp⟩
    simp [Content.add, hq, hc.tokens, List.filterMap_append, hm]
  | lineEndDropped hl =>
    have hq : c.afterLineEnd = true := by rw [hc.afterLineEnd, decide_eq_true hl]
    refine ⟨by simp [Content.add, hq, hc.tokens], hc.branches, by simp [Content.add, hl],
      hc.lineEnd_le⟩
  | openRandom =>
    obtain ⟨h1, h2⟩ := hw (List.cons_ne_nil _ _) rfl
    refine ⟨?_, by simp [Content.add, hc.branches], h1, h2⟩
    rw [List.filterMap_append, hc.tokens]
    have := filterMap_content?_parts ht (by simp)
    simp only [Token.parts] at this
    rw [this]
    rfl
  | firstCase hr hf =>
    rename_i f outer out _ _
    have hb : c.branches = 0 :: outer.map RandomFrame.filled := by
      rw [hc.branches, hr, List.map_cons, hf]
    simp only [List.append_nil, wires_nil, List.length_nil, Nat.add_zero] at hsize ⊢
    refine ⟨by simp [Content.add, hb, hc.tokens], by simp [Content.add, hb, hf], ?_, ?_⟩
    · simp [Content.add, hb, hc.afterLineEnd, hsize]
    · rw [hsize]
      exact hc.lineEnd_le
  | nextCase hr hf =>
    rename_i f outer out _ _
    have hb : c.branches = f.filled :: outer.map RandomFrame.filled := by
      rw [hc.branches, hr, List.map_cons]
    obtain ⟨h1, h2⟩ := hw (List.cons_ne_nil _ _) rfl
    refine ⟨?_, by simp [Content.add, hb], ?_, h2⟩
    · rw [List.filterMap_append, hc.tokens]
      simp [Content.add, hb, Token.content?, Token.blank]
    · simpa [Content.add, hb, hf] using h1
  | closeRandom hr hf =>
    simp only [List.append_nil, wires_nil, List.length_nil, Nat.add_zero] at hsize ⊢
    refine ⟨by simp [Content.add, hc.tokens], by simp [Content.add, hc.branches, hr], ?_, ?_⟩
    · simp [Content.add, hc.afterLineEnd, hsize]
    · rw [hsize]
      exact hc.lineEnd_le
  | firstBranch _ htag =>
    obtain ⟨h1, h2⟩ := hw (List.cons_ne_nil _ _) rfl
    rcases htag with rfl | rfl <;>
      exact ⟨by rw [List.filterMap_append, hc.tokens]; rfl, hc.branches, h1, h2⟩
  | nextBranch _ htag =>
    obtain ⟨h1, h2⟩ := hw (List.cons_ne_nil _ _) rfl
    rcases htag with rfl | rfl <;>
      exact ⟨by rw [List.filterMap_append, hc.tokens]; rfl, hc.branches, h1, h2⟩
  | _ =>
    obtain ⟨h1, h2⟩ := hw (List.cons_ne_nil _ _) rfl
    exact ⟨by rw [List.filterMap_append, hc.tokens]; rfl, hc.branches, h1, h2⟩

theorem Run.tells {ps : List Phrase} (h : Run options lines ps ts a)
    (hp : ∀ p ∈ ps, p.token.IsPhrase) : a.Tells ts (Content.ofTokens (ps.map Phrase.token)) := by
  induction h with
  | start => exact ⟨rfl, rfl, rfl, by simp [Assembly.start]⟩
  | @step ps ts us a a' p links _ _ hs ih =>
    rw [List.map_append, List.map_singleton, Content.ofTokens_concat]
    exact (ih fun q hq => hp q (List.mem_append_left _ hq)).step hs
      (hp p (List.mem_append_right _ List.mem_cons_self))

end Assembly

namespace Token

theorem content?_blank (t : Token) : t.blank.content? = t.content? := by
  rw [content?, blank_blank, ← content?]

end Token

/-- A compiled stream is its source, up to what the assembly adds and the line ends that it drops:
the tokens before the table of names have the content of the source, in the order of the source. -/
theorem content_of_compile {options : CompileOptions} {source : String} {b : Bytecode}
    (h : compile options source = .ok b) (hs : b.size < 0x80000000) :
    ∃ ls qs, Lexeme.ofText source.toList = .ok ls ∧
      Phrase.Composes (ls.map Lexeme.token) qs ∧ (NoZeroNames ls →
        ∃ body table, b.scan.tokens.map Prod.snd = body ++ table ++ [.simple .endOfFile] ∧
          (∀ t ∈ table, t.tag = .checksumName) ∧ (∀ t ∈ body, t.tag ≠ .checksumName) ∧
          body.filterMap Token.content? = (Content.ofTokens qs).tokens) := by
  obtain ⟨ls, ps, ts, us, a, hc⟩ := exists_compiled h
  refine ⟨ls, _, hc.ofText, hc.composes, fun hn => ⟨us, a.names.entries, ?_, ?_, ?_, ?_⟩⟩
  · rw [hc.scan hs (hc.stands_entries hn), map_snd_placed]
  · intro t ht
    obtain ⟨entry, -, rfl⟩ := List.mem_map.mp ht
    rfl
  · exact hc.ne_checksumName
  · have hcontent : ∀ vs : List Token, (vs.map Token.blank).filterMap Token.content? =
        vs.filterMap Token.content? := by
      intro vs
      rw [List.filterMap_map]
      congr 1
      funext t
      exact t.content?_blank
    rw [← hcontent us, hc.blank, hcontent ts]
    exact (hc.run.tells hc.isPhrase).tokens

theorem content_of_compile_lineEnds :
    ∃ b ls qs body table,
      compile ⟨.fast, true⟩ "\n\nIF RANDOM(1)\nRANDOMCASE\nRANDOMEND\nENDIF" = .ok b ∧
      Lexeme.ofText "\n\nIF RANDOM(1)\nRANDOMCASE\nRANDOMEND\nENDIF".toList = .ok ls ∧
      Phrase.Composes (ls.map Lexeme.token) qs ∧
      b.scan.tokens.map Prod.snd = body ++ table ++ [.simple .endOfFile] ∧
      body.filterMap Token.content? = (Content.ofTokens qs).tokens := by
  have hb : compile ⟨.fast, true⟩ "\n\nIF RANDOM(1)\nRANDOMCASE\nRANDOMEND\nENDIF" =
      .ok #[2, 1, 0, 0, 0, 71, 19, 0, 47, 1, 0, 0, 0, 1, 0, 5, 0, 0, 0, 2, 3, 0, 0, 0, 40, 0] := by
    decide +kernel
  have hs : Array.size #[(2 : UInt8), 1, 0, 0, 0, 71, 19, 0, 47, 1, 0, 0, 0, 1, 0, 5, 0, 0, 0, 2, 3,
      0, 0, 0, 40, 0] < 0x80000000 := by decide
  obtain ⟨ls, qs, hl, hq, hc⟩ := content_of_compile hb hs
  have hn : (Lexeme.ofText "\n\nIF RANDOM(1)\nRANDOMCASE\nRANDOMEND\nENDIF".toList).toOption.any
      (fun ls => decide (NoZeroNames ls)) = true := by decide +kernel
  rw [hl] at hn
  obtain ⟨body, table, hscan, -, -, hcontent⟩ := hc (by simpa [Except.toOption] using hn)
  exact ⟨_, ls, qs, body, table, hb, hl, hq, hscan, hcontent⟩

end QbScript
