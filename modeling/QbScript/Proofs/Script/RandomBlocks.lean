import QbScript.Proofs.Script.WellFormed

/-!
# Random blocks of a compiled stream

The addresses in the head of a random block lead to its branches, and the jumps before its branches
lead to its end, however the blocks of the script are nested.
-/

set_option autoImplicit false

namespace QbScript

open Bytecode Assembly

/-- The phrases of a source with the sizes of the stream before and after each. -/
def marks (options : CompileOptions) (source : String) (ls : List Lexeme) : List Mark :=
  trace options (LineMap.ofText source.toList) Assembly.start (Phrase.ofLexemes ls).phrases

theorem Assembly.map_token_trace {options : CompileOptions} {lines : LineMap} {a b : Assembly}
    {ps : List Phrase}
    (h : ps.foldlM (fun a p => a.add options (lines.position p.start) p.token) a = .ok b) :
    (trace options lines a ps).map Mark.token = ps.map Phrase.token := by
  induction ps generalizing a with
  | nil => rfl
  | cons p ps ih =>
    rw [List.foldlM_cons] at h
    obtain ⟨c, hc, h⟩ := bind_eq_ok_iff.mp h
    simp only [trace, hc, List.map_cons, ih h]

theorem Nesting.Lists.foldl_add {n : Nesting} {pos : Nat} {ws : List UInt16} (h : n.Lists pos ws)
    (ms : List Mark) : (ms.foldl Nesting.add n).Lists pos ws := by
  induction ms generalizing n with
  | nil => exact h
  | cons m ms ih => exact ih (h.add m)

/-- Every head of a random block has its block. -/
theorem Nesting.lists_ofMarks {ms : List Mark} {m : Mark} (hm : m ∈ ms) {tag : Tag}
    {ws : List UInt16} {js : List Int32} (ht : m.token = .random tag ws js) :
    (Nesting.ofMarks ms).Lists m.before ws := by
  obtain ⟨before, after, rfl⟩ := List.append_of_mem hm
  rw [Nesting.ofMarks, List.foldl_append, List.foldl_cons]
  apply Nesting.Lists.foldl_add
  obtain ⟨pos, t, size⟩ := m
  obtain rfl : t = .random tag ws js := ht
  exact Nesting.lists_add_random _ tag ws js pos size

theorem mem_placed_of_boundary {xs ys : List Token} {y : Token} (pos : Nat) :
    (pos + (wires xs).length, y) ∈ placed pos (xs ++ y :: ys) := by
  rw [placed_append]
  exact List.mem_append_right _ List.mem_cons_self

/-- A place between the tokens of a stream is where one of them stands. -/
theorem Boundary.exists_mem_placed {ts us : List Token} (h : us.map Token.blank = ts.map Token.blank)
    {pos : Nat} (hp : Boundary ts pos) {v : Token} (vs : List Token) :
    ∃ t, (pos, t) ∈ placed 0 (us ++ v :: vs) := by
  obtain ⟨xs, ys, rfl, rfl⟩ := hp
  rw [List.map_append] at h
  obtain ⟨us₁, us₂, rfl, h₁, -⟩ := List.map_eq_append_iff.mp h
  rw [← length_wires_eq_of_blank h₁]
  cases us₂ with
  | nil =>
    have := @mem_placed_of_boundary us₁ vs v 0
    exact ⟨v, by simpa using this⟩
  | cons u us₂ =>
    have := @mem_placed_of_boundary us₁ (us₂ ++ v :: vs) u 0
    exact ⟨u, by simpa using this⟩

namespace Compiled

variable {options : CompileOptions} {source : String} {b : Bytecode} {ls : List Lexeme}
  {ps : List Phrase} {ts us : List Token} {a : Assembly}

theorem exists_mem_scan (h : Compiled options source b ls ps ts us a) (hs : b.size < 0x80000000)
    (hn : NoZeroNames ls) {pos : Nat} (hp : Boundary ts pos) : ∃ t, (pos, t) ∈ b.scan.tokens := by
  rw [h.scan hs (h.stands_entries hn)]
  dsimp only
  rw [List.append_assoc]
  cases he : a.names.entries with
  | nil => exact hp.exists_mem_placed h.blank []
  | cons e es => exact hp.exists_mem_placed h.blank (es ++ [.simple .endOfFile])

theorem exists_jump_mem_scan (h : Compiled options source b ls ps ts us a)
    (hs : b.size < 0x80000000) (hn : NoZeroNames ls) {pos : Nat}
    (hp : (pos, .jump 0) ∈ placed 0 ts) : ∃ d, (pos, .jump d) ∈ b.scan.tokens := by
  obtain ⟨u, hu, hb⟩ := h.exists_mem_scan_of_mem_placed hs hn hp
  obtain ⟨d, rfl⟩ : ∃ d, u = .jump d := by cases u <;> simp_all [Token.blank]
  exact ⟨d, hu⟩

theorem nesting_eq (h : Compiled options source b ls ps ts us a) :
    Nesting.ofMarks (marks options source ls) = nesting options source ps := by
  rw [marks, nesting, h.phrases]

/-- The tokens of the marks are the lexemes of the source, with lists taken together. -/
theorem composes_marks (h : Compiled options source b ls ps ts us a) :
    Phrase.Composes (ls.map Lexeme.token) ((marks options source ls).map Mark.token) := by
  have hr := h.run.ofPhrases
  rw [h.phrases] at hr
  rw [marks, map_token_trace hr, ← h.phrases]
  exact h.composes

end Compiled

/-- The random blocks of a compiled stream. Every one of the source is closed. The head of a block
with `n` weights leads to `n` tokens, those at which its branches start; before every branch but
the first stands a jump, and all these jumps lead to the one token at which the block ends. -/
theorem randomHeader_of_compile {options : CompileOptions} {source : String} {b : Bytecode}
    (h : compile options source = .ok b) (hs : b.size < 0x80000000) :
    ∃ ls, Lexeme.ofText source.toList = .ok ls ∧
      Phrase.Composes (ls.map Lexeme.token) ((marks options source ls).map Mark.token) ∧
      (NoZeroNames ls →
        (Nesting.ofMarks (marks options source ls)).opened = [] ∧
        (∀ m ∈ marks options source ls, ∀ tag ws js, m.token = .random tag ws js →
          ∃ k ∈ (Nesting.ofMarks (marks options source ls)).closed,
            k.header = m.before ∧ k.weights = ws) ∧
        ∀ k ∈ (Nesting.ofMarks (marks options source ls)).closed,
          b.randomHeader k.header =
            .ok ⟨k.tag, k.weights, k.starts, k.header + weightedSize k.weights.length⟩ ∧
          k.starts.length = k.weights.length ∧
          (∀ s ∈ k.starts, ∃ t, (s, t) ∈ b.scan.tokens) ∧
          (∀ s ∈ k.starts.tail, 5 ≤ s ∧ (∃ d, (s - 5, .jump d) ∈ b.scan.tokens) ∧
            b.longAddress (s - 4) = .ok k.finish) ∧
          ∃ t, (k.finish, t) ∈ b.scan.tokens) := by
  obtain ⟨ls, ps, ts, us, a, hc⟩ := exists_compiled h
  refine ⟨ls, hc.ofText, hc.composes_marks, fun hn => ⟨?_, ?_, ?_⟩⟩
  · rw [hc.nesting_eq]
    exact hc.opened_eq_nil
  · intro m hm tag ws js ht
    rcases Nesting.lists_ofMarks hm ht with ⟨k, hk, -⟩ | hk
    · rw [hc.nesting_eq, hc.opened_eq_nil] at hk
      cases hk
    · exact hk
  · rw [hc.nesting_eq]
    intro k hk
    have hh := hc.agrees.closed k hk
    refine ⟨hc.randomHeader hs hh, hh.full, ?_, ?_, hc.exists_mem_scan hs hn hh.finish⟩
    · intro s hm
      exact hc.exists_mem_scan hs hn (hh.bounds s hm)
    · intro s hm
      obtain ⟨h5, hj⟩ := hh.jumps s hm
      exact ⟨h5, hc.exists_jump_mem_scan hs hn hj, hc.read_of_settled (hh.ends s hm)⟩

/-- A block in the first of two branches. The jump before the second one leads to the end. -/
theorem randomHeader_of_compile_nested :
    ∃ b ls, compile ⟨.fast, false⟩
        "RANDOM(1,1)RANDOMCASE RANDOM(2)RANDOMCASE RANDOMEND RANDOMCASE RANDOMEND" = .ok b ∧
      Lexeme.ofText
        "RANDOM(1,1)RANDOMCASE RANDOM(2)RANDOMCASE RANDOMEND RANDOMCASE RANDOMEND".toList =
          .ok ls ∧
      Phrase.Composes (ls.map Lexeme.token) ((marks ⟨.fast, false⟩
        "RANDOM(1,1)RANDOMCASE RANDOM(2)RANDOMCASE RANDOMEND RANDOMCASE RANDOMEND" ls).map
          Mark.token) ∧
      (Nesting.ofMarks (marks ⟨.fast, false⟩
        "RANDOM(1,1)RANDOMCASE RANDOM(2)RANDOMCASE RANDOMEND RANDOMCASE RANDOMEND" ls)).closed =
          [⟨⟨17, .random, [2], [28]⟩, 28⟩, ⟨⟨0, .random, [1, 1], [17, 33]⟩, 33⟩] ∧
      b.randomHeader 17 = .ok ⟨.random, [2], [28], 28⟩ ∧
      b.randomHeader 0 = .ok ⟨.random, [1, 1], [17, 33], 17⟩ ∧
      (∃ d, (28, .jump d) ∈ b.scan.tokens) ∧ b.longAddress 29 = .ok 33 := by
  have hb : compile ⟨.fast, false⟩
      "RANDOM(1,1)RANDOMCASE RANDOM(2)RANDOMCASE RANDOMEND RANDOMCASE RANDOMEND" =
      .ok #[47, 2, 0, 0, 0, 1, 0, 1, 0, 4, 0, 0, 0, 16, 0, 0, 0, 47, 1, 0, 0, 0, 2, 0, 0, 0, 0, 0,
        46, 0, 0, 0, 0, 0] := by decide +kernel
  have hs : Array.size #[(47 : UInt8), 2, 0, 0, 0, 1, 0, 1, 0, 4, 0, 0, 0, 16, 0, 0, 0, 47, 1, 0, 0,
      0, 2, 0, 0, 0, 0, 0, 46, 0, 0, 0, 0, 0] < 0x80000000 := by decide
  obtain ⟨ls, hl, hn, hk⟩ : ∃ ls,
      Lexeme.ofText
        "RANDOM(1,1)RANDOMCASE RANDOM(2)RANDOMCASE RANDOMEND RANDOMCASE RANDOMEND".toList =
          .ok ls ∧
      NoZeroNames ls ∧ (Nesting.ofMarks (marks ⟨.fast, false⟩
        "RANDOM(1,1)RANDOMCASE RANDOM(2)RANDOMCASE RANDOMEND RANDOMCASE RANDOMEND" ls)).closed =
          [⟨⟨17, .random, [2], [28]⟩, 28⟩, ⟨⟨0, .random, [1, 1], [17, 33]⟩, 33⟩] :=
    ⟨(Lexeme.ofText
      "RANDOM(1,1)RANDOMCASE RANDOM(2)RANDOMCASE RANDOMEND RANDOMCASE RANDOMEND".toList).toOption.getD
        [], by decide +kernel⟩
  obtain ⟨ls', hl', hcomposes, hblocks⟩ := randomHeader_of_compile hb hs
  obtain rfl := Except.ok.inj (hl.symm.trans hl')
  obtain ⟨-, -, hall⟩ := hblocks hn
  rw [hk] at hall
  obtain ⟨hinner, -⟩ := hall ⟨⟨17, .random, [2], [28]⟩, 28⟩ (by decide)
  obtain ⟨houter, -, -, hjumps, -⟩ := hall ⟨⟨0, .random, [1, 1], [17, 33]⟩, 33⟩ (by decide)
  obtain ⟨-, hjump, hend⟩ := hjumps 33 (by decide)
  exact ⟨_, ls, hb, hl, hcomposes, hk, hinner, houter, hjump, hend⟩

end QbScript
