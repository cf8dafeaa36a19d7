import QbScript.Proofs.Script.Refusal
import QbScript.Proofs.Script.WellFormed

/-!
# The table of names

The table of a compiled stream is the set of names of its source, each in its first spelling, in
the order of checksums. A script is refused for its names only if two of them collide, and then it
has no stream.
-/

set_option autoImplicit false

namespace QbScript

open Bytecode Assembly

namespace Assembly

variable {options : CompileOptions} {lines : LineMap} {a : Assembly} {t : Token} {ps : List Phrase}
  {c : Collision}

/-- The run that ends at a collision, and the phrase with the name that collides. -/
theorem exists_refuses_of_ofPhrases (h : ofPhrases options lines ps = .error (.collision c)) :
    ∃ front p rest ts a, ps = front ++ p :: rest ∧ Run options lines front ts a ∧
      a.Refuses p.token c := by
  -- On the front parts of the script: the first that has no assembly ends with the refused phrase.
  induction ps using List.reverseRecOn with
  | nil => cases h
  | append_singleton ps p ih =>
    rw [ofPhrases_append] at h
    cases hps : ofPhrases options lines ps with
    | error e =>
      rw [hps] at h
      obtain rfl := Except.error.inj h
      obtain ⟨front, q, rest, ts, a, rfl, hrun, hc⟩ := ih hps
      exact ⟨front, q, rest ++ [p], ts, a, by simp, hrun, hc⟩
    | ok a =>
      rw [hps, ok_bind, List.foldlM_cons] at h
      simp only [List.foldlM_nil, pure_eq_ok, bind_ok] at h
      obtain ⟨ts, hrun⟩ := exists_run_of_ofPhrases hps
      rcases failsWith_add _ h with he | ⟨c', hc, hr⟩
      · exact he.elim
      · obtain rfl := CompileError.collision.inj hc
        exact ⟨ps, p, [], ts, a, rfl, hrun, hr⟩

/-- A name is refused for an earlier one with the same checksum, which is a different name. -/
theorem Run.exists_collides_of_refuses {ts : List Token} (h : Run options lines ps ts a)
    (hc : a.Refuses t c) :
    ∃ text, t.spelling? = some text ∧ ∃ existing ∈ spellings (ps.map Phrase.token),
      Checksum.ofName existing = Checksum.ofName text ∧
        Checksum.normalize existing ≠ Checksum.normalize text := by
  obtain ⟨text, ht, hi⟩ := hc
  refine ⟨text, ht, ?_⟩
  -- A name that is the same as all names with its checksum would have been entered.
  by_contra hn
  push Not at hn
  obtain ⟨names, hnames⟩ := h.exists_insert hn
  rw [hi] at hnames
  cases hnames

end Assembly

namespace Phrase

theorem spelling?_of_gather {l : Lexeme} {ls rest : List Lexeme} {t : Token}
    (h : gather l ls = .ok (t, rest)) : t.spelling? = l.token.spelling? := by
  have hlist : ∀ {α : Type} {x : Except Fault α} {f : α → Token × List Lexeme},
      (∀ a, (f a).1.spelling? = none) → x.map f = .ok (t, rest) → t.spelling? = none := by
    intro α x f hf hx
    obtain ⟨a, -, ha⟩ := map_eq_ok_iff.mp hx
    have hnone := hf a
    rwa [ha] at hnone
  unfold gather at h
  split at h
  · rename_i hl
    rw [hl]
    exact hlist (fun _ => rfl) h
  · rename_i hl
    rw [hl]
    exact hlist (fun _ => rfl) h
  · rename_i hl
    rw [hl]
    split at h
    · exact hlist (fun _ => rfl) h
    · obtain ⟨rfl, -⟩ := Prod.mk.inj (Except.ok.inj h)
      rfl
  · obtain ⟨rfl, -⟩ := Prod.mk.inj (Except.ok.inj h)
    rfl

/-- Phrases have the names of lexemes, also where a list after them is not well formed. -/
theorem exists_lexeme_of_mem_gatherFrom {done : List Phrase} {ls : List Lexeme} {p : Phrase}
    (h : p ∈ (gatherFrom done ls).phrases) :
    p ∈ done ∨ ∃ l ∈ ls, p.token.spelling? = l.token.spelling? := by
  fun_induction gatherFrom done ls with
  | case1 done => exact Or.inl (List.mem_reverse.mp h)
  | case2 done l ls e he => exact Or.inl (List.mem_reverse.mp h)
  | case3 done l ls t rest hg _ ih =>
    rcases ih h with hd | ⟨m, hm, hs⟩
    · rcases List.mem_cons.mp hd with rfl | hd
      · exact Or.inr ⟨l, List.mem_cons_self, spelling?_of_gather hg⟩
      · exact Or.inl hd
    · exact Or.inr ⟨m, List.mem_cons_of_mem l ((suffix_of_gather hg).mem hm), hs⟩

theorem mem_spellings_of_mem_phrases {ls : List Lexeme} {p : Phrase} {text : String}
    (hp : p ∈ (ofLexemes ls).phrases) (ht : p.token.spelling? = some text) :
    text ∈ spellings (ls.map Lexeme.token) := by
  rcases exists_lexeme_of_mem_gatherFrom hp with hd | ⟨l, hl, hs⟩
  · cases hd
  · exact List.mem_filterMap.mpr ⟨l.token, List.mem_map_of_mem hl, by rw [← hs, ht]⟩

end Phrase

section

variable {options : CompileOptions} {source : String} {b : Bytecode} {ls : List Lexeme}

/-- Only adding the phrases can fail for a collision. -/
theorem ofPhrases_of_collision {c : Collision} (hl : Lexeme.ofText source.toList = .ok ls)
    (h : compile options source = .error (.collision c)) :
    ofPhrases options (LineMap.ofText source.toList) (Phrase.ofLexemes ls).phrases =
      .error (.collision c) := by
  simp only [compile, hl, Phrase.Gathered.assemble] at h
  cases hps : ofPhrases options (LineMap.ofText source.toList) (Phrase.ofLexemes ls).phrases with
  | error e =>
    rw [ofPhrases] at hps
    simp only [hps, error_bind] at h
    rw [Except.error.inj h]
  | ok a =>
    rw [ofPhrases] at hps
    simp only [hps, ok_bind] at h
    cases hf : (Phrase.ofLexemes ls).fault with
    | some fault =>
      rw [hf] at h
      cases h
    | none =>
      rw [hf] at h
      exact (failsWith_finish a _ h).elim

theorem not_noCollisions_of_compile {c : Collision} (hl : Lexeme.ofText source.toList = .ok ls)
    (h : compile options source = .error (.collision c)) :
    ¬ NoCollisions (spellings (ls.map Lexeme.token)) := by
  obtain ⟨front, p, rest, ts, a, hps, hrun, hc⟩ :=
    exists_refuses_of_ofPhrases (ofPhrases_of_collision hl h)
  obtain ⟨text, ht, existing, he, hsum, hne⟩ := hrun.exists_collides_of_refuses hc
  obtain ⟨_, hm, hx⟩ := List.mem_filterMap.mp he
  obtain ⟨q, hq, rfl⟩ := List.mem_map.mp hm
  intro hn
  apply hne
  refine hn existing (Phrase.mem_spellings_of_mem_phrases ?_ hx) text
    (Phrase.mem_spellings_of_mem_phrases ?_ ht) hsum
  · rw [hps]
    exact List.mem_append_left _ hq
  · rw [hps]
    exact List.mem_append_right _ List.mem_cons_self

end

namespace Compiled

variable {options : CompileOptions} {source : String} {b : Bytecode} {ls : List Lexeme}
  {ps : List Phrase} {ts us : List Token} {a : Assembly}

theorem noCollisions (h : Compiled options source b ls ps ts us a) :
    NoCollisions (spellings (ls.map Lexeme.token)) := by
  rw [h.composes.spellings_eq]
  intro x hx y hy hsum
  obtain ⟨first, hf, hx⟩ := h.run.normalize_eq hx
  obtain ⟨first', hf', hy⟩ := h.run.normalize_eq hy
  rw [← hsum, hf] at hf'
  obtain rfl := Option.some.inj hf'
  rw [← hx, hy]

/-- The entries of the table are the first spellings of the names of the source. -/
theorem mem_table_iff (h : Compiled options source b ls ps ts us a) {c : Checksum} {name : String} :
    (c, name) ∈ a.names.toList ↔ firstSpelling (spellings (ls.map Lexeme.token)) c = some name := by
  rw [NameTable.mem_toList_iff, h.run.get?_names, h.composes.spellings_eq]

end Compiled

theorem exists_firstSpelling_iff {names : List String} {c : Checksum} :
    (∃ name, firstSpelling names c = some name) ↔ ∃ text ∈ names, Checksum.ofName text = c := by
  rw [← Option.isSome_iff_exists, firstSpelling, List.find?_isSome]
  simp

/-- The stream ends in a table of the names, each once and in its first spelling. -/
structure EndsInTable (b : Bytecode) (names : List String) (table : List (Checksum × String)) :
    Prop where
  fault : b.scan.fault = none
  /-- The entries stand together just before the end mark, and nowhere else. -/
  tokens : ∃ body, b.scan.tokens.map Prod.snd =
      body ++ table.map (fun entry => .checksumName entry.1 entry.2) ++ [.simple .endOfFile] ∧
    ∀ t ∈ body, t.tag ≠ .checksumName
  ascending : table.Pairwise fun x y => x.1 < y.1
  checksums : ∀ c, c ∈ table.map Prod.fst ↔ c ∈ names.map Checksum.ofName
  first : ∀ entry ∈ table, firstSpelling names entry.1 = some entry.2

theorem Compiled.endsInTable {options : CompileOptions} {source : String} {b : Bytecode}
    {ls : List Lexeme} {ps : List Phrase} {ts us : List Token} {a : Assembly}
    (h : Compiled options source b ls ps ts us a) (hs : b.size < 0x80000000)
    (hn : NoZeroNames ls) :
    EndsInTable b (spellings (ls.map Lexeme.token)) a.names.toList := by
  have hscan := h.scan hs (h.stands_entries hn)
  refine ⟨by rw [hscan], ⟨us, ?_, fun u hu => ?_⟩, NameTable.pairwise_toList _, fun c => ?_, ?_⟩
  · rw [hscan]
    exact map_snd_placed 0 _
  · exact h.ne_checksumName u hu
  · simp only [List.mem_map, Prod.exists, exists_and_right, exists_eq_right, h.mem_table_iff]
    exact exists_firstSpelling_iff
  · exact fun entry he => h.mem_table_iff.mp he

/-- The table of a compiled stream is the set of names of its source. A script whose names collide
is refused for that, unless something else is wrong with it; no other script is. -/
theorem table_of_compile {options : CompileOptions} {source : String} {ls : List Lexeme}
    (hl : Lexeme.ofText source.toList = .ok ls) :
    (∀ b, compile options source = .ok b → b.size < 0x80000000 → NoZeroNames ls →
      ∃ table, EndsInTable b (spellings (ls.map Lexeme.token)) table) ∧
    ((∃ b, compile options source = .ok b) ∨
        (∃ c, compile options source = .error (.collision c)) →
      ((∃ c, compile options source = .error (.collision c)) ↔
        ∃ x ∈ spellings (ls.map Lexeme.token), ∃ y ∈ spellings (ls.map Lexeme.token),
          Checksum.ofName x = Checksum.ofName y ∧
            Checksum.normalize x ≠ Checksum.normalize y)) := by
  have hcompiled : ∀ b, compile options source = .ok b →
      ∃ ps ts us a, Compiled options source b ls ps ts us a := by
    intro b hb
    obtain ⟨ls', ps, ts, us, a, hc⟩ := exists_compiled hb
    obtain rfl := Except.ok.inj (hl.symm.trans hc.ofText)
    exact ⟨ps, ts, us, a, hc⟩
  constructor
  · intro b hb hs hn
    obtain ⟨ps, ts, us, a, hc⟩ := hcompiled b hb
    exact ⟨_, hc.endsInTable hs hn⟩
  · intro hboth
    constructor
    · rintro ⟨c, hc⟩
      have hn := not_noCollisions_of_compile hl hc
      unfold NoCollisions at hn
      push Not at hn
      exact hn
    · rintro ⟨x, hx, y, hy, hsum, hne⟩
      apply hboth.resolve_left
      rintro ⟨b, hb⟩
      obtain ⟨ps, ts, us, a, hc⟩ := hcompiled b hb
      exact hne (hc.noCollisions x hx y hy hsum)

/-- A name in three spellings, one of them an argument, and a pair of names that collide. -/
theorem table_of_compile_respelled :
    (∃ table, EndsInTable
      #[22, 222, 154, 140, 115, 7, 45, 22, 222, 154, 140, 115, 22, 85, 115, 0, 137, 22, 222, 154,
        140, 115, 43, 222, 154, 140, 115, 70, 111, 111, 0, 43, 85, 115, 0, 137, 98, 97, 114, 0, 0]
      ["Foo", "FOO", "bar", "foo"] table) ∧
    compile ⟨.plain, false⟩ "plumless = buckeroo" =
      .error (.collision ⟨0xb224f3da, "plumless", "buckeroo"⟩) ∧
    ∃ x ∈ ["plumless", "buckeroo"], ∃ y ∈ ["plumless", "buckeroo"],
      Checksum.ofName x = Checksum.ofName y ∧ Checksum.normalize x ≠ Checksum.normalize y := by
  constructor
  · obtain ⟨ls, hl, hnames, hn⟩ : ∃ ls, Lexeme.ofText "Foo = <FOO> bar foo".toList = .ok ls ∧
        spellings (ls.map Lexeme.token) = ["Foo", "FOO", "bar", "foo"] ∧ NoZeroNames ls :=
      ⟨(Lexeme.ofText "Foo = <FOO> bar foo".toList).toOption.getD [], by decide +kernel⟩
    have hb : compile ⟨.plain, false⟩ "Foo = <FOO> bar foo" = .ok
        #[22, 222, 154, 140, 115, 7, 45, 22, 222, 154, 140, 115, 22, 85, 115, 0, 137, 22, 222, 154,
          140, 115, 43, 222, 154, 140, 115, 70, 111, 111, 0, 43, 85, 115, 0, 137, 98, 97, 114, 0,
          0] := by decide +kernel
    obtain ⟨htable, -⟩ := @table_of_compile ⟨.plain, false⟩ _ _ hl
    exact hnames ▸ htable _ hb (by decide) hn
  · obtain ⟨ls, hl, hnames⟩ : ∃ ls, Lexeme.ofText "plumless = buckeroo".toList = .ok ls ∧
        spellings (ls.map Lexeme.token) = ["plumless", "buckeroo"] :=
      ⟨(Lexeme.ofText "plumless = buckeroo".toList).toOption.getD [], by decide +kernel⟩
    have hc : compile ⟨.plain, false⟩ "plumless = buckeroo" =
        .error (.collision ⟨0xb224f3da, "plumless", "buckeroo"⟩) := by decide +kernel
    obtain ⟨-, hcollides⟩ := @table_of_compile ⟨.plain, false⟩ _ _ hl
    exact ⟨hc, hnames ▸ (hcollides (Or.inr ⟨_, hc⟩)).mp ⟨_, hc⟩⟩

end QbScript
