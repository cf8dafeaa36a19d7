import QbScript.Proofs.Script.Phrase
import QbScript.Script.Compile

/-!
# Runs

A script is compiled in a run: a step for every phrase, and after the last one the table of names
and the end mark. The stream that comes out is sound and has no open address.
-/

set_option autoImplicit false

namespace QbScript

open Bytecode

def NameTable.entries (t : NameTable) : List Token :=
  t.toList.map fun entry => .checksumName entry.1 entry.2

namespace Assembly

inductive Run (options : CompileOptions) (lines : LineMap) :
    List Phrase → List Token → Assembly → Prop
  | start : Run options lines [] [] start
  | step {ps : List Phrase} {ts us : List Token} {a a' : Assembly} {p : Phrase} {links : List Link}
      (h : Run options lines ps ts a)
      (ha : a.add options (lines.position p.start) p.token = .ok a')
      (hs : Step options (lines.position p.start).line a p.token us links a') :
      Run options lines (ps ++ [p]) (ts ++ us) a'

def ofPhrases (options : CompileOptions) (lines : LineMap) (ps : List Phrase) :
    Except CompileError Assembly :=
  ps.foldlM (fun a p => a.add options (lines.position p.start) p.token) start

variable {options : CompileOptions} {lines : LineMap} {ps : List Phrase} {ts : List Token}
  {a : Assembly}

theorem ofPhrases_append {qs : List Phrase} :
    ofPhrases options lines (ps ++ qs) = (do
      let a ← ofPhrases options lines ps
      qs.foldlM (fun a p => a.add options (lines.position p.start) p.token) a) :=
  List.foldlM_append ..

theorem exists_run_of_ofPhrases (h : ofPhrases options lines ps = .ok a) :
    ∃ ts, Run options lines ps ts a := by
  induction ps using List.reverseRecOn generalizing a with
  | nil =>
    obtain rfl := Except.ok.inj h
    exact ⟨[], .start⟩
  | append_singleton ps p ih =>
    rw [ofPhrases_append] at h
    obtain ⟨b, hb, h⟩ := bind_eq_ok_iff.mp h
    obtain ⟨ts, hr⟩ := ih hb
    have ha : b.add options (lines.position p.start) p.token = .ok a := by simpa using h
    obtain ⟨us, links, hs⟩ := step_of_add ha
    exact ⟨ts ++ us, .step hr ha hs⟩

theorem Run.ofPhrases (h : Run options lines ps ts a) : ofPhrases options lines ps = .ok a := by
  induction h with
  | start => rfl
  | step _ ha _ ih =>
    rw [ofPhrases_append, ih, ok_bind]
    simp [ha]

theorem Run.sound (h : Run options lines ps ts a) (hp : ∀ p ∈ ps, p.token.IsPhrase) :
    a.Sound ts := by
  induction h with
  | start => exact sound_start
  | @step ps ts us a a' p links _ _ hs ih =>
    exact (ih fun q hq => hp q (List.mem_append_left _ hq)).step hs
      (hp p (List.mem_append_right _ List.mem_cons_self))

theorem foldlM_write_checksumName (entries : List (Checksum × String)) (a : Assembly) :
    entries.foldlM (fun a entry => a.write (.checksumName entry.1 entry.2)) a =
      .ok { a with
        out := a.out.extend (entries.map fun entry => .checksumName entry.1 entry.2) } := by
  induction entries generalizing a with
  | nil => simp
  | cons entry entries ih =>
    rw [List.foldlM_cons, write_eq_ok_iff.mpr ⟨rfl, rfl⟩, ok_bind, ih, extend_extend]
    rfl

theorem finish_eq_ok_iff {b : Bytecode} :
    a.finish = .ok b ↔
      a.unclosed? = none ∧ b = a.out.extend (a.names.entries ++ [.simple .endOfFile]) := by
  unfold finish
  cases hu : a.unclosed? with
  | some e => simp [throw, throwThe, MonadExceptOf.throw]
  | none =>
    simp only [foldlM_write_checksumName, pure_eq_ok, ok_bind,
      write_eq_ok_iff.mpr ⟨show (Token.simple .endOfFile).leadTag.isInternal = false from rfl, rfl⟩,
      extend_extend, true_and]
    exact ⟨fun h => (Except.ok.inj h).symm, fun h => by rw [h]; rfl⟩

theorem frames_of_unclosed? (h : a.unclosed? = none) :
    a.conditionals = [] ∧ a.switches = [] ∧ a.randoms = [] := by
  unfold unclosed? at h
  split at h <;> simp_all

theorem openAddresses_of_unclosed? (h : a.unclosed? = none) : a.openAddresses = [] := by
  obtain ⟨hc, hs, hr⟩ := frames_of_unclosed? h
  simp [openAddresses, hc, hs, hr]

end Assembly

open Assembly

theorem compile_eq_ok_iff {options : CompileOptions} {source : String} {b : Bytecode} :
    compile options source = .ok b ↔
      ∃ ls a, Lexeme.ofText source.toList = .ok ls ∧ (Phrase.ofLexemes ls).fault = none ∧
        ofPhrases options (LineMap.ofText source.toList) (Phrase.ofLexemes ls).phrases = .ok a ∧
        a.unclosed? = none ∧ b = a.out.extend (a.names.entries ++ [.simple .endOfFile]) := by
  unfold compile
  dsimp only
  cases hl : Lexeme.ofText source.toList with
  | error e => simp
  | ok ls =>
    simp only [bind_eq_ok_iff, Except.ok.injEq, Phrase.Gathered.assemble]
    constructor
    · rintro ⟨a, ⟨a', ha', hf⟩, hb⟩
      split at hf
      · cases hf
      · rename_i hn
        obtain rfl := Except.ok.inj hf
        exact ⟨ls, a', rfl, hn, ha', finish_eq_ok_iff.mp hb⟩
    · rintro ⟨ls', a, rfl, hn, ha, hb⟩
      exact ⟨a, ⟨a, ha, by rw [hn]⟩, finish_eq_ok_iff.mpr hb⟩

theorem exists_run_of_compile {options : CompileOptions} {source : String} {b : Bytecode}
    (h : compile options source = .ok b) :
    ∃ ls ts a, Lexes (Cursor.start source.toList) ls ∧ (Phrase.ofLexemes ls).fault = none ∧
      Run options (LineMap.ofText source.toList) (Phrase.ofLexemes ls).phrases ts a ∧
      a.unclosed? = none ∧ b = a.out.extend (a.names.entries ++ [.simple .endOfFile]) := by
  obtain ⟨ls, a, hl, hf, ha, hu, hb⟩ := compile_eq_ok_iff.mp h
  obtain ⟨ts, hr⟩ := exists_run_of_ofPhrases ha
  exact ⟨ls, ts, a, Lexeme.ofText_eq_ok_iff.mp hl, hf, hr, hu, hb⟩

theorem Lexes.isPhrase {c : Cursor} {ls : List Lexeme} (h : Lexes c ls)
    (hf : (Phrase.ofLexemes ls).fault = none) : ∀ p ∈ (Phrase.ofLexemes ls).phrases,
      p.token.IsPhrase := by
  intro p hp
  refine (Phrase.composes_of_ofLexemes hf).isPhrase (fun u hm => ?_) _ (List.mem_map_of_mem hp)
  obtain ⟨l, hl, rfl⟩ := List.mem_map.mp hm
  exact h.isLexeme l hl

end QbScript
