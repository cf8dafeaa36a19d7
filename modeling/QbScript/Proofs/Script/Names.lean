import QbScript.Proofs.Script.Run

/-!
# The names of a script

The table of a run holds the first spelling of every name of the script, and nothing else.
-/

set_option autoImplicit false

namespace QbScript

open Bytecode

def spellings (ps : List Token) : List String := ps.filterMap Token.spelling?

@[simp] theorem spellings_append (ps qs : List Token) :
    spellings (ps ++ qs) = spellings ps ++ spellings qs := by
  simp [spellings]

theorem spellings_cons_of_none {t : Token} (h : t.spelling? = none) (ts : List Token) :
    spellings (t :: ts) = spellings ts := by
  simp [spellings, h]

def firstSpelling (names : List String) (c : Checksum) : Option String :=
  names.find? fun name => Checksum.ofName name = c

namespace Assembly

variable {options : CompileOptions} {line : Nat} {lines : LineMap} {a a' : Assembly} {t : Token}
  {ts us : List Token} {links : List Link} {ps : List Phrase}

theorem Step.names (h : Step options line a t us links a') :
    (t.spelling? = none ∧ a'.names = a.names) ∨
      ∃ text, t.spelling? = some text ∧ a.names.insert text = .ok a'.names := by
  cases h with
  | plain ht =>
    refine Or.inl ⟨?_, rfl⟩
    cases t with
    | name | arg => exact ht.elim
    | _ => rfl
  | named ht hn => exact Or.inr ⟨_, ht, hn⟩
  | _ => exact Or.inl ⟨rfl, rfl⟩

theorem spelling?_of_insert {t u : NameTable} {name : String} (h : t.insert name = .ok u) :
    ∃ first, u.get? (Checksum.ofName name) = some first ∧
      Checksum.normalize first = Checksum.normalize name := by
  have hg := NameTable.get?_insertAt h (Checksum.ofName name)
  rw [if_pos rfl] at hg
  unfold NameTable.insert NameTable.insertAt at h
  split at h
  · rename_i hn
    exact ⟨name, by rw [hg, hn]; rfl, rfl⟩
  · rename_i first hf
    split at h
    · rename_i heq
      exact ⟨first, by rw [hg, hf]; rfl, heq⟩
    · cases h

theorem Run.get?_names (h : Run options lines ps ts a) (c : Checksum) :
    a.names.get? c = firstSpelling (spellings (ps.map Phrase.token)) c := by
  induction h generalizing c with
  | start => simp [spellings, firstSpelling, Assembly.start]
  | @step ps ts us a a' p links _ _ hs ih =>
    rw [List.map_append, spellings_append, firstSpelling, List.find?_append, ← firstSpelling, ← ih]
    rcases hs.names with ⟨hn, hnames⟩ | ⟨text, ht, hi⟩
    · simp [spellings, hn, hnames]
    · rw [NameTable.get?_insertAt hi c]
      simp only [spellings, List.map_cons, List.map_nil, List.filterMap_cons, ht, List.filterMap_nil,
        List.find?_cons, List.find?_nil]
      by_cases hc : Checksum.ofName text = c
      · subst hc
        cases hg : a.names.get? (Checksum.ofName text) <;> simp
      · simp [hc]

/-- The first spelling of a name differs from it only in letter case and slashes. -/
theorem Run.normalize_eq (h : Run options lines ps ts a) {text : String}
    (ht : text ∈ spellings (ps.map Phrase.token)) :
    ∃ first, a.names.get? (Checksum.ofName text) = some first ∧
      Checksum.normalize first = Checksum.normalize text := by
  induction h with
  | start => simp [spellings] at ht
  | @step ps ts us a a' p links _ _ hs ih =>
    have hkeep : ∀ c first, a.names.get? c = some first → a'.names.get? c = some first := by
      intro c first hf
      rcases hs.names with ⟨-, hnames⟩ | ⟨name, -, hi⟩
      · rw [hnames, hf]
      · rw [NameTable.get?_insertAt hi c]
        split
        · rename_i hc
          subst hc
          simp [hf]
        · exact hf
    rw [List.map_append, spellings_append] at ht
    rcases List.mem_append.mp ht with ht | ht
    · obtain ⟨first, hf, hn⟩ := ih ht
      exact ⟨first, hkeep _ _ hf, hn⟩
    · have hname : p.token.spelling? = some text := by simpa [spellings] using ht
      rcases hs.names with ⟨hn, -⟩ | ⟨name, hn, hi⟩
      · rw [hname] at hn
        cases hn
      · obtain rfl := Option.some.inj (hname.symm.trans hn)
        exact spelling?_of_insert hi

theorem Run.mem_entries (h : Run options lines ps ts a) {t : Token} (ht : t ∈ a.names.entries) :
    ∃ text ∈ spellings (ps.map Phrase.token), t = .checksumName (Checksum.ofName text) text := by
  obtain ⟨⟨c, text⟩, he, rfl⟩ := List.mem_map.mp ht
  have hg := (NameTable.mem_toList_iff _ _ _).mp he
  rw [h.get?_names, firstSpelling] at hg
  have hc := List.find?_some hg
  simp only [decide_eq_true_eq] at hc
  subst hc
  exact ⟨text, List.mem_of_find?_eq_some hg, rfl⟩

end Assembly

end QbScript
