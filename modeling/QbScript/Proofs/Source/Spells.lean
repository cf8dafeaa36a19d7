import QbScript.Proofs.Source.Lexeme

/-!
# Texts that spell tokens

A text spells tokens if they are read from it one after the other, with nothing but blanks and tabs
between them. Such a text is a source with these tokens. What stands at its front is read on its
own, given how the text goes on.
-/

set_option autoImplicit false

namespace QbScript

def IsGap (cs : List Char) : Prop := ∀ c ∈ cs, c = ' ' ∨ c = '\t'

/-- Before `rest`, the text is read as the token; `signed` says that a sign may belong to a
number. -/
def FrontReads (signed : Bool) (w rest : List Char) (t : Token) : Prop :=
  ∃ c cs, w = c :: cs ∧ Blank.front (c :: (cs ++ rest)) = .other ∧
    Cursor.read signed c (cs ++ rest) = .ok t cs.length

/-- The text is read as these tokens; `op` says that an operand ends right before it. -/
inductive Spells : Bool → List Char → List Token → Prop
  | done {op : Bool} : Spells op [] []
  | step {op : Bool} {gap w rest : List Char} {t : Token} {ts : List Token} (hg : IsGap gap)
      (hw : FrontReads (!gap.isEmpty || !op) w rest t) (hs : Spells t.isOperand rest ts) :
      Spells op (gap ++ (w ++ rest)) (t :: ts)

theorem isGap_nil : IsGap [] := by
  intro c hc
  cases hc

theorem isGap_blank : IsGap [' '] := by
  intro c hc
  exact Or.inl (List.mem_singleton.mp hc)

theorem IsGap.append {cs ds : List Char} (h : IsGap cs) (h' : IsGap ds) : IsGap (cs ++ ds) := by
  intro c hc
  rcases List.mem_append.mp hc with hc | hc
  · exact h c hc
  · exact h' c hc

theorem IsGap.of_cons {c : Char} {cs : List Char} (h : IsGap (c :: cs)) :
    (c = ' ' ∨ c = '\t') ∧ IsGap cs :=
  ⟨h c List.mem_cons_self, fun d hd => h d (List.mem_cons_of_mem c hd)⟩

namespace Blank

theorem front_gap {c : Char} (h : c = ' ' ∨ c = '\t') (cs : List Char) :
    front (c :: cs) = .blank 0 := by
  rcases h with rfl | rfl
  · simp [front, isBlank]
  · simp [front, isBlank]

theorem runFrom_gap {gap : List Char} (hg : IsGap gap) (cs : List Char) (n : Nat) :
    runFrom n (gap ++ cs) = runFrom (n + gap.length) cs := by
  induction gap generalizing n with
  | nil => rfl
  | cons c gap ih =>
    obtain ⟨hc, hg⟩ := hg.of_cons
    rw [List.cons_append, runFrom, front_gap hc]
    simp only [List.drop_zero, Nat.add_zero]
    rw [ih hg, List.length_cons]
    congr 1
    omega

theorem runFrom_other {c : Char} {cs : List Char} (h : front (c :: cs) = .other) (n : Nat) :
    runFrom n (c :: cs) = ⟨n, false⟩ := by
  rw [runFrom, h]

end Blank

namespace Cursor

theorem next?_nil (offset : Nat) (op : Bool) : next? ⟨[], offset, op⟩ = none := by
  simp [next?, Blank.run, Blank.runFrom, skip]

theorem next?_front {gap w rest : List Char} {op : Bool} {t : Token} (hg : IsGap gap)
    (hw : FrontReads (!gap.isEmpty || !op) w rest t) (offset : Nat) :
    ∃ l d, next? ⟨gap ++ (w ++ rest), offset, op⟩ = some (.ok l, d) ∧ l.token = t ∧
      d.rest = rest ∧ d.afterOperand = t.isOperand := by
  obtain ⟨c, cs, rfl, hf, hr⟩ := hw
  have hrun : Blank.run (gap ++ (c :: cs ++ rest)) = ⟨gap.length, false⟩ := by
    rw [Blank.run, Blank.runFrom_gap hg, List.cons_append, Blank.runFrom_other hf, Nat.zero_add]
  have hsigned : decide (gap.length ≠ 0 ∨ ¬ op = true) = (!gap.isEmpty || !op) := by
    cases gap <;> cases op <;> rfl
  have hrest : (gap ++ (c :: cs ++ rest)).drop gap.length = c :: (cs ++ rest) := by
    rw [List.drop_left, List.cons_append]
  unfold next?
  simp only [hrun, rest_skip, hrest, hsigned, hr, Bool.false_eq_true, if_false]
  refine ⟨_, _, rfl, rfl, ?_, rfl⟩
  simp only [rest_skip, hrest, Reading.ok]
  rw [Nat.add_comm, List.drop_succ_cons, List.drop_left]

end Cursor

/-- A text that spells tokens is a source with these tokens. -/
theorem Spells.exists_lexes {op : Bool} {cs : List Char} {ts : List Token} (h : Spells op cs ts)
    (offset : Nat) : ∃ ls, Lexes ⟨cs, offset, op⟩ ls ∧ ls.map Lexeme.token = ts := by
  induction h generalizing offset with
  | done => exact ⟨[], .done (Cursor.next?_nil offset _), rfl⟩
  | step hg hw _ ih =>
    obtain ⟨l, ⟨rest, offset', op'⟩, hn, rfl, rfl, rfl⟩ := Cursor.next?_front hg hw offset
    obtain ⟨ls, hl, rfl⟩ := ih offset'
    exact ⟨l :: ls, .step hn hl, rfl⟩

theorem Spells.exists_ofText {cs : List Char} {ts : List Token} (h : Spells false cs ts) :
    ∃ ls, Lexeme.ofText cs = .ok ls ∧ ls.map Lexeme.token = ts := by
  obtain ⟨ls, hl, ht⟩ := h.exists_lexes 0
  exact ⟨ls, Lexeme.ofText_eq_ok_iff.mpr hl, ht⟩

end QbScript
