import QbScript.Proofs.Script.Alike
import QbScript.Proofs.Source.Cut

/-!
# Layout is only spaces

A source in which each stretch of layout is made one blank has the same tokens. Where there is no
layout none is put in, since a sign may belong to a number or not by whether a blank is before it.
-/

set_option autoImplicit false

namespace QbScript

namespace Cursor

def squeezed (c : Cursor) : List Char :=
  let blanks := Blank.run c.rest
  (if blanks.length = 0 then [] else [' ']) ++
    match h : c.next? with
    | none => []
    | some (r, d) =>
      have := length_rest_next? h
      (c.rest.drop blanks.length).take (c.rest.length - blanks.length - d.rest.length) ++ d.squeezed
  termination_by c.rest.length

theorem squeezed_of_none {c : Cursor} (h : c.next? = none) :
    c.squeezed = [] ∨ c.squeezed = [' '] := by
  rw [squeezed]
  split <;> split <;> simp_all

theorem Takes.squeezed {c d : Cursor} {l : Lexeme} {gap w : List Char} (h : c.Takes d l gap w)
    (hn : c.next? = some (.ok l, d)) :
    c.squeezed = (if gap.isEmpty then [] else [' ']) ++ (w ++ d.squeezed) := by
  have hlen : c.rest.length - gap.length - d.rest.length = w.length := by
    have := congrArg List.length h.rest
    simp only [List.length_append] at this
    omega
  have hdrop : (c.rest.drop gap.length).take w.length = w := by
    rw [h.rest, List.drop_left, List.take_left]
  rw [Cursor.squeezed, h.run]
  refine congrArg₂ (· ++ ·) (by cases gap <;> rfl) ?_
  split
  · simp_all
  · rename_i r d' hd
    obtain ⟨-, rfl⟩ := Prod.mk.inj (Option.some.inj (hd.symm.trans hn))
    dsimp only
    rw [hlen, hdrop]

end Cursor

theorem Lexes.cuts {c : Cursor} {ls : List Lexeme} (h : Lexes c ls) : Cuts c.rest c.squeezed := by
  induction h with
  | @done c h =>
    rcases Cursor.squeezed_of_none h with hs | hs <;> rw [hs]
    · exact cuts_nil c.rest
    · exact cuts_blank c.rest []
  | @step c d l ls h _ ih =>
    obtain ⟨gap, w, ht⟩ := Cursor.exists_takes h
    rw [ht.squeezed h]
    cases gap with
    | nil =>
      rw [ht.rest]
      exact ih.append w
    | cons b gap => exact cuts_blank c.rest (w ++ d.squeezed)

/-- The tokens are the same, whatever offset the text with less layout starts at. -/
theorem Lexes.exists_squeezed {c : Cursor} {ls : List Lexeme} (h : Lexes c ls) (offset : Nat) :
    ∃ ls', Lexes ⟨c.squeezed, offset, c.afterOperand⟩ ls' ∧
      ls'.map Lexeme.token = ls.map Lexeme.token := by
  induction h generalizing offset with
  | @done c h =>
    refine ⟨[], .done ?_, rfl⟩
    rcases Cursor.squeezed_of_none h with hs | hs <;> rw [hs]
    · exact Cursor.next?_nil offset c.afterOperand
    · simp [Cursor.next?, Blank.run, Blank.runFrom, Blank.front, Blank.isBlank, Cursor.skip]
  | @step c d l ls h hs ih =>
    obtain ⟨gap, w, ht⟩ := Cursor.exists_takes h
    have hgap : IsGap (if gap.isEmpty then [] else [' ']) := by
      split
      · exact isGap_nil
      · exact isGap_blank
    have hfront : FrontReads (!(if gap.isEmpty then [] else [' ']).isEmpty || !c.afterOperand) w
        d.squeezed l.token := by
      have hf := ht.front.cut hs.cuts
      cases gap <;> exact hf
    obtain ⟨l', ⟨rest, offset', op⟩, hn, htoken, rfl, rfl⟩ := Cursor.next?_front hgap hfront offset
    rw [← ht.squeezed h] at hn
    obtain ⟨ls', hl, hls⟩ := ih offset'
    rw [ht.afterOperand] at hl
    exact ⟨l' :: ls', .step hn hl, by rw [List.map_cons, List.map_cons, htoken, hls]⟩

theorem Lexeme.exists_ofText_squeezed {text : List Char} {ls : List Lexeme}
    (h : Lexeme.ofText text = .ok ls) :
    ∃ ls', Lexeme.ofText (Cursor.start text).squeezed = .ok ls' ∧
      ls'.map Lexeme.token = ls.map Lexeme.token := by
  obtain ⟨ls', hl, ht⟩ := (ofText_eq_ok_iff.mp h).exists_squeezed 0
  exact ⟨ls', ofText_eq_ok_iff.mpr hl, ht⟩

/-- A source with one blank for each stretch of layout. -/
def squeeze (source : String) : String := String.ofList (Cursor.start source.toList).squeezed

/-- A source and the same with one blank for each stretch of layout have the same tokens, and without
line numbers the same stream, if they have one. -/
theorem compile_squeeze {source : String} {ls : List Lexeme}
    (h : Lexeme.ofText source.toList = .ok ls) :
    (∃ ls', Lexeme.ofText (squeeze source).toList = .ok ls' ∧
      ls'.map Lexeme.token = ls.map Lexeme.token) ∧
    ∀ options : CompileOptions, options.lineNumbers = false →
      (∃ b, compile options source = .ok b ∧ compile options (squeeze source) = .ok b) ∨
        ∃ e e', compile options source = .error e ∧ compile options (squeeze source) = .error e' := by
  obtain ⟨ls', hl, ht⟩ := Lexeme.exists_ofText_squeezed h
  rw [← String.toList_ofList (l := Cursor.squeezed _)] at hl
  refine ⟨⟨ls', hl, ht⟩, fun options hoptions => ?_⟩
  have hkey : KeepsNames (id : String → String) := fun _ _ he => congrArg Checksum.normalize he
  have halike := compile_alike_or_error options hkey h hl (Lexeme.forall₂_alike ht) (by simp [hoptions])
  obtain ⟨b, b', hb, hb', body, names, names', rfl, rfl, hn⟩ | he := halike
  · obtain rfl : names' = names := by simpa using hn
    exact Or.inl ⟨_, hb, hb'⟩
  · exact Or.inr he

theorem compile_squeeze_comments :
    squeeze "a = 1// \x22\n/* b\n */c = \\\n-2 -\t/**/3" = "a = 1 \n c = -2 - 3" ∧
      ∃ b, compile ⟨.fast, false⟩ "a = 1// \x22\n/* b\n */c = \\\n-2 -\t/**/3" = .ok b ∧
        compile ⟨.fast, false⟩ "a = 1 \n c = -2 - 3" = .ok b := by
  have hs : squeeze "a = 1// \x22\n/* b\n */c = \\\n-2 -\t/**/3" = "a = 1 \n c = -2 - 3" := by
    decide +kernel
  have hb : compile ⟨.fast, false⟩ "a = 1// \x22\n/* b\n */c = \\\n-2 -\t/**/3" =
      .ok #[22, 188, 65, 72, 23, 7, 23, 1, 0, 0, 0, 1, 22, 144, 32, 70, 249, 7, 23, 254, 255, 255,
        255, 10, 23, 3, 0, 0, 0, 43, 188, 65, 72, 23, 97, 0, 43, 144, 32, 70, 249, 99, 0, 0] := by
    decide +kernel
  obtain ⟨ls, _, hl, -⟩ := compile_eq_ok_iff.mp hb
  refine ⟨hs, ?_⟩
  rcases (compile_squeeze hl).2 ⟨.fast, false⟩ rfl with h | ⟨e, -, he, -⟩
  · rwa [hs] at h
  · rw [hb] at he
    cases he

end QbScript
