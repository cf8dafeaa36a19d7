import QbScript.Proofs.Script.Sound
import QbScript.Source.Lexeme

/-!
# The tokens of a source

A source has tokens when every reading succeeds. Which tokens these can be follows from the
readings, one by one.
-/

set_option autoImplicit false

namespace QbScript

inductive Lexes : Cursor → List Lexeme → Prop
  | done {c : Cursor} (h : c.next? = none) : Lexes c []
  | step {c d : Cursor} {l : Lexeme} {ls : List Lexeme} (h : c.next? = some (.ok l, d))
      (hs : Lexes d ls) : Lexes c (l :: ls)

namespace Cursor

theorem stepsFrom_eq (done : List (Except LexError Lexeme)) (c : Cursor) :
    stepsFrom done c = done.reverse ++ steps c := by
  suffices h : ∀ n (done : List (Except LexError Lexeme)) (c : Cursor), c.rest.length ≤ n →
      stepsFrom done c = done.reverse ++ steps c from h c.rest.length done c le_rfl
  intro n
  induction n with
  | zero =>
    intro done c hn
    have hc : c.next? = none := by
      cases h : c.next? with
      | none => rfl
      | some p => exact absurd (length_rest_next? (r := p.1) (d := p.2) h) (by omega)
    rw [steps, stepsFrom, stepsFrom]
    split <;> simp_all
  | succ n ih =>
    intro done c hn
    rw [steps, stepsFrom, stepsFrom]
    split
    · simp
    · rename_i r d h
      have := length_rest_next? h
      rw [ih _ _ (by omega), ih [r] _ (by omega)]
      simp

theorem steps_of_none {c : Cursor} (h : c.next? = none) : c.steps = [] := by
  rw [steps, stepsFrom]
  split <;> simp_all

theorem steps_of_some {c d : Cursor} {r : Except LexError Lexeme} (h : c.next? = some (r, d)) :
    c.steps = r :: d.steps := by
  rw [steps, stepsFrom]
  split
  · simp_all
  · rename_i r' d' h'
    obtain ⟨rfl, rfl⟩ := Prod.mk.inj (Option.some.inj (h'.symm.trans h))
    rw [stepsFrom_eq]
    rfl

theorem mapM_steps_iff {c : Cursor} {ls : List Lexeme} :
    c.steps.mapM id = .ok ls ↔ Lexes c ls := by
  constructor
  · suffices hall : ∀ n (c : Cursor) (ls : List Lexeme), c.rest.length ≤ n →
        c.steps.mapM id = .ok ls → Lexes c ls from hall c.rest.length c ls le_rfl
    intro n
    induction n with
    | zero =>
      intro c ls hn h
      cases hc : c.next? with
      | some p => exact absurd (length_rest_next? (r := p.1) (d := p.2) hc) (by omega)
      | none =>
        rw [steps_of_none hc] at h
        obtain rfl := Except.ok.inj h
        exact .done hc
    | succ n ih =>
      intro c ls hn h
      cases hc : c.next? with
      | none =>
        rw [steps_of_none hc] at h
        obtain rfl := Except.ok.inj h
        exact .done hc
      | some p =>
        obtain ⟨r, d⟩ := p
        have := length_rest_next? hc
        rw [steps_of_some hc, List.mapM_cons] at h
        obtain ⟨l, hl, h⟩ := bind_eq_ok_iff.mp h
        obtain ⟨ls', hls, h⟩ := bind_eq_ok_iff.mp h
        obtain rfl := Except.ok.inj h
        obtain rfl : r = .ok l := hl
        exact .step hc (ih d ls' (by omega) hls)
  · intro h
    induction h with
    | done h => rw [steps_of_none h]; rfl
    | step h _ ih => rw [steps_of_some h, List.mapM_cons, ih]; rfl

end Cursor

theorem Lexeme.ofText_eq_ok_iff {text : List Char} {ls : List Lexeme} :
    Lexeme.ofText text = .ok ls ↔ Lexes (Cursor.start text) ls :=
  Cursor.mapM_steps_iff

namespace Token

def IsLexeme : Token → Prop
  | .simple tag =>
    tag ≠ .arg ∧ (tag.layout = .fixed 1 ∨ tag = .randomCase ∨ tag = .randomEnd ∨
      tag.isRandomHeader ∨ tag = .pair ∨ tag = .vector)
  | .name text | .arg text => ∀ c ∈ text.toList, c ≠ '"' ∧ c ≠ '\n'
  | .endOfLineNumber _ | .jump _ | .shortBranch .. | .checksumName .. | .random .. | .pair ..
  | .vector .. => False
  | _ => True

end Token

def Reading.All {α : Type} (P : α → Prop) (r : Reading α) : Prop := ∀ a, r.result = .ok a → P a

namespace Reading

variable {α β : Type} {P : β → Prop}

@[simp] theorem all_ok {a : β} {n : Nat} : (Reading.ok a n).All P ↔ P a := by
  simp [All, ok]

@[simp] theorem all_fail {m : Misreading} {n : Nat} : (Reading.fail m n : Reading β).All P := by
  simp [All, fail]

theorem all_map {f : α → β} {r : Reading α} : (r.map f).All P ↔ r.All (fun a => P (f a)) := by
  constructor
  · intro h a ha
    exact h (f a) (map_eq_ok_iff.mpr ⟨a, ha, rfl⟩)
  · intro h b hb
    obtain ⟨a, ha, rfl⟩ := map_eq_ok_iff.mp hb
    exact h a ha

theorem all_after {n : Nat} {r : Reading β} : (r.after n).All P ↔ r.All P := Iff.rfl

end Reading

open Reading

theorem ne_of_isNameChar {c : Char} (h : isNameChar c) : c ≠ '"' ∧ c ≠ '\n' := by
  constructor <;> rintro rfl <;> revert h <;> decide

theorem isNameChar_of_isNameStart {c : Char} (h : isNameStart c) : isNameChar c := by
  simp only [isNameStart, isNameChar, Char.isAlphanum, Bool.or_eq_true] at h ⊢
  tauto

namespace Name

theorem isLexeme_word {c : Char} (hc : isNameStart c) (cs : List Char) :
    (word c cs).All Token.IsLexeme := by
  unfold word
  rw [all_ok]
  split
  · rename_i tag ht
    have hm := List.mem_map_of_mem (f := Prod.snd) (Tag.mem_keywords_of_ofKeyword? ht)
    revert hm
    cases tag <;> simp [Tag.keywords, Token.IsLexeme, Tag.layout, Tag.isRandomHeader]
  · intro d hd
    rw [String.toList_ofList] at hd
    rcases List.mem_cons.mp hd with rfl | hd
    · exact ne_of_isNameChar (isNameChar_of_isNameStart hc)
    · exact ne_of_isNameChar (List.mem_takeWhile_imp hd)

def Ref.IsQuotable : Ref → Prop
  | .text s => ∀ c ∈ s.toList, c ≠ '"' ∧ c ≠ '\n'
  | .checksum _ => True

theorem isQuotable_percent (cs : List Char) : (percent cs).All Ref.IsQuotable := by
  have hd : ∀ cs, (checksumDigits cs).All Ref.IsQuotable := by
    intro cs
    unfold checksumDigits
    dsimp only
    split
    · exact all_fail
    split
    · exact all_ok.mpr trivial
    · exact all_fail
  unfold percent
  split
  · rw [all_after]
    unfold quoted
    dsimp only
    split
    · rw [all_ok]
      intro c hc
      rw [String.toList_ofList] at hc
      simpa using List.mem_takeWhile_imp hc
    · exact all_fail
    · exact all_fail
  · exact all_after.mpr (hd _)
  · exact all_after.mpr (hd _)
  · exact all_fail
  · exact all_fail
  · exact all_fail

theorem isLexeme_asName {r : Ref} (h : r.IsQuotable) : r.asName.IsLexeme := by
  cases r with
  | text s => exact h
  | checksum c => trivial

theorem isLexeme_asArg {r : Ref} (h : r.IsQuotable) : r.asArg.IsLexeme := by
  cases r with
  | text s => exact h
  | checksum c => trivial

theorem isLexeme_angle (cs : List Char) : (angle cs).All Token.IsLexeme := by
  unfold angle
  split
  · exact all_ok.mpr (by simp [Token.IsLexeme, Tag.layout])
  · exact all_ok.mpr (by simp [Token.IsLexeme, Tag.layout])
  · exact all_ok.mpr (by simp [Token.IsLexeme, Tag.layout])
  · rename_i rest
    dsimp only
    rw [all_after]
    unfold closeArg
    split
    · rename_i ref tail hr _
      exact all_ok.mpr (isLexeme_asArg (isQuotable_percent rest ref hr))
    · exact all_fail
    · exact all_fail
  · dsimp only
    split
    · rw [all_ok]
      intro c hc
      rw [String.toList_ofList] at hc
      exact ne_of_isNameChar (List.mem_takeWhile_imp hc)
    · exact all_ok.mpr (by simp [Token.IsLexeme, Tag.layout])
  · exact all_ok.mpr (by simp [Token.IsLexeme, Tag.layout])

end Name

theorem Literal.isLexeme_number (negative : Bool) (cs : List Char) :
    (Literal.number negative cs).All Token.IsLexeme := by
  have hclose : ∀ t rest n, t.IsLexeme → (closeNumber t rest n).All Token.IsLexeme := by
    intro t rest n ht
    unfold closeNumber
    split
    · exact all_fail
    · exact all_ok.mpr ht
  have hhex : ∀ cs, (hexNumber negative cs).All Token.IsLexeme := by
    intro cs
    unfold hexNumber
    dsimp only
    split
    · exact all_fail
    · exact hclose _ _ _ trivial
  unfold number
  split
  · exact all_after.mpr (hhex _)
  · exact all_after.mpr (hhex _)
  · unfold decimalNumber
    dsimp only
    split
    · exact hclose _ _ _ trivial
    · exact hclose _ _ _ trivial

namespace Cursor

theorem isLexeme_of_sign? {c : Char} {tag : Tag} (h : sign? c = some tag) :
    (Token.simple tag).IsLexeme := by
  unfold sign? at h
  split at h
  all_goals cases h
  all_goals simp [Token.IsLexeme, Tag.layout]

theorem isLexeme_read (signed : Bool) (c : Char) (rest : List Char) :
    (read signed c rest).All Token.IsLexeme := by
  unfold read
  split
  · rename_i hc
    exact Name.isLexeme_word hc rest
  split
  · exact Literal.isLexeme_number false (c :: rest)
  split
  · exact Literal.isLexeme_number _ rest
  split
  · exact all_map.mpr fun _ _ => trivial
  · exact all_map.mpr fun _ _ => trivial
  · exact all_after.mpr (all_map.mpr fun _ _ => trivial)
  · exact all_map.mpr fun r hr => Name.isLexeme_asName (Name.isQuotable_percent _ r hr)
  · exact Name.isLexeme_angle _
  · exact all_ok.mpr (by simp [Token.IsLexeme, Tag.layout])
  · exact all_ok.mpr (by simp [Token.IsLexeme, Tag.layout])
  · exact all_ok.mpr (by simp [Token.IsLexeme, Tag.layout])
  · exact all_ok.mpr (by simp [Token.IsLexeme, Tag.layout])
  · exact all_ok.mpr (by simp [Token.IsLexeme, Tag.layout])
  · split
    · rename_i tag hs
      exact all_ok.mpr (isLexeme_of_sign? hs)
    · exact all_fail

theorem isLexeme_advance {c d : Cursor} {l : Lexeme} {r : Reading Token}
    (hr : r.All Token.IsLexeme) (h : c.advance r = (.ok l, d)) : l.token.IsLexeme := by
  unfold advance at h
  split at h
  · rename_i token ht
    obtain ⟨hl, -⟩ := Prod.mk.inj h
    obtain rfl := Except.ok.inj hl
    exact hr token ht
  · simp at h

theorem isLexeme_next? {c d : Cursor} {l : Lexeme} (h : c.next? = some (.ok l, d)) :
    l.token.IsLexeme := by
  simp only [next?] at h
  split at h
  · cases h
  refine isLexeme_advance ?_ (Option.some.inj h)
  split
  · exact all_fail
  · exact isLexeme_read _ _ _

end Cursor

theorem Lexes.isLexeme {c : Cursor} {ls : List Lexeme} (h : Lexes c ls) :
    ∀ l ∈ ls, l.token.IsLexeme := by
  induction h with
  | done => simp
  | step h _ ih =>
    intro l hl
    rcases List.mem_cons.mp hl with rfl | hl
    · exact Cursor.isLexeme_next? h
    · exact ih l hl

end QbScript
