import QbScript.Proofs.Source.Cut
import QbScript.Proofs.Scanner.Strings
import QbScript.Proofs.Scanner.Blanks

/-!
# Scanning on after errors

At a place of a source a scanner gives the token or error that the reading gives there, and comes to
the place where the reading goes on. So it stands between characters after every call, whatever the
call found, and takes no text that ends within one.
-/

set_option autoImplicit false

namespace QbScript

namespace Scanner

open Utf8

variable {bs : List UInt8} {start : Nat} {c d : Char} {rest : List Char}

/-! ### The token at a place -/

theorem unexpected_eq (h : At bs start (c :: rest)) :
    unexpected bs start = .ok (.error (.unexpectedChar c), start + c.utf8Size) := by
  have hall : At bs start (c :: rest ++ []) := by rwa [List.append_nil]
  have hhead : (String.ofList (c :: rest)).toList.headD '\uFFFD' = c := by
    rw [String.toList_ofList, List.headD_cons]
  rw [unexpected, h.length_eq, hall.text_eq]
  show Except.ok (Except.error (Misreading.unexpectedChar _), start + Char.utf8Size _) = _
  rw [hhead]

/-- A character that begins nothing longer is a sign, or nothing. -/
theorem mark_sign (h : At bs start (c :: rest)) (hc : c.toNat < 0x80)
    (hlong : c ∉ ['"', '\x27', '%', '<', '>', '='])
    (hhash : ∀ body, c = '#' → rest = '"' :: body → False) :
    mark bs start c = .ok (ofReading (match Cursor.sign? c with
      | some tag => .ok (.simple tag) 0
      | none => .fail (.unexpectedChar c) 0) (start + 1) rest) := by
  have h₁ := h.next hc
  have hunexpected : unexpected bs start =
      .ok (ofReading (.fail (.unexpectedChar c) 0) (start + 1) rest) := by
    rw [unexpected_eq h, utf8Size_of_lt hc]
    rfl
  unfold mark
  dsimp only
  split
  · exact (hlong (by decide)).elim
  · exact (hlong (by decide)).elim
  · rw [if_neg (h₁.peek?_ne (by decide) fun body => hhash body rfl), hunexpected]
    rfl
  · exact (hlong (by decide)).elim
  · exact (hlong (by decide)).elim
  · exact (hlong (by decide)).elim
  · exact (hlong (by decide)).elim
  · cases Cursor.sign? c with
    | some tag => rfl
    | none => exact hunexpected

theorem mark_of_lt (h : At bs start (c :: rest)) (hc : c.toNat < 0x80) {signed : Bool}
    (hs : ¬ isNameStart c) (hd : ¬ c.isDigit)
    (hn : ¬ ((c = '-' ∨ c = '+') ∧ signed ∧ rest.head?.any Char.isDigit)) :
    mark bs start c = .ok (ofReading (Cursor.read signed c rest) (start + 1) rest) := by
  have h₁ := h.next hc
  unfold Cursor.read
  rw [if_neg hs, if_neg hd, if_neg hn]
  symm
  split
  · show _ = Except.ok (change Token.string (string bs '"' (start + 1)))
    rw [string_eq (Or.inl rfl) h₁, change_ofReading]
  · show _ = Except.ok (change Token.localString (string bs '\x27' (start + 1)))
    rw [string_eq (Or.inr rfl) h₁, change_ofReading]
  · have h₂ := h₁.next (by decide)
    show _ = if peek? bs (start + 1) = some '"' then
      Except.ok (change Token.localString (string bs '"' (start + 2))) else _
    rw [h₁.peek?_cons (by decide), if_pos rfl, string_eq (Or.inl rfl) h₂, change_ofReading,
      ofReading_after _ (by decide)]
  · show _ = (percent bs (start + 1)).map (change Name.Ref.asName)
    rw [percent_eq h₁]
    rfl
  · show _ = angle bs (start + 1)
    rw [angle_eq h₁]
  · rw [mark, h₁.peek?_cons (by decide)]
    rfl
  · rw [mark, h₁.peek?_cons (by decide)]
    rfl
  · rename_i h2 h3
    show _ = if peek? bs (start + 1) = some '>' then _ else
      if peek? bs (start + 1) = some '=' then _ else _
    rw [if_neg (h₁.peek?_ne (by decide) h2), if_neg (h₁.peek?_ne (by decide) h3)]
    rfl
  · rw [mark, h₁.peek?_cons (by decide)]
    rfl
  · rename_i h2
    show _ = if peek? bs (start + 1) = some '=' then _ else _
    rw [if_neg (h₁.peek?_ne (by decide) h2)]
    rfl
  · rename_i hquote happ hpercent hless hgreater hequals hhash _ _ _
    refine (mark_sign h hc ?_ hhash).symm
    simp only [List.mem_cons, List.not_mem_nil, or_false, not_or]
    exact ⟨hquote, happ, hpercent, hless, hgreater, hequals⟩

theorem read_of_lt (h : At bs start (c :: rest)) (hc : c.toNat < 0x80) (signed : Bool) :
    read bs signed start c =
      .ok (ofReading ((Cursor.read signed c rest).after 1) start (c :: rest)) := by
  have h₁ := h.next hc
  rw [read, h₁.any_peek? lt_of_isDigit]
  by_cases hs : isNameStart c
  · have hread : Cursor.read signed c rest = Name.word c rest := if_pos hs
    rw [if_pos hs, word_eq h hs, hread]
  by_cases hd : c.isDigit
  · have hpos : 0 < (Literal.number false (c :: rest)).length :=
      Literal.length_number_pos false (by simpa using hd)
    unfold Cursor.read
    rw [if_neg hs, if_pos hd, number_eq h, if_neg hs, if_pos hd]
    simp only [ofReading, Reading.after, Nat.add_sub_cancel' hpos]
  by_cases hn : (c = '-' ∨ c = '+') ∧ signed ∧ rest.head?.any Char.isDigit
  · unfold Cursor.read
    rw [if_neg hs, if_neg hd, if_pos hn, number_eq h₁, ← ofReading_after _ hc, if_neg hs, if_neg hd,
      if_pos hn]
  · rw [if_neg hs, if_neg hd, if_neg hn, mark_of_lt h hc hs hd hn, ofReading_after _ hc]

theorem sign?_of_le (hc : 0x80 ≤ c.toNat) : Cursor.sign? c = none := by
  unfold Cursor.sign?
  split
  all_goals first | rfl | exact absurd hc (by decide)

theorem mark_of_le (hd : 0x80 ≤ d.toNat) (start : Nat) : mark bs start d = unexpected bs start := by
  unfold mark
  dsimp only
  split
  all_goals first | exact absurd hd (by decide) | rw [sign?_of_le hd]

/-- No character of several bytes begins a token. -/
theorem read_of_le (h : At bs start (c :: rest)) (hc : 0x80 ≤ c.toNat) (hd : 0x80 ≤ d.toNat)
    (signed : Bool) :
    read bs signed start d =
      .ok (ofReading ((Cursor.read signed c rest).after 1) start (c :: rest)) := by
  have hnone : ∀ e : Char, 0x80 ≤ e.toNat →
      ¬ isNameStart e ∧ ¬ e.isDigit ∧ ∀ p : Prop, ¬ ((e = '-' ∨ e = '+') ∧ p) := by
    intro e he
    refine ⟨fun hs => ?_, fun hs => ?_, ?_⟩
    · exact absurd (lt_of_isNameStart e hs) (Nat.not_lt.mpr he)
    · exact absurd (lt_of_isDigit e hs) (Nat.not_lt.mpr he)
    · rintro p ⟨rfl | rfl, -⟩
      · exact absurd he (by decide)
      · exact absurd he (by decide)
  have hmodel : Cursor.read signed c rest = .fail (.unexpectedChar c) 0 := by
    unfold Cursor.read
    rw [if_neg (hnone c hc).1, if_neg (hnone c hc).2.1, if_neg ((hnone c hc).2.2 _)]
    split
    all_goals first | exact absurd hc (by decide) | rw [sign?_of_le hc]
  rw [read, if_neg (hnone d hd).1, if_neg (hnone d hd).2.1, if_neg ((hnone d hd).2.2 _),
    mark_of_le hd, unexpected_eq h, hmodel]
  rfl

/-- What is scanned at a place is what is read there. -/
theorem exists_read (h : At bs start (c :: rest)) (signed : Bool) :
    ∃ d, peek? bs start = some d ∧ read bs signed start d =
      .ok (ofReading ((Cursor.read signed c rest).after 1) start (c :: rest)) := by
  obtain ⟨d, hpeek, ⟨hc, rfl⟩ | ⟨hc, hd⟩⟩ := h.exists_peek?
  · exact ⟨d, hpeek, read_of_lt h hc signed⟩
  · exact ⟨d, hpeek, read_of_le h hc hd signed⟩

/-! ### One call -/

theorem span_of_lt {start stop : Nat} (h : start ≤ stop) (hlt : stop < 0x100000000) :
    span start stop = ⟨start, stop⟩ := by
  rw [span, Nat.mod_eq_of_lt hlt, Nat.mod_eq_of_lt (Nat.lt_of_le_of_lt h hlt)]

theorem call_eq {s : State} {cs : List Char} (h : At bs s.offset cs)
    (hlt : bs.length < 0x100000000) :
    call bs s = .ok (match Cursor.next? ⟨cs, s.offset, s.afterOperand⟩ with
      | none => (none, ⟨bs.length, s.afterOperand⟩)
      | some (r, d) => (some r, ⟨d.offset, d.afterOperand⟩)) := by
  obtain ⟨gap, rest, unclosed, rfl, -, hrun, hnil, -⟩ := Blank.exists_runFrom 0 cs
  rw [Nat.zero_add] at hrun
  have hrun : Blank.run (gap ++ rest) = ⟨gap.length, unclosed⟩ := hrun
  have hat := h.append
  have hskip : skip bs s.offset = .ok (
      if unclosed then (bs.length, some (s.offset + size gap)) else (s.offset + size gap, none)) := by
    rw [skip_eq h, hrun, leave, List.take_left]
  rw [call, hskip, ok_bind]
  cases rest with
  | nil =>
    rw [List.append_nil] at hrun ⊢
    rw [hnil rfl, Cursor.next?_gap hrun, hat.length_eq]
    simp only [hat.peek?_nil, Bool.false_eq_true, if_false]
    rfl
  | cons c rest =>
    rw [Cursor.next?_append_cons hrun]
    cases unclosed with
    | true =>
      have hall : (c :: rest).take (1 + rest.length) = c :: rest :=
        List.take_of_length_le (by simp only [List.length_cons]; omega)
      have hstop : s.offset + size gap + size (c :: rest) = bs.length := hat.length_eq.symm
      have hspan := span_of_lt hat.le_length hlt
      simp only [if_true, Cursor.advance, Cursor.skip, Reading.fail, hall, hstop, ← hspan]
      rfl
    | false =>
      have hspaced : decide (s.offset < s.offset + size gap ∨ ¬ s.afterOperand) =
          decide (gap.length ≠ 0 ∨ ¬ s.afterOperand) := by
        have hgap : s.offset < s.offset + size gap ↔ gap.length ≠ 0 := by
          have hle := length_le_size gap
          cases gap with
          | nil => simp
          | cons g gap =>
            simp only [List.length_cons] at hle ⊢
            omega
        exact decide_eq_decide.mpr (or_congr_left hgap)
      obtain ⟨d, hpeek, hread⟩ := exists_read hat (decide (gap.length ≠ 0 ∨ ¬ s.afterOperand))
      simp only [hpeek, hspaced, hread, Bool.false_eq_true, if_false]
      generalize Cursor.read _ c rest = r
      have hstop := (hat.drop (1 + r.length)).le_length
      obtain ⟨result, n⟩ := r
      have hspan := span_of_lt (Nat.le_add_right (s.offset + size gap) _)
        (Nat.lt_of_le_of_lt hstop hlt)
      cases result with
      | error m =>
        simp only [Cursor.advance, Cursor.skip, ← hspan]
        rfl
      | ok t =>
        simp only [Cursor.advance, Cursor.skip, ← hspan]
        rfl

end Scanner

namespace Cursor

variable {c d : Cursor} {r : Except LexError Lexeme}

theorem advance_eq {reading : Reading Token} (h : c.advance reading = (r, d)) :
    d.rest = (c.skip (1 + reading.length)).rest ∧
      d.offset = (c.skip (1 + reading.length)).offset ∧
      ∀ e, r = .error e → e.span = ⟨c.offset, d.offset⟩ := by
  obtain ⟨result, k⟩ := reading
  cases result with
  | ok t =>
    obtain ⟨rfl, rfl⟩ := Prod.mk.inj h
    exact ⟨rfl, rfl, nofun⟩
  | error m =>
    obtain ⟨rfl, rfl⟩ := Prod.mk.inj h
    refine ⟨rfl, rfl, fun e he => ?_⟩
    rw [← Except.error.inj he]

/-- A step passes blanks and then takes at least one character; the span of an error is what it
takes. -/
theorem exists_of_next? (h : c.next? = some (r, d)) :
    ∃ n k ch rest, (c.skip n).rest = ch :: rest ∧ d.rest = ((c.skip n).skip (1 + k)).rest ∧
      d.offset = ((c.skip n).skip (1 + k)).offset ∧
      ∀ e, r = .error e → e.span = ⟨(c.skip n).offset, d.offset⟩ := by
  simp only [next?] at h
  split at h
  · cases h
  · rename_i ch rest hr
    exact ⟨_, _, ch, rest, hr, advance_eq (Option.some.inj h)⟩

theorem lt_offset_of_next? (h : c.next? = some (r, d)) :
    c.offset < d.offset ∧ ∀ e, r = .error e → e.span.start < e.span.stop ∧ e.span.stop = d.offset := by
  obtain ⟨n, k, ch, rest, hrest, -, hoff, hspan⟩ := exists_of_next? h
  have hle : c.offset ≤ (c.skip n).offset := Nat.le_add_right ..
  have hlt : (c.skip n).offset < d.offset := by
    have hpos := ch.utf8Size_pos
    rw [hoff]
    show (c.skip n).offset < (c.skip n).offset + Utf8.size ((c.skip n).rest.take (1 + k))
    rw [hrest, Nat.add_comm 1, List.take_succ_cons, Utf8.size_cons]
    omega
  refine ⟨by omega, fun e he => ?_⟩
  rw [hspan e he]
  exact ⟨hlt, rfl⟩

theorem length_steps_le (c : Cursor) : c.steps.length ≤ c.rest.length := by
  induction hn : c.rest.length using Nat.strong_induction_on generalizing c with
  | _ n ih =>
  subst hn
  cases h : c.next? with
  | none => rw [steps_of_none h]; exact Nat.zero_le _
  | some p =>
    have hlt := length_rest_next? (r := p.1) (d := p.2) h
    have hle := ih _ hlt p.2 rfl
    rw [steps_of_some (r := p.1) (d := p.2) h, List.length_cons]
    omega

end Cursor

namespace Scanner

open Utf8

variable {bs : List UInt8} {s t : State} {cs : List Char}

theorem At.next? {c d : Cursor} {r : Except LexError Lexeme} (h : At bs c.offset c.rest)
    (hn : c.next? = some (r, d)) : At bs d.offset d.rest := by
  obtain ⟨n, k, -, -, -, hrest, hoff, -⟩ := Cursor.exists_of_next? hn
  rw [hrest, hoff]
  exact (h.drop n).drop (1 + k)

/-! ### All calls -/

/-- What a scanner has given, call after call, when it has come from the start of a source to a
state. -/
inductive Calls (bs : List UInt8) : List (Option (Except LexError Lexeme)) → State → Prop
  | start : Calls bs [] ⟨0, false⟩
  | call {rs : List (Option (Except LexError Lexeme))} {r : Option (Except LexError Lexeme)}
      {s t : State} (h : Calls bs rs s) (hc : Scanner.call bs s = .ok (r, t)) :
      Calls bs (rs ++ [r]) t

/-- The scanner stands between two characters. Its next call takes no text that is not there, goes
on if it finds something, and gives no error with a span that is empty or outside. -/
structure Safe (bs : List UInt8) (s : State) : Prop where
  boundary : isBoundary bs s.offset
  le_length : s.offset ≤ bs.length
  call : ∃ r t, Scanner.call bs s = .ok (r, t) ∧ (r.isSome → s.offset < t.offset) ∧
    ∀ e, r = some (.error e) → e.span.start < e.span.stop ∧ e.span.stop ≤ bs.length

variable {rs : List (Option (Except LexError Lexeme))}

theorem At.safe (h : At bs s.offset cs) (hlt : bs.length < 0x100000000) : Safe bs s := by
  refine ⟨h.isBoundary, h.le_length, ?_⟩
  rw [call_eq h hlt]
  cases hn : Cursor.next? ⟨cs, s.offset, s.afterOperand⟩ with
  | none => exact ⟨none, _, rfl, nofun, nofun⟩
  | some p =>
    obtain ⟨r, d⟩ := p
    obtain ⟨hoff, hspan⟩ := Cursor.lt_offset_of_next? hn
    refine ⟨some r, _, rfl, fun _ => hoff, fun e he => ?_⟩
    obtain ⟨hpos, hstop⟩ := hspan e (Option.some.inj he)
    exact ⟨hpos, hstop ▸ (At.next? h hn).le_length⟩

/-- A call leads from a place to a place. -/
theorem At.call {r : Option (Except LexError Lexeme)} (h : At bs s.offset cs)
    (hlt : bs.length < 0x100000000) (hc : call bs s = .ok (r, t)) : ∃ ds, At bs t.offset ds := by
  rw [call_eq h hlt] at hc
  cases hn : Cursor.next? ⟨cs, s.offset, s.afterOperand⟩ with
  | none =>
    rw [hn] at hc
    obtain ⟨-, rfl⟩ := Prod.mk.inj (Except.ok.inj hc)
    refine ⟨[], ?_⟩
    rw [h.length_eq]
    exact append (by rwa [List.append_nil])
  | some p =>
    rw [hn] at hc
    obtain ⟨-, rfl⟩ := Prod.mk.inj (Except.ok.inj hc)
    exact ⟨p.2.rest, At.next? h hn⟩

/-- Whatever it has given, a scanner is at a place of its source. -/
theorem Calls.exists_at (hlt : (encode cs).length < 0x100000000) (h : Calls (encode cs) rs s) :
    ∃ ds, At (encode cs) s.offset ds := by
  induction h with
  | start => exact ⟨cs, at_start cs⟩
  | call _ hc ih =>
    obtain ⟨ds, hat⟩ := ih
    exact hat.call hlt hc

/-- From a place on, a scanner gives what is read there, and then nothing. -/
theorem Calls.steps (hlt : bs.length < 0x100000000) (hat : At bs s.offset cs) (h : Calls bs rs s) :
    ∃ t, Calls bs (rs ++ ((Cursor.steps ⟨cs, s.offset, s.afterOperand⟩).map some ++ [none])) t := by
  induction hn : cs.length using Nat.strong_induction_on generalizing cs rs s with
  | _ n ih =>
  subst hn
  have hc := call_eq hat hlt
  cases hn : Cursor.next? ⟨cs, s.offset, s.afterOperand⟩ with
  | none =>
    rw [hn] at hc
    rw [Cursor.steps_of_none hn]
    exact ⟨_, h.call hc⟩
  | some p =>
    obtain ⟨r, d⟩ := p
    rw [hn] at hc
    rw [Cursor.steps_of_some hn, List.map_cons, List.cons_append, List.append_cons]
    exact ih _ (Cursor.length_rest_next? hn) (At.next? hat hn) (h.call hc) rfl

/-- A scanner that goes on after its errors is safe at all times, and comes to the end of its source
in at most one call more than the source has bytes. -/
theorem safe_and_ends (source : String) (hlt : (ofString source).length < 0x100000000) :
    (∀ rs s, Calls (ofString source) rs s → Safe (ofString source) s) ∧
      (Lexeme.steps source.toList).length ≤ (ofString source).length ∧
      ∃ t, Calls (ofString source) ((Lexeme.steps source.toList).map some ++ [none]) t := by
  refine ⟨fun rs s h => ?_, ?_, ?_⟩
  · obtain ⟨ds, hat⟩ := h.exists_at hlt
    exact hat.safe hlt
  · exact (Cursor.length_steps_le _).trans ((length_le_size _).trans (length_encode _).ge)
  · have hat : At (ofString source) (State.mk 0 false).offset source.toList := at_start _
    exact Calls.start.steps hlt hat

theorem safe_and_ends_errors :
    Lexeme.steps "'é\n%\"ü\n0x1gé<%(0x1é/*".toList =
        [.error ⟨⟨0, 4⟩, .unclosedString⟩, .error ⟨⟨4, 9⟩, .unclosedString⟩,
          .error ⟨⟨9, 12⟩, .badNumber⟩, .ok ⟨.name "g", ⟨12, 13⟩⟩,
          .error ⟨⟨13, 15⟩, .unexpectedChar 'é'⟩, .error ⟨⟨15, 21⟩, .badName⟩,
          .error ⟨⟨21, 23⟩, .unexpectedChar 'é'⟩, .error ⟨⟨23, 25⟩, .unclosedComment⟩] ∧
      Safe (ofString "'é\n%\"ü\n0x1gé<%(0x1é/*") ⟨0, false⟩ ∧
      ∃ t, Calls (ofString "'é\n%\"ü\n0x1gé<%(0x1é/*")
        ((Lexeme.steps "'é\n%\"ü\n0x1gé<%(0x1é/*".toList).map some ++ [none]) t := by
  have h := safe_and_ends "'é\n%\"ü\n0x1gé<%(0x1é/*" (by decide +kernel)
  exact ⟨by decide +kernel, h.1 _ _ .start, h.2.2⟩

end Scanner

end QbScript
