import QbScript.Proofs.Source.Numbers

/-!
# What a step of the reading takes

A step takes the layout at the front of a source and the text of a token after it. No reading goes
further than the source does.
-/

set_option autoImplicit false

namespace QbScript

/-- Blanks, comments and line ends that a backslash takes away. A comment to the end of its line has
nothing after it, and one between marks ends at its first end mark. -/
inductive IsLayout : List Char → Prop
  | nil : IsLayout []
  | blank {c : Char} {cs : List Char} (hc : Blank.isBlank c) (h : IsLayout cs) : IsLayout (c :: cs)
  | lineComment {body : List Char} (hb : '\n' ∉ body) : IsLayout ('/' :: '/' :: body)
  | comment {body cs : List Char} (hb : ¬ ['*', '/'] <:+: body) (h : IsLayout cs) :
      IsLayout ('/' :: '*' :: (body ++ '*' :: '/' :: cs))
  | joined {cs : List Char} (h : IsLayout cs) : IsLayout ('\\' :: '\n' :: cs)
  | joinedReturn {cs : List Char} (h : IsLayout cs) : IsLayout ('\\' :: '\r' :: '\n' :: cs)

namespace Blank

theorem exists_of_commentLength? {n m : Nat} {cs : List Char} (h : commentLength? n cs = some m) :
    ∃ body rest, cs = body ++ '*' :: '/' :: rest ∧ m = n + body.length + 2 ∧
      ¬ ['*', '/'] <:+: body := by
  fun_induction commentLength? n cs with
  | case1 n rest => exact ⟨[], rest, rfl, (Option.some.inj h).symm, by simp⟩
  | case2 n c rest hne ih =>
    obtain ⟨body, tail, rfl, rfl, hb⟩ := ih h
    refine ⟨c :: body, tail, rfl, by simp only [List.length_cons]; omega, ?_⟩
    rw [List.infix_cons_iff]
    rintro (⟨ds, hd⟩ | hi)
    · obtain ⟨rfl, rfl⟩ := List.cons.inj hd
      exact hne _ rfl rfl
    · exact hb hi
  | case3 => cases h

/-- A piece of layout at the front. Nothing is added to a comment that goes to the end of its
line. -/
theorem exists_piece {cs : List Char} {more : Nat} (h : front cs = .blank more) :
    ∃ piece rest, cs = piece ++ rest ∧ piece.length = more + 1 ∧
      ((∀ gap, IsLayout gap → IsLayout (piece ++ gap)) ∨
        IsLayout piece ∧ ∀ c ∈ rest.head?, c = '\n') := by
  unfold front at h
  split at h
  · rename_i rest
    obtain rfl := Front.blank.inj h
    refine ⟨'/' :: '/' :: rest.takeWhile (· ≠ '\n'), rest.dropWhile (· ≠ '\n'), ?_, ?_, ?_⟩
    · simp
    · simp only [List.length_cons]
      omega
    · refine Or.inr ⟨.lineComment fun hm => ?_, fun c hc => ?_⟩
      · simpa using List.mem_takeWhile_imp hm
      · have hn := List.head?_dropWhile_not (· ≠ '\n') rest
        rw [Option.mem_def.mp hc] at hn
        simpa using hn
  · rename_i rest
    split at h
    · rename_i n hn
      obtain rfl := Front.blank.inj h
      obtain ⟨body, tail, rfl, rfl, hb⟩ := exists_of_commentLength? hn
      refine ⟨'/' :: '*' :: (body ++ ['*', '/']), tail, by simp, ?_, Or.inl fun gap hg => ?_⟩
      · simp only [List.length_cons, List.length_append, List.length_nil]
        omega
      · simpa using IsLayout.comment hb hg
    · cases h
  · rename_i rest
    obtain rfl := Front.blank.inj h
    exact ⟨['\\', '\n'], rest, rfl, rfl, Or.inl fun _ => .joined⟩
  · rename_i rest
    obtain rfl := Front.blank.inj h
    exact ⟨['\\', '\r', '\n'], rest, rfl, rfl, Or.inl fun _ => .joinedReturn⟩
  · rename_i c rest _ _ _ _
    split at h
    · rename_i hc
      obtain rfl := Front.blank.inj h
      exact ⟨[c], rest, rfl, rfl, Or.inl fun _ => .blank hc⟩
    · cases h
  · cases h

theorem runFrom_of_newline {cs : List Char} (h : ∀ c ∈ cs.head?, c = '\n') (n : Nat) :
    runFrom n cs = ⟨n, false⟩ := by
  cases cs with
  | nil => rw [runFrom]
  | cons c cs =>
    obtain rfl := h c rfl
    exact runFrom_other rfl n

/-- The blanks at the front are layout, and no layout comes after them. -/
theorem exists_runFrom (n : Nat) (cs : List Char) :
    ∃ gap rest unclosed, cs = gap ++ rest ∧ IsLayout gap ∧
      runFrom n cs = ⟨n + gap.length, unclosed⟩ ∧ (rest = [] → unclosed = false) ∧
      ∀ c tail, rest = c :: tail →
        front rest = if unclosed then .unclosed else .other := by
  fun_induction runFrom n cs with
  | case1 n => exact ⟨[], [], false, rfl, .nil, rfl, fun _ => rfl, nofun⟩
  | case2 n c rest more hf ih =>
    obtain ⟨piece, tail, he, hlen, hpiece⟩ := exists_piece hf
    have htail : rest.drop more = tail := by
      have hd := congrArg (List.drop (more + 1)) he
      rwa [List.drop_succ_cons, ← hlen, List.drop_left] at hd
    rw [htail] at ih ⊢
    obtain ⟨gap, last, unclosed, hl, hgap, hrun, hnil, hlast⟩ := ih
    refine ⟨piece ++ gap, last, unclosed, by rw [he, hl, List.append_assoc], ?_, ?_, hnil, hlast⟩
    · rcases hpiece with hpiece | ⟨hpiece, hnew⟩
      · exact hpiece gap hgap
      · rw [runFrom_of_newline hnew] at hrun
        have hz := congrArg Run.length hrun
        obtain rfl : gap = [] := List.length_eq_zero_iff.mp (by simp only at hz; omega)
        rwa [List.append_nil]
    · rw [hrun, List.length_append, hlen]
      congr 1
      omega
  | case3 n c rest hf =>
    refine ⟨[], c :: rest, true, rfl, .nil, rfl, nofun, fun d tail _ => hf⟩
  | case4 n c rest hf =>
    refine ⟨[], c :: rest, false, rfl, .nil, rfl, nofun, fun d tail _ => hf⟩

end Blank

namespace Name

theorem length_word_le (c : Char) (cs : List Char) : (word c cs).length ≤ cs.length :=
  (List.takeWhile_prefix isNameChar).length_le

theorem length_quoted_le (cs : List Char) : (quoted cs).length ≤ cs.length := by
  unfold quoted
  dsimp only
  split
  · rename_i h
    have hl := congrArg List.length h
    simp only [List.length_drop, List.length_cons] at hl
    simp only [Reading.ok]
    omega
  · rename_i h
    have hl := congrArg List.length h
    simp only [List.length_drop, List.length_cons] at hl
    simp only [Reading.fail]
    omega
  · exact (List.takeWhile_prefix _).length_le

theorem length_checksumDigits_le (cs : List Char) : (checksumDigits cs).length ≤ cs.length := by
  have hd := (List.takeWhile_prefix (l := cs) isHexDigit).length_le
  unfold checksumDigits
  dsimp only
  split
  · simp only [Reading.fail]
    omega
  split
  · rename_i h
    have hl := congrArg List.length h
    simp only [List.length_drop, List.length_cons] at hl
    simp only [Reading.ok]
    omega
  · exact hd

theorem length_percent_le (cs : List Char) : (percent cs).length ≤ cs.length := by
  unfold percent
  split
  · rename_i rest
    have := length_quoted_le rest
    simp only [Reading.after, List.length_cons]
    omega
  · rename_i rest
    have := length_checksumDigits_le rest
    simp only [Reading.after, List.length_cons]
    omega
  · rename_i rest
    have := length_checksumDigits_le rest
    simp only [Reading.after, List.length_cons]
    omega
  · simp [Reading.fail]
  · simp [Reading.fail]
  · simp [Reading.fail]

theorem length_closeArg_le {r : Reading Ref} {cs : List Char} (h : r.length ≤ cs.length) :
    (closeArg r (cs.drop r.length)).length ≤ cs.length := by
  unfold closeArg
  split
  · rename_i hd
    have hl := congrArg List.length hd
    simp only [List.length_drop, List.length_cons] at hl
    simp only [Reading.ok]
    omega
  · exact h
  · exact h

theorem length_angle_le (cs : List Char) : (angle cs).length ≤ cs.length := by
  unfold angle
  split
  · simp [Reading.ok]
  · simp [Reading.ok]
  · simp [Reading.ok]
  · rename_i rest
    have := length_closeArg_le (length_percent_le rest)
    simp only [Reading.after, List.length_cons]
    omega
  · dsimp only
    split
    · rename_i hd
      have hl := congrArg List.length hd
      simp only [List.length_drop, List.length_cons] at hl
      simp only [Reading.ok, List.length_cons]
      omega
    · simp [Reading.ok]
  · simp [Reading.ok]

end Name

namespace Literal

@[simp] theorem length_closeNumber (t : Token) (rest : List Char) (n : Nat) :
    (closeNumber t rest n).length = n := by
  unfold closeNumber
  split <;> rfl

theorem length_hexNumber_le (negative : Bool) (cs : List Char) :
    (hexNumber negative cs).length ≤ cs.length := by
  unfold hexNumber
  dsimp only
  split
  · simp [Reading.fail]
  · rw [length_closeNumber]
    exact (List.takeWhile_prefix _).length_le

theorem length_fractionDigits_lt {cs : List Char} (h : fractionDigits cs ≠ []) :
    (fractionDigits cs).length < cs.length := by
  obtain ⟨tail, rfl, hf⟩ := exists_of_fractionDigits_ne_nil h
  have := (List.takeWhile_prefix (l := tail) Char.isDigit).length_le
  rw [hf, List.length_cons]
  omega

theorem length_decimalNumber_le (negative : Bool) (cs : List Char) :
    (decimalNumber negative cs).length ≤ cs.length := by
  have hw := (List.takeWhile_prefix (l := cs) Char.isDigit).length_le
  unfold decimalNumber
  dsimp only
  split
  · rwa [length_closeNumber]
  · rename_i hf
    have := length_fractionDigits_lt (mt List.isEmpty_iff.mpr hf)
    rw [List.length_drop] at this
    rw [length_closeNumber]
    omega

theorem length_number_le (negative : Bool) (cs : List Char) :
    (number negative cs).length ≤ cs.length := by
  unfold number
  split
  · rename_i rest
    have := length_hexNumber_le negative rest
    simp only [Reading.after, List.length_cons]
    omega
  · rename_i rest
    have := length_hexNumber_le negative rest
    simp only [Reading.after, List.length_cons]
    omega
  · exact length_decimalNumber_le negative cs

theorem length_string_le (mark : Char) (cs : List Char) :
    (string mark cs).length ≤ cs.length := by
  have h : ∀ n, (∀ m, bodyLength mark n cs = .ok m → m + 1 ≤ n + cs.length) ∧
      ∀ m, bodyLength mark n cs = .error m → m ≤ n + cs.length := by
    intro n
    fun_induction bodyLength mark n cs with
    | case1 => simp
    | case2 => simp
    | case3 n e rest ih =>
      simp only [List.length_cons]
      refine ⟨fun m hm => ?_, fun m hm => ?_⟩
      · have := ih.1 m hm
        omega
      · have := ih.2 m hm
        omega
    | case4 => simp
    | case5 => simp
    | case6 n c rest _ _ _ _ ih =>
      simp only [List.length_cons]
      refine ⟨fun m hm => ?_, fun m hm => ?_⟩
      · have := ih.1 m hm
        omega
      · have := ih.2 m hm
        omega
  unfold string
  split
  · rename_i n hn
    have := (h 0).1 n hn
    simp only [Reading.ok]
    omega
  · rename_i n hn
    have := (h 0).2 n hn
    simp only [Reading.fail]
    omega

end Literal

namespace Cursor

theorem length_read_le (signed : Bool) (c : Char) (rest : List Char) :
    (read signed c rest).length ≤ rest.length := by
  unfold read
  split
  · exact Name.length_word_le c rest
  split
  · have := Literal.length_number_le false (c :: rest)
    simp only [List.length_cons] at this
    dsimp only
    omega
  split
  · exact Literal.length_number_le _ rest
  split
  · exact Literal.length_string_le _ _
  · exact Literal.length_string_le _ _
  · rename_i body _ _ _
    have := Literal.length_string_le '"' body
    simp only [Reading.after, Reading.map, List.length_cons]
    omega
  · exact Name.length_percent_le _
  · exact Name.length_angle_le _
  · simp [Reading.ok]
  · simp [Reading.ok]
  · simp [Reading.ok]
  · simp [Reading.ok]
  · simp [Reading.ok]
  · split <;> simp [Reading.ok, Reading.fail]

section
variable {gap rest : List Char} {c : Char} {unclosed : Bool}

theorem next?_gap (hrun : Blank.run gap = ⟨gap.length, unclosed⟩) (offset : Nat) (op : Bool) :
    next? ⟨gap, offset, op⟩ = none := by
  simp only [next?, hrun, skip, List.drop_length]

/-- After the blanks at the front, a step reads a character and what belongs to it. -/
theorem next?_append_cons (hrun : Blank.run (gap ++ c :: rest) = ⟨gap.length, unclosed⟩)
    (offset : Nat) (op : Bool) : next? ⟨gap ++ c :: rest, offset, op⟩ =
      some (advance ⟨c :: rest, offset + Utf8.size gap, op⟩ (
        if unclosed then .fail .unclosedComment rest.length
        else read (gap.length ≠ 0 ∨ ¬ op) c rest)) := by
  simp only [next?, hrun, skip, List.drop_left, List.take_left]

end

theorem decide_signed (gap : List Char) (op : Bool) :
    decide (gap.length ≠ 0 ∨ ¬ op = true) = (!gap.isEmpty || !op) := by
  cases gap <;> cases op <;> rfl

/-- After layout, what the front of a text reads as is the next token. -/
theorem next?_of_frontReads {gap w rest : List Char} {op : Bool} {t : Token}
    (hrun : Blank.run (gap ++ (w ++ rest)) = ⟨gap.length, false⟩)
    (hw : FrontReads (!gap.isEmpty || !op) w rest t) (offset : Nat) :
    next? ⟨gap ++ (w ++ rest), offset, op⟩ =
      some (.ok ⟨t, ⟨offset + Utf8.size gap, offset + Utf8.size gap + Utf8.size w⟩⟩,
        ⟨rest, offset + Utf8.size gap + Utf8.size w, t.isOperand⟩) := by
  obtain ⟨c, cs, rfl, -, hr⟩ := hw
  have htake : (c :: (cs ++ rest)).take (1 + cs.length) = c :: cs := by
    rw [Nat.add_comm, List.take_succ_cons, List.take_left]
  have hdrop : (c :: (cs ++ rest)).drop (1 + cs.length) = rest := by
    rw [Nat.add_comm, List.drop_succ_cons, List.drop_left]
  rw [List.cons_append] at hrun ⊢
  rw [next?_append_cons hrun, decide_signed, if_neg Bool.false_ne_true, hr]
  simp only [advance, skip, Reading.ok, htake, hdrop]

structure Takes (c d : Cursor) (l : Lexeme) (gap w : List Char) : Prop where
  rest : c.rest = gap ++ (w ++ d.rest)
  run : Blank.run c.rest = ⟨gap.length, false⟩
  layout : IsLayout gap
  front : FrontReads (!gap.isEmpty || !c.afterOperand) w d.rest l.token
  span : l.span = ⟨c.offset + Utf8.size gap, d.offset⟩
  offset : d.offset = c.offset + Utf8.size gap + Utf8.size w
  afterOperand : d.afterOperand = l.token.isOperand

theorem exists_takes {c d : Cursor} {l : Lexeme} (h : c.next? = some (.ok l, d)) :
    ∃ gap w, c.Takes d l gap w := by
  obtain ⟨text, offset, op⟩ := c
  obtain ⟨gap, rest, unclosed, rfl, hlayout, hrun, -, hfront⟩ := Blank.exists_runFrom 0 text
  rw [Nat.zero_add] at hrun
  have hrun : Blank.run (gap ++ rest) = ⟨gap.length, unclosed⟩ := hrun
  cases rest with
  | nil =>
    rw [List.append_nil] at hrun h
    rw [next?_gap hrun] at h
    cases h
  | cons ch rest =>
    rw [next?_append_cons hrun, decide_signed] at h
    have h := Option.some.inj h
    cases unclosed with
    | true => cases (Prod.mk.inj h).1
    | false =>
      rw [if_neg Bool.false_ne_true] at h
      have hlen := length_read_le (!gap.isEmpty || !op) ch rest
      cases hr : read (!gap.isEmpty || !op) ch rest with
      | mk result n =>
        rw [hr] at h hlen
        cases result with
        | error m => cases (Prod.mk.inj h).1
        | ok token =>
          obtain ⟨hl, rfl⟩ := Prod.mk.inj h
          obtain rfl := Except.ok.inj hl
          have htake : (ch :: rest).take (1 + n) = ch :: rest.take n := by
            rw [Nat.add_comm, List.take_succ_cons]
          have hdrop : (ch :: rest).drop (1 + n) = rest.drop n := by
            rw [Nat.add_comm, List.drop_succ_cons]
          have hsplit : rest.take n ++ rest.drop n = rest := List.take_append_drop n rest
          refine ⟨gap, ch :: rest.take n, ?_, hrun, hlayout, ⟨ch, rest.take n, rfl, ?_, ?_⟩, rfl, ?_,
            rfl⟩
          · simp only [rest_skip, hdrop, List.cons_append, hsplit]
          · simp only [rest_skip, hdrop, hsplit]
            simpa using hfront ch rest rfl
          · simp only [rest_skip, hdrop, hsplit, List.length_take, Nat.min_eq_left hlen]
            exact hr
          · simp only [skip, htake]

end Cursor

end QbScript
