import QbScript.Proofs.Scanner.Place

/-!
# Skipping blanks by bytes

A scanner comes to the end of the blanks that stand before it, or of the source if a comment in them
is not closed.
-/

set_option autoImplicit false

namespace QbScript

namespace Blank

variable {c : Char} {cs w : List Char}

theorem runFrom_add (n m : Nat) (cs : List Char) :
    runFrom (n + m) cs = ⟨n + (runFrom m cs).length, (runFrom m cs).unclosed⟩ := by
  fun_induction runFrom m cs with
  | case1 m => rw [runFrom]
  | case2 m c rest more hf ih =>
    rw [runFrom]
    simp only [hf]
    rw [← ih, Nat.add_assoc, Nat.add_assoc, Nat.add_assoc]
  | case3 m c rest hf => rw [runFrom]; simp only [hf]
  | case4 m c rest hf => rw [runFrom]; simp only [hf]

theorem run_append {more : Nat} (h : front (w ++ cs) = .blank more) (hw : w.length = 1 + more) :
    run (w ++ cs) = ⟨w.length + (run cs).length, (run cs).unclosed⟩ := by
  cases w with
  | nil => simp only [List.length_nil] at hw; omega
  | cons c w =>
    obtain rfl : more = w.length := by simp only [List.length_cons] at hw; omega
    rw [run, List.cons_append, runFrom, ← List.cons_append]
    simp only [h]
    rw [List.drop_left, hw, Nat.zero_add, run, ← runFrom_add, Nat.add_zero]

theorem run_of_other (h : front cs = .other) : run cs = ⟨0, false⟩ := by
  cases cs with
  | nil => rw [run, runFrom]
  | cons c cs => exact runFrom_other h 0

theorem run_of_unclosed (h : front cs = .unclosed) : run cs = ⟨0, true⟩ := by
  cases cs with
  | nil => cases h
  | cons c cs =>
    rw [run, runFrom]
    simp only [h]

theorem front_of_isBlank (hc : isBlank c) (cs : List Char) : front (c :: cs) = .blank 0 := by
  have hne : c ≠ '/' ∧ c ≠ '\\' := by
    refine ⟨?_, ?_⟩
    all_goals rintro rfl; revert hc; decide
  unfold front
  split <;> simp_all

theorem run_append_of_isBlank (hw : ∀ c ∈ w, isBlank c) (cs : List Char) :
    run (w ++ cs) = ⟨w.length + (run cs).length, (run cs).unclosed⟩ := by
  induction w with
  | nil => rw [List.nil_append, List.length_nil, Nat.zero_add]
  | cons c w ih =>
    have hc := front_of_isBlank (hw c List.mem_cons_self) (w ++ cs)
    have hone := @run_append (w ++ cs) [c] 0 hc rfl
    rw [List.singleton_append, ih fun d hd => hw d (List.mem_cons_of_mem c hd)] at hone
    rw [List.cons_append, hone]
    congr 1
    simp only [List.length_cons, List.length_nil]
    omega

end Blank

namespace Scanner

open Utf8

variable {bs : List UInt8} {off : Nat} {c : Char} {cs w : List Char}

/-! ### The end of a comment -/

theorem closing?_cons {b : UInt8} {bs : List UInt8}
    (h : ¬ (byteChar b = '*' ∧ bs.head?.map byteChar = some '/')) :
    closing? (b :: bs) = (closing? bs).map (· + 1) := by
  cases bs with
  | nil => rfl
  | cons b' bs =>
    rw [closing?, if_neg]
    rintro ⟨hb, hb'⟩
    exact h ⟨hb, congrArg some hb'⟩

theorem closing?_append {bytes : List UInt8} (h : ∀ b ∈ bytes, byteChar b ≠ '*')
    (bs : List UInt8) : closing? (bytes ++ bs) = (closing? bs).map (· + bytes.length) := by
  induction bytes with
  | nil => simp
  | cons b bytes ih =>
    have hb : ¬ (byteChar b = '*' ∧ (bytes ++ bs).head?.map byteChar = some '/') := fun hb =>
      h b List.mem_cons_self hb.1
    rw [List.cons_append, closing?_cons hb, ih fun b hb => h b (List.mem_cons_of_mem _ hb),
      Option.map_map, List.length_cons]
    rfl

theorem closing?_encode_cons (h : ¬ (c = '*' ∧ cs.head? = some '/')) :
    closing? (encode (c :: cs)) = (closing? (encode cs)).map (· + c.utf8Size) := by
  rw [encode_cons]
  by_cases hc : c = '*'
  · subst hc
    have hat := at_start cs
    have hhead : (encode cs).head?.map byteChar = peek? (encode cs) 0 := by
      rw [peek?, List.head?_eq_getElem?]
    refine closing?_cons fun hs => h ⟨rfl, ?_⟩
    exact (hat.peek?_eq_some_iff (by decide)).mp (hhead.symm.trans hs.2)
  · rw [closing?_append, String.length_utf8EncodeChar]
    intro b hb he
    rcases eq_or_le_of_mem_utf8EncodeChar hb with ⟨-, hb⟩ | ⟨-, hb⟩
    · exact hc (hb.symm.trans he)
    · rw [he] at hb
      exact absurd hb (by decide)

/-- The end of a comment is where it is among the characters. -/
theorem closing?_encode (n : Nat) (cs : List Char) :
    closing? (encode cs) = (Blank.commentLength? n cs).map fun m => size (cs.take (m - (n + 2))) := by
  fun_induction Blank.commentLength? n cs with
  | case1 n rest =>
    rw [Option.map_some, Nat.sub_self]
    rfl
  | case2 n c rest hne ih =>
    have hc : ¬ (c = '*' ∧ rest.head? = some '/') := by
      rintro ⟨rfl, hr⟩
      obtain ⟨tail, rfl⟩ := List.head?_eq_some_iff.mp hr
      exact hne tail rfl rfl
    rw [closing?_encode_cons hc, ih]
    cases hm : Blank.commentLength? (n + 1) rest with
    | none => rfl
    | some m =>
      obtain ⟨body, -, -, rfl, -⟩ := Blank.exists_of_commentLength? hm
      have hl : n + 1 + body.length + 2 - (n + 2) = body.length + 1 := by omega
      have hr : n + 1 + body.length + 2 - (n + 1 + 2) = body.length := by omega
      simp only [Option.map_some, hl, hr, List.take_succ_cons, size_cons, Nat.add_comm c.utf8Size]
  | case3 n => rfl

/-- The offset after the blanks at the front of `cs`, or what an unclosed comment comes to. -/
def leave (bs : List UInt8) (off : Nat) (cs : List Char) (r : Blank.Run) : Nat × Option Nat :=
  let stop := off + size (cs.take r.length)
  if r.unclosed then (bs.length, some stop) else (stop, none)

theorem leave_append (n : Nat) (unclosed : Bool) :
    leave bs off (w ++ cs) ⟨w.length + n, unclosed⟩ = leave bs (off + size w) cs ⟨n, unclosed⟩ := by
  simp only [leave, List.take_length_add_append, size_append, Nat.add_assoc]

theorem isUniform_isBlank : IsUniform Blank.isBlank := by
  refine isUniform_of_lt fun c hc => ?_
  rcases of_decide_eq_true hc with rfl | rfl | rfl | rfl | rfl
  all_goals decide

theorem isUniform_ne_newline : IsUniform (· ≠ '\n') := by
  refine isUniform_of_not_lt fun c hc => ?_
  obtain rfl : c = '\n' := by simpa using hc
  decide

/-- What the characters from an offset on begin with, in the bytes. -/
def pieceOf (off : Nat) (cs : List Char) : Blank.Front → Piece
  | .blank more => .upTo (off + size (cs.take (1 + more)))
  | .unclosed => .unclosed
  | .other => .other

theorem piece_lineComment (h : At bs off ('/' :: '/' :: cs)) :
    piece bs off = .ok (pieceOf off ('/' :: '/' :: cs) (Blank.front ('/' :: '/' :: cs))) := by
  have h₁ := h.next (by decide)
  have htake : ('/' :: '/' :: cs).take (1 + (1 + (cs.takeWhile (· ≠ '\n')).length)) =
      '/' :: '/' :: cs.takeWhile (· ≠ '\n') := by
    rw [Nat.add_comm, Nat.add_comm 1, List.take_succ_cons, List.take_succ_cons,
      ← List.prefix_iff_eq_take.mp (List.takeWhile_prefix _)]
  rw [piece, if_pos ⟨h.peek?_cons (by decide), h₁.peek?_cons (by decide)⟩,
    h.pass_eq isUniform_ne_newline]
  simp only [Blank.front, pieceOf, htake]
  simp

theorem piece_comment (h : At bs off ('/' :: '*' :: cs)) :
    piece bs off = .ok (pieceOf off ('/' :: '*' :: cs) (Blank.front ('/' :: '*' :: cs))) := by
  have h₁ := h.next (by decide)
  have h₂ := h₁.next (by decide)
  have htail : tail bs (off + 2) = .ok (encode cs) := h₂.tail_eq
  have hno : ¬ (peek? bs off = some '/' ∧ peek? bs (off + 1) = some '/') := by
    rw [h₁.peek?_cons (by decide)]
    exact fun hp => absurd hp.2 (by decide)
  have hclosing := closing?_encode 0 cs
  rw [piece, if_neg hno, if_pos ⟨h.peek?_cons (by decide), h₁.peek?_cons (by decide)⟩]
  simp only [htail, hclosing, Blank.front]
  cases hm : Blank.commentLength? 0 cs with
  | none => rfl
  | some m =>
    obtain ⟨body, last, rfl, rfl, -⟩ := Blank.exists_of_commentLength? hm
    have hbody : (body ++ '*' :: '/' :: last).take (0 + body.length + 2 - (0 + 2)) = body := by
      rw [show 0 + body.length + 2 - (0 + 2) = body.length by omega, List.take_left]
    have htake : ('/' :: '*' :: (body ++ '*' :: '/' :: last)).take
        (1 + (1 + (0 + body.length + 2))) = '/' :: '*' :: (body ++ ['*', '/']) := by
      rw [show 1 + (1 + (0 + body.length + 2)) = body.length + 2 + 1 + 1 by omega,
        List.take_succ_cons, List.take_succ_cons, List.take_length_add_append]
      rfl
    have hopen : size ('/' :: '*' :: body) = 2 + size body := by
      rw [size_cons, size_cons, utf8Size_of_lt (by decide), utf8Size_of_lt (by decide)]
      omega
    have hclose : size ['*', '/'] = 2 := rfl
    simp only [Option.map_some, hbody, pieceOf, htake]
    rw [← List.cons_append, ← List.cons_append, size_append, hopen, hclose, Nat.add_assoc off,
      Nat.add_assoc off]

theorem piece_other (h : At bs off cs) (h1 : ∀ rest, cs ≠ '/' :: '/' :: rest)
    (h2 : ∀ rest, cs ≠ '/' :: '*' :: rest) (h3 : ∀ rest, cs ≠ '\\' :: '\n' :: rest)
    (h4 : ∀ rest, cs ≠ '\\' :: '\r' :: '\n' :: rest) : piece bs off = .ok .other := by
  -- Two bytes that are looked for are the next two characters.
  have htwo : ∀ {j k : Char}, j.toNat < 0x80 → k.toNat < 0x80 →
      peek? bs off = some j → peek? bs (off + 1) = some k →
        ∃ rest, cs = j :: k :: rest ∧ At bs (off + 2) rest := by
    intro j k hj hk hpj hpk
    obtain ⟨rest, rfl, hat₁⟩ := h.exists_of_peek? hpj hj
    obtain ⟨rest, rfl, hat₂⟩ := hat₁.exists_of_peek? hpk hk
    exact ⟨rest, rfl, hat₂⟩
  rw [piece, if_neg, if_neg, if_neg, if_neg]
  · rintro ⟨hp, hp₁, hp₂⟩
    obtain ⟨rest, rfl, hat₂⟩ := htwo (by decide) (by decide) hp hp₁
    obtain ⟨rest, rfl, -⟩ := hat₂.exists_of_peek? hp₂ (by decide)
    exact h4 rest rfl
  · rintro ⟨hp, hp₁⟩
    obtain ⟨rest, he, -⟩ := htwo (by decide) (by decide) hp hp₁
    exact h3 rest he
  · rintro ⟨hp, hp₁⟩
    obtain ⟨rest, he, -⟩ := htwo (by decide) (by decide) hp hp₁
    exact h2 rest he
  · rintro ⟨hp, hp₁⟩
    obtain ⟨rest, he, -⟩ := htwo (by decide) (by decide) hp hp₁
    exact h1 rest he

theorem piece_eq (h : At bs off cs) (hb : ∀ c ∈ cs.head?, Blank.isBlank c = false) :
    piece bs off = .ok (pieceOf off cs (Blank.front cs)) := by
  have hslash : cs.head? = some '\\' → peek? bs off ≠ some '/' := fun hc => by
    rw [(h.peek?_eq_some_iff (by decide)).mpr hc]
    decide
  unfold Blank.front
  split
  · exact piece_lineComment h
  · exact piece_comment h
  · have h₁ := h.next (by decide)
    rw [piece, if_neg fun hp => hslash rfl hp.1, if_neg fun hp => hslash rfl hp.1,
      if_pos ⟨h.peek?_cons (by decide), h₁.peek?_cons (by decide)⟩]
    rfl
  · have h₁ := h.next (by decide)
    have h₂ := h₁.next (by decide)
    have hno : ¬ (peek? bs off = some '\\' ∧ peek? bs (off + 1) = some '\n') := by
      rw [h₁.peek?_cons (by decide)]
      exact fun hp => absurd hp.2 (by decide)
    rw [piece, if_neg fun hp => hslash rfl hp.1, if_neg fun hp => hslash rfl hp.1, if_neg hno,
      if_pos ⟨h.peek?_cons (by decide), h₁.peek?_cons (by decide), h₂.peek?_cons (by decide)⟩]
    rfl
  · rename_i h1 h2 h3 h4
    rw [if_neg (Bool.eq_false_iff.mp (hb _ rfl))]
    exact piece_other h (fun rest he => h1 rest (List.cons.inj he).1 (List.cons.inj he).2)
      (fun rest he => h2 rest (List.cons.inj he).1 (List.cons.inj he).2)
      (fun rest he => h3 rest (List.cons.inj he).1 (List.cons.inj he).2)
      (fun rest he => h4 rest (List.cons.inj he).1 (List.cons.inj he).2)
  · exact piece_other h nofun nofun nofun nofun

/-- After a piece of layout, the blanks are those of what follows. -/
theorem leave_run_append {more : Nat} (h : Blank.front (w ++ cs) = .blank more)
    (hw : w.length = 1 + more) :
    leave bs off (w ++ cs) (Blank.run (w ++ cs)) = leave bs (off + size w) cs (Blank.run cs) := by
  rw [Blank.run_append h hw, leave_append]

theorem skip_of_piece (p : Piece) : piece bs (pass bs Blank.isBlank off) = .ok p →
    skip bs off = match p with
      | .upTo stop => skip bs stop
      | .unclosed => .ok (bs.length, some (pass bs Blank.isBlank off))
      | .other => .ok (pass bs Blank.isBlank off, none) := by
  intro h
  rw [skip]
  split
  all_goals
    rename_i hp
    rw [h] at hp
    cases hp
    try rfl

theorem skip_eq (h : At bs off cs) : skip bs off = .ok (leave bs off cs (Blank.run cs)) := by
  induction hn : cs.length using Nat.strong_induction_on generalizing off cs with
  | _ n ih =>
  subst hn
  have hw : ∀ c ∈ cs.takeWhile Blank.isBlank, Blank.isBlank c := fun c => List.mem_takeWhile_imp
  have hb : ∀ c ∈ (cs.dropWhile Blank.isBlank).head?, Blank.isBlank c = false := fun c hc => by
    have hd := List.head?_dropWhile_not Blank.isBlank cs
    rw [Option.mem_def.mp hc] at hd
    exact Bool.eq_false_iff.mpr fun ht => by simp [ht] at hd
  have hoff := h.pass_eq isUniform_isBlank
  have hsplit := List.takeWhile_append_dropWhile (p := Blank.isBlank) (l := cs)
  generalize cs.takeWhile Blank.isBlank = w at *
  generalize cs.dropWhile Blank.isBlank = rest at *
  subst hsplit
  have hat : At bs (pass bs Blank.isBlank off) rest := hoff ▸ h.append
  rw [Blank.run_append_of_isBlank hw, leave_append, ← hoff, skip_of_piece _ (piece_eq hat hb)]
  generalize pass bs Blank.isBlank off = off' at *
  cases hf : Blank.front rest with
  | blank more =>
    obtain ⟨layout, tail, rfl, hlen, -⟩ := Blank.exists_piece hf
    have hlen : layout.length = 1 + more := hlen.trans (Nat.add_comm ..)
    have hstop : pieceOf off' (layout ++ tail) (.blank more) = .upTo (off' + size layout) := by
      rw [pieceOf, ← hlen, List.take_left]
    rw [hstop, leave_run_append hf hlen]
    refine ih _ ?_ hat.append rfl
    simp only [List.length_append]
    omega
  | unclosed =>
    rw [Blank.run_of_unclosed hf]
    rfl
  | other =>
    rw [Blank.run_of_other hf]
    rfl

end Scanner

end QbScript
