import QbScript.Proofs.Source.Front
import QbScript.Proofs.Source.Words

/-!
# Tokens before a text that is cut short

A token that is read before some text is read again where this text is cut short by a blank or by the
end of the source: what follows a token can make it longer or make it another one, but it is not
needed. So every token is also read from its own text alone.
-/

set_option autoImplicit false

namespace QbScript

def Cuts (rest rest' : List Char) : Prop :=
  ∃ front back, front <+: rest ∧ rest' = front ++ back ∧ ∀ c ∈ back.head?, c = ' '

theorem cuts_nil (rest : List Char) : Cuts rest [] := ⟨[], [], List.nil_prefix, rfl, by simp⟩

theorem cuts_blank (rest cs : List Char) : Cuts rest (' ' :: cs) :=
  ⟨[], ' ' :: cs, List.nil_prefix, rfl, by simp⟩

namespace Cuts

variable {rest rest' w : List Char}

theorem append (h : Cuts rest rest') (w : List Char) : Cuts (w ++ rest) (w ++ rest') := by
  obtain ⟨front, back, hp, rfl, hb⟩ := h
  exact ⟨w ++ front, back, (List.prefix_append_right_inj w).mpr hp, by rw [List.append_assoc], hb⟩

/-- What starts the second text and has no blank starts the first. -/
theorem isPrefix (h : Cuts rest rest') {x : List Char} (hx : ' ' ∉ x) (hp : x <+: rest') :
    x <+: rest := by
  obtain ⟨front, back, hf, rfl, hb⟩ := h
  obtain hlt | hle := Nat.lt_or_ge front.length x.length
  · obtain ⟨y, rfl⟩ := List.prefix_of_prefix_length_le (List.prefix_append front back) hp hlt.le
    rw [List.prefix_append_right_inj] at hp
    cases y with
    | nil => simp at hlt
    | cons c y =>
      obtain ⟨z, rfl⟩ := hp
      obtain rfl := hb c rfl
      exact absurd (by simp) hx
  · exact (List.prefix_of_prefix_length_le hp (List.prefix_append front back) hle).trans hf

theorem head?_of (h : Cuts rest rest') {p : Char → Bool} (hp : p ' ' = false)
    (hr : ∀ c ∈ rest.head?, p c = false) : ∀ c ∈ rest'.head?, p c = false := by
  intro c hc
  by_contra hpc
  have hne : ' ' ∉ [c] := by
    intro hm
    obtain rfl := List.mem_singleton.mp hm
    exact hpc hp
  obtain ⟨tail, rfl⟩ := List.head?_eq_some_iff.mp hc
  obtain ⟨z, rfl⟩ := h.isPrefix hne ⟨tail, rfl⟩
  exact hpc (hr c rfl)

theorem any_head?_of (h : Cuts rest rest') {p : Char → Bool} (hp : p ' ' = false)
    (hr : rest.head?.any p = false) : rest'.head?.any p = false := by
  have hhead := h.head?_of hp fun c hc => by
    rw [Option.mem_def.mp hc] at hr
    exact hr
  cases hc : rest'.head? with
  | none => rfl
  | some c => exact hhead c hc

/-- A run of characters that goes no further than `w` is the same before both texts. -/
theorem takeWhile_eq (h : Cuts rest rest') {p : Char → Bool} (hp : p ' ' = false)
    (hl : ((w ++ rest).takeWhile p).length ≤ w.length) :
    (w ++ rest').takeWhile p = (w ++ rest).takeWhile p := by
  induction w with
  | nil =>
    have hr : rest.takeWhile p = [] := List.length_eq_zero_iff.mp (Nat.le_zero.mp hl)
    have hhead := h.head?_of hp fun c hc => by
      obtain ⟨tail, rfl⟩ := List.head?_eq_some_iff.mp hc
      simpa [List.takeWhile_cons] using hr
    rw [List.nil_append, List.nil_append, hr]
    simpa using @takeWhile_append_stop p [] rest' (by simp) hhead
  | cons c w ih =>
    by_cases hc : p c
    · simp only [List.cons_append, List.takeWhile_cons, hc, if_true, List.length_cons] at hl ⊢
      rw [ih (by omega)]
    · simp [hc]

end Cuts

section

variable {p : Char → Bool} {w rest : List Char}

theorem takeWhile_append_of_lt (h : ((w ++ rest).takeWhile p).length < w.length)
    (rest' : List Char) : (w ++ rest').takeWhile p = (w ++ rest).takeWhile p := by
  induction w with
  | nil => simp at h
  | cons c w ih =>
    by_cases hc : p c
    · simp only [List.cons_append, List.takeWhile_cons, hc, if_true, List.length_cons] at h ⊢
      rw [ih (by omega)]
    · simp [hc]

theorem exists_drop_append {n : Nat} (h : n < w.length) :
    ∃ c tail, ∀ rest, (w ++ rest).drop n = c :: (tail ++ rest) := by
  refine ⟨w[n], w.drop (n + 1), fun rest => ?_⟩
  rw [List.drop_append_of_le_length h.le, List.drop_eq_getElem_cons h, List.cons_append]

end

/-- What is read with success from the front of a text is read before every text that cuts the rest
short. -/
def IsLocal {α : Type} (f : List Char → Reading α) : Prop :=
  ∀ ⦃w rest rest' : List Char⦄ ⦃a : α⦄, Cuts rest rest' → f (w ++ rest) = .ok a w.length →
    f (w ++ rest') = .ok a w.length

namespace Reading

variable {α β : Type} {a : α} {b : β} {m n : Nat} {r : Reading α}

theorem eq_ok_iff : r = .ok a n ↔ r.result = .ok a ∧ r.length = n := by
  cases r
  simp [ok]

theorem after_eq_ok_iff : r.after m = .ok a n ↔ r.result = .ok a ∧ m + r.length = n := eq_ok_iff

theorem map_eq_ok_iff {f : α → β} : r.map f = .ok b n ↔ ∃ a, r = .ok a n ∧ f a = b := by
  simp only [eq_ok_iff, map, QbScript.map_eq_ok_iff]
  constructor
  · rintro ⟨⟨a, ha, rfl⟩, hn⟩
    exact ⟨a, ⟨ha, hn⟩, rfl⟩
  · rintro ⟨a, ⟨ha, hn⟩, rfl⟩
    exact ⟨⟨a, ha, rfl⟩, hn⟩

end Reading

open Reading

section

variable {α β : Type} {f : List Char → Reading α} {w rest rest' x cs : List Char} {a : α}

theorem IsLocal.map (hf : IsLocal f) (g : α → β) : IsLocal fun cs => (f cs).map g := by
  intro w rest rest' b hc h
  obtain ⟨a, ha, hg⟩ := Reading.map_eq_ok_iff.mp h
  exact Reading.map_eq_ok_iff.mpr ⟨a, hf hc ha, hg⟩

/-- What is read after a fixed start is read before every text that cuts the rest short. -/
theorem IsLocal.after (hf : IsLocal f) (hc : Cuts rest rest') (he : w ++ rest = x ++ cs)
    (h : (f cs).after x.length = .ok a w.length) :
    ∃ w', w = x ++ w' ∧ (f (w' ++ rest')).after x.length = .ok a w.length := by
  obtain ⟨hr, hl⟩ := after_eq_ok_iff.mp h
  obtain ⟨w', rfl, rfl⟩ : ∃ w', w = x ++ w' ∧ cs = w' ++ rest := by
    rcases List.append_eq_append_iff.mp he with ⟨y, rfl, rfl⟩ | ⟨w', rfl, rfl⟩
    · have hy : y.length = 0 := by
        rw [List.length_append] at hl
        omega
      obtain rfl := List.length_eq_zero_iff.mp hy
      exact ⟨[], by simp, by simp⟩
    · exact ⟨w', rfl, rfl⟩
  refine ⟨w', rfl, ?_⟩
  have hok : f (w' ++ rest) = .ok a w'.length := eq_ok_iff.mpr ⟨hr, by
    rw [List.length_append] at hl
    omega⟩
  rw [hf hc hok, List.length_append]
  rfl

end

namespace Name

theorem isLocal_word (c : Char) : IsLocal (word c) := by
  intro w rest rest' t hc h
  obtain ⟨ht, hl⟩ := eq_ok_iff.mp h
  have hw := hc.takeWhile_eq (p := isNameChar) (by decide) hl.le
  rw [word, hw]
  exact h

theorem isLocal_quoted : IsLocal quoted := by
  intro w rest rest' r hc h
  unfold quoted at h ⊢
  dsimp only at h ⊢
  generalize hp : (fun c : Char => decide (c ≠ '"' ∧ c ≠ '\n')) = p at h ⊢
  -- The closing mark belongs to `w`, so that the run of characters ends before it.
  have hlt : ((w ++ rest).takeWhile p).length < w.length := by
    split at h
    · have hl := congrArg Reading.length h
      simp only [ok] at hl
      omega
    · cases congrArg Reading.result h
    · cases congrArg Reading.result h
  obtain ⟨c, tail, hd⟩ := exists_drop_append hlt
  rw [takeWhile_append_of_lt hlt rest', hd]
  rw [hd] at h
  split at h
  · rename_i he
    obtain ⟨rfl, -⟩ := List.cons.inj he
    exact h
  · cases congrArg Reading.result h
  · rename_i he
    cases he

theorem isLocal_checksumDigits : IsLocal checksumDigits := by
  intro w rest rest' r hc h
  unfold checksumDigits at h ⊢
  dsimp only at h ⊢
  split at h
  · cases congrArg Reading.result h
  rename_i hmax
  have hlt : ((w ++ rest).takeWhile isHexDigit).length < w.length := by
    split at h
    · have hl := congrArg Reading.length h
      simp only [ok] at hl
      omega
    · cases congrArg Reading.result h
  obtain ⟨c, tail, hd⟩ := exists_drop_append hlt
  rw [takeWhile_append_of_lt hlt rest', hd, if_neg hmax]
  rw [hd] at h
  split at h
  · rename_i hds he
    obtain ⟨rfl, -⟩ := List.cons.inj he
    simpa only [hds] using h
  · cases congrArg Reading.result h

theorem isLocal_percent : IsLocal percent := by
  intro w rest rest' r hc h
  unfold percent at h
  split at h
  · rename_i cs he
    obtain ⟨w, rfl, hw⟩ := isLocal_quoted.after (x := ['"']) hc he h
    exact hw
  · rename_i cs he
    obtain ⟨w, rfl, hw⟩ := isLocal_checksumDigits.after (x := ['(', '0', 'x']) hc he h
    exact hw
  · rename_i cs he
    obtain ⟨w, rfl, hw⟩ := isLocal_checksumDigits.after (x := ['(', '0', 'X']) hc he h
    exact hw
  · cases congrArg Reading.result h
  · cases congrArg Reading.result h
  · cases congrArg Reading.result h

/-- A reference and the bracket that closes an argument. -/
theorem isLocal_closeArg : IsLocal fun cs => closeArg (percent cs) (cs.drop (percent cs).length) := by
  intro w rest rest' t hc h
  dsimp only at h ⊢
  unfold closeArg at h
  split at h
  · rename_i ref tail hr hd
    obtain ⟨ht, hl⟩ := eq_ok_iff.mp h
    simp only [ok] at ht hl
    rcases w.eq_nil_or_concat with rfl | ⟨w, c, rfl⟩
    · cases hl
    · rw [List.length_concat, Nat.add_right_cancel_iff] at hl
      rw [List.concat_eq_append, List.append_assoc, List.singleton_append] at hr hd hl ⊢
      rw [hl, List.drop_left] at hd
      obtain ⟨rfl, rfl⟩ := List.cons.inj hd
      have hp : percent (w ++ '>' :: rest') = .ok ref w.length :=
        isLocal_percent (hc.append ['>']) (eq_ok_iff.mpr ⟨hr, hl⟩)
      simp only [hp, ok, List.drop_left, closeArg, List.length_append, List.length_singleton, ht]
  · cases congrArg Reading.result h
  · cases congrArg Reading.result h

/-- A name and a closing bracket in front of a text. -/
theorem exists_word {c : Char} {cs z tail : List Char} (he : cs = c :: z) (hs : isNameStart c = true)
    (hd : cs.drop (cs.takeWhile isNameChar).length = '>' :: tail) :
    ∃ s, Literal.isWord s ∧ s.toList = cs.takeWhile isNameChar ∧ cs = s.toList ++ '>' :: tail := by
  refine ⟨String.ofList (cs.takeWhile isNameChar), ?_, String.toList_ofList, ?_⟩
  · rw [Literal.isWord, String.toList_ofList, he, List.takeWhile_cons,
      if_pos (isNameChar_of_isNameStart hs)]
    simp only [hs, Bool.true_and, List.all_eq_true]
    exact fun d hd => List.mem_takeWhile_imp hd
  · rw [String.toList_ofList, ← hd]
    conv_lhs => rw [← List.take_append_drop (cs.takeWhile isNameChar).length cs]
    rw [← List.prefix_iff_eq_take.mp (List.takeWhile_prefix isNameChar)]

/-- A bracket that begins nothing before a text begins nothing before one that cuts it short. -/
theorem angle_lessThan {rest rest' : List Char} {t : Token} (hc : Cuts rest rest')
    (h : angle rest = .ok t 0) : angle rest' = .ok t 0 := by
  have ht : t = .simple .lessThan := by
    unfold angle at h
    split at h
    · cases congrArg Reading.length h
    · cases congrArg Reading.length h
    · cases congrArg Reading.length h
    · have hl := congrArg Reading.length h
      simp only [after, ok] at hl
      omega
    · dsimp only at h
      split at h
      · cases congrArg Reading.length h
      · exact (Except.ok.inj (congrArg Reading.result h)).symm
    · exact (Except.ok.inj (congrArg Reading.result h)).symm
  have hno : ∀ x, ' ' ∉ x → x <+: rest' → (∀ z, (angle (x ++ z)).length ≠ 0) → False := by
    intro x hx hp hz
    obtain ⟨z, rfl⟩ := hc.isPrefix hx hp
    exact hz z (congrArg Reading.length h)
  rw [ht]
  unfold angle
  split
  · rename_i z
    exact (hno ['.', '.', '.', '>'] (by decide) ⟨z, rfl⟩ fun z => by simp [angle, ok]).elim
  · rename_i z
    exact (hno ['<'] (by decide) ⟨z, rfl⟩ fun z => by simp [angle, ok]).elim
  · rename_i z
    exact (hno ['='] (by decide) ⟨z, rfl⟩ fun z => by simp [angle, ok]).elim
  · rename_i z
    exact (hno ['%'] (by decide) ⟨z, rfl⟩ fun z => by simp [angle, after]).elim
  · rename_i c z _ _ _ _
    dsimp only
    split
    · rename_i tail hs hd
      obtain ⟨s, hs, hw, he⟩ := exists_word rfl hs hd
      refine (hno (s.toList ++ ['>']) ?_ ⟨tail, by rw [he]; simp⟩ fun z => ?_).elim
      · rw [hw]
        intro hm
        rcases List.mem_append.mp hm with hm | hm
        · exact absurd (List.mem_takeWhile_imp hm) (by decide)
        · exact absurd hm (by decide)
      · rw [List.append_assoc, List.singleton_append, Literal.angle_word hs]
        simp [ok]
    · rfl
  · rfl

theorem isLocal_angle : IsLocal angle := by
  intro w rest rest' t hc h
  cases hw : w with
  | nil =>
    subst hw
    exact angle_lessThan hc h
  | cons c v =>
  rw [← hw]
  have hfixed : ∀ {x cs : List Char} {u : Token}, w ++ rest = x ++ cs → ok u x.length = .ok t w.length →
      w = x := fun he hl => List.append_inj_left he (congrArg Reading.length hl).symm
  unfold angle at h
  split at h
  · rename_i cs he
    obtain rfl := hfixed (x := ['.', '.', '.', '>']) he h
    exact h
  · rename_i cs he
    obtain rfl := hfixed (x := ['<']) he h
    exact h
  · rename_i cs he
    obtain rfl := hfixed (x := ['=']) he h
    exact h
  · rename_i cs he
    obtain ⟨w, rfl, hw⟩ := isLocal_closeArg.after (x := ['%']) hc he h
    exact hw
  · dsimp only at h
    split at h
    · rename_i he _ _ tail hs hd
      obtain ⟨s, hs, hword, hrest⟩ := exists_word he hs hd
      rw [← hword, String.ofList_toList] at h
      have hl : w.length = (s.toList ++ ['>']).length := by
        simpa [ok] using (congrArg Reading.length h).symm
      obtain rfl : w = s.toList ++ ['>'] := List.append_inj_left (by simpa using hrest) hl
      rw [List.append_assoc, List.singleton_append, Literal.angle_word hs]
      exact h
    · have hl := congrArg Reading.length h
      rw [hw] at hl
      cases hl
  · rename_i he
    rw [hw] at he
    cases he

end Name

namespace Literal

theorem closeNumber_cut {t u : Token} {rest rest' : List Char} {n m : Nat} (hc : Cuts rest rest')
    (h : closeNumber t rest n = .ok u m) : closeNumber t rest' n = .ok u m := by
  unfold closeNumber at h ⊢
  split at h
  · cases congrArg Reading.result h
  · rename_i hr
    rwa [hc.any_head?_of (by decide) (Bool.eq_false_iff.mpr hr)]

theorem isLocal_hexNumber (negative : Bool) : IsLocal (hexNumber negative) := by
  intro w rest rest' t hc h
  unfold hexNumber at h ⊢
  dsimp only at h ⊢
  split at h
  · cases congrArg Reading.result h
  rename_i hne
  have hl : ((w ++ rest).takeWhile isHexDigit).length = w.length := by
    simpa [ok] using congrArg Reading.length h
  rw [hc.takeWhile_eq (by decide) hl.le, if_neg hne]
  rw [hl, List.drop_left] at h ⊢
  exact closeNumber_cut hc h

theorem fractionDigits_cut {rest rest' : List Char} (hc : Cuts rest rest')
    (h : fractionDigits rest = []) : fractionDigits rest' = [] := by
  by_contra hne
  obtain ⟨tail, rfl, hf⟩ := exists_of_fractionDigits_ne_nil hne
  cases tail with
  | nil => exact hne rfl
  | cons d tail =>
    have hd : d.isDigit := by
      by_contra hd
      simp [hf, hd] at hne
    have hd' : d ≠ ' ' := by
      rintro rfl
      cases hd
    obtain ⟨z, rfl⟩ := hc.isPrefix (x := ['.', d]) (by simp [hd'.symm]) ⟨tail, rfl⟩
    simp [fractionDigits, hd] at h

theorem isLocal_decimalNumber (negative : Bool) : IsLocal (decimalNumber negative) := by
  intro w rest rest' t hc h
  unfold decimalNumber at h ⊢
  dsimp only at h ⊢
  split at h
  · rename_i hf
    have hl : ((w ++ rest).takeWhile Char.isDigit).length = w.length := by
      simpa [ok] using congrArg Reading.length h
    rw [hc.takeWhile_eq (by decide) hl.le]
    rw [hl, List.drop_left] at h hf ⊢
    rw [if_pos (List.isEmpty_iff.mpr (fractionDigits_cut hc (List.isEmpty_iff.mp hf)))]
    exact closeNumber_cut hc h
  · rename_i hf
    have hl : ((w ++ rest).takeWhile Char.isDigit).length + 1 +
        (fractionDigits ((w ++ rest).drop ((w ++ rest).takeWhile Char.isDigit).length)).length =
          w.length := by
      simpa [ok] using congrArg Reading.length h
    have hlt : ((w ++ rest).takeWhile Char.isDigit).length < w.length := by omega
    obtain ⟨c, tail, hd⟩ := exists_drop_append hlt
    have htail : w.length - ((w ++ rest).takeWhile Char.isDigit).length = tail.length + 1 := by
      simpa using congrArg List.length (hd [])
    rw [takeWhile_append_of_lt hlt rest', hd]
    rw [hd] at h hf hl
    obtain ⟨z, hz, hdigits⟩ := exists_of_fractionDigits_ne_nil (mt List.isEmpty_iff.mpr hf)
    obtain ⟨rfl, rfl⟩ := List.cons.inj hz
    have hfl : (fractionDigits ('.' :: (tail ++ rest))).length = tail.length := by omega
    have hsame : fractionDigits ('.' :: (tail ++ rest')) = fractionDigits ('.' :: (tail ++ rest)) :=
      hc.takeWhile_eq (by decide) (hdigits ▸ hfl.le)
    rw [hsame, if_neg hf]
    rw [hfl, Nat.add_comm 1, List.drop_succ_cons, List.drop_left] at h ⊢
    exact closeNumber_cut hc h

/-- The mark of base sixteen is before both texts or before none. -/
theorem isLocal_number (negative : Bool) : IsLocal (number negative) := by
  intro w rest rest' t hc h
  unfold number at h
  split at h
  · rename_i cs he
    obtain ⟨w, rfl, hw⟩ := (isLocal_hexNumber negative).after (x := ['0', 'x']) hc he h
    exact hw
  · rename_i cs he
    obtain ⟨w, rfl, hw⟩ := (isLocal_hexNumber negative).after (x := ['0', 'X']) hc he h
    exact hw
  · rename_i hx hX
    have hno : ∀ x z, x ≠ ' ' → w ++ rest' = '0' :: x :: z → ∃ z, w ++ rest = '0' :: x :: z := by
      intro x z hx he
      obtain ⟨z, he⟩ := (hc.append w).isPrefix (x := ['0', x]) (by simp [hx.symm]) ⟨z, he.symm⟩
      exact ⟨z, he.symm⟩
    unfold number
    split
    · rename_i z he
      obtain ⟨z, he⟩ := hno 'x' z (by decide) he
      exact (hx z he).elim
    · rename_i z he
      obtain ⟨z, he⟩ := hno 'X' z (by decide) he
      exact (hX z he).elim
    · exact isLocal_decimalNumber negative hc h

theorem length_number_pos (negative : Bool) {cs : List Char} (h : cs.head?.any Char.isDigit) :
    0 < (number negative cs).length := by
  unfold number
  split
  · simp [after]
  · simp [after]
  · cases cs with
    | nil => cases h
    | cons c cs =>
      have hc : c.isDigit := h
      unfold decimalNumber
      dsimp only
      split
      · simp [hc]
      · rw [length_closeNumber]
        omega

/-- The text of a string ends at its mark, whatever follows. -/
theorem bodyLength_take_append {mark : Char} {n m : Nat} {cs : List Char}
    (h : bodyLength mark n cs = .ok m) :
    n ≤ m ∧ ∀ rest, bodyLength mark n (cs.take (m - n + 1) ++ rest) = .ok m := by
  have hplain : ∀ {c : Char} {cs : List Char}, (c = '\\' → cs = [] → False) →
      (∀ e tail, c = '\\' → cs = e :: tail → False) → c ≠ '\\' := by
    rintro c (_ | ⟨e, cs⟩) h1 h2 rfl
    · exact h1 rfl rfl
    · exact h2 e cs rfl rfl
  fun_induction bodyLength mark n cs with
  | case1 => cases h
  | case2 => cases h
  | case3 n e cs ih =>
    obtain ⟨hle, hm⟩ := ih h
    refine ⟨by omega, fun rest => ?_⟩
    rw [show m - n + 1 = m - (n + 2) + 1 + 1 + 1 by omega, List.take_succ_cons, List.take_succ_cons,
      List.cons_append, List.cons_append, bodyLength]
    exact hm rest
  | case4 => cases h
  | case5 n cs hne hesc hnew =>
    obtain rfl := Except.ok.inj h
    refine ⟨le_rfl, fun rest => ?_⟩
    have hc := hplain hne hesc
    rw [Nat.sub_self, List.take_succ_cons, List.cons_append, bodyLength, if_neg hnew, if_pos rfl]
    · exact fun he _ => hc he
    · exact fun _ _ he _ => hc he
  | case6 n c cs hne hesc hnew hmark ih =>
    obtain ⟨hle, hm⟩ := ih h
    refine ⟨by omega, fun rest => ?_⟩
    have hc := hplain hne hesc
    rw [show m - n + 1 = m - (n + 1) + 1 + 1 by omega, List.take_succ_cons, List.cons_append,
      bodyLength, if_neg hnew, if_neg hmark]
    · exact hm rest
    · exact fun he _ => hc he
    · exact fun _ _ he _ => hc he

theorem string_append {mark : Char} {w rest : List Char} {bytes : List UInt8}
    (h : string mark (w ++ rest) = .ok bytes w.length) (rest' : List Char) :
    string mark (w ++ rest') = .ok bytes w.length := by
  unfold string at h ⊢
  split at h
  · rename_i n hn
    have hl : n + 1 = w.length := congrArg Reading.length h
    have hb := (bodyLength_take_append hn).2 rest'
    rw [Nat.sub_zero, hl, List.take_left] at hb
    rw [hb]
    rw [List.take_append_of_le_length (by omega)] at h
    simp only [List.take_append_of_le_length (show n ≤ w.length by omega), h]
  · cases congrArg Reading.result h

theorem isLocal_string (mark : Char) : IsLocal (string mark) := by
  intro w rest rest' bytes _ h
  exact string_append h rest'

end Literal

namespace Cursor

/-- What a mark begins ends with the text that it takes. -/
theorem read_mark_cut {signed : Bool} {c : Char} {w rest rest' : List Char} {t : Token}
    (hc : Cuts rest rest') (hs : ¬ isNameStart c) (hd : ¬ c.isDigit)
    (hn : ¬ ((c = '-' ∨ c = '+') ∧ signed ∧ (w ++ rest).head?.any Char.isDigit))
    (hn' : ¬ ((c = '-' ∨ c = '+') ∧ signed ∧ (w ++ rest').head?.any Char.isDigit))
    (h : read signed c (w ++ rest) = .ok t w.length) :
    read signed c (w ++ rest') = .ok t w.length := by
  unfold read at h ⊢
  rw [if_neg hs, if_neg hd, if_neg hn] at h
  rw [if_neg hs, if_neg hd, if_neg hn']
  have hstart : ∀ d z, d ≠ ' ' → rest' = d :: z → ∃ z, rest = d :: z := by
    intro d z hd he
    obtain ⟨y, hy⟩ := hc.isPrefix (x := [d]) (by simpa using hd.symm) ⟨z, he.symm⟩
    exact ⟨y, hy.symm⟩
  have hnil : ∀ {u}, ok u 0 = .ok t w.length → w = [] := fun h =>
    List.length_eq_zero_iff.mp (congrArg Reading.length h).symm
  split at h
  · exact (Literal.isLocal_string '"').map _ hc h
  · exact (Literal.isLocal_string '\x27').map _ hc h
  · rename_i he
    have hlocal := (Literal.isLocal_string '"').map Token.localString
    obtain ⟨w, rfl, hw⟩ := hlocal.after (x := ['"']) hc he h
    exact hw
  · exact Name.isLocal_percent.map _ hc h
  · exact Name.isLocal_angle hc h
  · rename_i he
    obtain rfl : w = ['>'] := List.append_inj_left he (congrArg Reading.length h).symm
    exact h
  · rename_i he
    obtain rfl : w = ['='] := List.append_inj_left he (congrArg Reading.length h).symm
    exact h
  · rename_i hgt hge
    obtain rfl := hnil h
    have h1 : ∀ z, rest' ≠ '>' :: z := fun z he => hgt _ (hstart '>' z (by decide) he).choose_spec
    have h2 : ∀ z, rest' ≠ '=' :: z := fun z he => hge _ (hstart '=' z (by decide) he).choose_spec
    split <;> simp_all
  · rename_i he
    obtain rfl : w = ['='] := List.append_inj_left he (congrArg Reading.length h).symm
    exact h
  · rename_i heq
    obtain rfl := hnil h
    have h1 : ∀ z, rest' ≠ '=' :: z := fun z he => heq _ (hstart '=' z (by decide) he).choose_spec
    split <;> simp_all
  · split at h
    · rename_i tag htag
      obtain rfl := hnil h
      unfold sign? at htag
      split at htag
      all_goals first | exact h | cases htag
    · cases congrArg Reading.result h

theorem isLocal_read (signed : Bool) (c : Char) : IsLocal (read signed c) := by
  intro w rest rest' t hc h
  by_cases hs : isNameStart c
  · unfold read at h ⊢
    rw [if_pos hs] at h ⊢
    exact Name.isLocal_word c hc h
  by_cases hd : c.isDigit
  · unfold read at h ⊢
    rw [if_neg hs, if_pos hd] at h ⊢
    -- The digit is read a second time as the first of the number.
    obtain ⟨hr, hl⟩ := eq_ok_iff.mp h
    dsimp only at hr hl
    have hpos : 0 < (Literal.number false (c :: (w ++ rest))).length :=
      Literal.length_number_pos false hd
    have hn : Literal.number false (c :: w ++ rest) = .ok t (c :: w).length :=
      eq_ok_iff.mpr ⟨hr, by rw [List.length_cons, List.cons_append]; omega⟩
    have hn' := Literal.isLocal_number false hc hn
    rw [List.cons_append] at hn'
    simp only [hn', ok, List.length_cons, Nat.add_sub_cancel]
  have hhead : (w ++ rest).head?.any Char.isDigit = false →
      (w ++ rest').head?.any Char.isDigit = false := by
    cases w with
    | nil => exact hc.any_head?_of (by decide)
    | cons d w => exact id
  by_cases hn : (c = '-' ∨ c = '+') ∧ signed ∧ (w ++ rest).head?.any Char.isDigit
  · unfold read at h ⊢
    rw [if_neg hs, if_neg hd, if_pos hn] at h
    cases w with
    | nil =>
      have hpos := Literal.length_number_pos (c = '-') hn.2.2
      rw [h] at hpos
      exact absurd hpos (lt_irrefl 0)
    | cons d w =>
      rw [if_neg hs, if_neg hd, if_pos (by exact hn)]
      exact Literal.isLocal_number _ hc h
  · refine read_mark_cut hc hs hd hn (fun hn' => hn ⟨hn'.1, hn'.2.1, ?_⟩) h
    by_contra hcon
    rw [hhead (Bool.eq_false_iff.mpr hcon)] at hn'
    cases hn'.2.2

end Cursor

theorem Blank.front_eq_other_of_cuts {c : Char} {rest rest' : List Char} (hc : Cuts rest rest')
    (hne : c ≠ '\\') (h : front (c :: rest) = .other) : front (c :: rest') = .other := by
  by_cases hs : c = '/'
  · subst hs
    have hno : ∀ d z, d = '/' ∨ d = '*' → rest' ≠ d :: z := by
      rintro d z hd rfl
      obtain ⟨y, rfl⟩ := hc.isPrefix (x := [d]) (by rcases hd with rfl | rfl <;> decide) ⟨z, rfl⟩
      rcases hd with rfl | rfl
      · cases h
      · simp only [List.singleton_append, front] at h
        split at h <;> cases h
    unfold front
    split
    · rename_i he
      exact absurd (List.cons.inj he).2 (hno _ _ (Or.inl rfl))
    · rename_i he
      exact absurd (List.cons.inj he).2 (hno _ _ (Or.inr rfl))
    · rename_i he
      cases he
    · rename_i he
      cases he
    · rename_i he
      obtain ⟨rfl, -⟩ := List.cons.inj he
      rfl
    · rename_i he
      cases he
  · refine front_other hs hne (Bool.eq_false_iff.mpr fun hb => ?_) rest'
    unfold front at h
    split at h <;> simp_all

namespace FrontReads

variable {signed : Bool} {w rest rest' : List Char} {t : Token}

theorem cut (h : FrontReads signed w rest t) (hc : Cuts rest rest') :
    FrontReads signed w rest' t := by
  obtain ⟨c, cs, rfl, hf, hr⟩ := h
  refine ⟨c, cs, rfl, Blank.front_eq_other_of_cuts (hc.append cs) ?_ hf,
    Cursor.isLocal_read signed c hc hr⟩
  rintro rfl
  cases congrArg Reading.result hr

/-- A sign that belongs to no number stands for itself, also where it could belong to one. -/
theorem alone (h : FrontReads signed w rest t) : FrontReads true w [] t := by
  obtain ⟨c, cs, rfl, hf, hr⟩ := h.cut (cuts_nil rest)
  rw [List.append_nil] at hf hr
  refine ⟨c, cs, rfl, by rwa [List.append_nil], ?_⟩
  rw [List.append_nil]
  cases signed with
  | true => exact hr
  | false =>
    have hno : ¬ ((c = '-' ∨ c = '+') ∧ true ∧ cs.head?.any Char.isDigit) := by
      rintro ⟨hc, -, hd⟩
      have hl : 0 = cs.length := by rcases hc with rfl | rfl <;> exact congrArg Reading.length hr
      rw [List.length_eq_zero_iff.mp hl.symm] at hd
      cases hd
    unfold Cursor.read at hr ⊢
    rw [if_neg (c := _ ∧ false = true ∧ _) (by simp)] at hr
    rwa [if_neg hno]

end FrontReads

end QbScript
