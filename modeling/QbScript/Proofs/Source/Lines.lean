import QbScript.Proofs.Text.Bytes
import QbScript.Source.LineMap

/-!
# Lines of a source

The line of an offset is one more than the number of newlines before it, and its column is one more
than the number of bytes since the last of them. So the lines and columns of offsets are in the order
of the offsets, and lead back to them.
-/

set_option autoImplicit false

namespace QbScript

namespace LineMap

/-- The byte of a newline; no other character has it. -/
def newline : UInt8 := 10

def sinceNewline (bs : List UInt8) : Nat := (bs.reverse.takeWhile (· ≠ newline)).length

def newlineEnds (offset : Nat) : List UInt8 → List Nat
  | [] => []
  | b :: bs =>
    if b = newline then (offset + 1) :: newlineEnds (offset + 1) bs else newlineEnds (offset + 1) bs

variable {offset : Nat} {bs cs : List UInt8}

theorem newlineEnds_append (offset : Nat) (bs cs : List UInt8) :
    newlineEnds offset (bs ++ cs) =
      newlineEnds offset bs ++ newlineEnds (offset + bs.length) cs := by
  induction bs generalizing offset with
  | nil => rfl
  | cons b bs ih =>
    have hstop : offset + 1 + bs.length = offset + (b :: bs).length := by
      rw [List.length_cons]
      omega
    rw [List.cons_append, newlineEnds, newlineEnds, ih, hstop]
    split <;> rfl

theorem newlineEnds_of_notMem (h : newline ∉ bs) (offset : Nat) : newlineEnds offset bs = [] := by
  induction bs generalizing offset with
  | nil => rfl
  | cons b bs ih =>
    obtain ⟨hb, hbs⟩ := not_or.mp (mt List.mem_cons.mpr h)
    rw [newlineEnds, if_neg (Ne.symm hb), ih hbs]

@[simp] theorem length_newlineEnds (offset : Nat) (bs : List UInt8) :
    (newlineEnds offset bs).length = bs.count newline := by
  induction bs generalizing offset with
  | nil => rfl
  | cons b bs ih =>
    rw [newlineEnds, List.count_cons]
    split
    · rename_i hb
      rw [List.length_cons, ih, hb, beq_self_eq_true, if_pos rfl]
    · rename_i hb
      rw [ih, if_neg (by simpa using hb), Nat.add_zero]

/-- Lines start one after the other, within the bytes or at their end. -/
theorem pairwise_newlineEnds (offset : Nat) (bs : List UInt8) :
    (newlineEnds offset bs).Pairwise (· < ·) ∧
      ∀ s ∈ newlineEnds offset bs, offset < s ∧ s ≤ offset + bs.length := by
  induction bs generalizing offset with
  | nil => exact ⟨.nil, by simp [newlineEnds]⟩
  | cons b bs ih =>
    obtain ⟨hsorted, hbounds⟩ := ih (offset + 1)
    have hrest : ∀ s ∈ newlineEnds (offset + 1) bs, offset + 1 < s ∧
        s ≤ offset + (b :: bs).length := by
      intro s hs
      have := hbounds s hs
      rw [List.length_cons]
      omega
    rw [newlineEnds]
    split
    · refine ⟨.cons (fun s hs => (hrest s hs).1) hsorted, fun s hs => ?_⟩
      rcases List.mem_cons.mp hs with rfl | hs
      · rw [List.length_cons]
        omega
      · have := hrest s hs
        omega
    · refine ⟨hsorted, fun s hs => ?_⟩
      have := hrest s hs
      omega

@[simp] theorem sinceNewline_nil : sinceNewline [] = 0 := rfl

theorem sinceNewline_concat (bs : List UInt8) (b : UInt8) :
    sinceNewline (bs ++ [b]) = if b = newline then 0 else sinceNewline bs + 1 := by
  unfold sinceNewline
  rw [List.reverse_append, List.reverse_singleton, List.singleton_append, List.takeWhile_cons]
  split <;> simp_all

/-- The last line starts as far from the end as the last newline is. -/
theorem getLast_newlineEnds (bs : List UInt8) :
    ∃ starts last, 0 :: newlineEnds 0 bs = starts ++ [last] ∧
      starts.length = bs.count newline ∧ last + sinceNewline bs = bs.length := by
  induction bs using List.reverseRecOn with
  | nil => exact ⟨[], 0, rfl, rfl, rfl⟩
  | append_singleton bs b ih =>
    obtain ⟨starts, last, he, hcount, hlast⟩ := ih
    rw [newlineEnds_append, Nat.zero_add, ← List.cons_append, he, sinceNewline_concat,
      List.count_append, List.length_append, List.length_singleton]
    by_cases hb : b = newline
    · refine ⟨starts ++ [last], bs.length + 1, ?_, ?_, ?_⟩
      · rw [newlineEnds, if_pos hb, newlineEnds]
      · rw [List.length_append, List.length_singleton, hcount, hb, List.count_singleton_self]
      · rw [if_pos hb, Nat.add_zero]
    · refine ⟨starts, last, ?_, ?_, ?_⟩
      · rw [newlineEnds, if_neg hb, newlineEnds, List.append_nil]
      · rw [hcount, List.count_singleton, if_neg (by simpa using hb), Nat.add_zero]
      · rw [if_neg hb]
        omega

/-- The newlines of a text are those of its bytes. -/
theorem startsAfter_eq_newlineEnds (offset : Nat) (text : List Char) :
    startsAfter offset text = newlineEnds offset (Utf8.encode text) := by
  induction text generalizing offset with
  | nil => rfl
  | cons c text ih =>
    rw [startsAfter, ih, Utf8.encode_cons, newlineEnds_append, String.length_utf8EncodeChar]
    by_cases hc : c = '\n'
    · subst hc
      rfl
    · have hnone : newline ∉ String.utf8EncodeChar c := by
        intro hm
        rcases Utf8.eq_or_le_of_mem_utf8EncodeChar hm with ⟨-, hb⟩ | ⟨-, hb⟩
        · exact hc hb.symm
        · exact absurd hb (by decide)
      rw [if_neg hc, newlineEnds_of_notMem hnone, List.nil_append]

theorem toList_starts_ofText (text : List Char) :
    (ofText text).starts.toList = 0 :: newlineEnds 0 (Utf8.encode text) := by
  rw [ofText, startsAfter_eq_newlineEnds]

/-- Bisection finds the last line that does not start after the offset. -/
theorem bisect_spec {starts : Array Nat} (hs : starts.toList.Pairwise (· < ·)) {base size : Nat}
    (hpos : 0 < size) (hsize : base + size ≤ starts.size) (hbase : starts.getD base 0 ≤ offset)
    (habove : ∀ j, base + size ≤ j → j < starts.size → offset < starts.getD j 0) :
    bisect starts offset base size < starts.size ∧
      starts.getD (bisect starts offset base size) 0 ≤ offset ∧
      ∀ j, bisect starts offset base size < j → j < starts.size → offset < starts.getD j 0 := by
  have hmono : ∀ i j, i ≤ j → j < starts.size → starts.getD i 0 ≤ starts.getD j 0 := by
    intro i j hij hj
    rcases Nat.lt_or_eq_of_le hij with hij | rfl
    · have hi : i < starts.size := Nat.lt_trans hij hj
      have hlt := List.pairwise_iff_getElem.mp hs i j hi hj hij
      rw [Array.getD_eq_getD_getElem?, Array.getD_eq_getD_getElem?, Array.getElem?_eq_getElem hi,
        Array.getElem?_eq_getElem hj]
      exact Nat.le_of_lt hlt
    · exact Nat.le_refl _
  fun_induction bisect starts offset base size with
  | case1 base size hle =>
    refine ⟨by omega, hbase, fun j hj => habove j (by omega)⟩
  | case2 base size hgt half mid ih =>
    have hhalf : half = size / 2 := rfl
    have hmid : mid = base + half := rfl
    by_cases hlt : offset < starts.getD mid 0
    · simp only [hlt, ↓reduceIte, ↓reduceDIte] at ih ⊢
      refine ih (by omega) (by omega) hbase fun j hj hjs => ?_
      exact Nat.lt_of_lt_of_le hlt (hmono mid j (by omega) hjs)
    · simp only [hlt, ↓reduceIte, ↓reduceDIte] at ih ⊢
      refine ih (by omega) (by omega) (Nat.le_of_not_lt hlt) fun j hj hjs => ?_
      exact habove j (by omega) hjs

/-- Of lines in order, an offset is in the last one that does not start after it. -/
theorem lineIndex_of_split {m : LineMap} {front later : List Nat} {start : Nat}
    (hs : m.starts.toList = front ++ start :: later) (hsorted : m.starts.toList.Pairwise (· < ·))
    (hzero : m.starts.getD 0 0 ≤ offset) (hstart : start ≤ offset)
    (hlater : ∀ s ∈ later, offset < s) : m.lineIndex offset = front.length := by
  have hget : ∀ j : Nat, m.starts[j]? = (front ++ start :: later)[j]? := by
    intro j
    rw [← hs, Array.getElem?_toList]
  have hn : m.starts[front.length]? = some start := by
    rw [hget, List.getElem?_append_right (Nat.le_refl _), Nat.sub_self, List.getElem?_cons_zero]
  have hbehind : ∀ j : Nat, front.length < j → j < m.starts.size → offset < m.starts.getD j 0 := by
    intro j hj hjs
    obtain ⟨k, rfl⟩ := Nat.exists_eq_add_of_lt hj
    have hk : m.starts[front.length + k + 1]? = later[k]? := by
      rw [hget, List.getElem?_append_right (by omega), Nat.add_assoc, Nat.add_sub_cancel_left,
        List.getElem?_cons_succ]
    rw [Array.getElem?_eq_getElem hjs] at hk
    rw [Array.getD_eq_getD_getElem?, Array.getElem?_eq_getElem hjs]
    exact hlater _ (List.mem_of_getElem? hk.symm)
  have hlt : front.length < m.starts.size := (Array.getElem?_eq_some_iff.mp hn).1
  obtain ⟨hr, hle, habove⟩ := bisect_spec hsorted (Nat.lt_of_le_of_lt (Nat.zero_le _) hlt)
    (Nat.le_of_eq (Nat.zero_add _)) hzero fun j hj hjs => absurd hj (by omega)
  rw [lineIndex]
  generalize bisect m.starts offset 0 m.starts.size = r at hr hle habove ⊢
  simp only [if_neg (Nat.not_lt.mpr hle)]
  rcases Nat.lt_trichotomy r front.length with hbefore | he | hafter
  · have hna := habove front.length hbefore hlt
    rw [Array.getD_eq_getD_getElem?, hn, Option.getD_some] at hna
    omega
  · exact he
  · have := hbehind r hafter hr
    omega

variable {text : List Char} {off : Nat}

theorem pairwise_starts_ofText (text : List Char) :
    (ofText text).starts.toList.Pairwise (· < ·) := by
  obtain ⟨hsorted, hbounds⟩ := pairwise_newlineEnds 0 (Utf8.encode text)
  rw [toList_starts_ofText]
  exact .cons (fun s hs => (hbounds s hs).1) hsorted

theorem getElem?_starts_ofText_zero (text : List Char) : (ofText text).starts[0]? = some 0 := by
  rw [← Array.getElem?_toList, toList_starts_ofText, List.getElem?_cons_zero]

/-- The line of an offset is counted by the newlines before it, and starts after the last of
them. -/
theorem lineIndex_ofText (h : off ≤ (Utf8.encode text).length) :
    (ofText text).lineIndex off = ((Utf8.encode text).take off).count newline ∧
      ∃ start, (ofText text).starts[((Utf8.encode text).take off).count newline]? = some start ∧
        start + sinceNewline ((Utf8.encode text).take off) = off := by
  obtain ⟨front, start, hfront, hcount, hstart⟩ :=
    getLast_newlineEnds ((Utf8.encode text).take off)
  rw [List.length_take, Nat.min_eq_left h] at hstart
  have hsplit : (ofText text).starts.toList =
      front ++ start :: newlineEnds off ((Utf8.encode text).drop off) := by
    have happ := newlineEnds_append 0 ((Utf8.encode text).take off) ((Utf8.encode text).drop off)
    rw [List.take_append_drop, List.length_take, Nat.min_eq_left h, Nat.zero_add] at happ
    rw [toList_starts_ofText, happ, ← List.cons_append, hfront, List.append_assoc,
      List.singleton_append]
  rw [← hcount]
  refine ⟨lineIndex_of_split hsplit (pairwise_starts_ofText text) ?_ (by omega) ?_, start, ?_,
    hstart⟩
  · rw [Array.getD_eq_getD_getElem?, getElem?_starts_ofText_zero]
    exact Nat.zero_le off
  · exact fun s hs => ((pairwise_newlineEnds _ _).2 s hs).1
  · rw [← Array.getElem?_toList, hsplit, List.getElem?_append_right (Nat.le_refl _), Nat.sub_self,
      List.getElem?_cons_zero]

/-- Lines and columns count from one. -/
theorem position_ofText (h : off ≤ (Utf8.encode text).length) :
    (ofText text).position off =
      ⟨1 + ((Utf8.encode text).take off).count newline,
        1 + sinceNewline ((Utf8.encode text).take off)⟩ := by
  obtain ⟨hline, start, hstart, hsum⟩ := lineIndex_ofText h
  simp only [position, hline, Array.getD_eq_getD_getElem?, hstart, Option.getD_some]
  congr 1 <;> omega

theorem sinceNewline_le (bs : List UInt8) : sinceNewline bs ≤ bs.length := by
  rw [← List.length_reverse]
  exact (List.takeWhile_prefix _).length_le

theorem le_of_mem_starts_ofText {start : Nat} (h : start ∈ (ofText text).starts) :
    start ≤ (Utf8.encode text).length := by
  rw [← Array.mem_toList_iff, toList_starts_ofText] at h
  rcases List.mem_cons.mp h with rfl | h
  · exact Nat.zero_le _
  · have := (pairwise_newlineEnds _ _).2 start h
    omega

/-- No line and no column is more than one further than the source is long. -/
theorem position_ofText_le (h : off ≤ (Utf8.encode text).length) :
    ((ofText text).position off).line ≤ (Utf8.encode text).length + 1 ∧
      ((ofText text).position off).column ≤ (Utf8.encode text).length + 1 := by
  have hline := List.count_le_length (a := newline) (l := (Utf8.encode text).take off)
  have hcolumn := sinceNewline_le ((Utf8.encode text).take off)
  rw [List.length_take] at hline hcolumn
  rw [position_ofText h]
  dsimp only
  omega

/-- An offset is found again from its line and column. -/
theorem exists_start_of_position (h : off ≤ (Utf8.encode text).length) :
    ∃ start, (ofText text).starts[((ofText text).position off).line - 1]? = some start ∧
      start + ((ofText text).position off).column - 1 = off := by
  obtain ⟨-, start, hstart, hsum⟩ := lineIndex_ofText h
  rw [position_ofText h]
  refine ⟨start, ?_, ?_⟩
  · rw [Nat.add_sub_cancel_left]
    exact hstart
  · dsimp only
    omega

end LineMap

def Position.Before (p q : Position) : Prop :=
  p.line < q.line ∨ p.line = q.line ∧ p.column < q.column

theorem LineMap.before_position_ofText {text : List Char} {off off' : Nat} (hlt : off < off')
    (h : off' ≤ (Utf8.encode text).length) :
    ((ofText text).position off).Before ((ofText text).position off') := by
  have ho : off ≤ (Utf8.encode text).length := by omega
  obtain ⟨start, hstart, hsum⟩ := exists_start_of_position ho
  obtain ⟨start', hstart', hsum'⟩ := exists_start_of_position h
  have hmono : ((Utf8.encode text).take off).count newline ≤
      ((Utf8.encode text).take off').count newline :=
    (List.take_sublist_take_left (Nat.le_of_lt hlt)).count_le newline
  rw [position_ofText ho] at hstart hsum ⊢
  rw [position_ofText h] at hstart' hsum' ⊢
  rcases Nat.lt_or_eq_of_le hmono with hline | hline
  · exact Or.inl (Nat.add_lt_add_left hline 1)
  · -- Two offsets on one line are as far apart as their columns.
    dsimp only at hstart hstart' hsum hsum'
    rw [hline, hstart'] at hstart
    obtain rfl := Option.some.inj hstart
    refine Or.inr ⟨congrArg (1 + ·) hline, ?_⟩
    dsimp only
    omega

/-- The map leads from the offsets of a source to their lines and columns, and back. -/
structure LineMap.Locates (m : LineMap) (source : List UInt8) : Prop where
  first : m.starts[0]? = some 0
  ascending : m.starts.toList.Pairwise (· < ·)
  lineCount : m.lineCount = source.count newline + 1
  position : ∀ off ≤ source.length, m.position off =
    ⟨1 + (source.take off).count newline, 1 + sinceNewline (source.take off)⟩
  ordered : ∀ off off', off < off' → off' ≤ source.length →
    (m.position off).Before (m.position off')
  recovers : ∀ off ≤ source.length, ∃ start,
    m.starts[(m.position off).line - 1]? = some start ∧ start + (m.position off).column - 1 = off
  /-- In words of 32 bits the map is the same. -/
  narrow : (∀ start ∈ m.starts, start < 0x100000000) ∧ ∀ off ≤ source.length,
    (m.position off).line < 0x100000000 ∧ (m.position off).column < 0x100000000

/-- The lines and columns of a source are exact. -/
theorem LineMap.locates_ofText {source : String}
    (h : (Utf8.ofString source).length < 0xffffffff) :
    (LineMap.ofText source.toList).Locates (Utf8.ofString source) := by
  constructor
  case first => exact getElem?_starts_ofText_zero _
  case ascending => exact pairwise_starts_ofText _
  case lineCount =>
    rw [lineCount, ← Array.length_toList, toList_starts_ofText, List.length_cons,
      length_newlineEnds]
    rfl
  case position => exact fun off ho => position_ofText ho
  case ordered => exact fun off off' hlt ho => before_position_ofText hlt ho
  case recovers => exact fun off ho => exists_start_of_position ho
  case narrow =>
    rw [Utf8.ofString] at h ⊢
    constructor
    · intro start hs
      have := le_of_mem_starts_ofText hs
      omega
    · intro off ho
      have := position_ofText_le ho
      omega

/-- An empty line, a character of two bytes and a line without an end. -/
theorem LineMap.locates_ofText_blank :
    (Utf8.ofString "é\n\n\tb").length = 6 ∧
      (LineMap.ofText "é\n\n\tb".toList).starts = #[0, 3, 4] ∧
      (LineMap.ofText "é\n\n\tb".toList).position 1 = ⟨1, 2⟩ ∧
      (LineMap.ofText "é\n\n\tb".toList).position 3 = ⟨2, 1⟩ ∧
      (LineMap.ofText "é\n\n\tb".toList).position 6 = ⟨3, 3⟩ ∧
      (LineMap.ofText "é\n\n\tb".toList).Locates (Utf8.ofString "é\n\n\tb") := by
  have h := @locates_ofText "é\n\n\tb" (by decide +kernel)
  have hbytes : Utf8.ofString "é\n\n\tb" = [0xc3, 0xa9, 10, 10, 9, 98] := by decide +kernel
  refine ⟨by rw [hbytes]; rfl, by decide +kernel, ?_, ?_, ?_, h⟩
  · rw [h.position 1 (by rw [hbytes]; decide), hbytes]
    decide
  · rw [h.position 3 (by rw [hbytes]; decide), hbytes]
    decide
  · rw [h.position 6 (by rw [hbytes]; decide), hbytes]
    decide

end QbScript
