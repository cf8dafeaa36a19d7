import QbScript.Proofs.Script.LineEnds
import QbScript.Proofs.Source.Lines
import QbScript.Proofs.Source.Tiling

/-!
# Numbers of lines

The line ends of a compiled stream that carry numbers carry those of the source: each counts the
newlines before the first of the line ends that it stands for. So they ascend.
-/

set_option autoImplicit false

namespace QbScript

open Reading

theorem Name.ne_endOfLine_word (c : Char) (cs : List Char) :
    (word c cs).All (· ≠ .simple .endOfLine) := by
  unfold word
  rw [all_ok]
  split
  · rename_i tag ht
    have hm : tag ∈ Tag.keywords.map Prod.snd :=
      List.mem_map_of_mem (Tag.mem_keywords_of_ofKeyword? ht)
    intro he
    rw [Token.simple.inj he] at hm
    revert hm
    decide
  · exact Token.noConfusion

theorem Name.ne_endOfLine_angle (cs : List Char) : (angle cs).All (· ≠ .simple .endOfLine) := by
  unfold angle
  split
  · exact all_ok.mpr (by simp)
  · exact all_ok.mpr (by simp)
  · exact all_ok.mpr (by simp)
  · dsimp only
    rw [all_after]
    unfold closeArg
    split
    · rename_i ref _ _ _
      exact all_ok.mpr (by cases ref <;> exact Token.noConfusion)
    · exact all_fail
    · exact all_fail
  · dsimp only
    split
    · exact all_ok.mpr Token.noConfusion
    · exact all_ok.mpr (by simp)
  · exact all_ok.mpr (by simp)

theorem Literal.ne_endOfLine_number (negative : Bool) (cs : List Char) :
    (number negative cs).All (· ≠ .simple .endOfLine) := by
  have hclose : ∀ t rest n, t ≠ .simple .endOfLine →
      (closeNumber t rest n).All (· ≠ .simple .endOfLine) := by
    intro t rest n ht
    unfold closeNumber
    split
    · exact all_fail
    · exact all_ok.mpr ht
  have hhex : ∀ cs, (hexNumber negative cs).All (· ≠ .simple .endOfLine) := by
    intro cs
    unfold hexNumber
    dsimp only
    split
    · exact all_fail
    · exact hclose _ _ _ Token.noConfusion
  unfold number
  split
  · exact all_after.mpr (hhex _)
  · exact all_after.mpr (hhex _)
  · unfold decimalNumber
    dsimp only
    split
    · exact hclose _ _ _ Token.noConfusion
    · exact hclose _ _ _ Token.noConfusion

/-- Only a newline is read as a line end. -/
theorem Cursor.eq_newline_of_read (signed : Bool) (c : Char) (rest : List Char) :
    (read signed c rest).All fun t => t = .simple .endOfLine → c = '\n' := by
  unfold read
  split
  · exact fun t ht he => absurd he (Name.ne_endOfLine_word c rest t ht)
  split
  · exact fun t ht he => absurd he (Literal.ne_endOfLine_number false (c :: rest) t ht)
  split
  · exact fun t ht he => absurd he (Literal.ne_endOfLine_number _ rest t ht)
  split
  · exact all_map.mpr fun _ _ he => Token.noConfusion he
  · exact all_map.mpr fun _ _ he => Token.noConfusion he
  · exact all_after.mpr (all_map.mpr fun _ _ he => Token.noConfusion he)
  · exact all_map.mpr fun ref _ he => by cases ref <;> exact Token.noConfusion he
  · exact fun t ht he => absurd he (Name.ne_endOfLine_angle _ t ht)
  · exact all_ok.mpr (by simp)
  · exact all_ok.mpr (by simp)
  · exact all_ok.mpr (by simp)
  · exact all_ok.mpr (by simp)
  · exact all_ok.mpr (by simp)
  · split
    · rename_i tag hs
      refine all_ok.mpr fun he => ?_
      obtain rfl := Token.simple.inj he
      unfold sign? at hs
      split at hs <;> first | rfl | cases hs
    · exact all_fail

/-- A line end of a source stands where its newline is. -/
theorem Lexes.getElem?_newline {c : Cursor} {ls : List Lexeme} (h : Lexes c ls)
    (before : List Char) (ho : c.offset = Utf8.size before) :
    ∀ l ∈ ls, l.token = .simple .endOfLine →
      (Utf8.encode (before ++ c.rest))[l.span.start]? = some LineMap.newline := by
  induction h generalizing before with
  | done => exact nofun
  | @step c d l ls h _ ih =>
    obtain ⟨gap, w, ht⟩ := Cursor.exists_takes h
    intro m hm he
    rcases List.mem_cons.mp hm with rfl | hm
    · obtain ⟨ch, cs, rfl, -, hr⟩ := ht.front
      obtain rfl := Cursor.eq_newline_of_read _ ch _ _ (congrArg Reading.result hr) he
      have hstart : m.span.start = (Utf8.encode (before ++ gap)).length := by
        rw [ht.span, Utf8.length_encode, Utf8.size_append, ho]
      rw [hstart, ht.rest, ← List.append_assoc, Utf8.encode_append,
        List.getElem?_append_right (Nat.le_refl _), Nat.sub_self]
      rfl
    · have hoff : d.offset = Utf8.size (before ++ (gap ++ w)) := by
        rw [ht.offset, ho, Utf8.size_append, Utf8.size_append, Nat.add_assoc]
      have hrest := ih _ hoff m hm he
      rwa [List.append_assoc, List.append_assoc, ← ht.rest] at hrest

def Lexeme.place (l : Lexeme) : Nat × Bool := (l.span.start, l.token = .simple .endOfLine)

theorem Lexeme.pairwise_place {source : String} {ls : List Lexeme}
    (h : Lexeme.ofText source.toList = .ok ls) :
    (ls.map Lexeme.place).Pairwise fun x y => x.1 < y.1 := by
  obtain ⟨hspans, hapart⟩ := ((Lexeme.ofText_eq_ok_iff.mp h).tiles [] rfl).spans
  rw [List.pairwise_map]
  refine hapart.imp_of_mem fun hl _ hle => ?_
  exact Nat.lt_of_lt_of_le (hspans _ hl).2.1 hle

namespace Phrase

variable {l : Lexeme} {ls rest : List Lexeme} {t : Token}

def place (p : Phrase) : Nat × Bool := (p.start, p.token = .simple .endOfLine)

theorem eq_endOfLine_of_gather (h : gather l ls = .ok (t, rest)) :
    t = .simple .endOfLine ↔ l.token = .simple .endOfLine := by
  unfold gather at h
  split at h
  · rename_i hl
    obtain ⟨q, -, hq⟩ := map_eq_ok_iff.mp h
    obtain ⟨rfl, -⟩ := Prod.mk.inj hq
    rw [hl]
    simp
  · rename_i hl
    obtain ⟨q, -, hq⟩ := map_eq_ok_iff.mp h
    obtain ⟨rfl, -⟩ := Prod.mk.inj hq
    rw [hl]
    simp
  · rename_i tag _ _ hl
    split at h
    · rename_i hr
      obtain ⟨q, -, hq⟩ := map_eq_ok_iff.mp h
      obtain ⟨rfl, -⟩ := Prod.mk.inj hq
      have hne : tag ≠ .endOfLine := by
        rintro rfl
        cases hr
      simp [hl, hne]
    · obtain ⟨rfl, -⟩ := Prod.mk.inj (Except.ok.inj h)
      rw [hl]
  · obtain ⟨rfl, -⟩ := Prod.mk.inj (Except.ok.inj h)
    rfl

/-- Every phrase starts at a lexeme of its own, and a line end at a line end. -/
theorem sublist_place_gatherFrom (done : List Phrase) (ls : List Lexeme) :
    ((gatherFrom done ls).phrases.map place).Sublist
      (done.reverse.map place ++ ls.map Lexeme.place) := by
  fun_induction gatherFrom done ls with
  | case1 done => rw [List.map_nil, List.append_nil]
  | case2 done l ls => exact List.sublist_append_left _ _
  | case3 done l ls t rest hg _ ih =>
    have hplace : place ⟨t, l.span.start⟩ = l.place := by
      simp [place, Lexeme.place, eq_endOfLine_of_gather hg]
    rw [List.reverse_cons, List.map_append, List.map_singleton, hplace, List.append_assoc,
      List.singleton_append] at ih
    exact ih.trans (((suffix_of_gather hg).sublist.map _).cons_cons _ |>.append_left _)

def firstLineEndsFrom (c : Content) : List Phrase → List Phrase
  | [] => []
  | p :: ps =>
    if p.token = .simple .endOfLine ∧ c.afterLineEnd = false then
      p :: firstLineEndsFrom (c.add p.token) ps
    else firstLineEndsFrom (c.add p.token) ps

/-- The line ends of a script that do not follow another line end, with nothing between them but the
marks of random blocks that do not separate them. -/
def firstLineEnds (ps : List Phrase) : List Phrase := firstLineEndsFrom .start ps

theorem firstLineEndsFrom_append (c : Content) (ps qs : List Phrase) :
    firstLineEndsFrom c (ps ++ qs) = firstLineEndsFrom c ps ++
      firstLineEndsFrom ((ps.map Phrase.token).foldl Content.add c) qs := by
  induction ps generalizing c with
  | nil => rfl
  | cons p ps ih =>
    rw [List.cons_append, firstLineEndsFrom, firstLineEndsFrom, ih, List.map_cons, List.foldl_cons]
    split <;> rfl

theorem firstLineEnds_concat (ps : List Phrase) (p : Phrase) :
    firstLineEnds (ps ++ [p]) = firstLineEnds ps ++
      if p.token = .simple .endOfLine ∧
          (Content.ofTokens (ps.map Phrase.token)).afterLineEnd = false
      then [p] else [] := by
  rw [firstLineEnds, firstLineEndsFrom_append, firstLineEndsFrom, firstLineEndsFrom,
    ← firstLineEnds, ← Content.ofTokens]

theorem firstLineEndsFrom_sublist (c : Content) (ps : List Phrase) :
    (firstLineEndsFrom c ps).Sublist ps := by
  induction ps generalizing c with
  | nil => exact .slnil
  | cons p ps ih =>
    rw [firstLineEndsFrom]
    split
    · exact (ih _).cons_cons p
    · exact (ih _).cons p

theorem token_of_mem_firstLineEndsFrom {c : Content} {ps : List Phrase} {p : Phrase}
    (h : p ∈ firstLineEndsFrom c ps) : p.token = .simple .endOfLine := by
  induction ps generalizing c with
  | nil => cases h
  | cons q ps ih =>
    rw [firstLineEndsFrom] at h
    split at h
    · rename_i hq
      rcases List.mem_cons.mp h with rfl | h
      · exact hq.1
      · exact ih h
    · exact ih h

end Phrase

namespace Token

def lineNumber? : Token → Option UInt32
  | .endOfLineNumber n => some n
  | _ => none

theorem lineNumber?_blank (t : Token) : t.blank.lineNumber? = t.lineNumber? := by
  cases t <;> rfl

theorem filterMap_lineNumber?_parts {t : Token} (h : t.IsPhrase) :
    t.parts.filterMap lineNumber? = [] := by
  cases t <;> first | rfl | exact h.elim

end Token

namespace Assembly

variable {options : CompileOptions} {line : Nat} {lines : LineMap} {a a' : Assembly} {t : Token}
  {ts us : List Token} {links : List Bytecode.Link} {ps : List Phrase}

theorem Step.lineNumbers (h : Step options line a t us links a') (ht : t.IsPhrase)
    (hl : options.lineNumbers = true) : us.filterMap Token.lineNumber? =
      if t = .simple .endOfLine ∧ a.lineEnd ≠ some a.out.size then [UInt32.ofNat line] else [] := by
  cases h with
  | plain hp =>
    rw [Token.filterMap_lineNumber?_parts ht, if_neg]
    rintro ⟨rfl, -⟩
    exact hp
  | named hn =>
    rw [Token.filterMap_lineNumber?_parts ht, if_neg]
    rintro ⟨rfl, -⟩
    cases hn
  | lineEndKept hkept =>
    rw [if_pos ⟨rfl, hkept⟩, lineMark, if_pos hl]
    rfl
  | lineEndDropped hdropped => rw [if_neg fun hk => hk.2 hdropped, List.filterMap_nil]
  | firstBranch _ htag | nextBranch _ htag => rcases htag with rfl | rfl <;> rfl
  | _ => rfl

/-- The numbers of a run are those of the lines of its line ends. -/
theorem Run.lineNumbers (h : Run options lines ps ts a) (hp : ∀ p ∈ ps, p.token.IsPhrase)
    (hl : options.lineNumbers = true) : ts.filterMap Token.lineNumber? =
      (Phrase.firstLineEnds ps).map fun p => UInt32.ofNat (lines.position p.start).line := by
  induction h with
  | start => rfl
  | @step ps ts us a a' p links hr _ hs ih =>
    have hps : ∀ q ∈ ps, q.token.IsPhrase := fun q hq => hp q (List.mem_append_left _ hq)
    have hafter : (Content.ofTokens (ps.map Phrase.token)).afterLineEnd = false ↔
        a.lineEnd ≠ some a.out.size := by
      rw [(hr.tells hps).afterLineEnd, decide_eq_false_iff_not]
    rw [List.filterMap_append, ih hps, Phrase.firstLineEnds_concat, List.map_append,
      hs.lineNumbers (hp p (List.mem_append_right _ List.mem_cons_self)) hl]
    simp only [hafter]
    split <;> rfl

end Assembly

namespace LineMap

/-- A newline before the second place and not before the first is in between. -/
theorem count_take_lt {bytes : List UInt8} {i j : Nat} (hij : i < j)
    (hi : bytes[i]? = some newline) :
    (bytes.take i).count newline < (bytes.take j).count newline := by
  have hnext : bytes.take (i + 1) = bytes.take i ++ [newline] := by
    rw [List.take_add_one, hi, Option.toList_some]
  calc (bytes.take i).count newline
      < (bytes.take (i + 1)).count newline := by
        rw [hnext, List.count_append, List.count_singleton_self]
        exact Nat.lt_succ_self _
    _ ≤ (bytes.take j).count newline :=
        (List.take_prefix_take_left hij).sublist.count_le newline

end LineMap

/-- The number `n` of the line that a phrase ends: it starts at a line end of the source, and one
less than `n` newlines are before it. -/
structure Phrase.EndsLine (source : String) (ls : List Lexeme) (n : UInt32) (p : Phrase) :
    Prop where
  lexeme : ∃ l ∈ ls, l.token = .simple .endOfLine ∧ l.span.start = p.start
  newline : (Utf8.ofString source)[p.start]? = some LineMap.newline
  number : n.toNat = 1 + ((Utf8.ofString source).take p.start).count LineMap.newline

namespace Compiled

variable {options : CompileOptions} {source : String} {b : Bytecode} {ls : List Lexeme}
  {ps : List Phrase} {ts us : List Token} {a : Assembly} {p : Phrase}

theorem sublist_place (h : Compiled options source b ls ps ts us a) :
    ((Phrase.firstLineEnds ps).map Phrase.place).Sublist (ls.map Lexeme.place) := by
  have hps := Phrase.sublist_place_gatherFrom [] ls
  rw [List.reverse_nil, List.map_nil, List.nil_append] at hps
  rw [h.phrases]
  exact ((Phrase.firstLineEndsFrom_sublist _ _).map _).trans hps

theorem exists_lexeme_of_mem_firstLineEnds (h : Compiled options source b ls ps ts us a)
    (hp : p ∈ Phrase.firstLineEnds ps) :
    ∃ l ∈ ls, l.token = .simple .endOfLine ∧ l.span.start = p.start := by
  obtain ⟨l, hl, he⟩ := List.mem_map.mp (h.sublist_place.subset (List.mem_map_of_mem hp))
  obtain ⟨hstart, hend⟩ := Prod.mk.inj he
  refine ⟨l, hl, ?_, hstart⟩
  rw [Phrase.token_of_mem_firstLineEndsFrom hp] at hend
  exact of_decide_eq_true (hend.trans (decide_eq_true rfl))

theorem getElem?_of_mem_firstLineEnds (h : Compiled options source b ls ps ts us a)
    (hp : p ∈ Phrase.firstLineEnds ps) :
    (Utf8.ofString source)[p.start]? = some LineMap.newline := by
  obtain ⟨l, hl, he, hstart⟩ := h.exists_lexeme_of_mem_firstLineEnds hp
  rw [← hstart]
  exact h.lexes.getElem?_newline [] rfl l hl he

theorem endsLine (h : Compiled options source b ls ps ts us a)
    (hs : (Utf8.ofString source).length < 0x80000000) (hp : p ∈ Phrase.firstLineEnds ps) :
    p.EndsLine source ls
      (UInt32.ofNat ((LineMap.ofText source.toList).position p.start).line) := by
  have hbyte := h.getElem?_of_mem_firstLineEnds hp
  refine ⟨h.exists_lexeme_of_mem_firstLineEnds hp, hbyte, ?_⟩
  have hstart : p.start < (Utf8.ofString source).length := (List.getElem?_eq_some_iff.mp hbyte).1
  have hcount := ((Utf8.ofString source).take p.start).count_le_length (a := LineMap.newline)
  rw [List.length_take_of_le hstart.le] at hcount
  have hline : ((LineMap.ofText source.toList).position p.start).line =
      1 + ((Utf8.ofString source).take p.start).count LineMap.newline := by
    rw [LineMap.position_ofText hstart.le]
    rfl
  have hsize : UInt32.size = 0x100000000 := rfl
  rw [hline, UInt32.toNat_ofNat_of_lt' (by omega)]

theorem lineNumbers (h : Compiled options source b ls ps ts us a)
    (hl : options.lineNumbers = true) : us.filterMap Token.lineNumber? =
      (Phrase.firstLineEnds ps).map fun p =>
        UInt32.ofNat ((LineMap.ofText source.toList).position p.start).line := by
  rw [← h.run.lineNumbers h.isPhrase hl]
  have hblank := congrArg (List.filterMap Token.lineNumber?) h.blank
  simpa only [List.filterMap_map, Function.comp_def, Token.lineNumber?_blank] using hblank

/-- The numbers of a stream are those of the run, for the table has none. -/
theorem lineNumbers_scan (h : Compiled options source b ls ps ts us a)
    (hl : options.lineNumbers = true) (hs : b.size < 0x80000000) (hn : NoZeroNames ls) :
    (b.scan.tokens.map Prod.snd).filterMap Token.lineNumber? =
      (Phrase.firstLineEnds ps).map fun p =>
        UInt32.ofNat ((LineMap.ofText source.toList).position p.start).line := by
  rw [h.scan hs (h.stands_entries hn), Bytecode.map_snd_placed, List.append_assoc,
    List.filterMap_append, h.lineNumbers hl, List.append_right_eq_self,
    List.filterMap_eq_nil_iff]
  intro t ht
  have hend := not_isLineEnd_of_mem_table ht
  cases t <;> first | rfl | cases hend

theorem pairwise_start (h : Compiled options source b ls ps ts us a) :
    (Phrase.firstLineEnds ps).Pairwise fun p q => p.start < q.start := by
  have hplaces := (Lexeme.pairwise_place h.ofText).sublist h.sublist_place
  rwa [List.pairwise_map] at hplaces

end Compiled

/-- A stream that is compiled with the numbers of lines has ascending ones. They are those of the
line ends in the source that are the first of several in a row. Each counts all newlines before its
line end, also those in comments, in strings and after continued lines. -/
theorem lineNumbers_of_compile {options : CompileOptions} {source : String} {b : Bytecode}
    (h : compile options source = .ok b) (hl : options.lineNumbers = true)
    (hb : b.size < 0x80000000) (hs : (Utf8.ofString source).length < 0x80000000) :
    ∃ ls, Lexeme.ofText source.toList = .ok ls ∧
      Phrase.Composes (ls.map Lexeme.token) ((Phrase.ofLexemes ls).phrases.map Phrase.token) ∧
      (NoZeroNames ls →
        b.scan.fault = none ∧
        ((b.scan.tokens.map Prod.snd).filterMap Token.lineNumber?).Pairwise (· < ·) ∧
        List.Forall₂ (Phrase.EndsLine source ls)
          ((b.scan.tokens.map Prod.snd).filterMap Token.lineNumber?)
          (Phrase.firstLineEnds (Phrase.ofLexemes ls).phrases)) := by
  obtain ⟨ls, ps, ts, us, a, hc⟩ := exists_compiled h
  refine ⟨ls, hc.ofText, hc.phrases ▸ hc.composes, fun hn => ?_⟩
  have hends : ∀ p ∈ Phrase.firstLineEnds ps, p.EndsLine source ls
      (UInt32.ofNat ((LineMap.ofText source.toList).position p.start).line) :=
    fun p hp => hc.endsLine hs hp
  rw [hc.lineNumbers_scan hl hb hn, ← hc.phrases]
  refine ⟨by rw [hc.scan hb (hc.stands_entries hn)], ?_, ?_⟩
  · rw [List.pairwise_map]
    refine hc.pairwise_start.imp_of_mem fun hp hq hlt => ?_
    rw [UInt32.lt_iff_toNat_lt, (hends _ hp).number, (hends _ hq).number]
    exact Nat.add_lt_add_left (LineMap.count_take_lt hlt (hends _ hp).newline) 1
  · rw [List.forall₂_map_left_iff, List.forall₂_same]
    exact hends

/-- Newlines in a string, after a continued line and in a comment, and two line ends in a row. -/
theorem lineNumbers_of_compile_hidden :
    ∃ b ls,
      compile ⟨.fast, true⟩ "x = \"a\\\nb\" \\\n + /*\n*/ 1\n\n// d\nIF x\nENDIF" = .ok b ∧
      Lexeme.ofText "x = \"a\\\nb\" \\\n + /*\n*/ 1\n\n// d\nIF x\nENDIF".toList = .ok ls ∧
      Phrase.Composes (ls.map Lexeme.token) ((Phrase.ofLexemes ls).phrases.map Phrase.token) ∧
      (b.scan.tokens.map Prod.snd).filterMap Token.lineNumber? = [4, 7] ∧
      List.Forall₂
        (Phrase.EndsLine "x = \"a\\\nb\" \\\n + /*\n*/ 1\n\n// d\nIF x\nENDIF" ls)
        [4, 7] (Phrase.firstLineEnds (Phrase.ofLexemes ls).phrases) := by
  have hb : compile ⟨.fast, true⟩ "x = \"a\\\nb\" \\\n + /*\n*/ 1\n\n// d\nIF x\nENDIF" =
      .ok #[22, 124, 233, 35, 115, 7, 27, 4, 0, 0, 0, 97, 10, 98, 0, 11, 23, 1, 0, 0, 0, 2, 4, 0, 0,
        0, 71, 13, 0, 22, 124, 233, 35, 115, 2, 7, 0, 0, 0, 40, 43, 124, 233, 35, 115, 120, 0, 0] :=
    by decide +kernel
  have hsize : Array.size #[(22 : UInt8), 124, 233, 35, 115, 7, 27, 4, 0, 0, 0, 97, 10, 98, 0, 11,
      23, 1, 0, 0, 0, 2, 4, 0, 0, 0, 71, 13, 0, 22, 124, 233, 35, 115, 2, 7, 0, 0, 0, 40, 43, 124,
      233, 35, 115, 120, 0, 0] < 0x80000000 := by decide
  have hsource : (Utf8.ofString "x = \"a\\\nb\" \\\n + /*\n*/ 1\n\n// d\nIF x\nENDIF").length <
      0x80000000 := by decide +kernel
  obtain ⟨ls, hl, hcomposes, hall⟩ := lineNumbers_of_compile hb rfl hsize hsource
  have hn : (Lexeme.ofText
      "x = \"a\\\nb\" \\\n + /*\n*/ 1\n\n// d\nIF x\nENDIF".toList).toOption.any
      (fun ls => decide (NoZeroNames ls)) = true := by decide +kernel
  rw [hl] at hn
  obtain ⟨-, -, hends⟩ := hall (by simpa [Except.toOption] using hn)
  have hnumbers : ((Bytecode.scan #[22, 124, 233, 35, 115, 7, 27, 4, 0, 0, 0, 97, 10, 98, 0, 11, 23,
      1, 0, 0, 0, 2, 4, 0, 0, 0, 71, 13, 0, 22, 124, 233, 35, 115, 2, 7, 0, 0, 0, 40, 43, 124, 233,
      35, 115, 120, 0, 0]).tokens.map Prod.snd).filterMap Token.lineNumber? = [4, 7] := by
    decide +kernel
  rw [hnumbers] at hends
  exact ⟨_, ls, hb, hl, hcomposes, hnumbers, hends⟩

end QbScript
