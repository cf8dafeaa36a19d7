import QbScript.Proofs.Listing.Legible

/-!
# Sheets read back

The text of a sheet is read as what its elements are read as, line by line, and so as the phrases
that they are listed for. It has a line end more after every end of a script, and one less when it
would end in a blank line.
-/

set_option autoImplicit false

namespace QbScript

open Phrase

theorem composes_endOfLine : Composes [.simple .endOfLine] [.simple .endOfLine] := by
  refine .other ?_ .nil
  rintro (h | h | h) <;> cases h

theorem exists_concat_of_forall₂ {α β : Type} {R : α → β → Prop} {xs : List α} {x : α}
    {ys : List β} (h : List.Forall₂ R (xs ++ [x]) ys) :
    ∃ zs y, ys = zs ++ [y] ∧ List.Forall₂ R xs zs ∧ R x y := by
  have hr := List.forall₂_reverse_iff.mpr h
  rw [List.reverse_concat'] at hr
  obtain ⟨y, zs, hxy, hzs, hy⟩ := List.forall₂_cons_left_iff.mp hr
  refine ⟨zs.reverse, y, ?_, ?_, hxy⟩
  · rw [← List.reverse_cons, ← hy, List.reverse_reverse]
  · rw [← List.forall₂_reverse_iff, List.reverse_reverse]
    exact hzs

namespace Respaces

variable {α β : Type} {e : α} {xs ys : List α}

theorem refl (e : α) (xs : List α) : Respaces e xs xs := by
  induction xs with
  | nil => exact .nil
  | cons x xs ih => exact .cons x ih

theorem append_left (h : Respaces e xs ys) (zs : List α) : Respaces e (zs ++ xs) (zs ++ ys) := by
  induction zs with
  | nil => exact h
  | cons z zs ih => exact .cons z ih

/-- What lists with other copies of `e` are related to differs in copies of what `e` is related
to. -/
theorem exists_forall₂ {R : α → β → Prop} {f : β} {us : List β} (hr : Respaces e xs ys)
    (he : ∀ u, R e u ↔ u = f) (h : List.Forall₂ R xs us) :
    ∃ vs, List.Forall₂ R ys vs ∧ Respaces f us vs := by
  induction hr generalizing us with
  | nil =>
    obtain rfl := List.forall₂_nil_left_iff.mp h
    exact ⟨[], .nil, .nil⟩
  | cons x _ ih =>
    obtain ⟨u, us, hu, hus, rfl⟩ := List.forall₂_cons_left_iff.mp h
    obtain ⟨vs, hv, hr⟩ := ih hus
    exact ⟨u :: vs, .cons hu hv, .cons u hr⟩
  | more _ ih =>
    obtain ⟨vs, hv, hr⟩ := ih h
    obtain ⟨v, vs, hf, hvs, rfl⟩ := List.forall₂_cons_left_iff.mp hv
    obtain rfl := (he v).mp hf
    exact ⟨v :: v :: vs, .cons hf (.cons hf hvs), .more hr⟩
  | fewer _ ih =>
    obtain ⟨vs, hv, hr⟩ := ih h
    rw [List.append_cons] at hv
    obtain ⟨vs, v, rfl, hvs, hf⟩ := exists_concat_of_forall₂ hv
    obtain ⟨vs, w, rfl, hvs, hf'⟩ := exists_concat_of_forall₂ hvs
    obtain rfl := (he v).mp hf
    obtain rfl := (he w).mp hf'
    rw [List.append_assoc] at hr
    exact ⟨vs ++ [w], List.rel_append hvs (.cons hf .nil), .fewer hr⟩

theorem mem_iff (h : Respaces e xs ys) {x : α} : x ∈ ys ↔ x ∈ xs := by
  induction h with
  | nil => rfl
  | cons y _ ih => rw [List.mem_cons, List.mem_cons, ih]
  | more _ ih => simpa using ih
  | fewer _ ih => simpa using ih

end Respaces

def Element.Says (e : Element) (t : Token) : Prop :=
  match e with
  | .lineEnd => t = .simple .endOfLine
  | .word w => Legible w.text.toList t

def Element.Reads (e : Element) (us : List Token) : Prop :=
  match e with
  | .lineEnd => us = [.simple .endOfLine]
  | .word w => Readable w.text.toList us

theorem Element.Says.exists_reads {e : Element} {t : Token} (h : e.Says t) :
    ∃ us, e.Reads us ∧ Composes us [t] := by
  cases e with
  | lineEnd =>
    obtain rfl : t = .simple .endOfLine := h
    exact ⟨_, rfl, composes_endOfLine⟩
  | word w =>
    obtain ⟨us, hc, hr⟩ := Legible.exists_readable h
    exact ⟨us, hr, hc⟩

def Line.Reads (l : Line) (uss : List (List Token)) : Prop :=
  List.Forall₂ (fun w us => Readable w.text.toList us) l uss

variable {indent : String} {l : Line} {lines : List Line} {ts : List Token}
  {uss : List (List Token)} {usss : List (List (List Token))} {rest : List Char}

theorem spells_newline {op : Bool} (h : Spells false rest ts) :
    Spells op ('\n' :: rest) (.simple .endOfLine :: ts) := by
  apply Spells.step isGap_nil (@frontReads_sign _ rest '\n' .endOfLine rfl _) h
  right
  decide

theorem endsWord_words (ws : List String) (hr : EndsWord rest) :
    EndsWord (ws.flatMap (fun w => " ".toList ++ w.toList) ++ rest) := by
  cases ws with
  | nil => exact hr
  | cons w ws =>
    intro c hc
    obtain rfl : ' ' = c := by simpa using hc
    exact Or.inl rfl

section

variable {ws : List String}

theorem spells_words (h : List.Forall₂ (fun w us => ReadsAs w.toList us) ws uss)
    (hr : EndsWord rest) (hs : ∀ op, Spells op rest ts) (op : Bool) :
    Spells op (ws.flatMap (fun w => " ".toList ++ w.toList) ++ rest) (uss.flatten ++ ts) := by
  induction h generalizing op with
  | nil => exact hs op
  | @cons w us ws uss hw _ ih =>
    have hword : Spells op ([' '] ++ (w.toList ++ _)) (us ++ _) :=
      hw isGap_blank (by simp) (endsWord_words ws hr) ih
    simpa using hword

/-- Words with blanks between them are read one after the other. -/
theorem spells_row {gap : List Char} (hg : IsGap gap) (hne : ws ≠ [])
    (h : List.Forall₂ (fun w us => ReadsAs w.toList us) ws uss) (hr : EndsWord rest)
    (hs : ∀ op, Spells op rest ts) :
    Spells false (gap ++ ((" ".intercalate ws).toList ++ rest)) (uss.flatten ++ ts) := by
  cases h with
  | nil => exact absurd rfl hne
  | @cons w us ws uss hw hws =>
    have hfirst := hw hg (fun _ => rfl) (endsWord_words ws hr) (spells_words hws hr hs)
    rw [toList_intercalate_cons]
    simpa using hfirst

end

theorem endsWord_newline (rest : List Char) : EndsWord ('\n' :: rest) := by
  intro c hc
  obtain rfl : '\n' = c := by simpa using hc
  exact Or.inr rfl

theorem isGap_join_replicate (hi : IsGap indent.toList) (n : Nat) :
    IsGap (String.join (List.replicate n indent)).toList := by
  rw [String.toList_join]
  intro c hc
  obtain ⟨s, hs, hc⟩ := List.mem_flatMap.mp hc
  rw [List.eq_of_mem_replicate hs] at hc
  exact hi c hc

theorem toList_text_cons (w : Word) (l : Line) (depth : Nat) :
    (Line.text indent (w :: l) depth).toList =
      (String.join (List.replicate (Line.ownDepth (w :: l) depth) indent)).toList ++
        (w.text.toList ++ l.flatMap fun v => " ".toList ++ v.text.toList) := by
  have hempty : List.isEmpty (w :: l) = false := rfl
  rw [Line.text, hempty, if_neg (by decide), String.toList_append, List.map_cons,
    toList_intercalate_cons, List.flatMap_map]

theorem spells_line (hi : IsGap indent.toList) (h : l.Reads uss) (depth : Nat)
    (hr : EndsWord rest) (hs : ∀ op, Spells op rest ts) :
    Spells false ((l.text indent depth).toList ++ rest) (uss.flatten ++ ts) := by
  cases l with
  | nil =>
    obtain rfl := List.forall₂_nil_left_iff.mp h
    exact hs false
  | cons w l =>
    have hwords : List.Forall₂ (fun w us => ReadsAs w.toList us) ((w :: l).map Word.text) uss :=
      List.forall₂_map_left_iff.mpr (h.imp fun _ _ hw => hw.reads)
    have hrow := spells_row (isGap_join_replicate hi (Line.ownDepth (w :: l) depth)) (by simp)
      hwords hr hs
    have hempty : List.isEmpty (w :: l) = false := rfl
    rw [Line.text, hempty, if_neg (by decide), String.toList_append, List.append_assoc]
    exact hrow

/-- A line with words does not end in a newline. -/
theorem exists_last_text (h : l.Reads uss) (hne : l ≠ []) (depth : Nat) :
    ∃ v c, (l.text indent depth).toList = v ++ [c] ∧ c ≠ '\n' := by
  have hwords : ∀ {l : Line} {uss : List (List Token)}, l.Reads uss → ∀ v c, c ≠ '\n' →
      ∃ v' c', v ++ [c] ++ l.flatMap (fun w => " ".toList ++ w.text.toList) = v' ++ [c'] ∧
        c' ≠ '\n' := by
    intro l uss h
    induction h with
    | nil => exact fun v c hc => ⟨v, c, by simp, hc⟩
    | cons hw _ ih =>
      intro v c _
      obtain ⟨u, d, hu, hd⟩ := hw.last
      obtain ⟨v', c', hv, hc'⟩ := ih (v ++ [c] ++ " ".toList ++ u) d hd
      refine ⟨v', c', ?_, hc'⟩
      rw [← hv, List.flatMap_cons, hu]
      simp only [List.append_assoc]
  cases h with
  | nil => exact absurd rfl hne
  | cons hw hl =>
    obtain ⟨u, d, hu, hd⟩ := hw.last
    rw [toList_text_cons, hu, ← List.append_assoc, ← List.append_assoc]
    exact hwords hl _ d hd

theorem linesFrom_eq (done : List String) (depth : Nat) (lines : List Line) :
    (Sheet.linesFrom indent done depth lines).1 =
        done.reverse ++ (Sheet.linesFrom indent [] depth lines).1 ∧
      (Sheet.linesFrom indent done depth lines).2 = (Sheet.linesFrom indent [] depth lines).2 := by
  induction lines generalizing done depth with
  | nil => simp [Sheet.linesFrom]
  | cons l lines ih =>
    have h := ih ((l.text indent depth ++ l.ending) :: done) (l.nextDepth depth)
    have h' := ih [l.text indent depth ++ l.ending] (l.nextDepth depth)
    simp only [Sheet.linesFrom, h.1, h.2, h'.1, h'.2]
    simp

def linesText (indent : String) (depth : Nat) (lines : List Line) : List Char :=
  (String.join (Sheet.linesFrom indent [] depth lines).1).toList

theorem linesText_cons (l : Line) (lines : List Line) (depth : Nat) :
    linesText indent depth (l :: lines) = (l.text indent depth).toList ++ (l.ending.toList ++
      linesText indent (l.nextDepth depth) lines) := by
  rw [linesText, Sheet.linesFrom, (linesFrom_eq _ _ _).1]
  simp [linesText]

theorem linesText_concat (lines : List Line) (l : Line) (depth : Nat) :
    ∃ depth', linesText indent depth (lines ++ [l]) =
      linesText indent depth lines ++ ((l.text indent depth').toList ++ l.ending.toList) := by
  induction lines generalizing depth with
  | nil => exact ⟨depth, by simp [linesText, Sheet.linesFrom]⟩
  | cons k lines ih =>
    obtain ⟨depth', h⟩ := ih (k.nextDepth depth)
    refine ⟨depth', ?_⟩
    rw [List.cons_append, linesText_cons, linesText_cons, h]
    simp only [List.append_assoc]

theorem ending_eq (l : Line) : l.ending.toList = ['\n'] ∨ l.ending.toList = ['\n', '\n'] := by
  unfold Line.ending
  split
  · exact Or.inr rfl
  · exact Or.inl rfl

/-- What the lines of a listing are read as has no fewer line ends than they are listed for. -/
theorem spells_lines (hi : IsGap indent.toList) (h : List.Forall₂ Line.Reads lines usss)
    (depth : Nat) :
    ∃ xss : List (List Token),
      (∀ {rest : List Char} {ts : List Token}, Spells false rest ts →
        Spells false (linesText indent depth lines ++ rest) (xss.flatten ++ ts)) ∧
      (∀ {yss zss : List (List Token)}, Respaces [.simple .endOfLine] yss zss →
        Respaces [.simple .endOfLine]
          (usss.flatMap (fun uss => uss ++ [[.simple .endOfLine]]) ++ yss) (xss ++ zss)) ∧
      (lines = [] ∧ xss = [] ∨ ∃ yss, xss = yss ++ [[.simple .endOfLine]]) := by
  induction h generalizing depth with
  | nil =>
    refine ⟨[], ?_, fun hr => hr, Or.inl ⟨rfl, rfl⟩⟩
    intro rest ts hs
    simpa [linesText, Sheet.linesFrom] using hs
  | @cons l uss lines usss hl _ ih =>
    obtain ⟨xss, hs, hr, hend⟩ := ih (l.nextDepth depth)
    have hlast : ∀ yss, ∃ zss,
        yss ++ [.simple .endOfLine] :: xss = zss ++ [[.simple .endOfLine]] := by
      intro yss
      rcases hend with ⟨-, rfl⟩ | ⟨zss, rfl⟩
      · exact ⟨yss, rfl⟩
      · exact ⟨yss ++ [.simple .endOfLine] :: zss, by simp⟩
    -- The end of a script is followed by a blank line, which no element is listed for.
    rcases ending_eq l with he | he
    · refine ⟨uss ++ [.simple .endOfLine] :: xss, ?_, ?_, Or.inr (hlast uss)⟩
      · intro rest ts ht
        have hline := spells_line hi hl depth (endsWord_newline _) fun _ => spells_newline (hs ht)
        rw [linesText_cons, he]
        simpa using hline
      · intro yss zss ht
        have hline := (Respaces.cons [.simple .endOfLine] (hr ht)).append_left uss
        simpa using hline
    · refine ⟨uss ++ [.simple .endOfLine] :: [.simple .endOfLine] :: xss, ?_, ?_, Or.inr ?_⟩
      · intro rest ts ht
        have hline := spells_line hi hl depth (endsWord_newline _) fun _ =>
          spells_newline (spells_newline (hs ht))
        rw [linesText_cons, he]
        simpa using hline
      · intro yss zss ht
        have hline := (Respaces.more (.cons [.simple .endOfLine] (hr ht))).append_left uss
        simpa using hline
      · obtain ⟨yss, hys⟩ := hlast (uss ++ [[.simple .endOfLine]])
        exact ⟨yss, by simpa using hys⟩

def Sheet.addWord (w : Word) : Sheet → Sheet
  | ⟨[], last⟩ => ⟨[], w :: last⟩
  | ⟨l :: lines, last⟩ => ⟨(w :: l) :: lines, last⟩

theorem ofElements_word (w : Word) (es : List Element) :
    Sheet.ofElements (.word w :: es) = (Sheet.ofElements es).addWord w := by
  rw [Sheet.ofElements, List.foldr_cons, ← Sheet.ofElements]
  obtain ⟨lines, last⟩ := Sheet.ofElements es
  cases lines <;> rfl

theorem exists_reads_ofElements {es : List Element} (h : List.Forall₂ Element.Reads es uss) :
    ∃ vsss vss, List.Forall₂ Line.Reads (Sheet.ofElements es).lines vsss ∧
      (Sheet.ofElements es).last.Reads vss ∧
      uss = vsss.flatMap (fun vss => vss ++ [[.simple .endOfLine]]) ++ vss := by
  induction h with
  | nil => exact ⟨[], [], .nil, .nil, rfl⟩
  | @cons e us es uss he _ ih =>
    obtain ⟨vsss, vss, hlines, hlast, rfl⟩ := ih
    cases e with
    | lineEnd =>
      obtain rfl : us = [.simple .endOfLine] := he
      exact ⟨[] :: vsss, vss, .cons .nil hlines, hlast, rfl⟩
    | word w =>
      rw [ofElements_word]
      generalize Sheet.ofElements es = sheet at hlines hlast
      obtain ⟨lines, last⟩ := sheet
      cases hlines with
      | nil => exact ⟨[], us :: vss, .nil, .cons he hlast, rfl⟩
      | @cons l wss lines vsss hl hlines =>
        exact ⟨(us :: wss) :: vsss, vss, .cons (.cons he hl) hlines, hlast, by simp⟩

theorem withoutFinalBlank_cases (s : String) :
    Sheet.withoutFinalBlank s = s ∨ ∃ v, s.toList = v ++ ['\n', '\n'] ∧
      (Sheet.withoutFinalBlank s).toList = v ++ ['\n'] := by
  unfold Sheet.withoutFinalBlank
  split
  · rename_i rest hs
    refine Or.inr ⟨rest.reverse, ?_, by simp⟩
    rw [← List.reverse_reverse s.toList, hs]
    simp
  · exact Or.inl rfl

theorem toList_text_ofElements (s : Sheet) :
    ∃ depth, s.text indent = Sheet.withoutFinalBlank
      (String.ofList (linesText indent 0 s.lines ++ (s.last.text indent depth).toList)) := by
  refine ⟨(Sheet.linesFrom indent [] 0 s.lines).2, ?_⟩
  rw [Sheet.text]
  simp only [linesText]
  congr 1
  rw [← String.toList_inj]
  simp

/-- A text without its final blank line is read with one line end less. -/
theorem spells_withoutFinalBlank (hi : IsGap indent.toList)
    (h : List.Forall₂ Line.Reads lines usss) {v : List Char}
    (hv : linesText indent 0 lines = v ++ ['\n', '\n']) :
    ∃ xss : List (List Token), Spells false (v ++ ['\n']) xss.flatten ∧
      Respaces [.simple .endOfLine]
        (usss.flatMap fun uss => uss ++ [[.simple .endOfLine]]) xss := by
  obtain rfl | ⟨lines, l, rfl⟩ := List.eq_nil_or_concat' lines
  · simp [linesText, Sheet.linesFrom] at hv
  obtain ⟨usss, uss, rfl, hlines, hl⟩ := exists_concat_of_forall₂ h
  obtain ⟨depth, hd⟩ := @linesText_concat indent lines l 0
  obtain ⟨xss, hs, hr, hend⟩ := spells_lines hi hlines 0
  rw [hd] at hv
  rcases ending_eq l with he | he
  · have hv : linesText indent 0 lines ++ (l.text indent depth).toList = v ++ ['\n'] := by
      rw [he, ← List.append_assoc] at hv
      exact List.append_cancel_right (hv.trans (List.append_cons v '\n' ['\n']))
    by_cases hne : l = []
    · -- the last line is empty, and nothing of it is left
      subst hne
      obtain rfl := List.forall₂_nil_left_iff.mp hl
      have hv : linesText indent 0 lines = v ++ ['\n'] := by simpa [Line.text] using hv
      rcases hend with ⟨rfl, -⟩ | ⟨yss, rfl⟩
      · simp [linesText, Sheet.linesFrom] at hv
      · refine ⟨yss ++ [[.simple .endOfLine]], by simpa [hv] using hs .done, .fewer ?_⟩
        simpa using hr (Respaces.refl _ [[.simple .endOfLine]])
    · obtain ⟨u, c, hu, hc'⟩ := exists_last_text hl hne depth
      rw [hu, ← List.append_assoc] at hv
      exact absurd (List.cons.inj (List.append_inj_right' hv rfl)).1 hc'
  · -- the last line ends a script, and only the blank line after it is gone
    obtain rfl : v = linesText indent 0 lines ++ (l.text indent depth).toList := by
      rw [he, ← List.append_assoc] at hv
      exact (List.append_cancel_right hv).symm
    have hline := hs (spells_line hi hl depth (endsWord_newline []) fun _ => spells_newline .done)
    refine ⟨xss ++ (uss ++ [[.simple .endOfLine]]), by simpa using hline, ?_⟩
    simpa using hr (Respaces.refl _ (uss ++ [[.simple .endOfLine]]))

/-- The text of a sheet is read as its elements are, but for line ends that say nothing more. -/
theorem reads_sheet {es : List Element} (hi : IsGap indent.toList)
    (h : List.Forall₂ Element.Reads es uss) :
    ∃ xss : List (List Token),
      Spells false ((Sheet.ofElements es).text indent).toList xss.flatten ∧
        Respaces [.simple .endOfLine] uss xss := by
  obtain ⟨usss, vss, hlines, hlast, rfl⟩ := exists_reads_ofElements h
  obtain ⟨depth, ht⟩ := @toList_text_ofElements indent (Sheet.ofElements es)
  rw [ht]
  rcases withoutFinalBlank_cases (String.ofList (linesText indent 0 (Sheet.ofElements es).lines ++
    ((Sheet.ofElements es).last.text indent depth).toList)) with hw | ⟨v, hv, hw⟩
  · obtain ⟨xss, hs, hr, -⟩ := spells_lines hi hlines 0
    rw [hw, String.toList_ofList]
    refine ⟨xss ++ vss, ?_, hr (Respaces.refl _ vss)⟩
    rw [List.flatten_append]
    apply hs
    simpa using @spells_line _ _ [] _ [] hi hlast depth nofun fun _ => .done
  · rw [String.toList_ofList] at hv
    rw [hw]
    by_cases hne : (Sheet.ofElements es).last = []
    · rw [hne] at hv hlast
      obtain rfl := List.forall₂_nil_left_iff.mp hlast
      obtain ⟨xss, hs, hr⟩ :=
        spells_withoutFinalBlank hi hlines (by simpa [Line.text] using hv)
      exact ⟨xss, hs, by simpa using hr⟩
    · obtain ⟨u, c, hu, hc⟩ := exists_last_text hlast hne depth
      rw [hu, ← List.append_assoc, List.append_cons v] at hv
      exact absurd (List.cons.inj (List.append_inj_right' hv rfl)).1 hc

theorem composes_flatten (h : List.Forall₂ (fun us t => Composes us [t]) uss ts) :
    Composes uss.flatten ts := by
  induction h with
  | nil => exact .nil
  | cons hc _ ih => exact hc.append ih

theorem composes_endOfLine_iff {t : Token} :
    Composes [.simple .endOfLine] [t] ↔ t = .simple .endOfLine := by
  constructor
  · intro h
    cases h
    rfl
  · rintro rfl
    exact composes_endOfLine

/-- The text of a sheet is read as the phrases of its elements, but for line ends that say nothing
more. -/
theorem spells_sheet {es : List Element} (hi : IsGap indent.toList)
    (h : List.Forall₂ Element.Says es ts) :
    ∃ us vs, Spells false ((Sheet.ofElements es).text indent).toList us ∧ Composes us vs ∧
      Respaces (.simple .endOfLine) ts vs := by
  obtain ⟨uss, hu, hc⟩ : ∃ uss, List.Forall₂ Element.Reads es uss ∧
      List.Forall₂ (fun us t => Composes us [t]) uss ts := by
    induction h with
    | nil => exact ⟨[], .nil, .nil⟩
    | cons he _ ih =>
      obtain ⟨us, hu, hc⟩ := he.exists_reads
      obtain ⟨uss, hus, hcs⟩ := ih
      exact ⟨us :: uss, .cons hu hus, .cons hc hcs⟩
  obtain ⟨xss, hs, hr⟩ := reads_sheet hi hu
  obtain ⟨vs, hv, hr⟩ := hr.exists_forall₂ (fun _ => composes_endOfLine_iff) hc
  exact ⟨xss.flatten, vs, hs, composes_flatten hv, hr⟩

end QbScript
