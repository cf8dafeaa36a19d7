import Mathlib
import QbScript.Path

/-!
# Paths taken apart

A path is its start, the directory, a separation, the last name and what stands for nothing after
it. A name that is put in the directory of a path is the last name of the new path, in the same
directory.
-/

set_option autoImplicit false

namespace QbScript

namespace Path

variable {p r b name dir : List Char} {parts : Parts}

structure IsName (name : List Char) : Prop where
  ne_nil : name ≠ []
  ne_dot : name ≠ ['.']
  slash_notMem : '/' ∉ name

/-- The path, written backwards, has nothing at its end that stands for nothing. -/
def IsTrimmed (r : List Char) : Prop :=
  r = [] ∨ (r.takeWhile (· ≠ '/') ≠ [] ∧ r.takeWhile (· ≠ '/') ≠ ['.'])

/-- The first component of what is written, and what comes after it. -/
theorem exists_component (r : List Char) :
    ∃ rest, r = r.takeWhile (· ≠ '/') ++ rest ∧ r.drop (r.takeWhile (· ≠ '/')).length = rest ∧
      '/' ∉ r.takeWhile (· ≠ '/') ∧ (rest = [] ∨ rest.head? = some '/') := by
  have hsplit := List.takeWhile_append_dropWhile (p := (· ≠ '/')) (l := r)
  have hstop := @List.head?_dropWhile_not _ (· ≠ '/') r
  have hslash : '/' ∉ r.takeWhile (· ≠ '/') := by
    intro hmem
    have hno := List.mem_takeWhile_imp hmem
    simp at hno
  generalize r.takeWhile (· ≠ '/') = name at hsplit hslash ⊢
  generalize r.dropWhile (· ≠ '/') = rest at hsplit hstop
  subst hsplit
  refine ⟨rest, rfl, List.drop_left, hslash, ?_⟩
  cases rest with
  | nil => exact Or.inl rfl
  | cons c rest => exact Or.inr (by simpa using hstop)

theorem isTrimmed_trimReversed (r : List Char) : IsTrimmed (trimReversed r) := by
  fun_induction trimReversed r with
  | case1 => exact Or.inl rfl
  | case2 r name h c rest hr hlt ih => exact ih
  | case3 r name h => exact Or.inr (not_or.mp h)

theorem IsTrimmed.trimReversed_eq (h : IsTrimmed r) : trimReversed r = r := by
  rcases h with rfl | h
  · unfold trimReversed
    rfl
  · unfold trimReversed
    exact if_neg (not_or.mpr h)

/-- What is taken away from a path is cut off at a slash. -/
theorem exists_append_trimReversed (r : List Char) :
    ∃ x, r = x ++ trimReversed r ∧
      (x = [] ∨ trimReversed r = [] ∨ x.getLast? = some '/') := by
  fun_induction trimReversed r with
  | case1 r => exact ⟨r, (List.append_nil r).symm, Or.inr (Or.inl rfl)⟩
  | case2 r name h c rest hr hlt ih =>
    obtain ⟨x, hx, hend⟩ := ih
    obtain ⟨after, hsplit, hdrop, -, hstop⟩ := exists_component r
    obtain rfl : after = c :: rest := hdrop.symm.trans hr
    obtain rfl : c = '/' := by simpa using hstop
    refine ⟨name ++ '/' :: x, ?_, ?_⟩
    · rw [List.append_assoc, List.cons_append, ← hx]
      exact hsplit
    · rcases hend with rfl | hend | hend
      · exact Or.inr (Or.inr (by simp))
      · exact Or.inr (Or.inl hend)
      · refine Or.inr (Or.inr ?_)
        rw [List.getLast?_append, List.getLast?_cons, hend]
        rfl
  | case3 r name h => exact ⟨[], rfl, Or.inl rfl⟩

/-- The start of a path, and what comes after it. -/
theorem exists_lead (p : List Char) :
    ∃ b, p = lead p ++ b ∧
      (lead p = ['/'] ∨ (lead p = ['.'] ∧ (b = [] ∨ b.head? = some '/')) ∨
        (lead p = [] ∧ b.head? ≠ some '/' ∧ ¬ ['.', '/'] <+: b)) := by
  unfold lead
  split
  · exact ⟨_, rfl, Or.inl rfl⟩
  · exact ⟨[], rfl, Or.inr (Or.inl ⟨rfl, Or.inl rfl⟩)⟩
  · exact ⟨_, rfl, Or.inr (Or.inl ⟨rfl, Or.inr rfl⟩)⟩
  · rename_i h1 _ h3
    refine ⟨p, rfl, Or.inr (Or.inr ⟨rfl, ?_, ?_⟩)⟩
    · intro h
      obtain ⟨rest, rfl⟩ : ∃ rest, p = '/' :: rest := by
        cases p with
        | nil => cases h
        | cons c rest => exact ⟨rest, by rw [Option.some.inj h]⟩
      exact h1 rest rfl
    · rintro ⟨rest, rfl⟩
      exact h3 rest rfl

/-- The parts of a path in the order they are written: its start, the directory, what separates the
name from it, the name, and an end that stands for nothing. -/
theorem exists_of_parts? (h : parts? p = some parts) :
    ∃ b sep rest, p = lead p ++ (b ++ (sep ++ (parts.name ++ rest))) ∧
      parts.parent = lead p ++ b ∧ parts.before = lead p ++ (b ++ sep) ∧ IsName parts.name ∧
      IsTrimmed b.reverse ∧ (b = [] ∨ sep.head? = some '/') := by
  unfold parts? at h
  obtain ⟨body, hp, -⟩ := exists_lead p
  have hbody : p.drop (lead p).length = body :=
    (congrArg (List.drop (lead p).length) hp).trans List.drop_left
  rw [hbody] at h
  obtain ⟨x, hx, -⟩ := exists_append_trimReversed body.reverse
  have htrim := isTrimmed_trimReversed body.reverse
  generalize trimReversed body.reverse = r at h hx htrim
  cases r with
  | nil => cases h
  | cons c cs =>
    obtain ⟨hne, hdot⟩ := htrim.resolve_left (List.cons_ne_nil _ _)
    obtain rfl := Option.some.inj h
    obtain ⟨after, hsplit, hdrop, hslash, hstop⟩ := exists_component (c :: cs)
    generalize (c :: cs).takeWhile (· ≠ '/') = name at hne hdot hsplit hdrop hslash
    have hname : IsName name.reverse := by
      refine ⟨by simpa using hne, ?_, by simpa using hslash⟩
      intro hrev
      exact hdot (by simpa using congrArg List.reverse hrev)
    have hpath : body = after.reverse ++ (name.reverse ++ x.reverse) := by
      have hrev := congrArg List.reverse hx
      rw [hsplit] at hrev
      simpa using hrev
    dsimp only
    rw [← List.drop_drop, hdrop]
    cases after with
    | nil =>
      refine ⟨[], [], x.reverse, ?_, ?_, ?_, hname, Or.inl rfl, Or.inl rfl⟩
      · rw [← hpath.trans (List.nil_append _)]
        exact hp
      · have hnil : IsTrimmed [] := Or.inl rfl
        rw [List.drop_nil, hnil.trimReversed_eq]
        rfl
      · rfl
    | cons s rest =>
      obtain rfl : s = '/' := by simpa using hstop
      obtain ⟨y, hy, hend⟩ := exists_append_trimReversed rest
      have htrim := isTrimmed_trimReversed rest
      rw [List.drop_one, List.tail_cons]
      refine ⟨(trimReversed rest).reverse, y.reverse ++ ['/'], x.reverse, ?_, rfl, ?_, hname, ?_, ?_⟩
      · rw [hpath] at hp
        conv_lhs => rw [hp, hy]
        simp
      · conv_lhs => rw [hy]
        simp
      · rwa [List.reverse_reverse]
      · rcases hend with rfl | hend | hend
        · exact Or.inr rfl
        · exact Or.inl (by rw [hend]; rfl)
        · refine Or.inr ?_
          rw [List.head?_append, List.head?_reverse, hend]
          rfl

/-- A path whose parts are written in order, with one slash between the directory and the name. -/
theorem parts?_of_written {l sep : List Char} (hl : lead (l ++ (b ++ (sep ++ name))) = l)
    (hb : IsTrimmed b.reverse) (hn : IsName name) (hsep : (sep = [] ∧ b = []) ∨ sep = ['/']) :
    parts? (l ++ (b ++ (sep ++ name))) = some ⟨l ++ b, l ++ (b ++ sep), name⟩ := by
  have hrev : ((l ++ (b ++ (sep ++ name))).drop l.length).reverse =
      name.reverse ++ (sep.reverse ++ b.reverse) := by
    rw [List.drop_left]
    simp
  have hfirst : (name.reverse ++ (sep.reverse ++ b.reverse)).takeWhile (· ≠ '/') =
      name.reverse := by
    rw [List.takeWhile_append_of_pos]
    · rcases hsep with ⟨rfl, rfl⟩ | rfl
      · simp
      · simp
    · intro c hc
      have hne : c ≠ '/' := by
        rintro rfl
        exact hn.slash_notMem (List.mem_reverse.mp hc)
      simpa using hne
  have htrim : IsTrimmed (name.reverse ++ (sep.reverse ++ b.reverse)) := by
    right
    rw [hfirst]
    refine ⟨by simpa using hn.ne_nil, fun hdot => hn.ne_dot ?_⟩
    simpa using congrArg List.reverse hdot
  unfold parts?
  rw [hl, hrev, htrim.trimReversed_eq]
  split
  · rename_i hnil
    have hempty : name.reverse = [] := (List.append_eq_nil_iff.mp hnil).1
    exact absurd (List.reverse_eq_nil_iff.mp hempty) hn.ne_nil
  · rename_i hne
    simp only [hfirst, List.reverse_reverse, List.drop_left]
    rw [← List.drop_drop, List.drop_left]
    rcases hsep with ⟨rfl, rfl⟩ | rfl
    · have hnil : IsTrimmed [] := Or.inl rfl
      simp [hnil.trimReversed_eq]
    · simp [hb.trimReversed_eq]

theorem IsTrimmed.getLast?_ne (h : IsTrimmed b.reverse) : b.getLast? ≠ some '/' := by
  intro hlast
  rw [← List.head?_reverse] at hlast
  rcases h with h | ⟨h, -⟩
  · rw [h] at hlast
    cases hlast
  · cases hr : b.reverse with
    | nil =>
      rw [hr] at hlast
      cases hlast
    | cons c cs =>
      rw [hr] at hlast h
      obtain rfl := Option.some.inj hlast
      exact h rfl

theorem IsTrimmed.ne_dot (h : IsTrimmed b.reverse) : b ≠ ['.'] := by
  rintro rfl
  rcases h with h | ⟨-, h⟩
  · cases h
  · exact h rfl

theorem lead_name (hn : IsName name) : lead name = [] := by
  unfold lead
  split
  · exact absurd List.mem_cons_self hn.slash_notMem
  · exact absurd rfl hn.ne_dot
  · exact absurd (List.mem_cons_of_mem _ List.mem_cons_self) hn.slash_notMem
  · rfl

/-- A name in the directory of a path is written after it, and the start of the path stays. -/
theorem exists_join (h : parts? p = some parts) (hn : IsName name) :
    ∃ b sep, join parts.parent name = lead p ++ (b ++ (sep ++ name)) ∧
      parts.parent = lead p ++ b ∧ lead (join parts.parent name) = lead p ∧
      IsTrimmed b.reverse ∧ ((sep = [] ∧ b = []) ∨ sep = ['/']) := by
  obtain ⟨b, sep, rest, hp, hparent, -, -, htrim, -⟩ := exists_of_parts? h
  obtain ⟨body, hp', hlead⟩ := exists_lead p
  have hbody : body = b ++ (sep ++ (parts.name ++ rest)) :=
    List.append_cancel_left (hp'.symm.trans hp)
  have hlast := htrim.getLast?_ne
  have hjoin (hd : lead p ++ b ≠ []) (hl : (lead p ++ b).getLast? ≠ some '/') :
      join (lead p ++ b) name = lead p ++ (b ++ (['/'] ++ name)) := by
    rw [join, if_neg (not_or.mpr ⟨hd, hl⟩)]
    simp
  rw [hparent]
  rcases hlead with hlead | ⟨hlead, hstart⟩ | ⟨hlead, hstart, hdots⟩
  · rw [hlead] at hjoin ⊢
    cases b with
    | nil => exact ⟨[], [], rfl, rfl, rfl, htrim, Or.inl ⟨rfl, rfl⟩⟩
    | cons c cs =>
      have hl : (['/'] ++ c :: cs).getLast? ≠ some '/' := by
        rwa [List.singleton_append, List.getLast?_cons_cons]
      rw [hjoin (by simp) hl]
      exact ⟨c :: cs, ['/'], rfl, rfl, rfl, htrim, Or.inr rfl⟩
  · rw [hlead] at hjoin ⊢
    have hl : (['.'] ++ b).getLast? ≠ some '/' := by
      cases b with
      | nil => simp
      | cons c cs => rwa [List.singleton_append, List.getLast?_cons_cons]
    rw [hjoin (by simp) hl]
    refine ⟨b, ['/'], rfl, rfl, ?_, htrim, Or.inr rfl⟩
    cases b with
    | nil => rfl
    | cons c cs =>
      obtain rfl : c = '/' := by
        rcases hstart with hstart | hstart
        · rw [hbody] at hstart
          cases hstart
        · rw [hbody] at hstart
          exact Option.some.inj hstart
      rfl
  · rw [hlead] at hjoin ⊢
    rw [List.nil_append] at hjoin ⊢
    cases b with
    | nil =>
      exact ⟨[], [], rfl, rfl, lead_name hn, htrim, Or.inl ⟨rfl, rfl⟩⟩
    | cons c cs =>
      rw [hjoin (by simp) hlast]
      refine ⟨c :: cs, ['/'], rfl, rfl, ?_, htrim, Or.inr rfl⟩
      show lead (c :: cs ++ (['/'] ++ name)) = []
      unfold lead
      split
      · rename_i heq
        obtain ⟨rfl, -⟩ := List.cons.inj heq
        exact absurd (by rw [hbody]; rfl) hstart
      · rename_i heq
        simp at heq
      · rename_i heq
        obtain ⟨rfl, htail⟩ := List.cons.inj heq
        cases cs with
        | nil => exact absurd rfl htrim.ne_dot
        | cons d ds =>
          obtain rfl : d = '/' := (List.cons.inj htail).1
          exact absurd ⟨_, by rw [hbody]; rfl⟩ hdots
      · rfl

theorem join_eq_append (dir name : List Char) : join dir name = join dir [] ++ name := by
  unfold join
  split <;> simp

/-- A name that is put in the directory of a path is the last one there. -/
theorem parts?_join (h : parts? p = some parts) (hn : IsName name) :
    parts? (join parts.parent name) = some ⟨parts.parent, join parts.parent [], name⟩ := by
  obtain ⟨b, sep, hjoin, hparent, hlead, htrim, hsep⟩ := exists_join h hn
  have hbefore : join parts.parent [] = lead p ++ (b ++ sep) := by
    rw [join_eq_append] at hjoin
    have hname : join parts.parent [] ++ name = lead p ++ (b ++ sep) ++ name := by
      simpa using hjoin
    exact List.append_cancel_right hname
  rw [hbefore]
  rw [hjoin] at hlead ⊢
  rw [parts?_of_written hlead htrim hn hsep, hparent]

theorem file?_eq_some_iff :
    file? p = some parts ↔ parts? p = some parts ∧ parts.name ≠ ['.', '.'] := by
  simp [file?, Option.filter_eq_some_iff]

end Path

end QbScript
