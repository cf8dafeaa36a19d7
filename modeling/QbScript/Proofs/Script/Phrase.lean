import QbScript.Proofs.Source.Lexeme

/-!
# Phrases and the tokens they gather

A grammar of pairs, vectors and lists of weights. The phrases of a script without a fault are the
tokens that this grammar makes of its lexemes, and no others.
-/

set_option autoImplicit false

namespace QbScript

namespace Phrase

/-- The tokens after an opening parenthesis up to the closing one, and the weights that they list.
A comma may stand before the closing parenthesis. -/
inductive WeightList : List Token → List UInt16 → Prop
  | close : WeightList [.simple .closeParenth] []
  | last {u : Token} {w : UInt16} (hw : weight? u = some w) :
      WeightList [u, .simple .closeParenth] [w]
  | more {u : Token} {w : UInt16} {us : List Token} {ws : List UInt16} (hw : weight? u = some w)
      (h : WeightList us ws) : WeightList (u :: .simple .comma :: us) (w :: ws)

def StartsList : Token → Prop
  | .simple tag => tag = .pair ∨ tag = .vector ∨ tag.isRandomHeader
  | _ => False

/-- The tokens of a script, and the same with every list made one token. -/
inductive Composes : List Token → List Token → Prop
  | nil : Composes [] []
  | pair {u v : Token} {x y : Binary32} {us ts : List Token} (hx : real? u = some x)
      (hy : real? v = some y) (h : Composes us ts) :
      Composes (.simple .pair :: .simple .openParenth :: u :: .simple .comma :: v ::
        .simple .closeParenth :: us) (.pair x y :: ts)
  | vector {u v w : Token} {x y z : Binary32} {us ts : List Token} (hx : real? u = some x)
      (hy : real? v = some y) (hz : real? w = some z) (h : Composes us ts) :
      Composes (.simple .vector :: .simple .openParenth :: u :: .simple .comma :: v ::
        .simple .comma :: w :: .simple .closeParenth :: us) (.vector x y z :: ts)
  | random {tag : Tag} {ls us ts : List Token} {ws : List UInt16} (ht : tag.isRandomHeader)
      (hw : WeightList ls ws) (h : Composes us ts) :
      Composes (.simple tag :: .simple .openParenth :: ls ++ us)
        (.random tag ws (List.replicate ws.length 0) :: ts)
  | other {t : Token} {us ts : List Token} (ht : ¬ StartsList t) (h : Composes us ts) :
      Composes (t :: us) (t :: ts)

variable {last : Nat} {tag : Tag} {slots : List Slot} {ls rest : List Lexeme} {xs : List Binary32}

theorem fill_sign_eq_ok_iff :
    fill last (.sign tag :: slots) ls = .ok (xs, rest) ↔
      ∃ l ls', ls = l :: ls' ∧ l.token = .simple tag ∧
        fill l.span.start slots ls' = .ok (xs, rest) := by
  cases ls with
  | nil => simp [fill]
  | cons l ls' =>
    rw [fill]
    split
    · rename_i ht
      simp [ht]
    · rename_i ht
      simp [ht]

theorem fill_number_eq_ok_iff :
    fill last (.number :: slots) ls = .ok (xs, rest) ↔
      ∃ l ls' x xs', ls = l :: ls' ∧ real? l.token = some x ∧ xs = x :: xs' ∧
        fill l.span.start slots ls' = .ok (xs', rest) := by
  cases ls with
  | nil => simp [fill]
  | cons l ls' =>
    rw [fill]
    cases hx : real? l.token with
    | none => simp [hx]
    | some x =>
      simp only [map_eq_ok_iff]
      constructor
      · rintro ⟨⟨xs', rest'⟩, hf, he⟩
        obtain ⟨rfl, rfl⟩ := Prod.mk.inj he
        exact ⟨l, ls', x, xs', rfl, hx, rfl, hf⟩
      · rintro ⟨m, ms, x', xs', he, hx', rfl, hf⟩
        obtain ⟨rfl, rfl⟩ := List.cons.inj he
        obtain rfl := Option.some.inj (hx.symm.trans hx')
        exact ⟨(xs', rest), hf, rfl⟩

theorem fill_nil_eq_ok_iff : fill last [] ls = .ok (xs, rest) ↔ xs = [] ∧ rest = ls := by
  simp only [fill, Except.ok.injEq, Prod.mk.injEq]
  tauto

theorem fill_pairForm_eq_ok_iff :
    fill last pairForm ls = .ok (xs, rest) ↔
      ∃ l u m v n x y, ls = l :: u :: m :: v :: n :: rest ∧ l.token = .simple .openParenth ∧
        real? u.token = some x ∧ m.token = .simple .comma ∧ real? v.token = some y ∧
        n.token = .simple .closeParenth ∧ xs = [x, y] := by
  simp only [pairForm, fill_sign_eq_ok_iff, fill_number_eq_ok_iff, fill_nil_eq_ok_iff]
  constructor
  · rintro ⟨l, _, rfl, hl, u, _, x, _, rfl, hx, rfl, m, _, rfl, hm, v, _, y, _, rfl, hy, rfl, n, _,
      rfl, hn, rfl, rfl⟩
    exact ⟨l, u, m, v, n, x, y, rfl, hl, hx, hm, hy, hn, rfl⟩
  · rintro ⟨l, u, m, v, n, x, y, rfl, hl, hx, hm, hy, hn, rfl⟩
    exact ⟨l, _, rfl, hl, u, _, x, _, rfl, hx, rfl, m, _, rfl, hm, v, _, y, _, rfl, hy, rfl, n, _,
      rfl, hn, rfl, rfl⟩

theorem fill_vectorForm_eq_ok_iff :
    fill last vectorForm ls = .ok (xs, rest) ↔
      ∃ l u m v n w o x y z, ls = l :: u :: m :: v :: n :: w :: o :: rest ∧
        l.token = .simple .openParenth ∧ real? u.token = some x ∧ m.token = .simple .comma ∧
        real? v.token = some y ∧ n.token = .simple .comma ∧ real? w.token = some z ∧
        o.token = .simple .closeParenth ∧ xs = [x, y, z] := by
  simp only [vectorForm, fill_sign_eq_ok_iff, fill_number_eq_ok_iff, fill_nil_eq_ok_iff]
  constructor
  · rintro ⟨l, _, rfl, hl, u, _, x, _, rfl, hx, rfl, m, _, rfl, hm, v, _, y, _, rfl, hy, rfl, n, _,
      rfl, hn, w, _, z, _, rfl, hz, rfl, o, _, rfl, ho, rfl, rfl⟩
    exact ⟨l, u, m, v, n, w, o, x, y, z, rfl, hl, hx, hm, hy, hn, hz, ho, rfl⟩
  · rintro ⟨l, u, m, v, n, w, o, x, y, z, rfl, hl, hx, hm, hy, hn, hz, ho, rfl⟩
    exact ⟨l, _, rfl, hl, u, _, x, _, rfl, hx, rfl, m, _, rfl, hm, v, _, y, _, rfl, hy, rfl, n, _,
      rfl, hn, w, _, z, _, rfl, hz, rfl, o, _, rfl, ho, rfl, rfl⟩

theorem weightList_of_weightsUpToClose {ws : List UInt16}
    (h : weightsUpToClose last ls = .ok (ws, rest)) :
    ∃ us, ls.map Lexeme.token = us ++ rest.map Lexeme.token ∧ WeightList us ws := by
  fun_induction weightsUpToClose last ls generalizing ws rest with
  | case1 => simp at h
  | case2 last l ls hl =>
    obtain ⟨rfl, rfl⟩ := Prod.mk.inj (Except.ok.inj h)
    exact ⟨[.simple .closeParenth], by simp [hl], .close⟩
  | case3 => simp at h
  | case4 => simp at h
  | case5 last l hl w m tail hw hm =>
    obtain ⟨rfl, rfl⟩ := Prod.mk.inj (Except.ok.inj h)
    exact ⟨[l.token, .simple .closeParenth], by simp [hm], .last hw⟩
  | case6 last l hl w m tail hw hm hc ih =>
    obtain ⟨⟨ws', rest'⟩, hf, he⟩ := map_eq_ok_iff.mp h
    obtain ⟨rfl, rfl⟩ := Prod.mk.inj he
    obtain ⟨us, hus, hwl⟩ := ih hf
    exact ⟨l.token :: .simple .comma :: us, by simp [hc, hus], .more hw hwl⟩
  | case7 => simp at h

theorem exists_cons_of_map_token {t : Token} {ts : List Token}
    (h : ls.map Lexeme.token = t :: ts) :
    ∃ l ls', ls = l :: ls' ∧ l.token = t ∧ ls'.map Lexeme.token = ts := by
  obtain ⟨l, ls', rfl, hl, hls⟩ := List.map_eq_cons_iff.mp h
  exact ⟨l, ls', rfl, hl, hls⟩

theorem weightsUpToClose_of_weightList {us vs : List Token} {ws : List UInt16}
    (hw : WeightList us ws) (h : ls.map Lexeme.token = us ++ vs) :
    ∃ rest, weightsUpToClose last ls = .ok (ws, rest) ∧ rest.map Lexeme.token = vs := by
  have hne : ∀ {u w}, weight? u = some w → u ≠ .simple .closeParenth := by
    rintro u w hu rfl
    cases hu
  induction hw generalizing ls last with
  | close =>
    obtain ⟨l, rest, rfl, hl, hrest⟩ := exists_cons_of_map_token h
    refine ⟨rest, ?_, hrest⟩
    unfold weightsUpToClose
    rw [if_pos hl]
  | last hu =>
    obtain ⟨l, ls', rfl, rfl, h'⟩ := exists_cons_of_map_token h
    obtain ⟨m, rest, rfl, hm, hrest⟩ := exists_cons_of_map_token h'
    refine ⟨rest, ?_, hrest⟩
    unfold weightsUpToClose
    rw [if_neg (hne hu)]
    simp [hu, hm]
  | more hu _ ih =>
    obtain ⟨l, ls', rfl, rfl, h'⟩ := exists_cons_of_map_token h
    obtain ⟨m, ms, rfl, hm, h''⟩ := exists_cons_of_map_token h'
    obtain ⟨rest, hr, hrest⟩ := @ih m.span.start _ h''
    refine ⟨rest, ?_, hrest⟩
    unfold weightsUpToClose
    rw [if_neg (hne hu)]
    simp [hu, hm, hr]

theorem weights_eq_ok_iff {ws : List UInt16} :
    weights last ls = .ok (ws, rest) ↔
      ∃ l ls', ls = l :: ls' ∧ l.token = .simple .openParenth ∧
        weightsUpToClose l.span.start ls' = .ok (ws, rest) := by
  unfold weights
  rw [bind_eq_ok_iff]
  constructor
  · rintro ⟨⟨xs, ls'⟩, hf, hw⟩
    obtain ⟨l, ls'', rfl, hl, hf⟩ := fill_sign_eq_ok_iff.mp hf
    obtain ⟨rfl, rfl⟩ := fill_nil_eq_ok_iff.mp hf
    exact ⟨l, ls', rfl, hl, hw⟩
  · rintro ⟨l, ls', rfl, hl, hw⟩
    exact ⟨([], ls'), fill_sign_eq_ok_iff.mpr ⟨l, ls', rfl, hl, rfl⟩, hw⟩

/-- One gathering makes one token of the grammar. -/
theorem composes_of_gather {l : Lexeme} {t : Token} {ts : List Token}
    (h : gather l ls = .ok (t, rest)) (hc : Composes (rest.map Lexeme.token) ts) :
    Composes (l.token :: ls.map Lexeme.token) (t :: ts) := by
  unfold gather at h
  split at h
  · rename_i hl
    obtain ⟨⟨xs, rest'⟩, hf, he⟩ := map_eq_ok_iff.mp h
    obtain ⟨rfl, rfl⟩ := Prod.mk.inj he
    obtain ⟨p, u, m, v, n, x, y, rfl, hp, hx, hm, hy, hn, rfl⟩ := fill_pairForm_eq_ok_iff.mp hf
    simpa [hl, hp, hm, hn] using Composes.pair hx hy hc
  · rename_i hl
    obtain ⟨⟨xs, rest'⟩, hf, he⟩ := map_eq_ok_iff.mp h
    obtain ⟨rfl, rfl⟩ := Prod.mk.inj he
    obtain ⟨p, u, m, v, n, w, o, x, y, z, rfl, hp, hx, hm, hy, hn, hz, ho, rfl⟩ :=
      fill_vectorForm_eq_ok_iff.mp hf
    simpa [hl, hp, hm, hn, ho] using Composes.vector hx hy hz hc
  · rename_i tag h1 h2 hl
    split at h
    · rename_i htag
      obtain ⟨⟨ws, rest'⟩, hw, he⟩ := map_eq_ok_iff.mp h
      obtain ⟨rfl, rfl⟩ := Prod.mk.inj he
      obtain ⟨p, ls', rfl, hp, hw⟩ := weights_eq_ok_iff.mp hw
      obtain ⟨us, hus, hwl⟩ := weightList_of_weightsUpToClose hw
      simpa [hl, hp, hus] using Composes.random htag hwl hc
    · rename_i htag
      obtain ⟨rfl, rfl⟩ := Prod.mk.inj (Except.ok.inj h)
      rw [hl]
      refine .other ?_ hc
      rintro (rfl | rfl | hr)
      · exact h1 rfl
      · exact h2 rfl
      · exact htag hr
  · rename_i hl
    obtain ⟨rfl, rfl⟩ := Prod.mk.inj (Except.ok.inj h)
    refine .other ?_ hc
    intro hs
    unfold StartsList at hs
    split at hs
    · rename_i tag htag
      exact hl tag htag
    · exact hs

theorem gather_of_composes {l : Lexeme} {ts : List Token}
    (h : Composes (l.token :: ls.map Lexeme.token) ts) :
    ∃ t ts' rest, ts = t :: ts' ∧ gather l ls = .ok (t, rest) ∧
      Composes (rest.map Lexeme.token) ts' := by
  generalize hus : l.token :: ls.map Lexeme.token = us at h
  cases h with
  | nil => cases hus
  | pair hx hy hc =>
    obtain ⟨hl, h₁⟩ := List.cons.inj hus
    obtain ⟨p, ls₁, rfl, hp, h₂⟩ := exists_cons_of_map_token h₁
    obtain ⟨u, ls₂, rfl, rfl, h₃⟩ := exists_cons_of_map_token h₂
    obtain ⟨m, ls₃, rfl, hm, h₄⟩ := exists_cons_of_map_token h₃
    obtain ⟨v, ls₄, rfl, rfl, h₅⟩ := exists_cons_of_map_token h₄
    obtain ⟨n, rest, rfl, hn, rfl⟩ := exists_cons_of_map_token h₅
    refine ⟨_, _, rest, rfl, ?_, hc⟩
    unfold gather
    rw [hl]
    dsimp only
    rw [fill_pairForm_eq_ok_iff.mpr ⟨p, u, m, v, n, _, _, rfl, hp, hx, hm, hy, hn, rfl⟩]
    rfl
  | vector hx hy hz hc =>
    obtain ⟨hl, h₁⟩ := List.cons.inj hus
    obtain ⟨p, ls₁, rfl, hp, h₂⟩ := exists_cons_of_map_token h₁
    obtain ⟨u, ls₂, rfl, rfl, h₃⟩ := exists_cons_of_map_token h₂
    obtain ⟨m, ls₃, rfl, hm, h₄⟩ := exists_cons_of_map_token h₃
    obtain ⟨v, ls₄, rfl, rfl, h₅⟩ := exists_cons_of_map_token h₄
    obtain ⟨n, ls₅, rfl, hn, h₆⟩ := exists_cons_of_map_token h₅
    obtain ⟨w, ls₆, rfl, rfl, h₇⟩ := exists_cons_of_map_token h₆
    obtain ⟨o, rest, rfl, ho, rfl⟩ := exists_cons_of_map_token h₇
    refine ⟨_, _, rest, rfl, ?_, hc⟩
    unfold gather
    rw [hl]
    dsimp only
    rw [fill_vectorForm_eq_ok_iff.mpr
      ⟨p, u, m, v, n, w, o, _, _, _, rfl, hp, hx, hm, hy, hn, hz, ho, rfl⟩]
    rfl
  | @random tag us vs _ ws htag hw hc =>
    obtain ⟨hl, h⟩ := List.cons.inj hus
    obtain ⟨p, ls', rfl, hp, h⟩ := exists_cons_of_map_token h
    obtain ⟨rest, hr, rfl⟩ := @weightsUpToClose_of_weightList p.span.start _ _ _ _ hw h
    refine ⟨_, _, rest, rfl, ?_, hc⟩
    have hw := (@weights_eq_ok_iff l.span.start _ _ _).mpr ⟨p, ls', rfl, hp, hr⟩
    revert htag
    cases tag <;> intro htag <;> first
      | exact absurd htag (by decide)
      | simp only [gather, hl, hw, Tag.isRandomHeader, if_true, map_ok]
  | other ht hc =>
    obtain ⟨rfl, rfl⟩ := List.cons.inj hus
    refine ⟨_, _, ls, rfl, ?_, hc⟩
    unfold gather
    split
    · rename_i hl
      exact absurd (show StartsList l.token by rw [hl]; exact Or.inl rfl) ht
    · rename_i hl
      exact absurd (show StartsList l.token by rw [hl]; exact Or.inr (Or.inl rfl)) ht
    · rename_i tag _ _ hl
      rw [if_neg, hl]
      intro hr
      exact ht (by rw [hl]; exact Or.inr (Or.inr hr))
    · rfl

theorem gatherFrom_nil (done : List Phrase) : gatherFrom done [] = ⟨done.reverse, none⟩ := by
  rw [gatherFrom]

theorem gatherFrom_cons_ok {done : List Phrase} {l : Lexeme} {t : Token}
    (h : gather l ls = .ok (t, rest)) :
    gatherFrom done (l :: ls) = gatherFrom (⟨t, l.span.start⟩ :: done) rest := by
  rw [gatherFrom]
  split
  · simp_all
  · rename_i t' rest' h'
    obtain ⟨rfl, rfl⟩ := Prod.mk.inj (Except.ok.inj (h'.symm.trans h))
    rfl

theorem gatherFrom_cons_error {done : List Phrase} {l : Lexeme} {e : Fault}
    (h : gather l ls = .error e) : gatherFrom done (l :: ls) = ⟨done.reverse, some e⟩ := by
  rw [gatherFrom]
  split
  · rename_i e' h'
    obtain rfl := Except.error.inj (h'.symm.trans h)
    rfl
  · simp_all

theorem composes_of_gatherFrom {done ps : List Phrase} (h : gatherFrom done ls = ⟨ps, none⟩) :
    ∃ qs, ps = done.reverse ++ qs ∧ Composes (ls.map Lexeme.token) (qs.map Phrase.token) := by
  suffices hall : ∀ n (done : List Phrase) (ls : List Lexeme), ls.length ≤ n →
      gatherFrom done ls = ⟨ps, none⟩ →
      ∃ qs, ps = done.reverse ++ qs ∧ Composes (ls.map Lexeme.token) (qs.map Phrase.token) from
    hall ls.length done ls le_rfl h
  intro n
  induction n with
  | zero =>
    intro done ls hn h
    obtain rfl := List.length_eq_zero_iff.mp (Nat.le_zero.mp hn)
    rw [gatherFrom_nil] at h
    exact ⟨[], by simpa using (congrArg Gathered.phrases h).symm, .nil⟩
  | succ n ih =>
    intro done ls hn h
    cases ls with
    | nil =>
      rw [gatherFrom_nil] at h
      exact ⟨[], by simpa using (congrArg Gathered.phrases h).symm, .nil⟩
    | cons l ls =>
      cases hg : gather l ls with
      | error e =>
        rw [gatherFrom_cons_error hg] at h
        cases congrArg Gathered.fault h
      | ok p =>
        obtain ⟨t, rest⟩ := p
        have hl := (suffix_of_gather hg).length_le
        rw [gatherFrom_cons_ok hg] at h
        obtain ⟨qs, rfl, hc⟩ := ih _ rest (by simp at hn; omega) h
        exact ⟨⟨t, l.span.start⟩ :: qs, by simp, composes_of_gather hg hc⟩

theorem gatherFrom_of_composes {ts : List Token} (h : Composes (ls.map Lexeme.token) ts)
    (done : List Phrase) :
    ∃ qs, gatherFrom done ls = ⟨done.reverse ++ qs, none⟩ ∧ qs.map Phrase.token = ts := by
  suffices hall : ∀ n (ls : List Lexeme) (ts : List Token) (done : List Phrase), ls.length ≤ n →
      Composes (ls.map Lexeme.token) ts →
      ∃ qs, gatherFrom done ls = ⟨done.reverse ++ qs, none⟩ ∧ qs.map Phrase.token = ts from
    hall ls.length ls ts done le_rfl h
  intro n
  induction n with
  | zero =>
    intro ls ts done hn h
    obtain rfl := List.length_eq_zero_iff.mp (Nat.le_zero.mp hn)
    cases h
    exact ⟨[], by simp [gatherFrom_nil], rfl⟩
  | succ n ih =>
    intro ls ts done hn h
    cases ls with
    | nil =>
      cases h
      exact ⟨[], by simp [gatherFrom_nil], rfl⟩
    | cons l ls =>
      obtain ⟨t, ts', rest, rfl, hg, hc⟩ := gather_of_composes h
      have hl := (suffix_of_gather hg).length_le
      obtain ⟨qs, hq, rfl⟩ := ih rest ts' (⟨t, l.span.start⟩ :: done) (by simp at hn; omega) hc
      exact ⟨⟨t, l.span.start⟩ :: qs, by simp [gatherFrom_cons_ok hg, hq], rfl⟩

theorem composes_of_ofLexemes (h : (ofLexemes ls).fault = none) :
    Composes (ls.map Lexeme.token) ((ofLexemes ls).phrases.map Phrase.token) := by
  have hg : gatherFrom [] ls = ⟨(ofLexemes ls).phrases, none⟩ := by
    rw [← h]
    rfl
  obtain ⟨qs, hq, hc⟩ := composes_of_gatherFrom hg
  rw [hq]
  exact hc

theorem ofLexemes_of_composes {ts : List Token} (h : Composes (ls.map Lexeme.token) ts) :
    (ofLexemes ls).fault = none ∧ (ofLexemes ls).phrases.map Phrase.token = ts := by
  obtain ⟨qs, hq, rfl⟩ := gatherFrom_of_composes h []
  rw [ofLexemes, hq]
  exact ⟨rfl, rfl⟩

theorem Composes.isPhrase {us ts : List Token} (h : Composes us ts) (hu : ∀ u ∈ us, u.IsLexeme) :
    ∀ t ∈ ts, t.IsPhrase := by
  induction h with
  | nil => simp
  | pair _ _ _ ih =>
    intro t ht
    rcases List.mem_cons.mp ht with rfl | ht
    · trivial
    · exact ih (fun u hm => hu u (by simp [hm])) t ht
  | vector _ _ _ _ ih =>
    intro t ht
    rcases List.mem_cons.mp ht with rfl | ht
    · trivial
    · exact ih (fun u hm => hu u (by simp [hm])) t ht
  | random htag _ _ ih =>
    intro t ht
    rcases List.mem_cons.mp ht with rfl | ht
    · exact ⟨htag, rfl⟩
    · exact ih (fun u hm => hu u (by simp [hm])) t ht
  | @other t us ts hs _ ih =>
    intro t' ht
    rcases List.mem_cons.mp ht with rfl | ht
    · have hl := hu t' List.mem_cons_self
      cases t' with
      | simple tag =>
        simp only [StartsList, not_or] at hs
        obtain ⟨hp, hv, hr⟩ := hs
        rcases hl with ⟨ha, hl | hl | hl | hl | hl | hl⟩
        · exact ⟨ha, Or.inl hl⟩
        · exact ⟨ha, Or.inr (Or.inl hl)⟩
        · exact ⟨ha, Or.inr (Or.inr hl)⟩
        · exact absurd hl hr
        · exact absurd hl hp
        · exact absurd hl hv
      | name | arg => exact hl
      | random | endOfLineNumber | jump | shortBranch | checksumName => exact hl.elim
      | _ => trivial
    · exact ih (fun u hm => hu u (List.mem_cons_of_mem _ hm)) t' ht

theorem Composes.append {us us' ts ts' : List Token} (h : Composes us ts)
    (h' : Composes us' ts') : Composes (us ++ us') (ts ++ ts') := by
  induction h with
  | nil => exact h'
  | pair hx hy _ ih => exact .pair hx hy ih
  | vector hx hy hz _ ih => exact .vector hx hy hz ih
  | random ht hw _ ih =>
    rw [List.append_assoc]
    exact .random ht hw ih
  | other ht _ ih => exact .other ht ih

theorem WeightList.append_inj {xs xs' ys ys' : List Token} {ws ws' : List UInt16}
    (h : WeightList xs ws) (h' : WeightList xs' ws') (he : xs ++ ys = xs' ++ ys') : ys = ys' := by
  have hclose : ∀ {w}, weight? (.simple .closeParenth) ≠ some w := by
    intro w hw
    cases hw
  induction h generalizing xs' ws' with
  | close =>
    cases h' with
    | close => exact List.append_cancel_left he
    | last hw | more hw => exact absurd ((List.cons.inj he).1 ▸ hw) hclose
  | last hw =>
    cases h' with
    | close => exact absurd ((List.cons.inj he).1 ▸ hw) hclose
    | last => exact (List.cons.inj (List.cons.inj he).2).2
    | more => cases (List.cons.inj (List.cons.inj he).2).1
  | more hw _ ih =>
    cases h' with
    | close => exact absurd ((List.cons.inj he).1 ▸ hw) hclose
    | last => cases (List.cons.inj (List.cons.inj he).2).1
    | more _ h' => exact ih h' (List.cons.inj (List.cons.inj he).2).2

variable {t : Token} {us ts : List Token}

theorem Composes.of_pair (h : Composes (.simple .pair :: us) ts) :
    ∃ u v x y us' ts', us = .simple .openParenth :: u :: .simple .comma :: v ::
      .simple .closeParenth :: us' ∧ real? u = some x ∧ real? v = some y ∧ Composes us' ts' := by
  generalize hxs : .simple .pair :: us = xs at h
  cases h with
  | nil | vector => cases hxs
  | pair hx hy h => exact ⟨_, _, _, _, _, _, (List.cons.inj hxs).2, hx, hy, h⟩
  | random ht =>
    obtain rfl := Token.simple.inj (List.cons.inj hxs).1
    cases ht
  | other ht => exact absurd (Or.inl rfl) ((List.cons.inj hxs).1 ▸ ht)

theorem Composes.of_vector (h : Composes (.simple .vector :: us) ts) :
    ∃ u v w x y z us' ts', us = .simple .openParenth :: u :: .simple .comma :: v ::
      .simple .comma :: w :: .simple .closeParenth :: us' ∧ real? u = some x ∧ real? v = some y ∧
        real? w = some z ∧ Composes us' ts' := by
  generalize hxs : .simple .vector :: us = xs at h
  cases h with
  | nil | pair => cases hxs
  | vector hx hy hz h => exact ⟨_, _, _, _, _, _, _, _, (List.cons.inj hxs).2, hx, hy, hz, h⟩
  | random ht =>
    obtain rfl := Token.simple.inj (List.cons.inj hxs).1
    cases ht
  | other ht => exact absurd (Or.inr (Or.inl rfl)) ((List.cons.inj hxs).1 ▸ ht)

theorem Composes.of_random (h : Composes (.simple tag :: us) ts) (ht : tag.isRandomHeader) :
    ∃ ls ws us' ts', us = .simple .openParenth :: (ls ++ us') ∧ WeightList ls ws ∧
      Composes us' ts' := by
  generalize hxs : .simple tag :: us = xs at h
  cases h with
  | nil => cases hxs
  | pair | vector =>
    obtain rfl := Token.simple.inj (List.cons.inj hxs).1
    cases ht
  | random _ hw h => exact ⟨_, _, _, _, (List.cons.inj hxs).2, hw, h⟩
  | other ht' => exact absurd (Or.inr (Or.inr ht)) ((List.cons.inj hxs).1 ▸ ht')

theorem Composes.of_other (h : Composes (t :: us) ts) (ht : ¬ StartsList t) :
    ∃ ts', Composes us ts' := by
  cases h with
  | pair => exact absurd (Or.inl rfl) ht
  | vector => exact absurd (Or.inr (Or.inl rfl)) ht
  | random ht' => exact absurd (Or.inr (Or.inr ht')) ht
  | other _ h => exact ⟨_, h⟩

/-- What a script goes on with after a script is a script. -/
theorem Composes.of_append {xs ys qs ts : List Token} (h : Composes xs qs)
    (h' : Composes (xs ++ ys) ts) : ∃ ts', Composes ys ts' := by
  induction h generalizing ts with
  | nil => exact ⟨ts, h'⟩
  | pair _ _ _ ih =>
    obtain ⟨_, _, _, _, _, _, he, -, -, h'⟩ := h'.of_pair
    cases he
    exact ih h'
  | vector _ _ _ _ ih =>
    obtain ⟨_, _, _, _, _, _, _, _, he, -, -, -, h'⟩ := h'.of_vector
    cases he
    exact ih h'
  | @random tag ls us _ _ ht hw _ ih =>
    obtain ⟨ls', ws, us', ts', he, hw', h'⟩ := Composes.of_random h' ht
    have he : ls ++ (us ++ ys) = ls' ++ us' := by simpa using he
    exact ih (hw.append_inj hw' he ▸ h')
  | other ht _ ih =>
    obtain ⟨ts', h'⟩ := h'.of_other ht
    exact ih h'

end Phrase

end QbScript
