import QbScript.Proofs.Script.Stream

/-!
# Scripts that are alike

Two scripts whose tokens are the same, but for where they stand and for how their names are spelled,
are put together in the same way: what is written and where an address leads depends on neither. Of
a spelling no more may differ than the checksum leaves out.
-/

set_option autoImplicit false

namespace QbScript

open Bytecode

variable {α : Type} {key : String → α} {same : Nat → Nat → Prop}

/-- The tokens are the same, but for what `key` leaves out of a spelling. -/
inductive Token.Alike (key : String → α) : Token → Token → Prop
  | refl (t : Token) : Alike key t t
  | name {text text' : String} (h : key text = key text') : Alike key (.name text) (.name text')
  | arg {text text' : String} (h : key text = key text') : Alike key (.arg text) (.arg text')

structure Lexeme.Alike (key : String → α) (same : Nat → Nat → Prop) (l l' : Lexeme) : Prop where
  token : l.token.Alike key l'.token
  start : same l.span.start l'.span.start

structure Phrase.Alike (key : String → α) (same : Nat → Nat → Prop) (p p' : Phrase) : Prop where
  token : p.token.Alike key p'.token
  start : same p.start p'.start

namespace Token.Alike

variable {t t' : Token}

theorem symm (h : t.Alike key t') : t'.Alike key t := by
  cases h with
  | refl => exact .refl t
  | name h => exact .name h.symm
  | arg h => exact .arg h.symm

theorem eq_simple {tag : Tag} (h : t.Alike key t') (ht : t = .simple tag) :
    t' = .simple tag := by
  cases h with
  | refl => exact ht
  | name => cases ht
  | arg => cases ht

theorem real? (h : t.Alike key t') : Phrase.real? t' = Phrase.real? t := by
  cases h <;> rfl

theorem weight? (h : t.Alike key t') : Phrase.weight? t' = Phrase.weight? t := by
  cases h <;> rfl

theorem isOperand (h : t.Alike key t') : t'.isOperand = t.isOperand := by
  cases h <;> rfl

end Token.Alike

/-- The same tokens are alike, wherever they stand. -/
theorem Lexeme.forall₂_alike {ls ls' : List Lexeme}
    (h : ls'.map Lexeme.token = ls.map Lexeme.token) :
    List.Forall₂ (Lexeme.Alike key fun _ _ => True) ls ls' := by
  have hrel : List.Forall₂ Eq (ls.map Lexeme.token) (ls'.map Lexeme.token) :=
    h ▸ List.forall₂_refl _
  refine (List.forall₂_map_left_iff.mp (List.forall₂_map_right_iff.mp hrel)).imp ?_
  intro l l' he
  exact ⟨he ▸ .refl l.token, trivial⟩

namespace Phrase

variable {last : Nat} {ls ls' rest : List Lexeme}

theorem fill_alike {slots : List Slot} {xs : List Binary32}
    (hl : List.Forall₂ (Lexeme.Alike key same) ls ls') (h : fill last slots ls = .ok (xs, rest))
    (last' : Nat) : ∃ rest', fill last' slots ls' = .ok (xs, rest') ∧
      List.Forall₂ (Lexeme.Alike key same) rest rest' := by
  induction slots generalizing last last' ls ls' xs with
  | nil =>
    obtain ⟨rfl, rfl⟩ := fill_nil_eq_ok_iff.mp h
    exact ⟨ls', fill_nil_eq_ok_iff.mpr ⟨rfl, rfl⟩, hl⟩
  | cons slot slots ih =>
    cases slot with
    | sign tag =>
      obtain ⟨l, ls, rfl, ht, hf⟩ := fill_sign_eq_ok_iff.mp h
      obtain ⟨l', ls', ha, hls, rfl⟩ := List.forall₂_cons_left_iff.mp hl
      obtain ⟨rest', hf, hr⟩ := ih hls hf l'.span.start
      exact ⟨rest', fill_sign_eq_ok_iff.mpr ⟨l', ls', rfl, ha.token.eq_simple ht, hf⟩, hr⟩
    | number =>
      obtain ⟨l, ls, x, xs, rfl, hx, rfl, hf⟩ := fill_number_eq_ok_iff.mp h
      obtain ⟨l', ls', ha, hls, rfl⟩ := List.forall₂_cons_left_iff.mp hl
      obtain ⟨rest', hf, hr⟩ := ih hls hf l'.span.start
      exact ⟨rest',
        fill_number_eq_ok_iff.mpr ⟨l', ls', x, xs, rfl, ha.token.real?.trans hx, rfl, hf⟩, hr⟩

theorem weightsUpToClose_alike {ws : List UInt16}
    (hl : List.Forall₂ (Lexeme.Alike key same) ls ls')
    (h : weightsUpToClose last ls = .ok (ws, rest)) (last' : Nat) :
    ∃ rest', weightsUpToClose last' ls' = .ok (ws, rest') ∧
      List.Forall₂ (Lexeme.Alike key same) rest rest' := by
  fun_induction weightsUpToClose last ls generalizing last' ls' ws with
  | case1 => cases h
  | case2 last l ls ht =>
    obtain ⟨rfl, rfl⟩ := Prod.mk.inj (Except.ok.inj h)
    obtain ⟨l', ls', ha, hls, rfl⟩ := List.forall₂_cons_left_iff.mp hl
    refine ⟨ls', ?_, hls⟩
    rw [weightsUpToClose.eq_def]
    simp [ha.token.eq_simple ht]
  | case3 => cases h
  | case4 => cases h
  | case5 last l ht w m tail hw hm =>
    obtain ⟨rfl, rfl⟩ := Prod.mk.inj (Except.ok.inj h)
    obtain ⟨l', ls', ha, hls, rfl⟩ := List.forall₂_cons_left_iff.mp hl
    obtain ⟨m', tail', hb, htail, rfl⟩ := List.forall₂_cons_left_iff.mp hls
    refine ⟨tail', ?_, htail⟩
    rw [weightsUpToClose.eq_def]
    simp [mt ha.token.symm.eq_simple ht, ha.token.weight?, hw, hb.token.eq_simple hm]
  | case6 last l ht w m tail hw hm hc ih =>
    obtain ⟨⟨ws, rest⟩, hf, he⟩ := map_eq_ok_iff.mp h
    obtain ⟨rfl, rfl⟩ := Prod.mk.inj he
    obtain ⟨l', ls', ha, hls, rfl⟩ := List.forall₂_cons_left_iff.mp hl
    obtain ⟨m', tail', hb, htail, rfl⟩ := List.forall₂_cons_left_iff.mp hls
    obtain ⟨rest', hf', hr⟩ := ih htail hf m'.span.start
    refine ⟨rest', ?_, hr⟩
    rw [weightsUpToClose.eq_def]
    simp [mt ha.token.symm.eq_simple ht, ha.token.weight?, hw, hb.token.eq_simple hc, hf']
  | case7 => cases h

theorem gather_alike {l l' : Lexeme} {t : Token} (ha : Lexeme.Alike key same l l')
    (hl : List.Forall₂ (Lexeme.Alike key same) ls ls') (h : gather l ls = .ok (t, rest)) :
    ∃ t' rest', gather l' ls' = .ok (t', rest') ∧ t.Alike key t' ∧
      List.Forall₂ (Lexeme.Alike key same) rest rest' := by
  unfold gather at h
  split at h
  · rename_i ht
    obtain ⟨⟨xs, rest⟩, hf, he⟩ := map_eq_ok_iff.mp h
    obtain ⟨rfl, rfl⟩ := Prod.mk.inj he
    obtain ⟨rest', hf, hr⟩ := fill_alike hl hf l'.span.start
    exact ⟨_, rest', by rw [gather, ha.token.eq_simple ht]; simp [hf], .refl _, hr⟩
  · rename_i ht
    obtain ⟨⟨xs, rest⟩, hf, he⟩ := map_eq_ok_iff.mp h
    obtain ⟨rfl, rfl⟩ := Prod.mk.inj he
    obtain ⟨rest', hf, hr⟩ := fill_alike hl hf l'.span.start
    exact ⟨_, rest', by rw [gather, ha.token.eq_simple ht]; simp [hf], .refl _, hr⟩
  · rename_i tag h1 h2 ht
    have ht' := ha.token.eq_simple ht
    split at h
    · rename_i htag
      obtain ⟨⟨ws, rest⟩, hw, he⟩ := map_eq_ok_iff.mp h
      obtain ⟨rfl, rfl⟩ := Prod.mk.inj he
      obtain ⟨p, ls, rfl, hp, hw⟩ := weights_eq_ok_iff.mp hw
      obtain ⟨p', ls', hb, hls, rfl⟩ := List.forall₂_cons_left_iff.mp hl
      obtain ⟨rest', hw, hr⟩ := weightsUpToClose_alike hls hw p'.span.start
      have hw' := (@weights_eq_ok_iff l'.span.start _ _ _).mpr
        ⟨p', ls', rfl, hb.token.eq_simple hp, hw⟩
      refine ⟨_, rest', ?_, .refl _, hr⟩
      unfold gather
      split <;> simp_all
    · rename_i htag
      obtain ⟨rfl, rfl⟩ := Prod.mk.inj (Except.ok.inj h)
      refine ⟨_, ls', ?_, .refl _, hl⟩
      unfold gather
      split <;> simp_all
  · rename_i ht
    obtain ⟨rfl, rfl⟩ := Prod.mk.inj (Except.ok.inj h)
    refine ⟨l'.token, ls', ?_, ha.token, hl⟩
    have ht' : ∀ tag, l'.token ≠ .simple tag := fun tag he => ht tag (ha.token.symm.eq_simple he)
    unfold gather
    split <;> simp_all

theorem gatherFrom_alike {done done' : List Phrase}
    (hl : List.Forall₂ (Lexeme.Alike key same) ls ls')
    (hd : List.Forall₂ (Phrase.Alike key same) done done')
    (h : (gatherFrom done ls).fault = none) :
    (gatherFrom done' ls').fault = none ∧ List.Forall₂ (Phrase.Alike key same)
      (gatherFrom done ls).phrases (gatherFrom done' ls').phrases := by
  suffices hall : ∀ n (done done' : List Phrase) (ls ls' : List Lexeme), ls.length ≤ n →
      List.Forall₂ (Lexeme.Alike key same) ls ls' →
      List.Forall₂ (Phrase.Alike key same) done done' → (gatherFrom done ls).fault = none →
      (gatherFrom done' ls').fault = none ∧ List.Forall₂ (Phrase.Alike key same)
        (gatherFrom done ls).phrases (gatherFrom done' ls').phrases from
    hall ls.length done done' ls ls' le_rfl hl hd h
  intro n
  induction n with
  | zero =>
    intro done done' ls ls' hn hl hd h
    obtain rfl := List.length_eq_zero_iff.mp (Nat.le_zero.mp hn)
    obtain rfl := List.forall₂_nil_left_iff.mp hl
    simp only [gatherFrom_nil, true_and]
    exact List.rel_reverse hd
  | succ n ih =>
    intro done done' ls ls' hn hl hd h
    cases hl with
    | nil =>
      simp only [gatherFrom_nil, true_and]
      exact List.rel_reverse hd
    | @cons l l' ls ls' ha hl =>
      cases hg : gather l ls with
      | error e =>
        rw [gatherFrom_cons_error hg] at h
        cases h
      | ok p =>
        obtain ⟨t, rest⟩ := p
        obtain ⟨t', rest', hg', ht, hr⟩ := gather_alike ha hl hg
        have hlen := (suffix_of_gather hg).length_le
        rw [gatherFrom_cons_ok hg] at h ⊢
        rw [gatherFrom_cons_ok hg']
        exact ih _ _ rest rest' (by simp only [List.length_cons] at hn; omega) hr
          (.cons ⟨ht, ha.start⟩ hd) h

theorem ofLexemes_alike (hl : List.Forall₂ (Lexeme.Alike key same) ls ls')
    (h : (ofLexemes ls).fault = none) :
    (ofLexemes ls').fault = none ∧
      List.Forall₂ (Phrase.Alike key same) (ofLexemes ls).phrases (ofLexemes ls').phrases :=
  gatherFrom_alike hl .nil h

end Phrase

def KeepsNames (key : String → α) : Prop :=
  ∀ text text', key text = key text' → Checksum.normalize text = Checksum.normalize text'

/-- A token alike has a spelling where the token has one, and the same parts. -/
theorem Token.Alike.exists_spelling {t t' : Token} {text : String} (h : t.Alike key t')
    (hkey : KeepsNames key) (ht : t.spelling? = some text) :
    ∃ text', t'.spelling? = some text' ∧ key text = key text' ∧ t'.parts = t.parts := by
  cases h with
  | refl => exact ⟨text, ht, rfl, rfl⟩
  | @name _ text' hk =>
    obtain rfl := Option.some.inj ht
    exact ⟨text', rfl, hk, by simp only [Token.parts, Checksum.ofName_congr (hkey _ _ hk)]⟩
  | @arg _ text' hk =>
    obtain rfl := Option.some.inj ht
    exact ⟨text', rfl, hk, by simp only [Token.parts, Checksum.ofName_congr (hkey _ _ hk)]⟩

namespace NameTable

def Alike (key : String → α) (t t' : NameTable) : Prop :=
  ∀ c, (t'.get? c).map key = (t.get? c).map key

variable {t t' u : NameTable} {text text' : String}

theorem Alike.exists_insert (h : t.Alike key t') (hkey : KeepsNames key) (hk : key text = key text')
    (hu : t.insert text = .ok u) : ∃ u', t'.insert text' = .ok u' ∧ u.Alike key u' := by
  have hc : Checksum.ofName text' = Checksum.ofName text :=
    (Checksum.ofName_congr (hkey text text' hk)).symm
  have hget := h (Checksum.ofName text)
  obtain ⟨u', hu'⟩ : ∃ u', t'.insert text' = .ok u' := by
    unfold insert insertAt at hu ⊢
    rw [hc]
    cases hg : t'.get? (Checksum.ofName text) with
    | none => exact ⟨_, rfl⟩
    | some first' =>
      cases hg' : t.get? (Checksum.ofName text) with
      | none => simp [hg, hg'] at hget
      | some first =>
        simp only [hg, hg', Option.map_some, Option.some.injEq] at hget
        simp only [hg'] at hu
        split at hu
        · rename_i hn
          have hn' : Checksum.normalize first' = Checksum.normalize text' := by
            rw [hkey first' first hget, hn, hkey text text' hk]
          exact ⟨t', by simp [hn']⟩
        · cases hu
  refine ⟨u', hu', fun d => ?_⟩
  rw [get?_insertAt hu d, get?_insertAt hu' d, hc]
  split
  · cases hg : t.get? (Checksum.ofName text) <;> cases hg' : t'.get? (Checksum.ofName text) <;>
      simp_all
  · exact h d

theorem toList_alike (h : t.Alike key t') :
    t'.toList.map (fun entry => (entry.1, key entry.2)) =
      t.toList.map fun entry => (entry.1, key entry.2) := by
  have hpairwise : ∀ v : NameTable, (v.toList.map fun entry => (entry.1, key entry.2)).Pairwise
      fun x y => x.1 < y.1 := fun v => List.pairwise_map.mpr v.pairwise_toList
  have hnodup : ∀ v : NameTable, (v.toList.map fun entry => (entry.1, key entry.2)).Nodup :=
    fun v => (hpairwise v).imp fun hlt he => absurd (he ▸ hlt) (by simp)
  have hmem : ∀ (v : NameTable) (c : Checksum) (k : α),
      (c, k) ∈ v.toList.map (fun entry => (entry.1, key entry.2)) ↔
        (v.get? c).map key = some k := by
    intro v c k
    simp only [List.mem_map, Prod.mk.injEq, Option.map_eq_some_iff, ← mem_toList_iff]
    constructor
    · rintro ⟨⟨c', text⟩, hm, rfl, rfl⟩
      exact ⟨text, hm, rfl⟩
    · rintro ⟨text, hm, rfl⟩
      exact ⟨(c, text), hm, rfl, rfl⟩
  have hperm := (List.perm_ext_iff_of_nodup (hnodup t') (hnodup t)).mpr fun (c, k) => by
    rw [hmem, hmem, h]
  exact hperm.eq_of_pairwise (fun x y _ _ hxy hyx => absurd hxy (UInt32.lt_asymm hyx))
    (hpairwise t') (hpairwise t)

end NameTable

namespace Assembly

/-- The assemblies have written and left open the same, but for the lines of what is open and the
spellings of names. -/
structure Alike (key : String → α) (a b : Assembly) : Prop where
  out : b.out = a.out
  names : a.names.Alike key b.names
  conditionals : List.Forall₂ (fun f g => g = { f with line := g.line }) a.conditionals
    b.conditionals
  switches : List.Forall₂ (fun f g => g = { f with line := g.line }) a.switches b.switches
  randoms : List.Forall₂ (fun f g => g = { f with line := g.line }) a.randoms b.randoms
  lineEnd : b.lineEnd = a.lineEnd

variable {options : CompileOptions} {a a' b : Assembly}

theorem alike_start : Alike key start start :=
  ⟨rfl, fun _ => rfl, .nil, .nil, .nil, rfl⟩

theorem Alike.unclosed? (h : a.Alike key b) (hu : a.unclosed? = none) : b.unclosed? = none := by
  obtain ⟨hc, hs, hr⟩ := frames_of_unclosed? hu
  have hc' := h.conditionals
  have hs' := h.switches
  have hr' := h.randoms
  rw [hc, List.forall₂_nil_left_iff] at hc'
  rw [hs, List.forall₂_nil_left_iff] at hs'
  rw [hr, List.forall₂_nil_left_iff] at hr'
  simp [Assembly.unclosed?, hc', hs', hr']

/-- What one step does, the step with a token alike does. -/
theorem Alike.step {line line' : Nat} {t t' : Token} {us : List Token} {links : List Link}
    (h : a.Alike key b) (hkey : KeepsNames key) (ht : t.Alike key t')
    (hline : options.lineNumbers → line' = line) (hs : Step options line a t us links a') :
    ∃ us' b', Step options line' b t' us' links b' ∧ a'.Alike key b' := by
  obtain ⟨out, names, conditionals, switches, randoms, lineEnd⟩ := b
  obtain ⟨hout, hnames, hcond, hswitch, hrandom, hend⟩ := h
  dsimp only at hout hnames hcond hswitch hrandom hend
  subst hout hend
  have hmark : lineMark options line' = lineMark options line := by
    unfold lineMark
    split
    · rename_i hl
      rw [hline hl]
    · rfl
  cases hs with
  | plain hp hi =>
    cases ht with
    | refl => exact ⟨_, _, .plain hp hi, rfl, hnames, hcond, hswitch, hrandom, rfl⟩
    | name => exact hp.elim
    | arg => exact hp.elim
  | @named _ text u ht' hu =>
    obtain ⟨text', htext, hk, hparts⟩ := ht.exists_spelling hkey ht'
    obtain ⟨u', hu', halike⟩ := hnames.exists_insert hkey hk hu
    exact ⟨_, _, .named htext hu', by rw [hparts], halike, hcond, hswitch, hrandom, rfl⟩
  | lineEndKept hl =>
    obtain rfl := ht.eq_simple rfl
    exact ⟨_, _, .lineEndKept hl, by rw [hmark], hnames, hcond, hswitch, hrandom, by rw [hmark]⟩
  | lineEndDropped hl =>
    obtain rfl := ht.eq_simple rfl
    exact ⟨_, _, .lineEndDropped hl, rfl, hnames, hcond, hswitch, hrandom, rfl⟩
  | openRandom hi =>
    cases ht
    exact ⟨_, _, .openRandom hi, rfl, hnames, hcond, hswitch, .cons rfl hrandom, rfl⟩
  | @firstCase f outer out hr hf hc ho =>
    obtain rfl := ht.eq_simple rfl
    obtain ⟨f', outer', hf', houter, rfl⟩ := List.forall₂_cons_left_iff.mp (hr ▸ hrandom)
    rw [hf']
    exact ⟨_, _, .firstCase (f := { f with line := f'.line }) rfl hf hc ho,
      rfl, hnames, hcond, hswitch, .cons rfl houter, rfl⟩
  | @nextCase f outer out hr hf hc ho =>
    obtain rfl := ht.eq_simple rfl
    obtain ⟨f', outer', hf', houter, rfl⟩ := List.forall₂_cons_left_iff.mp (hr ▸ hrandom)
    rw [hf']
    exact ⟨_, _, .nextCase (f := { f with line := f'.line }) rfl hf hc ho,
      rfl, hnames, hcond, hswitch, .cons rfl houter, rfl⟩
  | @closeRandom f outer out hr hf ho =>
    obtain rfl := ht.eq_simple rfl
    obtain ⟨f', outer', hf', houter, rfl⟩ := List.forall₂_cons_left_iff.mp (hr ▸ hrandom)
    rw [hf']
    exact ⟨_, _, .closeRandom (f := { f with line := f'.line }) rfl hf ho,
      rfl, hnames, hcond, hswitch, houter, rfl⟩
  | openConditional hfast =>
    obtain rfl := ht.eq_simple rfl
    exact ⟨_, _, .openConditional hfast, rfl, hnames, .cons rfl hcond, hswitch, hrandom, rfl⟩
  | @startElse f outer out hfast hc he ho =>
    obtain rfl := ht.eq_simple rfl
    obtain ⟨f', outer', hf', houter, rfl⟩ := List.forall₂_cons_left_iff.mp (hc ▸ hcond)
    rw [hf']
    exact ⟨_, _, .startElse (f := { f with line := f'.line }) hfast rfl he ho,
      rfl, hnames, .cons rfl houter, hswitch, hrandom, rfl⟩
  | @closeConditional f outer out hfast hc ho =>
    obtain rfl := ht.eq_simple rfl
    obtain ⟨f', outer', hf', houter, rfl⟩ := List.forall₂_cons_left_iff.mp (hc ▸ hcond)
    rw [hf']
    exact ⟨_, _, .closeConditional (f := { f with line := f'.line }) hfast rfl ho,
      rfl, hnames, houter, hswitch, hrandom, rfl⟩
  | openSwitch hfast =>
    obtain rfl := ht.eq_simple rfl
    exact ⟨_, _, .openSwitch hfast, rfl, hnames, hcond, .cons rfl hswitch, hrandom, rfl⟩
  | firstBranch hfast htag hs hc =>
    obtain rfl := ht.eq_simple rfl
    obtain ⟨f', outer', hf', houter, rfl⟩ := List.forall₂_cons_left_iff.mp (hs ▸ hswitch)
    rw [hf']
    exact ⟨_, _, .firstBranch hfast htag rfl hc,
      rfl, hnames, hcond, .cons rfl houter, hrandom, rfl⟩
  | nextBranch hfast htag hs hc =>
    obtain rfl := ht.eq_simple rfl
    obtain ⟨f', outer', hf', houter, rfl⟩ := List.forall₂_cons_left_iff.mp (hs ▸ hswitch)
    rw [hf']
    exact ⟨_, _, .nextBranch hfast htag rfl hc,
      rfl, hnames, hcond, .cons rfl houter, hrandom, rfl⟩
  | @closeSwitch f outer out hfast hs ho =>
    obtain rfl := ht.eq_simple rfl
    obtain ⟨f', outer', hf', houter, rfl⟩ := List.forall₂_cons_left_iff.mp (hs ▸ hswitch)
    rw [hf']
    exact ⟨_, _, .closeSwitch (f := { f with line := f'.line }) hfast rfl ho,
      rfl, hnames, hcond, houter, hrandom, rfl⟩

/-- Phrases alike are put together alike. -/
theorem exists_ofPhrases_alike {lines lines' : LineMap} {ps ps' : List Phrase}
    (hkey : KeepsNames key) (hp : List.Forall₂ (Phrase.Alike key same) ps ps')
    (hline : options.lineNumbers → ∀ s s', same s s' →
      (lines'.position s').line = (lines.position s).line)
    (h : ofPhrases options lines ps = .ok a) :
    ∃ b, ofPhrases options lines' ps' = .ok b ∧ a.Alike key b := by
  suffices hall : ∀ a₀ b₀ : Assembly, a₀.Alike key b₀ →
      ps.foldlM (fun a p => a.add options (lines.position p.start) p.token) a₀ = .ok a →
      ∃ b, ps'.foldlM (fun a p => a.add options (lines'.position p.start) p.token) b₀ = .ok b ∧
        a.Alike key b from hall start start alike_start h
  clear h
  induction hp with
  | nil =>
    intro a₀ b₀ h₀ h
    obtain rfl := Except.ok.inj h
    exact ⟨b₀, rfl, h₀⟩
  | cons hq _ ih =>
    intro a₀ b₀ h₀ h
    rw [List.foldlM_cons] at h
    obtain ⟨a₁, ha, h⟩ := bind_eq_ok_iff.mp h
    obtain ⟨us, links, hs⟩ := step_of_add ha
    obtain ⟨us', b₁, hs', h₁⟩ :=
      h₀.step hkey hq.token (fun hl => hline hl _ _ hq.start) hs
    obtain ⟨b, hb, hab⟩ := ih a₁ b₁ h₁ h
    refine ⟨b, ?_, hab⟩
    rw [List.foldlM_cons, hs'.add, ok_bind, hb]

end Assembly

open Assembly

def Bytecode.withTable (body : Bytecode) (names : List (Checksum × String)) : Bytecode :=
  body.extend (names.map (fun entry => .checksumName entry.1 entry.2) ++ [.simple .endOfFile])

/-- The streams differ in the spellings of their tables only, and there in what `key` leaves out. -/
def Bytecode.Alike (key : String → α) (b b' : Bytecode) : Prop :=
  ∃ (body : Bytecode) (names names' : List (Checksum × String)), b = body.withTable names ∧
    b' = body.withTable names' ∧
    names'.map (fun entry => (entry.1, key entry.2)) =
      names.map fun entry => (entry.1, key entry.2)

variable (options : CompileOptions) {source source' : String} {ls ls' : List Lexeme}

theorem compile_alike {b : Bytecode} (hkey : KeepsNames key)
    (hl : Lexeme.ofText source.toList = .ok ls) (hl' : Lexeme.ofText source'.toList = .ok ls')
    (ha : List.Forall₂ (Lexeme.Alike key same) ls ls')
    (hline : options.lineNumbers → ∀ s s', same s s' →
      ((LineMap.ofText source'.toList).position s').line =
        ((LineMap.ofText source.toList).position s).line)
    (h : compile options source = .ok b) :
    ∃ b', compile options source' = .ok b' ∧ b.Alike key b' := by
  obtain ⟨_, a, he, hf, hp, hu, hb⟩ := compile_eq_ok_iff.mp h
  obtain rfl := Except.ok.inj (hl.symm.trans he)
  obtain ⟨hf', hps⟩ := Phrase.ofLexemes_alike ha hf
  obtain ⟨a', hp', halike⟩ := exists_ofPhrases_alike hkey hps hline hp
  refine ⟨_, compile_eq_ok_iff.mpr ⟨ls', a', hl', hf', hp', halike.unclosed? hu, rfl⟩,
    a.out, a.names.toList, a'.names.toList, hb, ?_, NameTable.toList_alike halike.names⟩
  rw [halike.out]
  rfl

/-- Sources that are alike have streams that are alike, or both have none. -/
theorem compile_alike_or_error (hkey : KeepsNames key)
    (hl : Lexeme.ofText source.toList = .ok ls) (hl' : Lexeme.ofText source'.toList = .ok ls')
    (ha : List.Forall₂ (Lexeme.Alike key same) ls ls')
    (hline : options.lineNumbers → ∀ s s', same s s' →
      ((LineMap.ofText source'.toList).position s').line =
        ((LineMap.ofText source.toList).position s).line) :
    (∃ b b', compile options source = .ok b ∧ compile options source' = .ok b' ∧ b.Alike key b') ∨
      ∃ e e', compile options source = .error e ∧ compile options source' = .error e' := by
  cases h : compile options source with
  | ok b =>
    obtain ⟨b', hb', hb⟩ := compile_alike options hkey hl hl' ha hline h
    exact Or.inl ⟨b, b', rfl, hb', hb⟩
  | error e =>
    refine Or.inr ?_
    cases h' : compile options source' with
    | error e' => exact ⟨e, e', rfl, rfl⟩
    | ok b' =>
      have hflip : List.Forall₂ (Lexeme.Alike key (flip same)) ls' ls :=
        ha.flip.imp fun _ _ hm => ⟨hm.token.symm, hm.start⟩
      obtain ⟨b, hb, -⟩ := compile_alike options hkey hl' hl hflip
        (fun ho s s' hs => (hline ho s' s hs).symm) h'
      rw [h] at hb
      cases hb

end QbScript
