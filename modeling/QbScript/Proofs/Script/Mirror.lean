import QbScript.Proofs.Script.Stream

/-!
# Listed scripts

A listing says each phrase again, in a form that depends on the stream alone. The end of a block
without two branches has moved to where no jump is needed to find it, a line end that writes nothing
is gone, and names are spelled as the table has them. A script of such phrases is assembled to the
same stream, wherever its phrases stand.
-/

set_option autoImplicit false

namespace QbScript

open Bytecode

namespace Token

def checksum? : Token → Option Checksum
  | .name text | .arg text => some (Checksum.ofName text)
  | .nameChecksum c | .argChecksum c => some c
  | _ => none

def respelled (names : NameTable) (t : Token) : Token :=
  match t, t.checksum?.bind names.get? with
  | .name _, some text | .nameChecksum _, some text => .name text
  | .arg _, some text | .argChecksum _, some text => .arg text
  | t, _ => t

theorem respelled_of_checksum?_eq_none {t : Token} (h : t.checksum? = none) (names : NameTable) :
    t.respelled names = t := by
  cases t <;> first | rfl | cases h

end Token

namespace NameTable

def IsSound (t : NameTable) : Prop := ∀ k name, t.get? k = some name → Checksum.ofName name = k

theorem exists_insert {t : NameTable} {name : String}
    (h : ∀ first, t.get? (Checksum.ofName name) = some first → first = name) :
    ∃ u, t.insert name = .ok u ∧
      ∀ k, u.get? k = if Checksum.ofName name = k then some name else t.get? k := by
  obtain ⟨u, hu⟩ : ∃ u, t.insert name = .ok u := by
    unfold insert insertAt
    split
    · exact ⟨_, rfl⟩
    · rename_i first hf
      rw [h first hf, if_pos rfl]
      exact ⟨_, rfl⟩
  refine ⟨u, hu, fun k => ?_⟩
  have hd : (t.get? (Checksum.ofName name)).getD name = name := by
    cases hf : t.get? (Checksum.ofName name) with
    | none => rfl
    | some first => exact h first hf
  rw [get?_insertAt hu k, hd]

theorem toList_congr {t u : NameTable} (h : ∀ k, t.get? k = u.get? k) :
    t.toList = u.toList := by
  have hnodup : ∀ v : NameTable, v.toList.Nodup := fun v =>
    v.pairwise_toList.imp fun hlt he => absurd (he ▸ hlt) (by simp)
  have hperm : t.toList.Perm u.toList := by
    refine (List.perm_ext_iff_of_nodup (hnodup t) (hnodup u)).mpr fun entry => ?_
    rw [mem_toList_iff, mem_toList_iff, h]
  refine hperm.eq_of_pairwise ?_ t.pairwise_toList u.pairwise_toList
  intro x y _ _ hxy hyx
  exact absurd hxy (UInt32.lt_asymm hyx)

end NameTable

namespace Bytecode

/-- The second stream has the size of the first, and is the first where `exact` holds. -/
structure Resembles (exact : Prop) (b b' : Bytecode) : Prop where
  size : b'.size = b.size
  eq : exact → b' = b

variable {exact : Prop} {b b' out : Bytecode} {ts us : List Token} {links : List Link}

theorem Resembles.extend (h : Resembles exact b b') (hl : (wires us).length = (wires ts).length)
    (he : exact → us = ts) : Resembles exact (b.extend ts) (b'.extend us) :=
  ⟨by rw [size_extend, size_extend, h.size, hl], fun hx => by rw [h.eq hx, he hx]⟩

theorem Resembles.extend_same (h : Resembles exact b b') (ts : List Token) :
    Resembles exact (b.extend ts) (b'.extend ts) :=
  h.extend rfl fun _ => rfl

theorem Resembles.link (h : Resembles exact b b') {f : Address} {target : Nat}
    (hl : f.link b target = .ok out) : ∃ out', f.link b' target = .ok out' ∧
      Resembles exact out out' := by
  obtain ⟨hr, hs, rfl⟩ := Address.link_eq_ok_iff.mp hl
  refine ⟨_, Address.link_eq_ok_iff.mpr ⟨hr, by rwa [h.size], rfl⟩, ?_, fun hx => by rw [h.eq hx]⟩
  rw [size_go, size_go, h.size]

/-- What is linked depends on the size of a stream only. -/
theorem Resembles.linkAll (h : Resembles exact b b') (hl : linkAll b links = .ok out) :
    ∃ out', linkAll b' links = .ok out' ∧ Resembles exact out out' := by
  induction links generalizing b b' with
  | nil =>
    obtain rfl : b = out := by simpa [Bytecode.linkAll] using hl
    exact ⟨b', rfl, h⟩
  | cons l links ih =>
    rw [Bytecode.linkAll, List.foldlM_cons] at hl ⊢
    obtain ⟨d, hd, hl⟩ := bind_eq_ok_iff.mp hl
    obtain ⟨d', hd', h⟩ := h.link hd
    rw [hd', ok_bind]
    exact ih h hl

end Bytecode

namespace Assembly

/-- The phrases that a listing has for a phrase added to `a`. -/
def listed (a : Assembly) (t : Token) : List Token :=
  match t, a.randoms with
  | .simple .endOfLine, _ => if a.lineEnd = some a.out.size then [] else [t]
  | .random _ ws _, _ => if ws = [] then [t, .simple .randomEnd] else [t]
  | .simple .randomCase, f :: _ => if f.count = 1 then [t, .simple .randomEnd] else [t]
  | .simple .randomEnd, f :: _ => if f.count ≤ 1 then [] else [t]
  | _, _ => [t]

/-- Added anywhere, the phrases lead to an assembly with the property. -/
def Leads (options : CompileOptions) : List Token → (Assembly → Prop) → Assembly → Prop
  | [], P, a => P a
  | t :: ts, P, a => ∀ place, ∃ a', a.add options place t = .ok a' ∧ Leads options ts P a'

variable {options : CompileOptions} {line : Nat} {lines : LineMap} {a a' c : Assembly} {t : Token}
  {ts us : List Token} {links : List Link} {names : NameTable} {P Q : Assembly → Prop}

theorem leads_append {xs ys : List Token} :
    Leads options (xs ++ ys) P a ↔ Leads options xs (Leads options ys P) a := by
  induction xs generalizing a with
  | nil => rfl
  | cons x xs ih => simp only [List.cons_append, Leads, ih]

theorem Leads.imp (h : Leads options ts P a) (hPQ : ∀ b, P b → Q b) : Leads options ts Q a := by
  induction ts generalizing a with
  | nil => exact hPQ a h
  | cons t ts ih =>
    intro place
    obtain ⟨b, hb, h⟩ := h place
    exact ⟨b, hb, ih h⟩

theorem Leads.foldlM {ps : List Phrase} (h : Leads options (ps.map Phrase.token) P a) :
    ∃ c, ps.foldlM (fun a p => a.add options (lines.position p.start) p.token) a = .ok c ∧
      P c := by
  induction ps generalizing a with
  | nil => exact ⟨a, rfl, h⟩
  | cons p ps ih =>
    obtain ⟨b, hb, h⟩ := h (lines.position p.start)
    obtain ⟨c, hc, hP⟩ := ih h
    refine ⟨c, ?_, hP⟩
    rw [List.foldlM_cons, hb, ok_bind, hc]

end Assembly

/-- A listing has not closed the block yet. A block without two branches is closed there as soon as
all its branches have begun. -/
def RandomFrame.isLive (f : RandomFrame) : Bool := f.filled ≠ f.count ∨ 2 ≤ f.count

namespace Assembly

/-- The assembly `c` of a listing has done what `a` has, up to the lines of its frames. It has
entered no name that is not among `names`. Where `exact` does not hold, it may have written other
numbers of the same size. -/
structure Mirrors (exact : Prop) (names : NameTable) (a c : Assembly) : Prop where
  out : Resembles exact a.out c.out
  lineEnd : c.lineEnd = a.lineEnd
  conditionals :
    List.Forall₂ (fun f g => ∃ line, g = { f with line }) a.conditionals c.conditionals
  switches : List.Forall₂ (fun f g => ∃ line, g = { f with line }) a.switches c.switches
  randoms :
    List.Forall₂ (fun f g => ∃ line, g = { f with line }) (a.randoms.filter RandomFrame.isLive)
      c.randoms
  get?_names : ∀ k text, c.names.get? k = some text → names.get? k = some text
  isSome_names : ∀ k, (a.names.get? k).isSome → (c.names.get? k).isSome

variable {options : CompileOptions} {line : Nat} {a a' c : Assembly} {t : Token}
  {ts us : List Token} {links : List Link} {names : NameTable} {exact : Prop}

theorem mirrors_start : Mirrors exact names start start :=
  ⟨⟨rfl, fun _ => rfl⟩, rfl, .nil, .nil, .nil, by simp [start], by simp [start]⟩

theorem exists_of_forall₂_right {α β : Type} {R : α → β → Prop} {xs : List α} {ys : List β}
    (h : List.Forall₂ R xs ys) {y : β} (hy : y ∈ ys) : ∃ x ∈ xs, R x y := by
  induction h with
  | nil => cases hy
  | cons hr _ ih =>
    rcases List.mem_cons.mp hy with rfl | hy
    · exact ⟨_, List.mem_cons_self, hr⟩
    · obtain ⟨x, hx, hr⟩ := ih hy
      exact ⟨x, List.mem_cons_of_mem _ hx, hr⟩

theorem Mirrors.write (hm : Mirrors exact names a c) {nt mt : NameTable}
    (hget : ∀ k text, mt.get? k = some text → names.get? k = some text)
    (hsome : ∀ k, (nt.get? k).isSome → (mt.get? k).isSome) :
    Mirrors exact names { a with out := a.out.extend us, names := nt }
      { c with out := c.out.extend us, names := mt } :=
  ⟨hm.out.extend_same us, hm.lineEnd, hm.conditionals, hm.switches, hm.randoms, hget, hsome⟩

/-- A name is listed as the table has it, or by its checksum. -/
theorem Mirrors.named (hm : Mirrors exact names a c) (hk : names.IsSound) {k : Checksum}
    (ht : t.checksum? = some k) (hn : t.spelling?.isSome → (names.get? k).isSome) {nt : NameTable}
    (hnt : ∀ j, (nt.get? j).isSome → (a.names.get? j).isSome ∨ j = k ∧ t.spelling?.isSome) :
    Leads options [t.respelled names]
      (Mirrors exact names { a with out := a.out.extend t.parts, names := nt }) c := by
  intro place
  cases hg : names.get? k with
  | none =>
    -- The table does not have the name, so the token is a checksum and stays one.
    have hs : t.spelling?.isSome = false := by
      rw [hg] at hn
      simpa using hn
    have hr : t.respelled names = t := by
      cases t <;> simp_all [Token.respelled, Token.checksum?, Token.spelling?]
    have hp : t.IsPlain options.target ∧ t.leadTag.isInternal = false := by
      cases t <;> first | exact ⟨trivial, rfl⟩ | (simp [Token.checksum?, Token.spelling?] at ht hs)
    rw [hr]
    refine ⟨_, (Step.plain hp.1 hp.2).add, ?_⟩
    refine hm.write hm.get?_names fun j hj => hm.isSome_names j ?_
    rcases hnt j hj with hj | ⟨-, hj⟩
    · exact hj
    · rw [hs] at hj
      cases hj
  | some text =>
    have htext := hk k text hg
    -- What is spelled differently has the same checksum, and the stream has nothing else of it.
    obtain ⟨hu, hp⟩ : (t.respelled names).spelling? = some text ∧
        (t.respelled names).parts = t.parts := by
      cases t <;> simp_all [Token.respelled, Token.checksum?, Token.spelling?, Token.parts]
    obtain ⟨mt, hmt, hget⟩ := @NameTable.exists_insert c.names text <| by
      intro first hf
      have := hm.get?_names _ _ hf
      rw [htext, hg] at this
      exact (Option.some.inj this).symm
    refine ⟨_, (Step.named hu hmt).add, ?_⟩
    rw [hp]
    refine hm.write ?_ ?_
    · intro j first hj
      rw [hget] at hj
      split at hj
      · rename_i he
        obtain rfl := Option.some.inj hj
        rw [← he, htext, hg]
      · exact hm.get?_names j first hj
    · intro j hj
      rw [hget]
      split
      · rfl
      · rename_i he
        rcases hnt j hj with hj | ⟨rfl, -⟩
        · exact hm.isSome_names j hj
        · exact absurd htext he

theorem map_respelled_singleton {t : Token} (h : t.checksum? = none) :
    [t].map (Token.respelled names) = [t] := by
  rw [List.map_singleton, Token.respelled_of_checksum?_eq_none h]

theorem lineMark_of_lineNumbers (h : options.lineNumbers = false) (line : Nat) :
    lineMark options line = .simple .endOfLine := by
  rw [lineMark, h]
  rfl

theorem Agrees.ends_eq_nil {n : Nesting} (h : a.Agrees ts n) :
    ∀ f ∈ a.randoms, f.filled ≤ 1 → f.ends = [] := by
  intro f hf hle
  obtain ⟨k, -, hk⟩ := exists_of_forall₂_right h.opened hf
  have hl : k.starts.tail = [] := by
    rw [← List.length_eq_zero_iff, List.length_tail, ← hk.filled]
    omega
  rw [hk.ends, hl]
  rfl

theorem length_wires_lineMark (options : CompileOptions) (line line' : Nat) :
    (wires [lineMark options line]).length = (wires [lineMark options line']).length := by
  unfold lineMark
  split <;> simp [Token.wire, Token.payload]

theorem Mirrors.lineEndKept (hm : Mirrors exact names a c)
    (hl : exact → options.lineNumbers = false) (hne : a.lineEnd ≠ some a.out.size) :
    Leads options [.simple .endOfLine]
      (Mirrors exact names { a with
        out := a.out.extend [lineMark options line]
        lineEnd := some (a.out.extend [lineMark options line]).size }) c := by
  intro place
  rw [← hm.lineEnd, ← hm.out.size] at hne
  have hout := hm.out.extend (length_wires_lineMark options place.line line) fun hx => by
    rw [lineMark_of_lineNumbers (hl hx), lineMark_of_lineNumbers (hl hx)]
  exact ⟨_, (Step.lineEndKept hne).add, { hm with out := hout, lineEnd := by rw [hout.size] }⟩

variable {f : RandomFrame} {outer : List RandomFrame} {out : Bytecode}

theorem Mirrors.exists_live (hm : Mirrors exact names a c) (hr : a.randoms = f :: outer)
    (hf : f.isLive) :
    ∃ line inner, c.randoms = { f with line } :: inner ∧
      List.Forall₂ (fun f g => ∃ line, g = { f with line }) (outer.filter RandomFrame.isLive)
        inner := by
  have hrest := hm.randoms
  rw [hr, List.filter_cons_of_pos hf] at hrest
  obtain ⟨g, inner, ⟨line, rfl⟩, hrest, hg⟩ := List.forall₂_cons_left_iff.mp hrest
  exact ⟨line, inner, hg, hrest⟩

theorem Mirrors.openRandom (hm : Mirrors exact names a c) {tag : Tag} {ws : List UInt16}
    {js : List Int32} (hi : tag.isInternal = false) :
    Leads options ((a.listed (.random tag ws js)).map (Token.respelled names))
      (Mirrors exact names { a with
        out := a.out.extend [.random tag ws js]
        randoms := ⟨a.out.size, ws.length, 0, [], line⟩ :: a.randoms }) c := by
  have hout := hm.out.extend_same [.random tag ws js]
  by_cases hws : ws = []
  · -- The listing closes the block at once.
    subst hws
    have hlist : a.listed (.random tag [] js) = [.random tag [] js, .simple .randomEnd] := rfl
    rw [hlist]
    intro place
    refine ⟨_, (Step.openRandom hi).add, fun place => ⟨_, (Step.closeRandom rfl rfl rfl).add, ?_⟩⟩
    exact { hm with out := hout }
  · have hlist : a.listed (.random tag ws js) = [.random tag ws js] := if_neg hws
    have hlive : RandomFrame.isLive ⟨a.out.size, ws.length, 0, [], line⟩ := by
      have : ws.length ≠ 0 := by simpa using hws
      simp [RandomFrame.isLive]
      omega
    rw [hlist, map_respelled_singleton rfl]
    intro place
    refine ⟨_, (Step.openRandom hi).add, { hm with out := hout, randoms := ?_ }⟩
    rw [List.filter_cons_of_pos hlive]
    exact .cons ⟨_, by rw [hm.out.size]⟩ hm.randoms

theorem Mirrors.firstCase (hm : Mirrors exact names a c) (hr : a.randoms = f :: outer)
    (hf : f.filled = 0) (hc : 0 < f.count) (hends : f.ends = [])
    (ho : linkAll a.out [⟨.long (slot f.header f.count f.filled), a.out.size⟩] = .ok out) :
    Leads options ((a.listed (.simple .randomCase)).map (Token.respelled names))
      (Mirrors exact names { a with
        out
        randoms := { f with filled := f.filled + 1 } :: outer
        linked := .long (slot f.header f.count f.filled) :: a.linked }) c := by
  have hlive : f.isLive := by
    simp [RandomFrame.isLive]
    omega
  obtain ⟨line', inner, hg, hrest⟩ := hm.exists_live hr hlive
  obtain ⟨out', ho, hout⟩ := hm.out.linkAll ho
  rw [← hm.out.size] at ho
  by_cases hone : f.count = 1
  · -- No jump leads to the end of this block, so that the listing closes it where it branches.
    have hlist : a.listed (.simple .randomCase) = [.simple .randomCase, .simple .randomEnd] := by
      simp [listed, hr, hone]
    have hdead : ¬ RandomFrame.isLive { f with filled := f.filled + 1 } := by
      simp [RandomFrame.isLive, hf, hone]
    rw [hlist]
    intro place
    refine ⟨_, (Step.firstCase hg hf hc ho).add, fun place =>
      ⟨_, (Step.closeRandom rfl (by simp [hf, hone]) ?_).add, { hm with out := hout, randoms := ?_ }⟩⟩
    · simp [hends]
    · rw [List.filter_cons_of_neg hdead]
      exact hrest
  · have hlist : a.listed (.simple .randomCase) = [.simple .randomCase] := by
      simp [listed, hr, hone]
    have hlive' : RandomFrame.isLive { f with filled := f.filled + 1 } := by
      simp [RandomFrame.isLive]
      omega
    rw [hlist, map_respelled_singleton rfl]
    intro place
    refine ⟨_, (Step.firstCase hg hf hc ho).add, { hm with out := hout, randoms := ?_ }⟩
    rw [List.filter_cons_of_pos hlive']
    exact .cons ⟨_, rfl⟩ hrest

theorem Mirrors.nextCase (hm : Mirrors exact names a c) (hr : a.randoms = f :: outer)
    (hf : f.filled ≠ 0) (hc : f.filled < f.count)
    (ho : linkAll (a.out.extend [.jump 0])
      [⟨.long (slot f.header f.count f.filled), a.out.size + 5⟩] = .ok out) :
    Leads options ((a.listed (.simple .randomCase)).map (Token.respelled names))
      (Mirrors exact names { a with
        out
        randoms :=
          { f with filled := f.filled + 1, ends := (a.out.size + 1) :: f.ends } :: outer
        linked := .long (slot f.header f.count f.filled) :: a.linked }) c := by
  have hlive : f.isLive := by
    simp [RandomFrame.isLive]
    omega
  have hlive' : RandomFrame.isLive
      { f with filled := f.filled + 1, ends := (a.out.size + 1) :: f.ends } := by
    simp [RandomFrame.isLive]
    omega
  have hlist : a.listed (.simple .randomCase) = [.simple .randomCase] := by
    simp only [listed, hr]
    rw [if_neg (by omega)]
  obtain ⟨line', inner, hg, hrest⟩ := hm.exists_live hr hlive
  obtain ⟨out', ho, hout⟩ := (hm.out.extend_same _).linkAll ho
  rw [← hm.out.size] at ho
  rw [hlist, map_respelled_singleton rfl]
  intro place
  refine ⟨_, (Step.nextCase hg hf hc ho).add, { hm with out := hout, randoms := ?_ }⟩
  rw [List.filter_cons_of_pos hlive']
  exact .cons ⟨_, by rw [hm.out.size]⟩ hrest

theorem Mirrors.closeRandom (hm : Mirrors exact names a c) (hr : a.randoms = f :: outer)
    (hf : f.filled = f.count) (hends : f.filled ≤ 1 → f.ends = [])
    (ho : linkAll a.out (f.ends.reverse.map fun field => ⟨.long field, a.out.size⟩) = .ok out) :
    Leads options ((a.listed (.simple .randomEnd)).map (Token.respelled names))
      (Mirrors exact names
        { a with out, randoms := outer, linked := f.ends.map .long ++ a.linked }) c := by
  by_cases hle : f.count ≤ 1
  · -- The listing has closed the block before.
    have hlist : a.listed (.simple .randomEnd) = [] := by
      simp only [listed, hr]
      rw [if_pos hle]
    have hdead : ¬ f.isLive := by
      simp [RandomFrame.isLive]
      omega
    obtain rfl : a.out = out := by simpa [hends (by omega)] using ho
    rw [hlist]
    have hrest := hm.randoms
    rw [hr, List.filter_cons_of_neg hdead] at hrest
    exact { hm with randoms := hrest }
  · have hlist : a.listed (.simple .randomEnd) = [.simple .randomEnd] := by
      simp only [listed, hr]
      rw [if_neg hle]
    have hlive : f.isLive := by
      simp [RandomFrame.isLive]
      omega
    obtain ⟨line', inner, hg, hrest⟩ := hm.exists_live hr hlive
    obtain ⟨out', ho, hout⟩ := hm.out.linkAll ho
    rw [← hm.out.size] at ho
    rw [hlist, map_respelled_singleton rfl]
    intro place
    exact ⟨_, (Step.closeRandom hg hf ho).add, { hm with out := hout, randoms := hrest }⟩

/-- Added to the mirror, the listed phrases do what the phrase does. -/
theorem Mirrors.step (hm : Mirrors exact names a c) (h : Step options line a t us links a')
    (hl : exact → options.lineNumbers = false) (hk : names.IsSound)
    (hn : ∀ k, (a'.names.get? k).isSome → (names.get? k).isSome)
    (he : ∀ f ∈ a.randoms, f.filled ≤ 1 → f.ends = []) :
    Leads options ((a.listed t).map (Token.respelled names)) (Mirrors exact names a') c := by
  have hsize := hm.out.size
  cases h with
  | plain hp hi =>
    have hlist : a.listed t = [t] := by
      unfold listed
      split <;> first | exact hp.elim | rfl
    rw [hlist]
    cases hc : t.checksum? with
    | some k =>
      exact hm.named hk hc (fun hs => by cases t <;> first | exact hp.elim | cases hs)
        fun j hj => Or.inl hj
    | none =>
      rw [map_respelled_singleton hc]
      intro place
      exact ⟨_, (Step.plain hp hi).add, hm.write hm.get?_names hm.isSome_names⟩
  | @named _ text nt ht hnt =>
    have hlist : a.listed t = [t] := by
      cases t <;> first | rfl | cases ht
    have hc : t.checksum? = some (Checksum.ofName text) := by
      cases t <;> simp_all [Token.spelling?, Token.checksum?]
    have hget := NameTable.get?_insertAt hnt
    rw [hlist]
    refine hm.named hk hc (fun _ => hn _ ?_) fun j hj => ?_
    · rw [hget, if_pos rfl]
      rfl
    · rw [hget] at hj
      split at hj
      · rename_i he
        exact Or.inr ⟨he.symm, by rw [ht]; rfl⟩
      · exact Or.inl hj
  | lineEndKept hne =>
    have hlist : a.listed (.simple .endOfLine) = [.simple .endOfLine] := if_neg hne
    rw [hlist, map_respelled_singleton rfl]
    exact hm.lineEndKept hl hne
  | lineEndDropped hd =>
    have hlist : a.listed (.simple .endOfLine) = [] := if_pos hd
    rw [hlist]
    exact hm
  | openRandom hi => exact hm.openRandom hi
  | firstCase hr hf hc ho =>
    exact hm.firstCase hr hf hc (he _ (hr ▸ List.mem_cons_self) (by omega)) ho
  | nextCase hr hf hc ho => exact hm.nextCase hr hf hc ho
  | closeRandom hr hf ho => exact hm.closeRandom hr hf (he _ (hr ▸ List.mem_cons_self)) ho
  | openConditional ht =>
    intro place
    refine ⟨_, (Step.openConditional ht).add,
      { hm with out := hm.out.extend_same _, conditionals := ?_ }⟩
    exact .cons ⟨_, by rw [hsize]⟩ hm.conditionals
  | startElse ht hc he ho =>
    obtain ⟨g, inner, ⟨line', rfl⟩, hrest, hg⟩ :=
      List.forall₂_cons_left_iff.mp (hc ▸ hm.conditionals)
    obtain ⟨out', ho, hout⟩ := hm.out.linkAll ho
    rw [← hsize] at ho
    intro place
    refine ⟨_, (Step.startElse ht hg he ho).add,
      { hm with out := hout.extend_same _, conditionals := ?_ }⟩
    exact .cons ⟨_, by rw [hsize]⟩ hrest
  | closeConditional ht hc ho =>
    obtain ⟨g, inner, ⟨line', rfl⟩, hrest, hg⟩ :=
      List.forall₂_cons_left_iff.mp (hc ▸ hm.conditionals)
    obtain ⟨out', ho, hout⟩ := hm.out.linkAll ho
    rw [← hsize] at ho
    intro place
    exact ⟨_, (Step.closeConditional ht hg ho).add,
      { hm with out := hout.extend_same _, conditionals := hrest }⟩
  | openSwitch ht =>
    intro place
    refine ⟨_, (Step.openSwitch ht).add, { hm with out := hm.out.extend_same _, switches := ?_ }⟩
    exact .cons ⟨_, rfl⟩ hm.switches
  | @firstBranch tag f outer ht htag hs hc =>
    obtain ⟨g, inner, ⟨line', rfl⟩, hrest, hg⟩ := List.forall₂_cons_left_iff.mp (hs ▸ hm.switches)
    have hlist : a.listed (.simple tag) = [.simple tag] := by rcases htag with rfl | rfl <;> rfl
    rw [hlist, map_respelled_singleton rfl]
    intro place
    refine ⟨_, (Step.firstBranch ht htag hg hc).add,
      { hm with out := hm.out.extend_same _, switches := ?_ }⟩
    exact .cons ⟨_, by rw [hsize]⟩ hrest
  | @nextBranch tag f outer ht htag hs hc =>
    obtain ⟨g, inner, ⟨line', rfl⟩, hrest, hg⟩ := List.forall₂_cons_left_iff.mp (hs ▸ hm.switches)
    have hlist : a.listed (.simple tag) = [.simple tag] := by rcases htag with rfl | rfl <;> rfl
    rw [hlist, map_respelled_singleton rfl]
    intro place
    refine ⟨_, (Step.nextBranch ht htag hg hc).add,
      { hm with out := hm.out.extend_same _, switches := ?_ }⟩
    exact .cons ⟨_, by rw [hsize]⟩ hrest
  | closeSwitch ht hs ho =>
    obtain ⟨g, inner, ⟨line', rfl⟩, hrest, hg⟩ := List.forall₂_cons_left_iff.mp (hs ▸ hm.switches)
    obtain ⟨out', ho, hout⟩ := hm.out.linkAll ho
    rw [← hsize] at ho
    intro place
    exact ⟨_, (Step.closeSwitch ht hg ho).add,
      { hm with out := hout.extend_same _, switches := hrest }⟩

def listedFrom (options : CompileOptions) (lines : LineMap) (a : Assembly) :
    List Phrase → List Token
  | [] => []
  | p :: ps =>
    a.listed p.token ++
      match a.add options (lines.position p.start) p.token with
      | .ok a' => listedFrom options lines a' ps
      | .error _ => []

variable {lines : LineMap} {ps : List Phrase}

theorem Run.listedFrom_concat (h : Run options lines ps ts a) (p : Phrase) :
    listedFrom options lines Assembly.start (ps ++ [p]) =
      listedFrom options lines Assembly.start ps ++ a.listed p.token := by
  suffices hall : ∀ (b : Assembly),
      ps.foldlM (fun a p => a.add options (lines.position p.start) p.token) b = .ok a →
      listedFrom options lines b (ps ++ [p]) =
        listedFrom options lines b ps ++ a.listed p.token from
    hall Assembly.start h.ofPhrases
  clear h
  induction ps with
  | nil =>
    intro b hb
    obtain rfl := Except.ok.inj hb
    simp only [List.nil_append, listedFrom]
    split <;> simp
  | cons q ps ih =>
    intro b hb
    rw [List.foldlM_cons] at hb
    obtain ⟨d, hd, hb⟩ := bind_eq_ok_iff.mp hb
    simp only [List.cons_append, listedFrom, hd, ih d hb, List.append_assoc]

theorem Step.isSome_names (h : Step options line a t us links a') {k : Checksum}
    (hk : (a.names.get? k).isSome) : (a'.names.get? k).isSome := by
  rcases h.names with ⟨-, hn⟩ | ⟨text, -, hi⟩
  · rwa [hn]
  · rw [NameTable.get?_insertAt hi]
    split
    · rfl
    · exact hk

/-- The listed script leads to a mirror of the assembly. -/
theorem Run.leads_mirror (h : Run options lines ps ts a) (hp : ∀ p ∈ ps, p.token.IsPhrase)
    (hl : exact → options.lineNumbers = false) (hk : names.IsSound)
    (hn : ∀ k, (a.names.get? k).isSome → (names.get? k).isSome) :
    Leads options ((listedFrom options lines Assembly.start ps).map (Token.respelled names))
      (Mirrors exact names a) Assembly.start := by
  induction h with
  | start => exact mirrors_start
  | @step ps ts us a a' p links hr _ hs ih =>
    have hps : ∀ q ∈ ps, q.token.IsPhrase := fun q hq => hp q (List.mem_append_left _ hq)
    rw [hr.listedFrom_concat, List.map_append, leads_append]
    refine (ih hps fun k hk => hn k (hs.isSome_names hk)).imp fun c hm => ?_
    exact hm.step hs hl hk hn (hr.agrees hps).ends_eq_nil

theorem add_endOfLine {place : Position} (h : a.add options place (.simple .endOfLine) = .ok a') :
    a'.lineEnd = some a'.out.size := by
  obtain ⟨us, links, hs⟩ := step_of_add h
  cases hs with
  | plain hp => exact hp.elim
  | named hn => cases hn
  | lineEndKept => rfl
  | lineEndDropped hl => exact hl
  | firstBranch _ htag => rcases htag with h | h <;> cases h
  | nextBranch _ htag => rcases htag with h | h <;> cases h

/-- A line end right after a line end does nothing. -/
theorem leads_endOfLine_endOfLine_iff {P : Assembly → Prop} :
    Leads options (.simple .endOfLine :: .simple .endOfLine :: ts) P a ↔
      Leads options (.simple .endOfLine :: ts) P a := by
  have hagain : ∀ (place place' : Position) (b : Assembly),
      a.add options place (.simple .endOfLine) = .ok b →
      b.add options place' (.simple .endOfLine) = .ok b :=
    fun place place' b hb => (Step.lineEndDropped (add_endOfLine hb)).add
  constructor
  · intro h place
    obtain ⟨b, hb, h⟩ := h place
    obtain ⟨d, hd, h⟩ := h place
    obtain rfl := Except.ok.inj ((hagain place place b hb).symm.trans hd)
    exact ⟨b, hb, h⟩
  · intro h place
    obtain ⟨b, hb, h⟩ := h place
    exact ⟨b, hb, fun place' => ⟨b, hagain place place' b hb, h⟩⟩

end Assembly

/-- The second list is the first with more copies of `e` after such ones, or with fewer at its
end. -/
inductive Respaces {α : Type} (e : α) : List α → List α → Prop
  | nil : Respaces e [] []
  | cons (x : α) {xs ys : List α} (h : Respaces e xs ys) : Respaces e (x :: xs) (x :: ys)
  | more {xs ys : List α} (h : Respaces e xs (e :: ys)) : Respaces e xs (e :: e :: ys)
  | fewer {xs ys : List α} (h : Respaces e xs (ys ++ [e, e])) : Respaces e xs (ys ++ [e])

namespace Assembly

variable {options : CompileOptions} {a a' c : Assembly} {ts us : List Token} {names : NameTable}
  {P : Assembly → Prop}

theorem Leads.respace (h : Leads options ts P a) (hr : Respaces (.simple .endOfLine) ts us) :
    Leads options us P a := by
  induction hr generalizing a with
  | nil => exact h
  | cons t _ ih =>
    intro place
    obtain ⟨b, hb, h⟩ := h place
    exact ⟨b, hb, ih h⟩
  | more _ ih => exact leads_endOfLine_endOfLine_iff.mpr (ih h)
  | fewer _ ih =>
    exact leads_append.mpr ((leads_append.mp (ih h)).imp fun _ => leads_endOfLine_endOfLine_iff.mp)

theorem Mirrors.finish {exact : Prop} (hm : Mirrors exact a.names a c) (hu : a.unclosed? = none) :
    c.unclosed? = none ∧ c.names.entries = a.names.entries := by
  obtain ⟨hc, hs, hr⟩ := frames_of_unclosed? hu
  have hc' := List.forall₂_nil_left_iff.mp (hc ▸ hm.conditionals)
  have hs' := List.forall₂_nil_left_iff.mp (hs ▸ hm.switches)
  have hr' := hm.randoms
  rw [hr, List.filter_nil, List.forall₂_nil_left_iff] at hr'
  refine ⟨by simp only [unclosed?, hc', hs', hr'], ?_⟩
  rw [NameTable.entries, NameTable.entries, NameTable.toList_congr fun k => ?_]
  cases hk : c.names.get? k with
  | some text => exact (hm.get?_names k text hk).symm
  | none =>
    cases hka : a.names.get? k with
    | none => rfl
    | some text =>
      have := hm.isSome_names k (by rw [hka]; rfl)
      rw [hk] at this
      cases this

theorem Run.isSound_names {lines : LineMap} {ps : List Phrase} (h : Run options lines ps ts a) :
    a.names.IsSound := by
  intro k name hk
  rw [h.get?_names, firstSpelling] at hk
  simpa using List.find?_some hk

end Assembly

open Assembly

/-- A source whose phrases are those of the listed script compiles to the same stream. -/
theorem Compiled.compile_eq_ok {options : CompileOptions} {source text : String} {b : Bytecode}
    {ls ms : List Lexeme} {ps : List Phrase} {ts us vs : List Token} {a : Assembly}
    (h : Compiled options source b ls ps ts us a) (hl : options.lineNumbers = false)
    (hm : Lexeme.ofText text.toList = .ok ms) (hc : Phrase.Composes (ms.map Lexeme.token) vs)
    (hv : Respaces (.simple .endOfLine)
      ((listedFrom options (LineMap.ofText source.toList) start ps).map
        (Token.respelled a.names)) vs) :
    compile options text = .ok b := by
  obtain ⟨hf, rfl⟩ := Phrase.ofLexemes_of_composes hc
  have hleads : Leads options _ (Mirrors True a.names a) Assembly.start :=
    h.run.leads_mirror h.isPhrase (fun _ => hl) h.run.isSound_names fun _ hk => hk
  obtain ⟨c, hc, hmirror⟩ := (hleads.respace hv).foldlM
  obtain ⟨hu, he⟩ := hmirror.finish h.unclosed
  refine compile_eq_ok_iff.mpr ⟨ms, c, hm, hf, hc, hu, ?_⟩
  rw [h.stream, hmirror.out.eq trivial, he]

end QbScript
