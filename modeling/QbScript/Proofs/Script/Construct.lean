import QbScript.Proofs.Outcome
import QbScript.Token

/-!
# Constructs

Each kind of construct has tokens that open it, that divide it into parts and that close it. They
are matched like brackets, independently of all other tokens. Where every construct of a text finds
its end, the tokens of its kind make up a text of a simple grammar, and conversely.
-/

set_option autoImplicit false

namespace QbScript

/-- What a token is to a kind of construct. The first token says something about the construct. -/
inductive Role (α : Type) where
  | opens (head : α)
  | divides
  | closes

/-- A kind of construct: the roles of its tokens, and how often one of them may be divided. -/
structure Construct (α : Type) where
  role? : Token → Option (Role α)
  admits : α → Nat → Bool

structure Enclosure (α : Type) where
  head : α
  start : Nat
  dividers : List Nat

structure ClosedEnclosure (α : Type) extends Enclosure α where
  finish : Nat

/-- The constructs of one kind in a text, the open ones from the innermost outwards. -/
structure Bracketing (α : Type) where
  opened : List (Enclosure α)
  closed : List (ClosedEnclosure α)

namespace Construct

variable {α : Type}

/-- A random block has as many branches as its head has weights. -/
def random : Construct Nat where
  role?
    | .random _ weights _ => some (.opens weights.length)
    | .simple .randomCase => some .divides
    | .simple .randomEnd => some .closes
    | _ => none
  admits weights branches := branches = weights

/-- A conditional of a script has at most one other branch. -/
def conditional : Construct Unit where
  role?
    | .simple .if => some (.opens ())
    | .simple .else => some .divides
    | .simple .endIf => some .closes
    | _ => none
  admits _ others := others ≤ 1

def fastConditional : Construct Unit where
  role?
    | .shortBranch .fastIf _ => some (.opens ())
    | .shortBranch .fastElse _ => some .divides
    | .simple .endIf => some .closes
    | _ => none
  admits _ others := others ≤ 1

def switch : Construct Unit where
  role?
    | .simple .switch => some (.opens ())
    | .simple .case | .simple .default => some .divides
    | .simple .endSwitch => some .closes
    | _ => none
  admits _ _ := true

def part (kind : Construct α) (ts : List Token) : List Token :=
  ts.filter fun t => (kind.role? t).isSome

/-- The grammar of texts `B` whose constructs are complete: `B` is empty or `B open B (divide B)ⁿ
close`, where the opening token admits `n` divisions. -/
inductive Balanced (kind : Construct α) : List Token → Prop
  | nil : Balanced kind []
  | block {before first : List Token} {rest : List (Token × List Token)} {t u : Token} {head : α}
      (hb : Balanced kind before) (ht : kind.role? t = some (.opens head))
      (hf : Balanced kind first) (hd : ∀ p ∈ rest, kind.role? p.1 = some .divides)
      (hr : ∀ p ∈ rest, Balanced kind p.2) (ha : kind.admits head rest.length)
      (hu : kind.role? u = some .closes) :
      Balanced kind (before ++ t :: (first ++ rest.flatMap fun p => p.1 :: p.2) ++ [u])

end Construct

namespace Bracketing

variable {α : Type}

def start : Bracketing α := ⟨[], []⟩

def add (kind : Construct α) (n : Bracketing α) (p : Nat × Token) : Option (Bracketing α) :=
  match kind.role? p.2, n.opened with
  | none, _ => some n
  | some (.opens head), outer => some { n with opened := ⟨head, p.1, []⟩ :: outer }
  | some .divides, k :: outer =>
    some { n with opened := { k with dividers := k.dividers ++ [p.1] } :: outer }
  | some .closes, k :: outer =>
    if kind.admits k.head k.dividers.length then some ⟨outer, n.closed ++ [⟨k, p.1⟩]⟩ else none
  | some _, [] => none

inductive Adds (kind : Construct α) (n : Bracketing α) (pos : Nat) (t : Token) :
    Bracketing α → Prop
  | stays (ht : kind.role? t = none) : Adds kind n pos t n
  | opens {head : α} (ht : kind.role? t = some (.opens head)) :
      Adds kind n pos t { n with opened := ⟨head, pos, []⟩ :: n.opened }
  | divides {k : Enclosure α} {outer : List (Enclosure α)} (ht : kind.role? t = some .divides)
      (ho : n.opened = k :: outer) :
      Adds kind n pos t { n with opened := { k with dividers := k.dividers ++ [pos] } :: outer }
  | closes {k : Enclosure α} {outer : List (Enclosure α)} (ht : kind.role? t = some .closes)
      (ho : n.opened = k :: outer) (ha : kind.admits k.head k.dividers.length) :
      Adds kind n pos t ⟨outer, n.closed ++ [⟨k, pos⟩]⟩

def depths (n : Bracketing α) : List (α × Nat) := n.opened.map fun k => (k.head, k.dividers.length)

end Bracketing

/-- Matches the tokens of the kind, unless one of them is out of place. -/
def Construct.bracketing? {α : Type} (kind : Construct α) (ps : List (Nat × Token)) :
    Option (Bracketing α) :=
  ps.foldlM (Bracketing.add kind) Bracketing.start

namespace Construct

inductive Moves {α : Type} (kind : Construct α) (t : Token) :
    List (α × Nat) → List (α × Nat) → Prop
  | stays {outer : List (α × Nat)} (h : kind.role? t = none) : Moves kind t outer outer
  | opens {head : α} {outer : List (α × Nat)} (h : kind.role? t = some (.opens head)) :
      Moves kind t outer ((head, 0) :: outer)
  | divides {head : α} {count : Nat} {outer : List (α × Nat)} (h : kind.role? t = some .divides) :
      Moves kind t ((head, count) :: outer) ((head, count + 1) :: outer)
  | closes {head : α} {count : Nat} {outer : List (α × Nat)} (h : kind.role? t = some .closes)
      (ha : kind.admits head count) : Moves kind t ((head, count) :: outer) outer

inductive Leaves {α : Type} (kind : Construct α) : List (α × Nat) → List Token → Prop
  | nothing {ts : List Token} (h : kind.Balanced ts) : Leaves kind [] ts
  | inside {outer : List (α × Nat)} {before first : List Token} {rest : List (Token × List Token)}
      {t : Token} {head : α} (h : Leaves kind outer before)
      (ht : kind.role? t = some (.opens head)) (hf : kind.Balanced first)
      (hd : ∀ p ∈ rest, kind.role? p.1 = some .divides) (hr : ∀ p ∈ rest, kind.Balanced p.2) :
      Leaves kind ((head, rest.length) :: outer)
        (before ++ t :: (first ++ rest.flatMap fun p => p.1 :: p.2))

end Construct

section

variable {α : Type} {kind : Construct α} {n m : Bracketing α} {pos : Nat} {t : Token} {head : α}
  {count : Nat} {fs gs outer : List (α × Nat)} {ts us : List Token} {ps qs : List (Nat × Token)}

namespace Bracketing

variable {k : Enclosure α} {ks : List (Enclosure α)}

theorem add_stays (ht : kind.role? t = none) : n.add kind (pos, t) = some n := by
  simp [add, ht]

theorem add_opens (ht : kind.role? t = some (.opens head)) :
    n.add kind (pos, t) = some { n with opened := ⟨head, pos, []⟩ :: n.opened } := by
  simp [add, ht]

theorem add_divides (ht : kind.role? t = some .divides) (ho : n.opened = k :: ks) :
    n.add kind (pos, t) =
      some { n with opened := { k with dividers := k.dividers ++ [pos] } :: ks } := by
  simp [add, ht, ho]

theorem add_closes (ht : kind.role? t = some .closes) (ho : n.opened = k :: ks)
    (ha : kind.admits k.head k.dividers.length) :
    n.add kind (pos, t) = some ⟨ks, n.closed ++ [⟨k, pos⟩]⟩ := by
  simp [add, ht, ho, ha]

theorem exists_of_depths (hn : n.depths = (head, count) :: outer) :
    ∃ k ks, n.opened = k :: ks ∧ k.head = head ∧ k.dividers.length = count ∧
      ks.map (fun k => (k.head, k.dividers.length)) = outer := by
  obtain ⟨k, ks, hk, he, ho⟩ := List.map_eq_cons_iff.mp hn
  obtain ⟨rfl, rfl⟩ := Prod.mk.inj he
  exact ⟨k, ks, hk, rfl, rfl, ho⟩

theorem depths_eq_nil_iff : n.depths = [] ↔ n.opened = [] := List.map_eq_nil_iff

theorem adds_of_add (h : n.add kind (pos, t) = some m) : n.Adds kind pos t m := by
  unfold add at h
  split at h
  · rename_i ht
    obtain rfl := Option.some.inj h
    exact .stays ht
  · rename_i ht
    obtain rfl := Option.some.inj h
    exact .opens ht
  · rename_i ht ho
    obtain rfl := Option.some.inj h
    exact .divides ht ho
  · rename_i ht ho
    split at h
    · rename_i ha
      obtain rfl := Option.some.inj h
      exact .closes ht ho ha
    · cases h
  · cases h

theorem moves_of_add (h : n.add kind (pos, t) = some m) : kind.Moves t n.depths m.depths := by
  cases adds_of_add h with
  | stays ht => exact .stays ht
  | opens ht => exact .opens ht
  | divides ht ho =>
    simp only [depths, ho, List.map_cons, List.length_append]
    exact .divides ht
  | closes ht ho ha =>
    simp only [depths, ho, List.map_cons]
    exact .closes ht ha

theorem exists_add_of_moves (h : kind.Moves t n.depths gs) :
    ∃ m, n.add kind (pos, t) = some m ∧ m.depths = gs := by
  generalize hn : n.depths = fs at h
  cases h with
  | stays hr => exact ⟨n, add_stays hr, hn⟩
  | opens hr => exact ⟨_, add_opens hr, by simp [← hn, depths]⟩
  | divides hr =>
    obtain ⟨k, ks, hk, rfl, rfl, rfl⟩ := exists_of_depths hn
    exact ⟨_, add_divides hr hk, by simp [depths]⟩
  | closes hr ha =>
    obtain ⟨k, ks, hk, rfl, rfl, rfl⟩ := exists_of_depths hn
    exact ⟨_, add_closes hr hk ha, rfl⟩

end Bracketing

namespace Construct

theorem Moves.of_divides (h : kind.Moves t fs gs) (ht : kind.role? t = some .divides) :
    ∃ head count outer, fs = (head, count) :: outer ∧ gs = (head, count + 1) :: outer := by
  cases h with
  | divides => exact ⟨_, _, _, rfl, rfl⟩
  | stays hr | opens hr | closes hr => cases hr.symm.trans ht

theorem Moves.of_closes (h : kind.Moves t fs gs) (ht : kind.role? t = some .closes) :
    ∃ head count, fs = (head, count) :: gs ∧ kind.admits head count := by
  cases h with
  | closes _ ha => exact ⟨_, _, rfl, ha⟩
  | stays hr | opens hr | divides hr => cases hr.symm.trans ht

theorem bracketing?_append :
    kind.bracketing? (ps ++ qs) =
      (kind.bracketing? ps).bind fun n => qs.foldlM (Bracketing.add kind) n :=
  List.foldlM_append

theorem bracketing?_concat (ps : List (Nat × Token)) (p : Nat × Token) :
    kind.bracketing? (ps ++ [p]) = (kind.bracketing? ps).bind fun n => n.add kind p := by
  simp [bracketing?_append]

theorem part_append (ts us : List Token) : kind.part (ts ++ us) = kind.part ts ++ kind.part us :=
  List.filter_append ..

theorem Balanced.append (h : kind.Balanced ts) (h' : kind.Balanced us) :
    kind.Balanced (ts ++ us) := by
  induction h' with
  | nil => rwa [List.append_nil]
  | block _ ht hf hd hr ha hu ihb =>
    rw [← List.append_assoc, ← List.append_assoc]
    exact .block ihb ht hf hd hr ha hu

theorem Leaves.append (h : kind.Leaves fs ts) (h' : kind.Balanced us) :
    kind.Leaves fs (ts ++ us) := by
  cases h with
  | nothing h => exact .nothing (h.append h')
  | @inside outer before first rest t head hb ht hf hd hr =>
    -- The text belongs to the part that has begun last.
    rcases List.eq_nil_or_concat rest with rfl | ⟨rest, ⟨d, last⟩, rfl⟩
    · have hin := Leaves.inside hb ht (hf.append h') hd hr
      simpa using hin
    · have hin := @Leaves.inside _ kind _ _ _ (rest ++ [(d, last ++ us)]) _ _ hb ht hf ?_ ?_
      · simpa using hin
      · intro p hp
        rcases List.mem_append.mp hp with hp | hp
        · exact hd p (by simp [hp])
        · obtain rfl := List.mem_singleton.mp hp
          exact hd (d, last) (by simp)
      · intro p hp
        rcases List.mem_append.mp hp with hp | hp
        · exact hr p (by simp [hp])
        · obtain rfl := List.mem_singleton.mp hp
          exact (hr (d, last) (by simp)).append h'

/-- Texts grow as the depths of their open constructs move. -/
theorem Leaves.move (h : kind.Leaves fs ts) (hm : kind.Moves t fs gs) :
    kind.Leaves gs (ts ++ kind.part [t]) := by
  have hpart : ∀ {r}, kind.role? t = some r → kind.part [t] = [t] := by
    intro r hr
    simp [part, hr]
  cases hm with
  | stays hr => simpa [part, hr] using h
  | opens hr =>
    have hin := @Leaves.inside _ kind _ _ _ [] _ _ h hr .nil (by simp) (by simp)
    simpa [hpart hr] using hin
  | divides hr =>
    cases h with
    | @inside _ before first rest u _ hb ht hf hd hp =>
      have hin := @Leaves.inside _ kind _ _ _ (rest ++ [(t, [])]) _ _ hb ht hf ?_ ?_
      · simpa [hpart hr] using hin
      · intro p hm
        rcases List.mem_append.mp hm with hm | hm
        · exact hd p hm
        · obtain rfl := List.mem_singleton.mp hm
          exact hr
      · intro p hm
        rcases List.mem_append.mp hm with hm | hm
        · exact hp p hm
        · obtain rfl := List.mem_singleton.mp hm
          exact .nil
  | closes hr ha =>
    cases h with
    | inside hb ht hf hd hp =>
      have hall := hb.append (Balanced.block .nil ht hf hd hp ha hr)
      simpa [hpart hr] using hall

theorem leaves_of_bracketing? (h : kind.bracketing? ps = some n) :
    kind.Leaves n.depths (kind.part (ps.map Prod.snd)) := by
  induction ps using List.reverseRecOn generalizing n with
  | nil =>
    obtain rfl := Option.some.inj h
    exact .nothing .nil
  | append_singleton ps p ih =>
    rw [bracketing?_concat] at h
    obtain ⟨m, hm, h⟩ := Option.bind_eq_some_iff.mp h
    rw [List.map_append, part_append]
    exact (ih hm).move (Bracketing.moves_of_add h)

theorem exists_cons_of_map_snd (h : ps.map Prod.snd = t :: ts) :
    ∃ pos qs, ps = (pos, t) :: qs ∧ qs.map Prod.snd = ts := by
  obtain ⟨⟨pos, u⟩, qs, rfl, rfl, hqs⟩ := List.map_eq_cons_iff.mp h
  exact ⟨pos, qs, rfl, hqs⟩

/-- The parts of a construct, each after the token that divides it from the one before. -/
theorem exists_foldlM_of_parts {rest : List (Token × List Token)}
    (hd : ∀ p ∈ rest, kind.role? p.1 = some .divides)
    (hr : ∀ p ∈ rest, ∀ ps : List (Nat × Token), ps.map Prod.snd = p.2 → ∀ n : Bracketing α,
      ∃ m, ps.foldlM (Bracketing.add kind) n = some m ∧ m.depths = n.depths)
    (hp : ps.map Prod.snd = rest.flatMap fun p => p.1 :: p.2)
    (hn : n.depths = (head, count) :: outer) :
    ∃ m, ps.foldlM (Bracketing.add kind) n = some m ∧
      m.depths = (head, count + rest.length) :: outer := by
  induction rest generalizing ps n count with
  | nil =>
    obtain rfl := List.map_eq_nil_iff.mp hp
    exact ⟨n, rfl, hn⟩
  | cons p rest ih =>
    rw [List.flatMap_cons, List.cons_append] at hp
    obtain ⟨pos, qs, rfl, hqs⟩ := exists_cons_of_map_snd hp
    obtain ⟨xs, ys, rfl, hxs, hys⟩ := List.map_eq_append_iff.mp hqs
    have hmoves := @Moves.divides α kind p.1 head count outer (hd p List.mem_cons_self)
    rw [← hn] at hmoves
    obtain ⟨n₁, h₁, hn₁⟩ := @Bracketing.exists_add_of_moves _ _ _ pos _ _ hmoves
    obtain ⟨n₂, h₂, hn₂⟩ := hr p List.mem_cons_self xs hxs n₁
    obtain ⟨m, hm, hdm⟩ := ih (fun q hq => hd q (List.mem_cons_of_mem p hq))
      (fun q hq => hr q (List.mem_cons_of_mem p hq)) hys (hn₂.trans hn₁)
    refine ⟨m, ?_, ?_⟩
    · simp [h₁, h₂, hm]
    · rw [hdm, List.length_cons]
      congr 2
      omega

/-- A balanced text leaves the open constructs as they are. -/
theorem Balanced.exists_foldlM (h : kind.Balanced ts) :
    ∀ ps : List (Nat × Token), ps.map Prod.snd = ts → ∀ n : Bracketing α,
      ∃ m, ps.foldlM (Bracketing.add kind) n = some m ∧ m.depths = n.depths := by
  -- Whatever is open around it, so that the parts of a block can be taken by induction.
  induction h with
  | nil =>
    intro ps hp n
    obtain rfl := List.map_eq_nil_iff.mp hp
    exact ⟨n, rfl, rfl⟩
  | @block before first rest t u head hb ht hf hd hr ha hu ihb ihf ihr =>
    intro ps hp n
    obtain ⟨qs, zs, rfl, hq, hz⟩ := List.map_eq_append_iff.mp hp
    obtain ⟨xs, ys, rfl, hx, hy⟩ := List.map_eq_append_iff.mp hq
    obtain ⟨pos, vs, rfl, hv⟩ := exists_cons_of_map_snd hy
    obtain ⟨fs, rs, rfl, hfs, hrs⟩ := List.map_eq_append_iff.mp hv
    obtain ⟨pos', ws, rfl, hw⟩ := exists_cons_of_map_snd hz
    obtain rfl := List.map_eq_nil_iff.mp hw
    obtain ⟨n₁, h₁, hn₁⟩ := ihb xs hx n
    obtain ⟨n₂, h₂, hn₂⟩ := @Bracketing.exists_add_of_moves _ _ n₁ pos _ _ (.opens ht)
    obtain ⟨n₃, h₃, hn₃⟩ := ihf fs hfs n₂
    obtain ⟨n₄, h₄, hn₄⟩ := exists_foldlM_of_parts hd ihr hrs (hn₃.trans hn₂)
    have hmoves := @Moves.closes α kind u head rest.length n₁.depths hu ha
    rw [Nat.zero_add] at hn₄
    rw [← hn₄] at hmoves
    obtain ⟨n₅, h₅, hn₅⟩ := @Bracketing.exists_add_of_moves _ _ _ pos' _ _ hmoves
    exact ⟨n₅, by simp [h₁, h₂, h₃, h₄, h₅], hn₅.trans hn₁⟩

theorem foldlM_add_filter (ps : List (Nat × Token)) (n : Bracketing α) :
    (ps.filter fun p => (kind.role? p.2).isSome).foldlM (Bracketing.add kind) n =
      ps.foldlM (Bracketing.add kind) n := by
  induction ps generalizing n with
  | nil => rfl
  | cons p ps ih =>
    obtain ⟨pos, t⟩ := p
    cases hr : kind.role? t with
    | none => simp [hr, Bracketing.add_stays hr, ih]
    | some r => simp [hr, ih]

/-- Every construct finds its end exactly if the tokens of the kind are a text of the grammar. -/
theorem exists_bracketing?_iff :
    (∃ n, kind.bracketing? ps = some n ∧ n.opened = []) ↔
      kind.Balanced (kind.part (ps.map Prod.snd)) := by
  constructor
  · rintro ⟨n, hn, ho⟩
    have hl := leaves_of_bracketing? hn
    rw [Bracketing.depths_eq_nil_iff.mpr ho] at hl
    cases hl with
    | nothing h => exact h
  · intro h
    obtain ⟨n, hn, hd⟩ := h.exists_foldlM (ps.filter fun p => (kind.role? p.2).isSome)
      (by rw [part, List.filter_map]; rfl) Bracketing.start
    rw [foldlM_add_filter] at hn
    exact ⟨n, hn, Bracketing.depths_eq_nil_iff.mp hd⟩

/-- A construct that is divided so often before its end may be so at its end. -/
theorem exists_admits_of_foldlM (h : ps.foldlM (Bracketing.add kind) n = some m)
    (hn : n.depths = fs ++ (head, count) :: outer) (hm : m.depths.length ≤ outer.length) :
    ∃ c, count ≤ c ∧ kind.admits head c := by
  induction ps generalizing n fs count with
  | nil =>
    obtain rfl := Option.some.inj h
    rw [hn, List.length_append, List.length_cons] at hm
    omega
  | cons p ps ih =>
    rw [List.foldlM_cons] at h
    obtain ⟨n', hp, h⟩ := Option.bind_eq_some_iff.mp h
    have hmoves := Bracketing.moves_of_add hp
    generalize hd : n'.depths = gs at hmoves
    rw [hn] at hmoves
    -- Until what is open inside of the construct is closed, no token divides or closes it.
    cases fs with
    | nil =>
      cases hmoves with
      | stays => exact ih h hd
      | opens => exact @ih n' _ [_] h hd
      | divides =>
        obtain ⟨c, hc, ha⟩ := @ih n' _ [] h hd
        exact ⟨c, by omega, ha⟩
      | closes _ ha => exact ⟨count, Nat.le_refl _, ha⟩
    | cons f fs =>
      cases hmoves with
      | stays => exact ih h hd
      | @opens new => exact @ih n' _ ((new, 0) :: f :: fs) h hd
      | @divides new c => exact @ih n' _ ((new, c + 1) :: fs) h hd
      | closes => exact ih h hd

/-- Open constructs that may be closed, each after being divided some more times. -/
def CanClose (kind : Construct α) (fs : List (α × Nat)) : Prop :=
  ∀ f ∈ fs, ∃ c, f.2 ≤ c ∧ kind.admits f.1 c

/-- What a token of a text does whose constructs are complete in the end. -/
theorem exists_moves {p : Nat × Token} (h : kind.bracketing? (ps ++ p :: qs) = some m)
    (hm : m.opened = []) :
    ∃ n gs, kind.bracketing? ps = some n ∧ kind.Moves p.2 n.depths gs ∧ kind.CanClose gs := by
  rw [bracketing?_append] at h
  obtain ⟨n, hn, h⟩ := Option.bind_eq_some_iff.mp h
  rw [List.foldlM_cons] at h
  obtain ⟨n', hn', h⟩ := Option.bind_eq_some_iff.mp h
  refine ⟨n, n'.depths, hn, Bracketing.moves_of_add hn', fun f hf => ?_⟩
  obtain ⟨xs, ys, hxy⟩ := List.append_of_mem hf
  exact exists_admits_of_foldlM h hxy (by simp [Bracketing.depths, hm])

theorem foldlM_add_of_none (h : ∀ p ∈ ps, kind.role? p.2 = none) (n : Bracketing α) :
    ps.foldlM (Bracketing.add kind) n = some n := by
  rw [← foldlM_add_filter, List.filter_eq_nil_iff.mpr]
  · rfl
  · intro p hp
    simp [h p hp]

end Construct

namespace Bracketing

def Has (n : Bracketing α) (P : Enclosure α → Prop) : Prop :=
  (∃ k ∈ n.opened, P k) ∨ ∃ k ∈ n.closed, P k.toEnclosure

variable {P : Enclosure α → Prop} {p : Nat × Token}

/-- A construct keeps a property that it does not lose when it is divided. -/
theorem Has.add (h : n.Has P) (ha : n.add kind p = some m)
    (hP : ∀ k pos, P k → P { k with dividers := k.dividers ++ [pos] }) : m.Has P := by
  cases adds_of_add ha with
  | stays => exact h
  | opens =>
    rcases h with ⟨k, hk, h⟩ | h
    · exact Or.inl ⟨k, List.mem_cons_of_mem _ hk, h⟩
    · exact Or.inr h
  | divides _ ho =>
    rcases h with ⟨k, hk, h⟩ | h
    · rcases List.mem_cons.mp (ho ▸ hk) with rfl | hk
      · exact Or.inl ⟨_, List.mem_cons_self, hP k p.1 h⟩
      · exact Or.inl ⟨k, List.mem_cons_of_mem _ hk, h⟩
    · exact Or.inr h
  | closes _ ho =>
    rcases h with ⟨k, hk, h⟩ | ⟨k, hk, h⟩
    · rcases List.mem_cons.mp (ho ▸ hk) with rfl | hk
      · exact Or.inr ⟨_, List.mem_append_right _ List.mem_cons_self, h⟩
      · exact Or.inl ⟨k, hk, h⟩
    · exact Or.inr ⟨k, List.mem_append_left _ hk, h⟩

theorem Has.foldlM (h : n.Has P) (ha : ps.foldlM (Bracketing.add kind) n = some m)
    (hP : ∀ k pos, P k → P { k with dividers := k.dividers ++ [pos] }) : m.Has P := by
  induction ps generalizing n with
  | nil =>
    obtain rfl := Option.some.inj ha
    exact h
  | cons p ps ih =>
    rw [List.foldlM_cons] at ha
    obtain ⟨n', hp, ha⟩ := Option.bind_eq_some_iff.mp ha
    exact ih (h.add hp hP) ha

theorem Has.exists_closed (h : n.Has P) (ho : n.opened = []) : ∃ k ∈ n.closed, P k.toEnclosure :=
  h.resolve_left fun ⟨_, hk, _⟩ => by
    rw [ho] at hk
    cases hk

end Bracketing

namespace Construct

theorem exists_add_of_mem (h : kind.bracketing? ps = some m) (hp : (pos, t) ∈ ps) :
    ∃ (n n' : Bracketing α) (qs : List (Nat × Token)), n.add kind (pos, t) = some n' ∧
      qs.foldlM (Bracketing.add kind) n' = some m := by
  obtain ⟨xs, ys, rfl⟩ := List.append_of_mem hp
  rw [bracketing?_append] at h
  obtain ⟨n, -, h⟩ := Option.bind_eq_some_iff.mp h
  rw [List.foldlM_cons] at h
  obtain ⟨n', hn', h⟩ := Option.bind_eq_some_iff.mp h
  exact ⟨n, n', ys, hn', h⟩

theorem has_start_of_mem (h : kind.bracketing? ps = some m) (hp : (pos, t) ∈ ps)
    (ht : kind.role? t = some (.opens head)) : m.Has fun k => k.start = pos := by
  obtain ⟨n, n', qs, hn', hq⟩ := exists_add_of_mem h hp
  obtain rfl := Option.some.inj ((Bracketing.add_opens ht).symm.trans hn')
  exact Bracketing.Has.foldlM (Or.inl ⟨_, List.mem_cons_self, rfl⟩) hq fun _ _ h => h

theorem has_divider_of_mem (h : kind.bracketing? ps = some m) (hp : (pos, t) ∈ ps)
    (ht : kind.role? t = some .divides) : m.Has fun k => pos ∈ k.dividers := by
  obtain ⟨n, n', qs, hn', hq⟩ := exists_add_of_mem h hp
  refine Bracketing.Has.foldlM ?_ hq fun k _ h => List.mem_append_left _ h
  cases ho : n.opened with
  | nil => simp [Bracketing.add, ht, ho] at hn'
  | cons k outer =>
    obtain rfl := Option.some.inj ((Bracketing.add_divides ht ho).symm.trans hn')
    exact Or.inl ⟨_, List.mem_cons_self, List.mem_append_right _ List.mem_cons_self⟩

end Construct

end

end QbScript
