import QbScript.Proofs.Listing.Findings
import QbScript.Proofs.Listing.Survey
import QbScript.Proofs.Script.Mirror

/-!
# Labels of a listed script

Each mark of a random block in a listed script has a label: its kind, the head of its block and the
size of the stream where it stands. In the order of the script the labels are sorted, and they are
those that are found in the stream.
-/

set_option autoImplicit false

namespace QbScript

open Bytecode

/-- The labels of a block so far. One without two branches ends where its branches start. -/
def Block.labels (k : Block) : List (Nat × Label) :=
  k.starts.map (fun s => (s, ⟨.randomCase, k.header⟩)) ++
    match k.weights, k.starts with
    | [], _ => [(k.header + weightedSize 0, ⟨.randomEnd, k.header⟩)]
    | [_], s :: _ => [(s, ⟨.randomEnd, k.header⟩)]
    | _, _ => []

def ClosedBlock.labels (k : ClosedBlock) : List (Nat × Label) :=
  k.toBlock.labels ++
    if k.weights.length ≤ 1 then [] else [(k.finish, ⟨.randomEnd, k.header⟩)]

theorem Block.labels_start (k : Block) (s : Nat) (h : k.starts.length < k.weights.length) :
    Block.labels { k with starts := k.starts ++ [s] } =
      k.labels ++ ((⟨.randomCase, k.header⟩ ::
        if k.weights.length = 1 then [⟨.randomEnd, k.header⟩] else []).map (s, ·)) := by
  obtain ⟨header, tag, weights, starts⟩ := k
  match weights, h with
  | [w], h =>
    obtain rfl : starts = [] := by simpa using h
    rfl
  | v :: w :: ws, _ => simp [labels]

theorem ClosedBlock.mem_findings_iff {k : ClosedBlock} (h : k.starts.length = k.weights.length)
    {pos : Nat} {l : Label} : .label pos l ∈ k.findings ↔ (pos, l) ∈ k.labels := by
  obtain ⟨⟨header, tag, weights, starts⟩, finish⟩ := k
  match weights, starts, h with
  | [], [], _ => simp [findings, labels, Block.labels]
  | [w], [s], _ => simp [findings, labels, Block.labels]
  | v :: w :: ws, s :: s' :: ss, _ =>
    simp only [findings, labels, Block.labels, List.mem_append, List.mem_map, List.length_cons]
    rw [if_neg (by omega)]
    simp only [Finding.label.injEq, Prod.mk.injEq, List.mem_singleton, List.not_mem_nil, or_false]
    apply or_congr Iff.rfl
    constructor
    · rintro ⟨_, _, hp, hl⟩
      exact ⟨hp.symm, hl.symm⟩
    · rintro ⟨hp, hl⟩
      exact ⟨s', List.mem_cons_self, hp.symm, hl.symm⟩

namespace Nesting

def labels (n : Nesting) : List (Nat × Label) :=
  n.opened.flatMap Block.labels ++ n.closed.flatMap ClosedBlock.labels

/-- The labels that a mark adds, with their places. The end of a block without two branches counts
as standing right after its head or after its branch. -/
def markers (n : Nesting) (m : Mark) : List (Nat × Label) :=
  match m.token, n.opened with
  | .random _ ws _, _ =>
    if ws = [] then [(m.before + weightedSize 0, ⟨.randomEnd, m.before⟩)] else []
  | .simple .randomCase, k :: _ =>
    (m.after, ⟨.randomCase, k.header⟩) ::
      if k.weights.length = 1 then [(m.after, ⟨.randomEnd, k.header⟩)] else []
  | .simple .randomEnd, k :: _ =>
    if k.weights.length ≤ 1 then [] else [(m.before, ⟨.randomEnd, k.header⟩)]
  | _, _ => []

def markersFrom (n : Nesting) : List Mark → List (Nat × Label)
  | [] => []
  | m :: ms => n.markers m ++ (n.add m).markersFrom ms

def markersOf (ms : List Mark) : List (Nat × Label) := markersFrom ⟨[], []⟩ ms

theorem markersFrom_concat (n : Nesting) (ms : List Mark) (m : Mark) :
    n.markersFrom (ms ++ [m]) = n.markersFrom ms ++ (ms.foldl add n).markers m := by
  induction ms generalizing n with
  | nil => simp [markersFrom]
  | cons x ms ih =>
    rw [List.cons_append, markersFrom, ih, markersFrom, List.foldl_cons, List.append_assoc]

theorem markersOf_concat (ms : List Mark) (m : Mark) :
    markersOf (ms ++ [m]) = markersOf ms ++ (ofMarks ms).markers m :=
  markersFrom_concat _ _ _

theorem markers_of_ne {n : Nesting} {m : Mark} (hr : ∀ tag ws js, m.token ≠ .random tag ws js)
    (hc : m.token ≠ .simple .randomCase) (he : m.token ≠ .simple .randomEnd) :
    n.markers m = [] := by
  unfold markers
  split
  · rename_i ht
    exact absurd ht (hr _ _ _)
  · rename_i ht _
    exact absurd ht hc
  · rename_i ht _
    exact absurd ht he
  · rfl

def HasRoom (n : Nesting) : Prop := ∀ k ∈ n.opened.head?, k.starts.length < k.weights.length

/-- The labels of the blocks are those that the marks add. -/
theorem mem_labels_add {n : Nesting} {m : Mark} (h : m.token = .simple .randomCase → n.HasRoom)
    (x : Nat × Label) : x ∈ (n.add m).labels ↔ x ∈ n.labels ∨ x ∈ n.markers m := by
  unfold add
  split
  · rename_i tag ws js ht
    have hlabels : Block.labels ⟨m.before, tag, ws, []⟩ = n.markers m := by
      simp only [markers, ht]
      match ws with
      | [] => rfl
      | [_] => rfl
      | _ :: _ :: _ => rfl
    simp only [labels, List.flatMap_cons, hlabels, List.mem_append]
    tauto
  · rename_i k outer ht ho
    have hroom : k.starts.length < k.weights.length := h ht k (by rw [ho]; rfl)
    have hlabels : Block.labels { k with starts := k.starts ++ [m.after] } =
        k.labels ++ n.markers m := by
      rw [Block.labels_start k _ hroom]
      simp only [markers, ht, ho]
      split <;> rfl
    simp only [labels, ho, List.flatMap_cons, hlabels, List.mem_append]
    tauto
  · rename_i k outer ht ho
    have hlabels : ClosedBlock.labels ⟨k, m.before⟩ = k.labels ++ n.markers m := by
      simp only [ClosedBlock.labels, markers, ht, ho]
    simp only [labels, ho, List.flatMap_cons, List.flatMap_append, List.flatMap_nil, hlabels,
      List.append_nil, List.mem_append]
    tauto
  · rename_i hr hc he
    have hnil : n.markers m = [] := by
      unfold markers
      split
      · exact (hr _ _ _ ‹_›).elim
      · exact (hc _ _ ‹_› ‹_›).elim
      · exact (he _ _ ‹_› ‹_›).elim
      · rfl
    simp [hnil]

end Nesting

namespace Assembly

/-- The labels of the marks among the listed phrases; they stand where the phrase ends. -/
def labelled (a : Assembly) (t : Token) : List Label :=
  match t, a.randoms with
  | .random _ ws _, _ => if ws = [] then [⟨.randomEnd, a.out.size⟩] else []
  | .simple .randomCase, f :: _ =>
    ⟨.randomCase, f.header⟩ :: if f.count = 1 then [⟨.randomEnd, f.header⟩] else []
  | .simple .randomEnd, f :: _ => if f.count ≤ 1 then [] else [⟨.randomEnd, f.header⟩]
  | _, _ => []

/-- The labels `ms` are in the order of listings. Those at the end of the stream belong to blocks
inside of every block that is still open in the listing, or to its branch that has just begun. -/
structure Labelled (a : Assembly) (ms : List (Nat × Label)) : Prop where
  le_size : ∀ m ∈ ms, m.1 ≤ a.out.size
  kind : ∀ m ∈ ms, m.2.kind ≠ .branch
  sorted : ms.Pairwise fun m m' => m.1 < m'.1 ∨ m.1 = m'.1 ∧ m.2.Before m'.2
  nested : a.randoms.Pairwise fun f g => g.header < f.header
  header_lt : ∀ f ∈ a.randoms, f.header < a.out.size
  inside : ∀ f ∈ a.randoms, f.isLive → ∀ m ∈ ms, m.1 = a.out.size →
    f.header < m.2.owner ∨ f.header = m.2.owner ∧ m.2.kind = .randomCase ∧ 0 < f.filled

theorem labelled_start : start.Labelled [] :=
  ⟨by simp, by simp, .nil, .nil, by simp [start], by simp⟩

variable {options : CompileOptions} {line : Nat} {a a' : Assembly} {t : Token}
  {ts us : List Token} {links : List Link} {ms : List (Nat × Label)} {f : RandomFrame}
  {outer : List RandomFrame}

/-- Labels stand before those of places that come later. -/
theorem Labelled.sorted_append (h : a.Labelled ms) {xs : List Label} {pos : Nat}
    (hp : a.out.size < pos ∨ a.out.size = pos ∧ ∀ m ∈ ms, m.1 = pos → ∀ x ∈ xs, m.2.Before x)
    (hx : xs.Pairwise Label.Before) :
    (ms ++ xs.map (pos, ·)).Pairwise fun m m' => m.1 < m'.1 ∨ m.1 = m'.1 ∧ m.2.Before m'.2 := by
  refine List.pairwise_append.mpr ⟨h.sorted, ?_, ?_⟩
  · exact List.pairwise_map.mpr (hx.imp fun hb => Or.inr ⟨rfl, hb⟩)
  · intro m hm m' hm'
    obtain ⟨x, hx, rfl⟩ := List.mem_map.mp hm'
    have hle := h.le_size m hm
    rcases hp with hp | ⟨rfl, hb⟩
    · exact Or.inl (Nat.lt_of_le_of_lt hle hp)
    · rcases Nat.lt_or_eq_of_le hle with hlt | he
      · exact Or.inl hlt
      · exact Or.inr ⟨he, hb m hm he x hx⟩

theorem Labelled.keep (h : a.Labelled ms) (hr : a'.randoms = a.randoms)
    (hs : a.out.size ≤ a'.out.size) : a'.Labelled ms where
  le_size := fun m hm => Nat.le_trans (h.le_size m hm) hs
  kind := h.kind
  sorted := h.sorted
  nested := hr ▸ h.nested
  header_lt := fun f hf => Nat.lt_of_lt_of_le (h.header_lt f (hr ▸ hf)) hs
  inside := by
    intro f hf hl m hm he
    have := h.le_size m hm
    exact h.inside f (hr ▸ hf) hl m hm (by omega)

theorem mem_append_labels {xs : List Label} {pos : Nat} {m : Nat × Label}
    (hm : m ∈ ms ++ xs.map (pos, ·)) : m ∈ ms ∨ m.1 = pos ∧ m.2 ∈ xs := by
  rcases List.mem_append.mp hm with hm | hm
  · exact Or.inl hm
  · obtain ⟨x, hx, rfl⟩ := List.mem_map.mp hm
    exact Or.inr ⟨rfl, hx⟩

theorem Labelled.openRandom (h : a.Labelled ms) {tag : Tag} {ws : List UInt16} {js : List Int32}
    (hr : a'.randoms = ⟨a.out.size, ws.length, 0, [], line⟩ :: a.randoms)
    (hs : a.out.size < a'.out.size) :
    a'.Labelled (ms ++ (a.labelled (.random tag ws js)).map (a'.out.size, ·)) := by
  have hlab : ∀ x ∈ a.labelled (.random tag ws js), ws = [] ∧ x = ⟨.randomEnd, a.out.size⟩ := by
    intro x hx
    by_cases hws : ws = [] <;> simp [labelled, hws] at hx
    exact ⟨hws, hx⟩
  constructor
  case le_size =>
    intro m hm
    rcases mem_append_labels hm with hm | ⟨hp, -⟩
    · exact Nat.le_of_lt (Nat.lt_of_le_of_lt (h.le_size m hm) hs)
    · exact Nat.le_of_eq hp
  case kind =>
    intro m hm
    rcases mem_append_labels hm with hm | ⟨-, hm⟩
    · exact h.kind m hm
    · rw [(hlab _ hm).2]
      simp
  case sorted =>
    apply h.sorted_append (Or.inl hs)
    unfold labelled
    dsimp only
    split
    · exact List.pairwise_singleton _ _
    · exact .nil
  case nested =>
    rw [hr]
    exact .cons h.header_lt h.nested
  case header_lt =>
    intro f hf
    rw [hr] at hf
    rcases List.mem_cons.mp hf with rfl | hf
    · exact hs
    · exact Nat.lt_trans (h.header_lt f hf) hs
  case inside =>
    intro f hf hl m hm hp
    rcases mem_append_labels hm with hm | ⟨-, hm⟩
    · have := h.le_size m hm
      omega
    · obtain ⟨rfl, ho⟩ := hlab _ hm
      rw [hr] at hf
      rcases List.mem_cons.mp hf with rfl | hf
      · -- A block without branches is closed at once.
        simp [RandomFrame.isLive] at hl
      · rw [ho]
        exact Or.inl (h.header_lt f hf)

theorem Labelled.startCase (h : a.Labelled ms) (hr : a.randoms = f :: outer)
    (hc : f.filled < f.count) {g : RandomFrame} (hg : a'.randoms = g :: outer)
    (hh : g.header = f.header) (hfill : g.filled = f.filled + 1) (hcount : g.count = f.count)
    (hs : a.out.size < a'.out.size ∨ f.filled = 0 ∧ a.out.size = a'.out.size) :
    a'.Labelled (ms ++ (a.labelled (.simple .randomCase)).map (a'.out.size, ·)) := by
  have hf : f ∈ a.randoms := by
    rw [hr]
    exact List.mem_cons_self
  have hlive : f.isLive := by
    simp [RandomFrame.isLive]
    omega
  obtain ⟨hinner, hnested⟩ := List.pairwise_cons.mp (hr ▸ h.nested)
  have hle : a.out.size ≤ a'.out.size := by omega
  -- Labels that are there already where the branch starts belong to inner blocks.
  have hold : ∀ m ∈ ms, m.1 = a'.out.size → f.header < m.2.owner := by
    intro m hm hp
    have := h.le_size m hm
    have := h.inside f hf hlive m hm (by omega)
    omega
  have hlab : ∀ x ∈ a.labelled (.simple .randomCase), x.owner = f.header ∧
      (x.kind = .randomCase ∨ x.kind = .randomEnd ∧ f.count = 1) := by
    intro x hx
    by_cases hone : f.count = 1 <;> simp [labelled, hr, hone] at hx
    · rcases hx with rfl | rfl
      · exact ⟨rfl, Or.inl rfl⟩
      · exact ⟨rfl, Or.inr ⟨rfl, hone⟩⟩
    · rw [hx]
      exact ⟨rfl, Or.inl rfl⟩
  constructor
  case le_size =>
    intro m hm
    rcases mem_append_labels hm with hm | ⟨hp, -⟩
    · exact Nat.le_trans (h.le_size m hm) hle
    · exact Nat.le_of_eq hp
  case kind =>
    intro m hm
    rcases mem_append_labels hm with hm | ⟨-, hm⟩
    · exact h.kind m hm
    · rcases (hlab _ hm).2 with hk | ⟨hk, -⟩ <;> simp [hk]
  case sorted =>
    apply h.sorted_append
    · rcases hs with hs | ⟨-, hs⟩
      · exact Or.inl hs
      · refine Or.inr ⟨hs, fun m hm hp x hx => Or.inl ?_⟩
        rw [(hlab x hx).1]
        exact hold m hm hp
    · simp only [labelled, hr]
      split
      · exact .cons (by simp [Label.Before, LabelKind.rank]) (List.pairwise_singleton _ _)
      · exact List.pairwise_singleton _ _
  case nested =>
    rw [hg]
    exact .cons (fun g' hg' => by rw [hh]; exact hinner g' hg') hnested
  case header_lt =>
    intro f' hf'
    rw [hg] at hf'
    rcases List.mem_cons.mp hf' with rfl | hf'
    · rw [hh]
      exact Nat.lt_of_lt_of_le (h.header_lt f hf) hle
    · have := h.header_lt f' (hr ▸ List.mem_cons_of_mem _ hf')
      omega
  case inside =>
    intro f' hf' hl m hm hp
    rw [hg] at hf'
    rcases List.mem_cons.mp hf' with rfl | hf'
    · rcases mem_append_labels hm with hm | ⟨-, hm⟩
      · exact Or.inl (by rw [hh]; exact hold m hm hp)
      · obtain ⟨ho, hk | ⟨-, hone⟩⟩ := hlab _ hm
        · exact Or.inr ⟨by rw [hh, ho], hk, by omega⟩
        · simp [RandomFrame.isLive] at hl
          omega
    · have := hinner f' hf'
      rcases mem_append_labels hm with hm | ⟨-, hm⟩
      · exact Or.inl (Nat.lt_trans this (hold m hm hp))
      · exact Or.inl (by rw [(hlab _ hm).1]; exact this)

theorem Labelled.closeRandom (h : a.Labelled ms) (hr : a.randoms = f :: outer)
    (hg : a'.randoms = outer) (hs : a'.out.size = a.out.size) :
    a'.Labelled (ms ++ (a.labelled (.simple .randomEnd)).map (a'.out.size, ·)) := by
  have hmem : f ∈ a.randoms := by
    rw [hr]
    exact List.mem_cons_self
  obtain ⟨hinner, hnested⟩ := List.pairwise_cons.mp (hr ▸ h.nested)
  have hlab : ∀ x ∈ a.labelled (.simple .randomEnd), x = ⟨.randomEnd, f.header⟩ ∧ 2 ≤ f.count := by
    intro x hx
    by_cases hle : f.count ≤ 1 <;> simp [labelled, hr, hle] at hx
    exact ⟨hx, by omega⟩
  constructor
  case le_size =>
    intro m hm
    rcases mem_append_labels hm with hm | ⟨hp, -⟩
    · exact Nat.le_trans (h.le_size m hm) (Nat.le_of_eq hs.symm)
    · exact Nat.le_of_eq hp
  case kind =>
    intro m hm
    rcases mem_append_labels hm with hm | ⟨-, hm⟩
    · exact h.kind m hm
    · rw [(hlab _ hm).1]
      simp
  case sorted =>
    apply h.sorted_append
    · refine Or.inr ⟨hs.symm, fun m hm hp x hx => ?_⟩
      obtain ⟨rfl, htwo⟩ := hlab x hx
      -- With two branches the block is open in the listing until here.
      have hlive : f.isLive := by simp [RandomFrame.isLive, htwo]
      rcases h.inside f hmem hlive m hm (hp.trans hs) with ho | ⟨ho, hk, -⟩
      · exact Or.inl ho
      · exact Or.inr ⟨ho.symm, by simp [hk, LabelKind.rank]⟩
    · simp only [labelled, hr]
      split
      · exact .nil
      · exact List.pairwise_singleton _ _
  case nested =>
    rw [hg]
    exact hnested
  case header_lt =>
    intro f' hf'
    rw [hs]
    exact h.header_lt f' (hr ▸ List.mem_cons_of_mem _ (hg ▸ hf'))
  case inside =>
    intro f' hf' hl m hm hp
    rw [hg] at hf'
    have hlt := hinner f' hf'
    rcases mem_append_labels hm with hm | ⟨-, hm⟩
    · exact h.inside f' (hr ▸ List.mem_cons_of_mem _ hf') hl m hm (hp.trans hs)
    · rw [(hlab _ hm).1]
      exact Or.inl hlt

theorem Labelled.step (hm : a.Labelled ms) (h : Step options line a t us links a') :
    a'.Labelled (ms ++ (a.labelled t).map (a'.out.size, ·)) := by
  have hsize := h.size_out
  have hkeep : a.labelled t = [] → a'.randoms = a.randoms →
      a'.Labelled (ms ++ (a.labelled t).map (a'.out.size, ·)) := by
    intro hl hr
    rw [hl, List.map_nil, List.append_nil]
    exact hm.keep hr (by omega)
  cases h with
  | plain hp =>
    refine hkeep ?_ rfl
    unfold labelled
    split <;> first | exact hp.elim | rfl
  | named hn =>
    refine hkeep ?_ rfl
    unfold labelled
    split <;> first | cases hn | rfl
  | openRandom => exact hm.openRandom rfl (by simp [Token.wire])
  | firstCase hr hf hc =>
    exact hm.startCase hr (by omega) rfl rfl rfl rfl (Or.inr ⟨hf, by simpa using hsize.symm⟩)
  | nextCase hr hf hc =>
    refine hm.startCase hr hc rfl rfl rfl rfl (Or.inl ?_)
    rw [hsize]
    simp [Token.wire]
  | closeRandom hr => exact hm.closeRandom hr rfl (by simpa using hsize)
  | firstBranch _ htag => rcases htag with rfl | rfl <;> exact hkeep rfl rfl
  | nextBranch _ htag => rcases htag with rfl | rfl <;> exact hkeep rfl rfl
  | _ => exact hkeep rfl rfl

variable {n : Nesting}

theorem labelled_eq_nil (hr : ∀ tag ws js, t ≠ .random tag ws js) (hc : t ≠ .simple .randomCase)
    (he : t ≠ .simple .randomEnd) : a.labelled t = [] := by
  unfold labelled
  split
  · exact absurd rfl (hr _ _ _)
  · exact absurd rfl hc
  · exact absurd rfl he
  · rfl

theorem Agrees.hasRoom (hn : a.Agrees ts n)
    (h : Step options line a (.simple .randomCase) us links a') : n.HasRoom := by
  have hroom : ∀ {f : RandomFrame} {outer : List RandomFrame}, a.randoms = f :: outer →
      f.filled < f.count → n.HasRoom := by
    intro f outer hr hc k hk
    obtain ⟨k', ks, hm, -, hks⟩ := List.forall₂_cons_right_iff.mp (hr ▸ hn.opened)
    obtain rfl : k' = k := by simpa [hks] using hk
    rw [← hm.filled, ← hm.count]
    exact hc
  cases h with
  | plain ht => exact ht.elim
  | named ht => cases ht
  | firstCase hr hf hc => exact hroom hr (by omega)
  | nextCase hr hf hc => exact hroom hr hc
  | firstBranch _ htag => rcases htag with h | h <;> cases h
  | nextBranch _ htag => rcases htag with h | h <;> cases h

/-- The labels of a phrase are those that its mark adds. -/
theorem Agrees.labelled_eq (hn : a.Agrees ts n) (h : Step options line a t us links a')
    (ht : t.IsPhrase) :
    (a.labelled t).map (a'.out.size, ·) = n.markers ⟨a.out.size, t, a'.out.size⟩ := by
  have hsize := h.size_out
  have hkeep : (∀ tag ws js, t ≠ .random tag ws js) → t ≠ .simple .randomCase →
      t ≠ .simple .randomEnd →
      (a.labelled t).map (a'.out.size, ·) = n.markers ⟨a.out.size, t, a'.out.size⟩ := by
    intro h1 h2 h3
    rw [labelled_eq_nil h1 h2 h3, Nesting.markers_of_ne h1 h2 h3]
    rfl
  have hblock : ∀ {f : RandomFrame} {outer : List RandomFrame}, a.randoms = f :: outer →
      ∃ k ks, n.opened = k :: ks ∧ f.header = k.header ∧ f.count = k.weights.length := by
    intro f outer hr
    obtain ⟨k, ks, hk, -, hks⟩ := List.forall₂_cons_right_iff.mp (hr ▸ hn.opened)
    exact ⟨k, ks, hks, hk.header, hk.count⟩
  cases h with
  | plain hp =>
    refine hkeep ?_ ?_ ?_
    · rintro _ _ _ rfl
      exact hp.elim
    · rintro rfl
      exact hp.elim
    · rintro rfl
      exact hp.elim
  | named hp =>
    refine hkeep ?_ ?_ ?_
    · rintro _ _ _ rfl
      cases hp
    · rintro rfl
      cases hp
    · rintro rfl
      cases hp
  | @openRandom tag ws js =>
    obtain ⟨-, rfl⟩ := ht
    cases ws with
    | nil => simp [labelled, Nesting.markers, weightedSize, Token.length_wire_random]
    | cons w ws => simp [labelled, Nesting.markers]
  | firstCase hr =>
    obtain ⟨k, ks, hks, hheader, hcount⟩ := hblock hr
    simp only [labelled, hr, Nesting.markers, hks, hheader, hcount]
    split <;> rfl
  | nextCase hr =>
    obtain ⟨k, ks, hks, hheader, hcount⟩ := hblock hr
    simp only [labelled, hr, Nesting.markers, hks, hheader, hcount]
    split <;> rfl
  | closeRandom hr =>
    obtain ⟨k, ks, hks, hheader, hcount⟩ := hblock hr
    have hsize : _ = a.out.size := hsize
    simp only [hsize, labelled, hr, Nesting.markers, hks, hheader, hcount]
    split <;> rfl
  | firstBranch _ htag =>
    rcases htag with rfl | rfl <;> exact hkeep (by simp) (by simp) (by simp)
  | nextBranch _ htag =>
    rcases htag with rfl | rfl <;> exact hkeep (by simp) (by simp) (by simp)
  | _ => exact hkeep (by simp) (by simp) (by simp)

variable {lines : LineMap} {ps : List Phrase}

theorem Run.markersOf_concat {p : Phrase} (h : Run options lines ps ts a)
    (ha : a.add options (lines.position p.start) p.token = .ok a') :
    Nesting.markersOf (trace options lines Assembly.start (ps ++ [p])) =
        Nesting.markersOf (trace options lines Assembly.start ps) ++
          (Nesting.ofMarks (trace options lines Assembly.start ps)).markers
            ⟨a.out.size, p.token, a'.out.size⟩ ∧
      Nesting.ofMarks (trace options lines Assembly.start (ps ++ [p])) =
        (Nesting.ofMarks (trace options lines Assembly.start ps)).add
          ⟨a.out.size, p.token, a'.out.size⟩ := by
  rw [trace_append _ _ _ _ h.ofPhrases, trace, ha]
  exact ⟨Nesting.markersOf_concat _ _, Nesting.ofMarks_concat _ _⟩

/-- The labels of the marks of a run are in the order of listings. -/
theorem Run.labelled (h : Run options lines ps ts a) (hp : ∀ p ∈ ps, p.token.IsPhrase) :
    a.Labelled (Nesting.markersOf (trace options lines Assembly.start ps)) ∧
      ∀ m, m ∈ Nesting.markersOf (trace options lines Assembly.start ps) ↔
        m ∈ (Nesting.ofMarks (trace options lines Assembly.start ps)).labels := by
  induction h with
  | start => exact ⟨labelled_start, fun m => Iff.rfl⟩
  | @step ps ts us a a' p links hr ha hs ih =>
    have hps : ∀ q ∈ ps, q.token.IsPhrase := fun q hq => hp q (List.mem_append_left _ hq)
    have ht : p.token.IsPhrase := hp p (List.mem_append_right _ List.mem_cons_self)
    obtain ⟨hl, hm⟩ := ih hps
    have hagrees := hr.agrees hps
    obtain ⟨hmarkers, hmarks⟩ := hr.markersOf_concat ha
    rw [hmarkers, hmarks, ← hagrees.labelled_eq hs ht]
    refine ⟨hl.step hs, fun m => ?_⟩
    rw [Nesting.mem_labels_add, List.mem_append, hm, hagrees.labelled_eq hs ht]
    intro hc
    have hc : p.token = .simple .randomCase := hc
    exact hagrees.hasRoom (hc ▸ hs)

end Assembly

end QbScript
