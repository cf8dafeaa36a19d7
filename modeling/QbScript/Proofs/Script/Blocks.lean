import QbScript.Proofs.Script.Run

/-!
# Random blocks

How the random blocks of a script nest follows from its phrases alone; where their branches start
and end follows from the sizes of the stream at these phrases. The addresses of the blocks agree
with that at every moment of a run.
-/

set_option autoImplicit false

namespace QbScript

open Bytecode

/-- A phrase that was added, and the sizes of the stream before and after. -/
structure Mark where
  before : Nat
  token : Token
  after : Nat
  deriving DecidableEq

def Assembly.trace (options : CompileOptions) (lines : LineMap) (a : Assembly) :
    List Phrase → List Mark
  | [] => []
  | p :: ps =>
    match a.add options (lines.position p.start) p.token with
    | .ok a' => ⟨a.out.size, p.token, a'.out.size⟩ :: trace options lines a' ps
    | .error _ => []

structure Block where
  header : Nat
  tag : Tag
  weights : List UInt16
  starts : List Nat
  deriving DecidableEq

structure ClosedBlock extends Block where
  finish : Nat
  deriving DecidableEq

/-- The random blocks of a script, the open ones from the innermost outwards. -/
structure Nesting where
  opened : List Block
  closed : List ClosedBlock
  deriving DecidableEq

namespace Nesting

/-- A branch and an end belong to the innermost open block. -/
def add (n : Nesting) (m : Mark) : Nesting :=
  match m.token, n.opened with
  | .random tag weights _, outer => { n with opened := ⟨m.before, tag, weights, []⟩ :: outer }
  | .simple .randomCase, f :: outer =>
    { n with opened := { f with starts := f.starts ++ [m.after] } :: outer }
  | .simple .randomEnd, f :: outer => ⟨outer, n.closed ++ [⟨f, m.before⟩]⟩
  | _, _ => n

def ofMarks (ms : List Mark) : Nesting := ms.foldl add ⟨[], []⟩

def Lists (n : Nesting) (pos : Nat) (ws : List UInt16) : Prop :=
  (∃ k ∈ n.opened, k.header = pos ∧ k.weights = ws) ∨
    ∃ k ∈ n.closed, k.header = pos ∧ k.weights = ws

theorem Lists.add {n : Nesting} {pos : Nat} {ws : List UInt16} (h : n.Lists pos ws) (m : Mark) :
    (n.add m).Lists pos ws := by
  unfold Nesting.add
  split
  · rcases h with ⟨k, hk, h⟩ | h
    · exact Or.inl ⟨k, List.mem_cons_of_mem _ hk, h⟩
    · exact Or.inr h
  · rename_i f outer _ ho
    rcases h with ⟨k, hk, h⟩ | h
    · rw [ho] at hk
      rcases List.mem_cons.mp hk with rfl | hk
      · exact Or.inl ⟨_, List.mem_cons_self, h⟩
      · exact Or.inl ⟨k, List.mem_cons_of_mem _ hk, h⟩
    · exact Or.inr h
  · rename_i f outer _ ho
    rcases h with ⟨k, hk, h⟩ | ⟨k, hk, h⟩
    · rw [ho] at hk
      rcases List.mem_cons.mp hk with rfl | hk
      · exact Or.inr ⟨_, List.mem_append_right _ List.mem_cons_self, h⟩
      · exact Or.inl ⟨k, hk, h⟩
    · exact Or.inr ⟨k, List.mem_append_left _ hk, h⟩
  · exact h

theorem lists_add_random (n : Nesting) (tag : Tag) (ws : List UInt16) (js : List Int32)
    (pos after : Nat) : (n.add ⟨pos, .random tag ws js, after⟩).Lists pos ws :=
  Or.inl ⟨_, List.mem_cons_self, rfl, rfl⟩

theorem add_of_ne {n : Nesting} {m : Mark} (hr : ∀ tag ws js, m.token ≠ .random tag ws js)
    (hc : m.token ≠ .simple .randomCase) (he : m.token ≠ .simple .randomEnd) : n.add m = n := by
  unfold Nesting.add
  split
  · rename_i ht
    exact absurd ht (hr _ _ _)
  · rename_i ht _
    exact absurd ht hc
  · rename_i ht _
    exact absurd ht he
  · rfl

theorem ofMarks_concat (ms : List Mark) (m : Mark) :
    ofMarks (ms ++ [m]) = (ofMarks ms).add m := by
  simp [ofMarks]

end Nesting

def Boundary (ts : List Token) (pos : Nat) : Prop :=
  ∃ xs ys, ts = xs ++ ys ∧ (wires xs).length = pos

theorem Boundary.append {ts : List Token} {pos : Nat} (h : Boundary ts pos) (us : List Token) :
    Boundary (ts ++ us) pos := by
  obtain ⟨xs, ys, rfl, rfl⟩ := h
  exact ⟨xs, ys ++ us, by simp, rfl⟩

namespace Assembly

/-- What the stream holds for a block whose branches have begun. -/
structure Holds (a : Assembly) (ts : List Token) (k : Block) : Prop where
  head : (k.header, .random k.tag k.weights (List.replicate k.weights.length 0)) ∈ placed 0 ts
  slots : ∀ i s, k.starts[i]? = some s →
    a.Settled ts (.long (slot k.header k.weights.length i)) s
  jumps : ∀ s ∈ k.starts.tail, 5 ≤ s ∧ (s - 5, .jump 0) ∈ placed 0 ts
  bounds : ∀ s ∈ k.starts, Boundary ts s

structure Matches (a : Assembly) (ts : List Token) (k : Block) (f : RandomFrame) : Prop
    extends a.Holds ts k where
  header : f.header = k.header
  count : f.count = k.weights.length
  filled : f.filled = k.starts.length
  filled_le : f.filled ≤ f.count
  ends : f.ends = (k.starts.tail.map (· - 4)).reverse

structure HoldsClosed (a : Assembly) (ts : List Token) (k : ClosedBlock) : Prop
    extends a.Holds ts k.toBlock where
  full : k.starts.length = k.weights.length
  ends : ∀ s ∈ k.starts.tail, a.Settled ts (.long (s - 4)) k.finish
  finish : Boundary ts k.finish

structure Agrees (a : Assembly) (ts : List Token) (n : Nesting) : Prop where
  opened : List.Forall₂ (a.Matches ts) n.opened a.randoms
  closed : ∀ k ∈ n.closed, a.HoldsClosed ts k
  complete : ∀ pos tag ws js, (pos, .random tag ws js) ∈ placed 0 ts → n.Lists pos ws

variable {options : CompileOptions} {line : Nat} {lines : LineMap} {a a' : Assembly} {t : Token}
  {ts us : List Token} {links : List Link} {k : Block} {f : RandomFrame}

theorem mem_placed_append {pos : Nat} {p : Nat × Token} (h : p ∈ placed pos ts)
    (us : List Token) : p ∈ placed pos (ts ++ us) := by
  rw [placed_append]
  exact List.mem_append_left _ h

theorem Holds.step (hs : a.Sound ts) (h : Step options line a t us links a') (ht : t.IsPhrase)
    (hk : a.Holds ts k) : a'.Holds (ts ++ us) k where
  head := mem_placed_append hk.head us
  slots := fun i s hi => (hk.slots i s hi).step hs h ht
  jumps := fun s hm => ⟨(hk.jumps s hm).1, mem_placed_append (hk.jumps s hm).2 us⟩
  bounds := fun s hm => (hk.bounds s hm).append us

theorem Matches.step (hs : a.Sound ts) (h : Step options line a t us links a') (ht : t.IsPhrase)
    (hk : a.Matches ts k f) : a'.Matches (ts ++ us) k f :=
  ⟨hk.toHolds.step hs h ht, hk.header, hk.count, hk.filled, hk.filled_le, hk.ends⟩

theorem HoldsClosed.step (hs : a.Sound ts) (h : Step options line a t us links a')
    (ht : t.IsPhrase) {k : ClosedBlock} (hk : a.HoldsClosed ts k) : a'.HoldsClosed (ts ++ us) k :=
  ⟨hk.toHolds.step hs h ht, hk.full, fun s hm => (hk.ends s hm).step hs h ht,
    hk.finish.append us⟩

theorem Sound.boundary (hs : a.Sound ts) : Boundary ts a.out.size :=
  ⟨ts, [], by simp, hs.size.symm⟩

theorem matches_openRandom {tag : Tag} {ws : List UInt16} {js : List Int32} (hs : a.Sound ts)
    (ht : (Token.random tag ws js).IsPhrase) :
    a'.Matches (ts ++ [.random tag ws js]) ⟨a.out.size, tag, ws, []⟩
      ⟨a.out.size, ws.length, 0, [], line⟩ := by
  obtain ⟨-, rfl⟩ := ht
  refine ⟨⟨?_, ?_, ?_, ?_⟩, rfl, rfl, rfl, Nat.zero_le _, rfl⟩
  · rw [placed_append, Nat.zero_add, ← hs.size]
    exact List.mem_append_right _ List.mem_cons_self
  · simp
  · simp
  · simp

theorem matches_firstCase (hs : a.Sound ts)
    (h : Step options line a t [] [⟨.long (slot f.header f.count f.filled), a.out.size⟩] a')
    (ht : t.IsPhrase) (hk : a.Matches ts k f) (hf : f.filled = 0) (hc : 0 < f.count) :
    a'.Matches (ts ++ []) { k with starts := k.starts ++ [a'.out.size] }
      { f with filled := f.filled + 1 } := by
  have hz : k.starts = [] := List.length_eq_zero_iff.mp (hk.filled ▸ hf)
  have hsize : a'.out.size = a.out.size := h.size_out
  have hslot := hs.settled_of_link h ht List.mem_cons_self
  have hk' := hk.step hs h ht
  refine ⟨⟨hk'.head, ?_, ?_, ?_⟩, hk.header, hk.count, ?_, ?_, ?_⟩
  · intro i s hi
    obtain ⟨rfl, rfl⟩ : i = 0 ∧ a'.out.size = s := by simpa [hz, List.getElem?_cons] using hi
    rw [hsize]
    simpa [hf, hk.header, hk.count] using hslot
  · simp [hz]
  · intro s hm
    obtain rfl : s = a'.out.size := by simpa [hz] using hm
    rw [hsize]
    exact hs.boundary.append []
  · simp [hz, hf]
  · show f.filled + 1 ≤ f.count
    omega
  · simp [hk.ends, hz]

theorem matches_nextCase (hs : a.Sound ts)
    (h : Step options line a t [.jump 0] [⟨.long (slot f.header f.count f.filled), a.out.size + 5⟩]
      a') (ht : t.IsPhrase) (hk : a.Matches ts k f) (hf : f.filled ≠ 0) (hc : f.filled < f.count) :
    a'.Matches (ts ++ [.jump 0]) { k with starts := k.starts ++ [a'.out.size] }
      { f with filled := f.filled + 1, ends := (a.out.size + 1) :: f.ends } := by
  have hz : k.starts ≠ [] := fun h => hf (by rw [hk.filled, h]; rfl)
  have hsize : a'.out.size = a.out.size + 5 := h.size_out
  have hslot := hs.settled_of_link h ht List.mem_cons_self
  have hk' := hk.step hs h ht
  have htail : (k.starts ++ [a'.out.size]).tail = k.starts.tail ++ [a'.out.size] :=
    List.tail_append_of_ne_nil hz
  refine ⟨⟨hk'.head, ?_, ?_, ?_⟩, hk.header, hk.count, ?_, ?_, ?_⟩
  · intro i s hi
    rcases Nat.lt_or_ge i k.starts.length with hl | hl
    · exact hk'.slots i s (by rwa [List.getElem?_append_left hl] at hi)
    · rw [List.getElem?_append_right hl] at hi
      obtain ⟨hi0, rfl⟩ : i - k.starts.length = 0 ∧ a'.out.size = s := by
        simpa [List.getElem?_cons] using hi
      obtain rfl : i = f.filled := by
        have := hk.filled
        omega
      rw [hsize, ← hk.header, ← hk.count]
      exact hslot
  · intro s hm
    rw [htail] at hm
    rcases List.mem_append.mp hm with hm | hm
    · exact hk'.jumps s hm
    · obtain rfl := List.mem_singleton.mp hm
      refine ⟨by omega, ?_⟩
      rw [hsize, Nat.add_sub_cancel, placed_append, Nat.zero_add, ← hs.size]
      exact List.mem_append_right _ List.mem_cons_self
  · intro s hm
    rcases List.mem_append.mp hm with hm | hm
    · exact hk'.bounds s hm
    · obtain rfl := List.mem_singleton.mp hm
      exact ((hs.step h ht).boundary)
  · simp [hk.filled]
  · exact hc
  · simp only [htail, List.map_append, List.reverse_append, ← hk.ends]
    simp [hsize]

theorem holdsClosed_closeRandom (hs : a.Sound ts)
    (h : Step options line a t [] (f.ends.reverse.map fun field => ⟨.long field, a.out.size⟩) a')
    (ht : t.IsPhrase) (hk : a.Matches ts k f) (hf : f.filled = f.count) :
    a'.HoldsClosed (ts ++ []) ⟨k, a.out.size⟩ := by
  have hk' := hk.step hs h ht
  refine ⟨hk'.toHolds, by rw [← hk.filled, hf, hk.count], ?_, hs.boundary.append []⟩
  intro s hm
  refine hs.settled_of_link h ht (l := ⟨.long (s - 4), a.out.size⟩) ?_
  refine List.mem_map_of_mem (f := fun field => (⟨.long field, a.out.size⟩ : Link)) ?_
  rw [hk.ends, List.reverse_reverse]
  exact List.mem_map_of_mem (f := (· - 4)) hm

theorem mem_of_mem_placed {pos : Nat} {p : Nat × Token} (h : p ∈ placed pos ts) : p.2 ∈ ts := by
  rw [← map_snd_placed pos ts]
  exact List.mem_map_of_mem h

/-- A head that is there after a step was there before, unless the step wrote it. -/
theorem mem_placed_of_step (hs : a.Sound ts) (h : Step options line a t us links a') {pos : Nat}
    {tag : Tag} {ws : List UInt16} {js : List Int32}
    (hp : (pos, .random tag ws js) ∈ placed 0 (ts ++ us)) :
    (pos, .random tag ws js) ∈ placed 0 ts ∨ t = .random tag ws js ∧ pos = a.out.size := by
  rw [placed_append, Nat.zero_add, ← hs.size] at hp
  rcases List.mem_append.mp hp with hp | hp
  · exact Or.inl hp
  have hu := mem_of_mem_placed hp
  cases h with
  | plain ht =>
    cases t with
    | random => exact ht.elim
    | _ => simp [Token.parts] at hu
  | named ht =>
    cases t with
    | random => cases ht
    | _ => simp [Token.parts] at hu
  | lineEndKept =>
    unfold lineMark at hu
    split at hu <;> simp at hu
  | openRandom =>
    obtain ⟨rfl, hr⟩ : pos = a.out.size ∧ _ := by simpa [placed] using hp
    obtain ⟨rfl, rfl, rfl⟩ := hr
    exact Or.inr ⟨rfl, rfl⟩
  | _ => simp at hu

variable {n : Nesting}

theorem Agrees.step (hs : a.Sound ts) (h : Step options line a t us links a') (ht : t.IsPhrase)
    (hn : a.Agrees ts n) : a'.Agrees (ts ++ us) (n.add ⟨a.out.size, t, a'.out.size⟩) := by
  have hclosed : ∀ k ∈ n.closed, a'.HoldsClosed (ts ++ us) k :=
    fun k hk => (hn.closed k hk).step hs h ht
  have hopened : ∀ ks fs, List.Forall₂ (a.Matches ts) ks fs →
      List.Forall₂ (a'.Matches (ts ++ us)) ks fs :=
    fun ks fs hf => hf.imp fun k f hk => hk.step hs h ht
  have hcomplete : ∀ pos tag ws js, (pos, .random tag ws js) ∈ placed 0 (ts ++ us) →
      (n.add ⟨a.out.size, t, a'.out.size⟩).Lists pos ws := by
    intro pos tag ws js hp
    rcases mem_placed_of_step hs h hp with hp | ⟨rfl, rfl⟩
    · exact (hn.complete pos tag ws js hp).add _
    · exact n.lists_add_random tag ws js _ _
  have hkeep : a'.randoms = a.randoms → (∀ tag ws js, t ≠ .random tag ws js) →
      t ≠ .simple .randomCase → t ≠ .simple .randomEnd →
      a'.Agrees (ts ++ us) (n.add ⟨a.out.size, t, a'.out.size⟩) := by
    intro hr h1 h2 h3
    refine ⟨?_, ?_, hcomplete⟩ <;> rw [Nesting.add_of_ne h1 h2 h3]
    · exact hr ▸ hopened _ _ hn.opened
    · exact hclosed
  have hstep := h
  cases h with
  | plain hp =>
    refine hkeep rfl ?_ ?_ ?_
    · rintro _ _ _ rfl
      exact hp.elim
    · rintro rfl
      exact hp.elim
    · rintro rfl
      exact hp.elim
  | named hp =>
    refine hkeep rfl ?_ ?_ ?_
    · rintro _ _ _ rfl
      cases hp
    · rintro rfl
      cases hp
    · rintro rfl
      cases hp
  | openRandom => exact ⟨.cons (matches_openRandom hs ht) (hopened _ _ hn.opened), hclosed, hcomplete⟩
  | firstCase hr hf hc =>
    obtain ⟨k, ks, hk, hrest, hks⟩ := List.forall₂_cons_right_iff.mp (hr ▸ hn.opened)
    refine ⟨?_, ?_, hcomplete⟩ <;> simp only [Nesting.add, hks]
    · exact .cons (matches_firstCase hs hstep ht hk hf hc) (hopened _ _ hrest)
    · exact hclosed
  | nextCase hr hf hc =>
    obtain ⟨k, ks, hk, hrest, hks⟩ := List.forall₂_cons_right_iff.mp (hr ▸ hn.opened)
    refine ⟨?_, ?_, hcomplete⟩ <;> simp only [Nesting.add, hks]
    · exact .cons (matches_nextCase hs hstep ht hk hf hc) (hopened _ _ hrest)
    · exact hclosed
  | closeRandom hr hf =>
    obtain ⟨k, ks, hk, hrest, hks⟩ := List.forall₂_cons_right_iff.mp (hr ▸ hn.opened)
    refine ⟨?_, ?_, hcomplete⟩ <;> simp only [Nesting.add, hks]
    · exact hopened _ _ hrest
    · intro c hc
      rcases List.mem_append.mp hc with hc | hc
      · exact hclosed c hc
      · obtain rfl := List.mem_singleton.mp hc
        exact holdsClosed_closeRandom hs hstep ht hk hf
  | firstBranch _ htag =>
    rcases htag with rfl | rfl <;> exact hkeep rfl (by simp) (by simp) (by simp)
  | nextBranch _ htag =>
    rcases htag with rfl | rfl <;> exact hkeep rfl (by simp) (by simp) (by simp)
  | _ => exact hkeep rfl (by simp) (by simp) (by simp)

theorem agrees_start : start.Agrees [] ⟨[], []⟩ :=
  ⟨.nil, fun _ hk => (nomatch hk), fun _ _ _ _ hp => (nomatch hp)⟩

theorem trace_append (a : Assembly) (ps qs : List Phrase) (b : Assembly)
    (h : ps.foldlM (fun a p => a.add options (lines.position p.start) p.token) a = .ok b) :
    trace options lines a (ps ++ qs) = trace options lines a ps ++ trace options lines b qs := by
  induction ps generalizing a with
  | nil =>
    obtain rfl := Except.ok.inj h
    rfl
  | cons p ps ih =>
    rw [List.foldlM_cons] at h
    obtain ⟨c, hc, h⟩ := bind_eq_ok_iff.mp h
    simp only [List.cons_append, trace, hc, ih c h]

theorem Run.agrees {ps : List Phrase} (h : Run options lines ps ts a)
    (hp : ∀ p ∈ ps, p.token.IsPhrase) :
    a.Agrees ts (Nesting.ofMarks (trace options lines Assembly.start ps)) := by
  induction h with
  | start => exact agrees_start
  | @step ps ts us a a' p links hr ha hs ih =>
    have hps : ∀ q ∈ ps, q.token.IsPhrase := fun q hq => hp q (List.mem_append_left _ hq)
    rw [trace_append _ _ _ _ hr.ofPhrases, trace, ha]
    simp only [trace, Nesting.ofMarks_concat]
    exact (ih hps).step (hr.sound hps) hs (hp p (List.mem_append_right _ List.mem_cons_self))

end Assembly

end QbScript
