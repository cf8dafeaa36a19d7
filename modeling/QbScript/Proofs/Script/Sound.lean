import QbScript.Proofs.Script.Step

/-!
# Sound assemblies

An assembly that is under way is a stream of tokens. Each of its addresses is open, and then held by
exactly one frame, or leads to a position of the stream; and where it leads it goes on to lead.
-/

set_option autoImplicit false

namespace QbScript

open Bytecode

namespace Token

def IsPhrase : Token → Prop
  | .simple tag => tag ≠ .arg ∧ (tag.layout = .fixed 1 ∨ tag = .randomCase ∨ tag = .randomEnd)
  | .name text | .arg text => ∀ c ∈ text.toList, c ≠ '"' ∧ c ≠ '\n'
  | .random tag weights jumps => tag.isRandomHeader ∧ jumps = List.replicate weights.length 0
  | .endOfLineNumber _ | .jump _ | .shortBranch .. | .checksumName .. => False
  | _ => True

end Token

/-- The addresses that a random block has open: those of the branches to come, and of the jumps to
its end. -/
def RandomFrame.openAddresses (f : RandomFrame) : List Address :=
  (List.range' f.filled (f.count - f.filled)).map (fun i => .long (slot f.header f.count i))
    ++ f.ends.map .long

def SwitchCase.openAddresses (c : SwitchCase) : List Address :=
  .short c.next :: (c.skip.map .short).toList

def SwitchFrame.openAddresses (f : SwitchFrame) : List Address :=
  f.cases.flatMap SwitchCase.openAddresses

namespace Assembly

def openAddresses (a : Assembly) : List Address :=
  (a.conditionals.map fun f => .short f.field) ++ a.switches.flatMap SwitchFrame.openAddresses
    ++ a.randoms.flatMap RandomFrame.openAddresses

variable {options : CompileOptions} {line : Nat} {a a' : Assembly} {t : Token} {ts us : List Token}
  {links : List Link}

/-- A step first writes and then links. Where the assembly links first, the order does not matter,
because it links only what was written before. -/
theorem Step.linkAll (h : Step options line a t us links a') :
    linkAll (a.out.extend us) links = .ok a'.out := by
  cases h with
  | lineEndDropped => simp [Bytecode.linkAll]
  | firstCase _ _ _ ho => simpa using ho
  | closeRandom _ _ ho => simpa using ho
  | nextCase _ _ _ ho => exact ho
  | startElse _ _ _ ho => exact linkAll_extend ho _
  | closeConditional _ _ ho => exact linkAll_extend ho _
  | closeSwitch _ _ ho => exact linkAll_extend ho _
  | _ => rfl

theorem Step.size_out (h : Step options line a t us links a') :
    a'.out.size = a.out.size + (wires us).length := by
  rw [size_linkAll h.linkAll, size_extend]

theorem openAddresses_filled {f : RandomFrame} (h : f.filled < f.count) :
    f.openAddresses = .long (slot f.header f.count f.filled) ::
      { f with filled := f.filled + 1 }.openAddresses := by
  obtain ⟨n, hn⟩ : ∃ n, f.count = f.filled + 1 + n := ⟨f.count - (f.filled + 1), by omega⟩
  have h1 : f.count - f.filled = n + 1 := by omega
  have h2 : f.count - (f.filled + 1) = n := by omega
  simp [RandomFrame.openAddresses, h1, h2, List.range'_succ]

theorem map_field_caseLinks (finish : Nat) (cases : List SwitchCase) :
    (caseLinks finish cases).map Link.field = cases.flatMap SwitchCase.openAddresses := by
  induction cases with
  | nil => rfl
  | cons c rest ih =>
    rw [caseLinks, List.map_append, ih, List.flatMap_cons]
    cases hs : c.skip <;> simp [SwitchCase.openAddresses, hs]

theorem addressesOf_parts {pos : Nat} (ht : t.IsPhrase) (hr : ∀ tag ws js, t ≠ .random tag ws js) :
    addressesOf pos t.parts = [] := by
  cases t with
  | random tag ws js => exact absurd rfl (hr tag ws js)
  | jump | shortBranch => exact ht.elim
  | _ => rfl

/-- What is open after a step or linked by it was open before or is written by the step. -/
theorem Step.perm (h : Step options line a t us links a') (ht : t.IsPhrase) :
    (a'.openAddresses ++ links.map Link.field).Perm
      (a.openAddresses ++ addressesOf a.out.size us) := by
  rw [List.perm_iff_count]
  intro g
  cases h with
  | plain hp =>
    rw [addressesOf_parts ht (by rintro _ _ _ rfl; exact hp.elim)]
    rfl
  | named hn =>
    rw [addressesOf_parts ht (by rintro _ _ _ rfl; cases hn)]
    rfl
  | lineEndKept =>
    have : addressesOf a.out.size [lineMark options line] = [] := by
      unfold lineMark
      split <;> rfl
    rw [this]
    rfl
  | lineEndDropped => rfl
  | openRandom =>
    obtain ⟨-, rfl⟩ := ht
    simp [openAddresses, RandomFrame.openAddresses, addressesOf, Token.addresses,
      List.range_eq_range']
    omega
  | firstCase hr hf hc =>
    simp only [openAddresses, hr, List.flatMap_cons, openAddresses_filled (hf ▸ hc), addressesOf]
    simp [List.count_cons]
    omega
  | nextCase hr hf hc =>
    simp only [openAddresses, hr, List.flatMap_cons, openAddresses_filled hc, addressesOf,
      Token.addresses]
    simp [RandomFrame.openAddresses, List.count_cons]
    omega
  | closeRandom hr hf =>
    have hl : (Link.field ∘ fun field => ⟨.long field, a.out.size⟩) = Address.long := rfl
    simp [openAddresses, hr, RandomFrame.openAddresses, hf, addressesOf, hl]
    omega
  | openConditional =>
    simp [openAddresses, addressesOf, Token.addresses, List.count_cons]
    omega
  | startElse _ hc =>
    simp [openAddresses, hc, addressesOf, Token.addresses, List.count_cons]
    omega
  | closeConditional _ hc =>
    simp [openAddresses, hc, addressesOf, Token.addresses, List.count_cons]
    omega
  | openSwitch => simp [openAddresses, SwitchFrame.openAddresses, addressesOf, Token.addresses]
  | firstBranch _ _ hs hc =>
    simp [openAddresses, hs, SwitchFrame.openAddresses, hc, SwitchCase.openAddresses, addressesOf,
      Token.addresses, Token.wire, Token.payload, List.count_cons, Nat.add_assoc]
  | nextBranch _ _ hs hc =>
    simp [openAddresses, hs, SwitchFrame.openAddresses, SwitchCase.openAddresses, addressesOf,
      Token.addresses, Token.wire, Token.payload, List.count_cons, Nat.add_assoc]
    omega
  | closeSwitch _ hs =>
    rename_i f outer out hfast ho
    have hp := ((List.reverse_perm f.cases).flatMap_right SwitchCase.openAddresses).count_eq g
    simp [openAddresses, hs, SwitchFrame.openAddresses, map_field_caseLinks, addressesOf,
      Token.addresses] at hp ⊢
    omega

/-- The assembly `a` holds the tokens `ts`, up to their addresses. -/
structure Sound (a : Assembly) (ts : List Token) : Prop where
  wires : ∃ us, us.map Token.blank = ts.map Token.blank ∧ a.out.toList = wires us
  nodup : a.openAddresses.Nodup
  mem : ∀ f ∈ a.openAddresses, f ∈ addressesOf 0 ts
  settled : ∀ f ∈ addressesOf 0 ts, f ∉ a.openAddresses → ∃ target, f.read a.out = .ok target
  starts : ∀ f ∈ a.switches, ∀ c ∈ f.cases, c.start ≤ a.out.size

theorem sound_start : start.Sound [] where
  wires := ⟨[], rfl, rfl⟩
  nodup := List.nodup_nil
  mem := fun _ hf => (nomatch hf)
  settled := fun _ hf => (nomatch hf)
  starts := fun _ hf => (nomatch hf)

theorem Sound.size (h : a.Sound ts) : a.out.size = (Bytecode.wires ts).length := by
  obtain ⟨us, hb, hw⟩ := h.wires
  rw [← Array.length_toList, hw, length_wires_eq_of_blank hb]

theorem target_le_of_mem_caseLinks {finish bound : Nat} {cases : List SwitchCase} {l : Link}
    (hl : l ∈ caseLinks finish cases) (hb : finish + 1 ≤ bound)
    (hs : ∀ c ∈ cases, c.start ≤ bound) : l.target ≤ bound := by
  induction cases with
  | nil => simp [caseLinks] at hl
  | cons c rest ih =>
    rw [caseLinks, List.append_assoc] at hl
    rcases List.mem_append.mp hl with hl | hl
    · obtain rfl := List.mem_singleton.mp hl
      cases rest with
      | nil => simp; omega
      | cons d rest => exact hs d (by simp)
    rcases List.mem_append.mp hl with hl | hl
    · obtain ⟨field, -, rfl⟩ := by simpa using hl
      exact hb
    · exact ih hl fun d hd => hs d (List.mem_cons_of_mem c hd)

/-- Nothing is linked to a place behind the stream. -/
theorem Step.target_le (h : Step options line a t us links a') (hs : a.Sound ts) :
    ∀ l ∈ links, l.target ≤ a.out.size + (Bytecode.wires us).length := by
  intro l hl
  cases h with
  | firstCase =>
    obtain rfl := List.mem_singleton.mp hl
    exact Nat.le_add_right _ _
  | nextCase =>
    obtain rfl := List.mem_singleton.mp hl
    exact Nat.le_refl _
  | closeRandom =>
    obtain ⟨field, -, rfl⟩ := List.mem_map.mp hl
    exact Nat.le_add_right _ _
  | startElse =>
    obtain rfl := List.mem_singleton.mp hl
    exact Nat.le_refl _
  | closeConditional =>
    obtain rfl := List.mem_singleton.mp hl
    exact Nat.le_refl _
  | closeSwitch _ hf =>
    refine target_le_of_mem_caseLinks hl (Nat.le_refl _) fun c hc => ?_
    have := hs.starts _ (hf ▸ List.mem_cons_self) c (List.mem_reverse.mp hc)
    omega
  | _ => simp at hl

theorem Step.starts (h : Step options line a t us links a')
    (hs : ∀ f ∈ a.switches, ∀ c ∈ f.cases, c.start ≤ a.out.size) :
    ∀ f ∈ a'.switches, ∀ c ∈ f.cases, c.start ≤ a'.out.size := by
  have hsize := h.size_out
  intro f hf c hc
  cases h with
  | openSwitch =>
    rcases List.mem_cons.mp hf with rfl | hf
    · simp at hc
    · have := hs f hf c hc
      omega
  | firstBranch _ _ hsw =>
    rw [hsw] at hs
    rcases List.mem_cons.mp hf with rfl | hf
    · obtain rfl := List.mem_singleton.mp hc
      simp
    · have := hs f (List.mem_cons_of_mem _ hf) c hc
      omega
  | nextBranch _ _ hsw =>
    rw [hsw] at hs
    rcases List.mem_cons.mp hf with rfl | hf
    · rcases List.mem_cons.mp hc with rfl | hc
      · simp [Token.wire, Token.payload]
      · have := hs _ List.mem_cons_self c hc
        omega
    · have := hs f (List.mem_cons_of_mem _ hf) c hc
      omega
  | closeSwitch _ hsw =>
    have := hs f (hsw ▸ List.mem_cons_of_mem _ hf) c hc
    omega
  | _ =>
    have := hs f hf c hc
    omega

theorem toList_extend {b : Bytecode} (hb : b.toList = Bytecode.wires ts) (us : List Token) :
    (b.extend us).toList = Bytecode.wires (ts ++ us) := by
  rw [extend, Array.toList_append, hb, Bytecode.wires_append]

theorem Sound.addressesOf_append (hs : a.Sound ts) (us : List Token) :
    addressesOf 0 (ts ++ us) = addressesOf 0 ts ++ addressesOf a.out.size us := by
  rw [Bytecode.addressesOf_append, Nat.zero_add, ← hs.size]

theorem Sound.lt_pos (hs : a.Sound ts) {f g : Address} (hf : f ∈ addressesOf 0 ts)
    (hg : g ∈ addressesOf a.out.size us) : f.pos < g.pos := by
  have h1 := (pairwise_addressesOf 0 ts).2 f hf
  have h2 := (pairwise_addressesOf a.out.size us).2 g hg
  have := f.pos_lt_stop
  rw [← hs.size] at h1
  omega

theorem Sound.nodup_append (hs : a.Sound ts) :
    (a.openAddresses ++ addressesOf a.out.size us).Nodup :=
  hs.nodup.append (nodup_addressesOf _ _) fun _ hf hf' =>
    absurd (hs.lt_pos (hs.mem _ hf) hf') (Nat.lt_irrefl _)

theorem Sound.mem_append (hs : a.Sound ts) :
    ∀ f ∈ a.openAddresses ++ addressesOf a.out.size us, f ∈ addressesOf 0 (ts ++ us) := by
  intro f hf
  rw [hs.addressesOf_append]
  rcases List.mem_append.mp hf with hf | hf
  · exact List.mem_append_left _ (hs.mem f hf)
  · exact List.mem_append_right _ hf

/-- What linking after writing does to an assembly that is sound. -/
theorem Sound.link (hs : a.Sound ts) (h : Step options line a t us links a') (ht : t.IsPhrase) :
    a'.out.size = a.out.size + (Bytecode.wires us).length ∧
      (∃ vs, vs.map Token.blank = (ts ++ us).map Token.blank ∧ a'.out.toList = Bytecode.wires vs) ∧
      (∀ l ∈ links, l.field.read a'.out = .ok l.target) ∧
      ∀ f ∈ addressesOf 0 ts, f ∉ links.map Link.field →
        ∀ target, f.read a.out = .ok target → f.read a'.out = .ok target := by
  obtain ⟨vs, hb, hv⟩ := hs.wires
  have hbu : (vs ++ us).map Token.blank = (ts ++ us).map Token.blank := by simp [hb]
  have hperm := h.perm ht
  obtain ⟨h1, h2, h3, h4⟩ := linkAll_spec (toList_extend hv us)
    ((List.nodup_append.mp (hperm.nodup_iff.mpr hs.nodup_append)).2.1)
    (fun l hl => ⟨by
      rw [addressesOf_eq_of_blank hbu]
      exact hs.mem_append _ (hperm.mem_iff.mp (List.mem_append_right _ (List.mem_map_of_mem hl))), by
      rw [size_extend]
      exact h.target_le hs l hl⟩) h.linkAll
  refine ⟨by rw [h1, size_extend], ?_, h3, ?_⟩
  · obtain ⟨ws, hw, hw'⟩ := h2
    exact ⟨ws, hw.trans hbu, hw'⟩
  · intro f hf hl target hr
    refine h4 f ?_ hl target (read_append hr _)
    rw [addressesOf_eq_of_blank hbu, hs.addressesOf_append]
    exact List.mem_append_left _ hf

theorem Sound.step (hs : a.Sound ts) (h : Step options line a t us links a') (ht : t.IsPhrase) :
    a'.Sound (ts ++ us) := by
  obtain ⟨-, hw, hl, hread⟩ := hs.link h ht
  have hperm := h.perm ht
  refine ⟨hw, (List.nodup_append.mp (hperm.nodup_iff.mpr hs.nodup_append)).1, ?_, ?_,
    h.starts hs.starts⟩
  · intro f hf
    exact hs.mem_append f (hperm.mem_iff.mp (List.mem_append_left _ hf))
  · intro f hf ho
    by_cases hfl : f ∈ links.map Link.field
    · obtain ⟨l, hml, rfl⟩ := List.mem_map.mp hfl
      exact ⟨l.target, hl l hml⟩
    have hold : f ∉ a.openAddresses ++ addressesOf a.out.size us := fun hm =>
      (List.mem_append.mp (hperm.mem_iff.mpr hm)).elim ho hfl
    rw [hs.addressesOf_append] at hf
    rcases List.mem_append.mp hf with hf | hf
    · obtain ⟨target, hr⟩ := hs.settled f hf fun hm => hold (List.mem_append_left _ hm)
      exact ⟨target, hread f hf hfl target hr⟩
    · exact absurd (List.mem_append_right _ hf) hold

structure Settled (a : Assembly) (ts : List Token) (f : Address) (target : Nat) : Prop where
  mem : f ∈ addressesOf 0 ts
  closed : f ∉ a.openAddresses
  read : f.read a.out = .ok target

theorem Sound.settled_of_link (hs : a.Sound ts) (h : Step options line a t us links a')
    (ht : t.IsPhrase) {l : Link} (hl : l ∈ links) : a'.Settled (ts ++ us) l.field l.target := by
  have hperm := h.perm ht
  have hf : l.field ∈ links.map Link.field := List.mem_map_of_mem hl
  refine ⟨?_, fun ho => ?_, (hs.link h ht).2.2.1 l hl⟩
  · exact hs.mem_append _ (hperm.mem_iff.mp (List.mem_append_right _ hf))
  · exact (List.nodup_append.mp (hperm.nodup_iff.mpr hs.nodup_append)).2.2 _ ho _ hf rfl

theorem Settled.step (hs : a.Sound ts) (h : Step options line a t us links a') (ht : t.IsPhrase)
    {f : Address} {target : Nat} (hf : a.Settled ts f target) :
    a'.Settled (ts ++ us) f target := by
  have hperm := h.perm ht
  have hold : f ∉ a.openAddresses ++ addressesOf a.out.size us := fun hm => by
    rcases List.mem_append.mp hm with hm | hm
    · exact hf.closed hm
    · exact absurd (hs.lt_pos hf.mem hm) (Nat.lt_irrefl _)
  refine ⟨?_, fun ho => hold (hperm.mem_iff.mp (List.mem_append_left _ ho)), ?_⟩
  · rw [hs.addressesOf_append]
    exact List.mem_append_left _ hf.mem
  · exact (hs.link h ht).2.2.2 f hf.mem
      (fun hl => hold (hperm.mem_iff.mp (List.mem_append_right _ hl))) target hf.read

end Assembly

end QbScript
