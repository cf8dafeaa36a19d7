import QbScript.Proofs.Script.Stream
import QbScript.Listing.Disassemble

/-!
# The findings of a compiled stream

Every address of a compiled stream can be followed. A random block is found with its branches where
they start and its end where it was closed.
-/

set_option autoImplicit false

namespace QbScript

open Bytecode Assembly LittleEndian

namespace Findings

@[simp] theorem all_append (xs : List Finding) (g : Findings) :
    (all xs).append g = ⟨xs ++ g.found, g.fault⟩ := rfl

theorem foldr_append {α : Type} {f : α → Findings} {as : List α} (g : Findings)
    (h : ∀ a ∈ as, (f a).fault = none) :
    as.foldr (fun a rest => (f a).append rest) g =
      ⟨as.flatMap (fun a => (f a).found) ++ g.found, g.fault⟩ := by
  induction as with
  | nil => rfl
  | cons a as ih =>
    rw [List.foldr_cons, ih fun b hb => h b (List.mem_cons_of_mem a hb), append,
      h a List.mem_cons_self]
    simp

end Findings

/-- The labels of a closed block. Without two branches the end stands where no jump leads. -/
def ClosedBlock.findings (k : ClosedBlock) : List Finding :=
  k.starts.map (fun s => .label s ⟨.randomCase, k.header⟩) ++
    match k.starts with
    | [] => [.label (k.header + weightedSize 0) ⟨.randomEnd, k.header⟩]
    | [only] => [.label only ⟨.randomEnd, k.header⟩]
    | _ :: rest => rest.map fun _ => .label k.finish ⟨.randomEnd, k.header⟩

theorem holdsAt_of_mem_placed {b : Bytecode} {pos : Nat} {ts : List Token} {p : Nat × Token}
    (h : b.HoldsAt pos (wires ts)) (hp : p ∈ placed pos ts) : b.HoldsAt p.1 p.2.wire := by
  induction ts generalizing pos with
  | nil => cases hp
  | cons t ts ih =>
    rw [wires_cons] at h
    rcases List.mem_cons.mp hp with rfl | hp
    · exact h.left
    · exact ih h.right hp

theorem mem_addressesOf_of_mem_placed {pos : Nat} {ts : List Token} {p : Nat × Token} {f : Address}
    (hp : p ∈ placed pos ts) (hf : f ∈ p.2.addresses p.1) : f ∈ addressesOf pos ts := by
  induction ts generalizing pos with
  | nil => cases hp
  | cons t ts ih =>
    rcases List.mem_cons.mp hp with rfl | hp
    · exact List.mem_append_left _ hf
    · exact List.mem_append_right _ (ih hp)

theorem exists_mem_placed_of_blank {ts us : List Token}
    (h : us.map Token.blank = ts.map Token.blank) {pos : Nat} {p : Nat × Token}
    (hp : p ∈ placed pos ts) : ∃ u, (p.1, u) ∈ placed pos us ∧ u.blank = p.2.blank := by
  induction ts generalizing us pos with
  | nil => cases hp
  | cons t ts ih =>
    cases us with
    | nil => cases h
    | cons u us =>
      obtain ⟨hb, hbs⟩ := List.cons.inj h
      rcases List.mem_cons.mp hp with rfl | hp
      · exact ⟨u, List.mem_cons_self, hb⟩
      · have hl : t.wire.length = u.wire.length := by
          rw [← t.length_wire_blank, ← hb, u.length_wire_blank]
        obtain ⟨v, hv, hvb⟩ := ih hbs hp
        exact ⟨v, List.mem_cons_of_mem _ (hl ▸ hv), hvb⟩

namespace Compiled

variable {options : CompileOptions} {source : String} {b : Bytecode} {ls : List Lexeme}
  {ps : List Phrase} {ts us : List Token} {a : Assembly}

theorem read_of_settled (h : Compiled options source b ls ps ts us a) {f : Address} {target : Nat}
    (hf : a.Settled ts f target) : f.read b = .ok target := by
  rw [h.stream]
  exact read_append hf.read _

theorem exists_read (h : Compiled options source b ls ps ts us a) {f : Address}
    (hf : f ∈ addressesOf 0 ts) : ∃ target, f.read b = .ok target := by
  obtain ⟨target, hr⟩ := h.sound.settled f hf
    (by rw [openAddresses_of_unclosed? h.unclosed]; exact List.not_mem_nil)
  exact ⟨target, by rw [h.stream]; exact read_append hr _⟩

theorem agrees (h : Compiled options source b ls ps ts us a) :
    a.Agrees ts (Nesting.ofMarks (trace options (LineMap.ofText source.toList) start ps)) :=
  h.run.agrees h.isPhrase

def nesting (options : CompileOptions) (source : String) (ps : List Phrase) : Nesting :=
  Nesting.ofMarks (trace options (LineMap.ofText source.toList) start ps)

theorem opened_eq_nil (h : Compiled options source b ls ps ts us a) :
    (nesting options source ps).opened = [] := by
  have ho := h.agrees.opened
  rw [(frames_of_unclosed? h.unclosed).2.2] at ho
  exact List.forall₂_nil_right_iff.mp ho

theorem size_le (h : Compiled options source b ls ps ts us a) : a.out.size < b.size := by
  have := h.size
  omega

theorem randomHeader (h : Compiled options source b ls ps ts us a) (hs : b.size < 0x80000000)
    {k : ClosedBlock} (hk : a.HoldsClosed ts k) :
    b.randomHeader k.header =
      .ok ⟨k.tag, k.weights, k.starts, k.header + weightedSize k.weights.length⟩ := by
  obtain ⟨u, hu, hb⟩ := exists_mem_placed_of_blank h.blank hk.head
  obtain ⟨js, rfl⟩ : ∃ js, u = .random k.tag k.weights js := by
    cases u <;> simp_all [Token.blank]
  have hst := h.stands hs _ (mem_of_mem_placed hu)
  have hr := (holdsAt_of_mem_placed h.holdsAt_body hu).random hst.1 hst.2.1
  have ht : (List.range k.weights.length).mapM
      (fun i => b.longAddress (slot k.header k.weights.length i)) = .ok k.starts :=
    mapM_range_eq_ok hk.full fun i s hi => h.read_of_settled (hk.slots i s hi)
  simp only [Bytecode.randomHeader, hr.tagAt, hr.count, ok_bind, toNat_ofNat_of_lt hst.2.2,
    hr.finish, hr.weightsAt, ht, pure_eq_ok]

theorem jump_getElem? (h : Compiled options source b ls ps ts us a) {pos : Nat}
    (hp : (pos, .jump 0) ∈ placed 0 ts) : b[pos]? = some Tag.jump.byte := by
  obtain ⟨u, hu, hb⟩ := exists_mem_placed_of_blank h.blank hp
  obtain ⟨d, rfl⟩ : ∃ d, u = .jump d := by cases u <;> simp_all [Token.blank]
  exact (holdsAt_of_mem_placed h.holdsAt_body hu).head

theorem randomEnds (h : Compiled options source b ls ps ts us a) {k : ClosedBlock}
    (hk : a.HoldsClosed ts k) {rest : List Nat} (hr : ∀ s ∈ rest, s ∈ k.starts.tail) :
    b.randomEnds k.header rest =
      .all (rest.map fun _ => .label k.finish ⟨.randomEnd, k.header⟩) := by
  induction rest with
  | nil => rfl
  | cons s rest ih =>
    have hs := hr s List.mem_cons_self
    obtain ⟨h5, hj⟩ := hk.jumps s hs
    have hread : b.longAddress (s - 4) = .ok k.finish := h.read_of_settled (hk.ends s hs)
    have hbyte : b.byteAt (s - 5) = .ok Tag.jump.byte := by rw [byteAt, h.jump_getElem? hj]
    rw [Bytecode.randomEnds, if_neg (by omega), hbyte]
    dsimp only
    rw [if_pos rfl, hread, ih fun t ht => hr t (List.mem_cons_of_mem s ht)]
    rfl

theorem findingsAt_header (h : Compiled options source b ls ps ts us a) (hs : b.size < 0x80000000)
    {k : ClosedBlock} (hk : a.HoldsClosed ts k) (tag : Tag) (ws : List UInt16) (js : List Int32) :
    b.findingsAt k.header (.random tag ws js) = .all k.findings := by
  simp only [findingsAt, h.randomHeader hs hk, randomFindings, ClosedBlock.findings]
  have hfull := hk.full
  rcases hst : k.starts with _ | ⟨first, _ | ⟨second, rest⟩⟩
  · rw [hst] at hfull
    rw [← hfull]
    rfl
  · rfl
  · have he : b.randomEnds k.header (second :: rest) = _ :=
      h.randomEnds hk fun s hm => by rw [hst]; exact hm
    simp only [he]
    rfl

/-- What is found at a token before the table: where a branch leads, the labels of a block at its
head, or nothing. -/
theorem exists_findingsAt (h : Compiled options source b ls ps ts us a) (hs : b.size < 0x80000000)
    {p : Nat × Token} (hp : p ∈ placed 0 us) :
    ∃ found, b.findingsAt p.1 p.2 = .all found ∧
      (found = [] ∨ (∃ target, found = [.label target ⟨.branch, 0⟩]) ∨
        ∃ k ∈ (nesting options source ps).closed, found = k.findings) := by
  obtain ⟨t, ht, hb⟩ := exists_mem_placed_of_blank h.blank.symm hp
  obtain ⟨pos, u⟩ := p
  cases u with
  | shortBranch tag d =>
    obtain ⟨target, hr⟩ := h.exists_read (f := .short (pos + 1)) <| by
      rw [← addressesOf_eq_of_blank h.blank]
      exact mem_addressesOf_of_mem_placed hp List.mem_cons_self
    have hr : b.shortAddress (pos + 1) = .ok target := hr
    refine ⟨[.label target ⟨.branch, 0⟩], ?_, Or.inr (Or.inl ⟨target, rfl⟩)⟩
    simp only [findingsAt, hr]
  | random tag ws js =>
    obtain ⟨js', rfl⟩ : ∃ js', t = .random tag ws js' := by cases t <;> simp_all [Token.blank]
    rcases h.agrees.complete pos tag ws js' ht with ⟨k, hk, -⟩ | ⟨k, hk, rfl, -⟩
    · have ho : k ∈ (nesting options source ps).opened := hk
      rw [h.opened_eq_nil] at ho
      cases ho
    · exact ⟨k.findings, h.findingsAt_header hs (h.agrees.closed k hk) _ _ _,
        Or.inr (Or.inr ⟨k, hk, rfl⟩)⟩
  | checksumName => exact absurd rfl (h.ne_checksumName _ (mem_of_mem_placed hp))
  | _ => exact ⟨[], rfl, Or.inl rfl⟩

theorem fault_findingsAt (h : Compiled options source b ls ps ts us a) (hs : b.size < 0x80000000)
    {p : Nat × Token} (hp : p ∈ placed 0 us) : (b.findingsAt p.1 p.2).fault = none := by
  obtain ⟨found, hf, -⟩ := h.exists_findingsAt hs hp
  rw [hf]
  rfl

/-- What is found in a stream: what its tokens say, and the entries of its table. -/
theorem findings_of_stands (h : Compiled options source b ls ps ts us a) (hu : ∀ u ∈ us, u.Stands)
    (hf : ∀ p ∈ placed 0 us, (b.findingsAt p.1 p.2).fault = none)
    (hn : ∀ t ∈ a.names.entries, t.Stands) :
    b.findings = ⟨(placed 0 us).flatMap (fun p => (b.findingsAt p.1 p.2).found) ++
      a.names.toList.map (fun entry => .entry entry.1 entry.2), none⟩ := by
  have hentry : ∀ pos (entries : List (Checksum × String)),
      (∀ p ∈ placed pos (entries.map fun entry => .checksumName entry.1 entry.2),
        (b.findingsAt p.1 p.2).fault = none) ∧
      (placed pos (entries.map fun entry => .checksumName entry.1 entry.2)).flatMap
        (fun p => (b.findingsAt p.1 p.2).found) =
          entries.map fun entry => .entry entry.1 entry.2 := by
    intro pos entries
    induction entries generalizing pos with
    | nil => simp [placed]
    | cons entry entries ih =>
      obtain ⟨h1, h2⟩ := ih (pos + (Token.checksumName entry.1 entry.2).wire.length)
      constructor
      · intro p hp
        rcases List.mem_cons.mp hp with rfl | hp
        · rfl
        · exact h1 p hp
      · rw [List.map_cons, placed, List.flatMap_cons, h2]
        rfl
  obtain ⟨h1, h2⟩ := hentry a.out.size a.names.toList
  unfold Bytecode.findings
  rw [h.scan_of_stands hu hn]
  dsimp only
  rw [placed_append, placed_append, Nat.zero_add, ← h.size_out, Findings.foldr_append]
  · simp only [List.flatMap_append, NameTable.entries, h2, List.append_nil]
    simp [placed, findingsAt, Findings.all]
  · intro p hp
    rcases List.mem_append.mp hp with hp | hp
    rcases List.mem_append.mp hp with hp | hp
    · exact hf p hp
    · exact h1 p hp
    · obtain rfl := List.mem_singleton.mp hp
      rfl

/-- A compiled stream without zeros in its names has no faults. -/
theorem findings (h : Compiled options source b ls ps ts us a) (hs : b.size < 0x80000000)
    (hn : ∀ t ∈ a.names.entries, t.Stands) :
    b.findings = ⟨(placed 0 us).flatMap (fun p => (b.findingsAt p.1 p.2).found) ++
      a.names.toList.map (fun entry => .entry entry.1 entry.2), none⟩ :=
  h.findings_of_stands (h.stands hs) (fun _ hp => h.fault_findingsAt hs hp) hn

end Compiled

end QbScript
