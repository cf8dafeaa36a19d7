import QbScript.Proofs.Listing.Delimited

/-!
# The addresses that are followed

A survey of a stream follows the addresses of its branches, those of the branches in its random
heads and those of the jumps before these. All of them lie in the stream, whatever its bytes are. So
a stream has a listing exactly if it is read to its end mark and none of these addresses leads out of
it, and the second reading, for the listing, finds no error that the survey does not.
-/

set_option autoImplicit false

namespace QbScript

namespace Bytecode

namespace Address

/-- The place that an address names, in the stream or out of it. -/
def Denotes (b : Bytecode) (target : Int) : Address → Prop
  | .long pos => ∃ d, b.int32At pos = .ok d ∧ target = (pos + 4 : Nat) + d.toInt
  | .short pos => ∃ d, b.int16At pos = .ok d ∧ target = pos + d.toInt

variable {b : Bytecode} {f : Address} {target : Int}

theorem exists_denotes (h : f.stop ≤ b.size) : ∃ target, f.Denotes b target := by
  have hfield : ∀ pos n, pos + n ≤ b.size → ∃ bytes, b.field pos n = .ok bytes := by
    intro pos n hn
    exact ⟨_, field_eq_ok_iff.mpr ⟨hn, rfl⟩⟩
  cases f with
  | long pos =>
    obtain ⟨bytes, hb⟩ := hfield pos 4 h
    exact ⟨_, _, by rw [int32At, hb]; rfl, rfl⟩
  | short pos =>
    obtain ⟨bytes, hb⟩ := hfield pos 2 h
    exact ⟨_, _, by rw [int16At, hb]; rfl, rfl⟩

theorem Denotes.read_eq (h : f.Denotes b target) :
    f.read b = if 0 ≤ target ∧ target ≤ b.size then .ok target.toNat
      else .error (.badAddress f.pos target) := by
  cases f with
  | long pos =>
    obtain ⟨d, hd, rfl⟩ := h
    rw [read, longAddress, hd, ok_bind, Bytecode.target]
    rfl
  | short pos =>
    obtain ⟨d, hd, rfl⟩ := h
    rw [read, shortAddress, hd, ok_bind, Bytecode.target]
    rfl

theorem Denotes.error?_read (h : f.Denotes b target) :
    error? (f.read b) =
      if 0 ≤ target ∧ target ≤ b.size then none else some (.badAddress f.pos target) := by
  rw [h.read_eq]
  split <;> rfl

theorem le_size_of_read {t : Nat} (h : f.read b = .ok t) : t ≤ b.size := by
  cases f with
  | long pos =>
    obtain ⟨d, -, -, hle⟩ := longAddress_eq_ok_iff.mp h
    exact hle
  | short pos =>
    obtain ⟨d, -, ht⟩ := bind_eq_ok_iff.mp h
    exact (target_eq_ok_iff.mp ht).2

end Address

def jumpBefore? (b : Bytecode) (target : Nat) : Option Address :=
  if 5 ≤ target ∧ b[target - 5]? = some Tag.jump.byte then some (.long (target - 4)) else none

def slots (pos count : Nat) : List Address :=
  (List.range count).map fun i => .long (slot pos count i)

/-- The addresses that are followed at a token: that of a branch, and those of a random head with
those of the jumps before all branches but the first. -/
def followedAt (b : Bytecode) (pos : Nat) : Token → List Address
  | .shortBranch .. => [.short (pos + 1)]
  | .random _ weights _ =>
    slots pos weights.length ++ (slots pos weights.length).tail.filterMap fun f =>
      (f.read b).toOption.bind b.jumpBefore?
  | _ => []

def followed (b : Bytecode) : List Address :=
  b.scan.tokens.flatMap fun p => b.followedAt p.1 p.2

variable {b : Bytecode} {pos : Nat} {tag : Tag} {weights : List UInt16} {jumps : List Int32}

theorem size_of_shortBranch {d : Int16} (h : (pos, .shortBranch tag d) ∈ b.scan.tokens) :
    pos + 3 ≤ b.size := by
  rcases exists_record_of_mem_scanFrom h with ⟨h, -⟩ | ⟨bs, ht, hb⟩
  · cases h
  · cases ht
    exact hb.size_le

theorem holdsRandom_of_mem_scan (h : (pos, .random tag weights jumps) ∈ b.scan.tokens) :
    b.HoldsRandom pos tag weights jumps ∧ weights.length < 0x100000000 := by
  rcases exists_record_of_mem_scanFrom h with ⟨h, -⟩ | ⟨bs, ht, hb⟩
  · cases h
  · cases ht with
    | wire hs => exact ⟨hb.random hs.1 hs.2.1, hs.2.2⟩

theorem HoldsRandom.randomHeader_eq (h : b.HoldsRandom pos tag weights jumps)
    (hw : weights.length < 0x100000000) :
    b.randomHeader pos = ((slots pos weights.length).mapM (Address.read b)).map
      fun targets => ⟨tag, weights, targets, pos + weightedSize weights.length⟩ := by
  simp only [randomHeader, h.tagAt, h.count, ok_bind, toNat_ofNat_of_lt hw, h.finish, h.weightsAt,
    pure_eq_ok]
  rw [slots, List.mapM_map]
  rfl

theorem fault_randomEnds {fs : List Address} {ts : List Nat}
    (h : List.Forall₂ (fun f t => f.read b = .ok t) fs ts) (ht : ∀ t ∈ ts, t ≤ b.size)
    (header : Nat) :
    (b.randomEnds header ts).fault =
      (fs.filterMap fun f => (f.read b).toOption.bind b.jumpBefore?).findSome?
        fun f => error? (f.read b) := by
  induction h with
  | nil => rfl
  | @cons f t fs ts hf _ ih =>
    replace ih := ih fun u hu => ht u (List.mem_cons_of_mem t hu)
    have hle := ht t List.mem_cons_self
    have hread : (f.read b).toOption.bind b.jumpBefore? = b.jumpBefore? t := by
      rw [hf]
      rfl
    rw [List.filterMap_cons, hread, randomEnds, jumpBefore?]
    by_cases h5 : t < 5
    · rw [if_pos h5, if_neg (by omega)]
      exact ih
    · -- A branch starts in the stream or at its end, so the byte is there.
      have hbyte := byteAt_of_lt (show t - 5 < b.size by omega)
      rw [if_neg h5, hbyte, Array.getElem?_eq_getElem (show t - 5 < b.size by omega)]
      dsimp only
      by_cases hj : b[t - 5] = Tag.jump.byte
      · rw [if_pos hj, if_pos ⟨by omega, by rw [hj]⟩]
        dsimp only
        rw [List.findSome?_cons, Address.read]
        cases b.longAddress (t - 4) with
        | error e => rfl
        | ok address =>
          dsimp only
          rw [Findings.fault_append]
          exact ih
      · rw [if_neg hj, if_neg fun hk => hj (Option.some.inj hk.2), Findings.fault_append]
        exact ih

theorem fault_randomFindings {fs : List Address} {h : RandomHeader}
    (hall : List.Forall₂ (fun f t => f.read b = .ok t) fs h.targets)
    (ht : ∀ t ∈ h.targets, t ≤ b.size) :
    (b.randomFindings h pos).fault =
      (fs.tail.filterMap fun f => (f.read b).toOption.bind b.jumpBefore?).findSome?
        fun f => error? (f.read b) := by
  unfold randomFindings
  rcases hts : h.targets with _ | ⟨first, _ | ⟨second, rest⟩⟩ <;> rw [hts] at hall ht
  · obtain rfl := List.forall₂_nil_right_iff.mp hall
    rfl
  · obtain ⟨f, fs, -, hnil, rfl⟩ := List.forall₂_cons_right_iff.mp hall
    obtain rfl := List.forall₂_nil_right_iff.mp hnil
    rfl
  · obtain ⟨f, fs, -, hfs, rfl⟩ := List.forall₂_cons_right_iff.mp hall
    exact fault_randomEnds hfs (fun t hm => ht t (List.mem_cons_of_mem first hm)) pos

/-- A fault at a token is that of the first address which leads out of the stream. -/
theorem fault_findingsAt {p : Nat × Token} (h : p ∈ b.scan.tokens) :
    (b.findingsAt p.1 p.2).fault = (b.followedAt p.1 p.2).findSome? fun f => error? (f.read b) := by
  obtain ⟨pos, t⟩ := p
  cases t with
  | shortBranch tag d =>
    simp only [findingsAt, followedAt, List.findSome?_singleton, Address.read]
    cases b.shortAddress (pos + 1) <;> rfl
  | random tag weights jumps =>
    obtain ⟨hr, hw⟩ := holdsRandom_of_mem_scan h
    simp only [findingsAt, followedAt, hr.randomHeader_eq hw, List.findSome?_append]
    rw [← error?_mapM]
    cases hs : (slots pos weights.length).mapM (Address.read b) with
    | error e => rfl
    | ok targets =>
      have hh : b.randomHeader pos =
          .ok ⟨tag, weights, targets, pos + weightedSize weights.length⟩ := by
        rw [hr.randomHeader_eq hw, hs]
        rfl
      exact fault_randomFindings (forall₂_of_mapM_eq_ok hs) fun t ht =>
        le_size_of_mem_targets hh ht
  | _ => rfl

theorem fault_findings (b : Bytecode) :
    b.findings.fault = (b.followed.findSome? fun f => error? (f.read b)).or b.scan.fault := by
  have hall : ∀ ps : List (Nat × Token), (∀ p ∈ ps, p ∈ b.scan.tokens) →
      (ps.findSome? fun p => (b.findingsAt p.1 p.2).fault) =
        (ps.flatMap fun p => b.followedAt p.1 p.2).findSome? fun f => error? (f.read b) := by
    intro ps hps
    induction ps with
    | nil => rfl
    | cons p ps ih =>
      rw [List.findSome?_cons, List.flatMap_cons, List.findSome?_append,
        fault_findingsAt (hps p List.mem_cons_self),
        ih fun q hq => hps q (List.mem_cons_of_mem p hq)]
      cases (b.followedAt p.1 p.2).findSome? fun f => error? (f.read b) <;> rfl
  rw [findings, Findings.fault_foldr, hall _ fun _ => id, followed]

/-- No address is looked for where the stream has no bytes. -/
theorem stop_le_of_mem_followed {f : Address} (h : f ∈ b.followed) : f.stop ≤ b.size := by
  obtain ⟨⟨pos, t⟩, hp, hf⟩ := List.mem_flatMap.mp h
  cases t with
  | shortBranch tag d =>
    obtain rfl := List.mem_singleton.mp hf
    exact size_of_shortBranch hp
  | random tag weights jumps =>
    obtain ⟨hr, -⟩ := holdsRandom_of_mem_scan hp
    have hend := (extent_eq_ok_iff.mp hr.finish).1
    rcases List.mem_append.mp hf with hf | hf
    · obtain ⟨i, hi, rfl⟩ := List.mem_map.mp hf
      have hi := List.mem_range.mp hi
      simp only [Address.stop, Address.pos, Address.size, slot, weightedSize] at hend ⊢
      omega
    · obtain ⟨g, -, hg⟩ := List.mem_filterMap.mp hf
      obtain ⟨t, ht, hj⟩ := Option.bind_eq_some_iff.mp hg
      unfold jumpBefore? at hj
      split at hj
      · rename_i h5
        obtain rfl := Option.some.inj hj
        have hread : g.read b = .ok t := by
          cases hg : g.read b <;> simp_all [Except.toOption]
        have hle := Address.le_size_of_read hread
        simp only [Address.stop, Address.pos, Address.size]
        omega
      · cases hj
  | _ => cases hf

theorem mapM_items {s : Scan} (h : s.fault = none) : s.items.mapM id = .ok s.tokens := by
  apply mapM_eq_ok_of_forall₂
  rw [Scan.items, h, Option.map_none, Option.toList_none, List.append_nil,
    List.forall₂_map_left_iff, List.forall₂_same]
  exact fun _ _ => rfl

end Bytecode

open Bytecode

variable {b : Bytecode} {e : Bytecode.Error}

theorem resolve_eq_error_iff : (resolve b).result = .error e ↔ b.findings.fault = some e := by
  cases hf : b.findings.fault <;> simp [resolve, hf]

theorem disassemble_eq_error_iff (options : ListingOptions) :
    (disassemble options b).result = .error e ↔ (resolve b).result = .error e := by
  cases hr : (resolve b).result with
  | error d => simp [disassemble, hr]
  | ok s => simp [disassemble, hr]

/-- When a stream is surveyed and listed, and why it is not. -/
structure Bytecode.ListsUnlessAstray (b : Bytecode) : Prop where
  listed (options : ListingOptions) :
    (∃ l, (disassemble options b).result = .ok l) ↔ ∃ s, (resolve b).result = .ok s
  refused (options : ListingOptions) (e : Error) :
    (disassemble options b).result = .error e ↔ (resolve b).result = .error e
  /-- A second reading for the listing, one that stops at errors, meets none. -/
  rereads (options : ListingOptions) : (disassemble options b).result = do
    let s ← (resolve b).result
    let tokens ← b.scan.items.mapM id
    return listing options s tokens
  /-- Every address that is followed has its bytes in the stream. -/
  inside : ∀ f ∈ b.followed, f.stop ≤ b.size
  surveyed : (∃ s, (resolve b).result = .ok s) ↔ b.scan.fault = none ∧
    ∀ f ∈ b.followed, ∃ target, f.Denotes b target ∧ 0 ≤ target ∧ target ≤ b.size
  astray (e : Error) : (resolve b).result = .error e → b.scan.fault = some e ∨
    ∃ f ∈ b.followed, ∃ target, f.Denotes b target ∧ ¬ (0 ≤ target ∧ target ≤ b.size) ∧
      e = .badAddress f.pos target

/-- A stream has a survey and listings exactly if it is read to its end mark and all addresses that
are followed lead into it. It is refused for what cannot be read or for an address that leads out.
-/
theorem lists_unless_astray (b : Bytecode) : b.ListsUnlessAstray where
  listed options := (exists_disassemble_iff options).trans exists_resolve_iff.symm
  refused options _ := disassemble_eq_error_iff options
  rereads options := by
    cases hr : (resolve b).result with
    | error e => rw [(disassemble_eq_error_iff options).mpr hr]; rfl
    | ok s =>
      have hf := fault_scan_of_findings (exists_resolve_iff.mp ⟨s, hr⟩)
      rw [mapM_items hf]
      simp [disassemble, hr]
  inside _ := stop_le_of_mem_followed
  surveyed := by
    rw [exists_resolve_iff, fault_findings, Option.or_eq_none_iff, List.findSome?_eq_none_iff,
      and_comm]
    refine and_congr_right fun _ => forall₂_congr fun f hf => ?_
    constructor
    · intro hread
      obtain ⟨target, ht⟩ := Address.exists_denotes (stop_le_of_mem_followed hf)
      rw [ht.error?_read, ite_eq_left_iff, imp_iff_not_or, not_not] at hread
      exact ⟨target, ht, hread.resolve_right (Option.some_ne_none _)⟩
    · rintro ⟨target, ht, hin⟩
      rw [ht.error?_read, if_pos hin]
  astray e he := by
    rw [resolve_eq_error_iff, fault_findings, Option.or_eq_some_iff] at he
    rcases he with he | ⟨-, he⟩
    · obtain ⟨f, hf, hread⟩ := List.exists_of_findSome?_eq_some he
      obtain ⟨target, ht⟩ := Address.exists_denotes (stop_le_of_mem_followed hf)
      rw [ht.error?_read] at hread
      split at hread
      · cases hread
      · rename_i hout
        exact Or.inr ⟨f, hf, target, ht, hout, (Option.some.inj hread).symm⟩
    · exact Or.inl he

/-- The byte of a jump is found in the number before a branch, and the bytes after it lead out. -/
example : Bytecode.findings
    #[47, 2, 0, 0, 0, 1, 0, 1, 0, 4, 0, 0, 0, 6, 0, 0, 0, 23, 46, 1, 0, 0, 0] =
    ⟨[.label 17 ⟨.randomCase, 0⟩, .label 23 ⟨.randomCase, 0⟩], some (.badAddress 19 24)⟩ := by
  decide +kernel

end QbScript
