import QbScript.Proofs.Bytecode.Scan
import QbScript.Proofs.Listing.Findings

/-!
# Streams that end themselves

A listing is made of what stands up to the end mark. Bytes after the end mark do not change it, and a
stream that is cut at the end mark or before it has none. What is read at a position of a stream is
read there in every longer stream; only addresses that lead out of the stream can come to lead
somewhere, and a stream with such an address has no listing.
-/

set_option autoImplicit false

namespace QbScript

open Bytecode

namespace Findings

theorem fault_append (f g : Findings) : (f.append g).fault = f.fault.or g.fault := by
  cases hf : f.fault with
  | none => simp [append, hf]
  | some e => simp [append, hf]

/-- The fault of findings in a row is the first that there is. -/
theorem fault_foldr {α : Type} (f : α → Findings) (as : List α) (g : Findings) :
    (as.foldr (fun a rest => (f a).append rest) g).fault =
      (as.findSome? fun a => (f a).fault).or g.fault := by
  induction as with
  | nil => rfl
  | cons a as ih =>
    rw [List.foldr_cons, fault_append, ih, List.findSome?_cons]
    cases (f a).fault <;> rfl

theorem fault_append_eq_none_iff {f g : Findings} :
    (f.append g).fault = none ↔ f.fault = none ∧ g.fault = none := by
  rw [fault_append, Option.or_eq_none_iff]

theorem fault_foldr_eq_none_iff {α : Type} {f : α → Findings} {as : List α} {g : Findings} :
    (as.foldr (fun a rest => (f a).append rest) g).fault = none ↔
      (∀ a ∈ as, (f a).fault = none) ∧ g.fault = none := by
  rw [fault_foldr, Option.or_eq_none_iff, List.findSome?_eq_none_iff]

end Findings

namespace Bytecode

section Longer
variable (b x : Bytecode) (pos : Nat)

theorem keeps_field (n : Nat) : Keeps (b.field pos n) (Bytecode.field (b ++ x) pos n) := by
  intro bytes h
  have hb : Bytecode.HoldsAt (b ++ x) pos bytes := (holdsAt_of_field h).append_right x.toList
  exact hb.field (length_of_field_eq_ok h)

theorem keeps_tagAt : Keeps (b.tagAt pos) (Bytecode.tagAt (b ++ x) pos) := by
  intro tag h
  obtain ⟨hi, hs⟩ := getElem?_of_tagAt h
  have hb : Bytecode.HoldsAt (b ++ x) pos [tag.byte] :=
    (holdsAt_singleton hs).append_right x.toList
  exact hb.tagAt hi

theorem keeps_longAddress : Keeps (b.longAddress pos) (Bytecode.longAddress (b ++ x) pos) :=
  fun _ h => read_append (f := .long pos) h x.toList

theorem keeps_shortAddress : Keeps (b.shortAddress pos) (Bytecode.shortAddress (b ++ x) pos) :=
  fun _ h => read_append (f := .short pos) h x.toList

theorem keeps_randomHeader : Keeps (b.randomHeader pos) (Bytecode.randomHeader (b ++ x) pos) := by
  apply (b.keeps_tagAt x pos).bind
  intro tag
  apply (b.keeps_field x (pos + 1) 4).map.bind
  intro count
  apply (b.keeps_field x pos _).map.bind
  intro finish
  apply (Keeps.mapM (fun i => (b.keeps_field x (pos + 5 + 2 * i) 2).map) _).bind
  intro weights
  apply (Keeps.mapM (fun i => b.keeps_longAddress x _) _).bind
  intro targets
  exact .refl _

end Longer

variable {b : Bytecode} {pos : Nat}

theorem byteAt_of_lt (h : pos < b.size) : b.byteAt pos = .ok b[pos] := by
  rw [byteAt, Array.getElem?_eq_getElem h]

theorem randomEnds_append (x : Bytecode) {header : Nat} {targets : List Nat}
    (ht : ∀ t ∈ targets, t ≤ b.size) (h : (b.randomEnds header targets).fault = none) :
    Bytecode.randomEnds (b ++ x) header targets = b.randomEnds header targets := by
  induction targets with
  | nil => rfl
  | cons t rest ih =>
    have hle := ht t List.mem_cons_self
    replace ih := ih fun u hu => ht u (List.mem_cons_of_mem t hu)
    by_cases h5 : t < 5
    · simp only [randomEnds, if_pos h5] at h ⊢
      exact ih h
    · -- A branch starts in the stream or at its end, so a jump before it is in the stream.
      have hbyte : Bytecode.byteAt (b ++ x) (t - 5) = .ok b[t - 5] := by
        rw [byteAt, Array.getElem?_append_left (by omega), Array.getElem?_eq_getElem]
      simp only [randomEnds, if_neg h5, hbyte, byteAt_of_lt (show t - 5 < b.size by omega)] at h ⊢
      split at h
      · rename_i hj
        cases ha : b.longAddress (t - 4) with
        | error e => simp [ha, Findings.stop] at h
        | ok address =>
          simp only [ha, Findings.fault_append_eq_none_iff] at h
          rw [if_pos hj, if_pos hj, b.keeps_longAddress x _ _ ha, ih h.2]
      · rename_i hj
        rw [Findings.fault_append_eq_none_iff] at h
        rw [if_neg hj, if_neg hj, ih h.2]

theorem randomFindings_append (x : Bytecode) {h : RandomHeader}
    (ht : ∀ t ∈ h.targets, t ≤ b.size) (hf : (b.randomFindings h pos).fault = none) :
    Bytecode.randomFindings (b ++ x) h pos = b.randomFindings h pos := by
  unfold randomFindings at hf ⊢
  rcases hts : h.targets with _ | ⟨first, _ | ⟨second, rest⟩⟩
  · rfl
  · rfl
  · simp only [hts, Findings.fault_append_eq_none_iff] at hf
    simp only
    rw [randomEnds_append x (fun t hm => ht t ?_) hf.2]
    rw [hts]
    exact List.mem_cons_of_mem first hm

theorem findingsAt_append (x : Bytecode) {t : Token} (h : (b.findingsAt pos t).fault = none) :
    Bytecode.findingsAt (b ++ x) pos t = b.findingsAt pos t := by
  cases t with
  | shortBranch tag d =>
    cases ha : b.shortAddress (pos + 1) with
    | error e => simp [findingsAt, ha, Findings.stop] at h
    | ok target => simp only [findingsAt, ha, b.keeps_shortAddress x _ _ ha]
  | random tag weights jumps =>
    cases hh : b.randomHeader pos with
    | error e => simp [findingsAt, hh, Findings.stop] at h
    | ok header =>
      simp only [findingsAt, hh, b.keeps_randomHeader x _ _ hh] at h ⊢
      exact randomFindings_append x (fun t ht => le_size_of_mem_targets hh ht) h
  | _ => rfl

theorem findings_append (x : Bytecode) (h : b.findings.fault = none) :
    Bytecode.findings (b ++ x) = b.findings := by
  obtain ⟨ht, hs⟩ := Findings.fault_foldr_eq_none_iff.mp h
  unfold findings
  rw [scan_append x hs]
  apply List.foldr_ext
  intro p hp rest
  rw [findingsAt_append x (ht p hp)]

theorem fault_scan_of_findings (h : b.findings.fault = none) : b.scan.fault = none :=
  (Findings.fault_foldr_eq_none_iff.mp h).2

/-- A stream that is cut at its end mark or before it is at fault. -/
theorem fault_scan_extract {e k : Nat} {t : Token} (he : b.scan.tokens.getLast? = some (e, t))
    (hk : k ≤ e) : (Bytecode.scan (b.extract 0 k)).fault ≠ none := by
  intro h
  -- What is cut off would be bytes after an end mark, which are not read.
  obtain ⟨e', he', hlt⟩ := exists_final_of_scanFrom h
  have hb : b.extract 0 k ++ b.extract k b.size = b := by simp
  have hs : b.scan = Bytecode.scan (b.extract 0 k) := by
    rw [← scan_append (b.extract k b.size) h, hb]
  rw [hs] at he
  obtain rfl : e = e' := congrArg Prod.fst (Option.some.inj (he.symm.trans he'))
  rw [Array.size_extract] at hlt
  omega

end Bytecode

variable {b : Bytecode}

theorem exists_resolve_iff : (∃ s, (resolve b).result = .ok s) ↔ b.findings.fault = none := by
  cases hf : b.findings.fault with
  | none => simp [resolve, hf]
  | some e => simp [resolve, hf]

theorem exists_disassemble_iff (options : ListingOptions) :
    (∃ l, (disassemble options b).result = .ok l) ↔ b.findings.fault = none := by
  rw [← exists_resolve_iff]
  cases hr : (resolve b).result with
  | error e => simp [disassemble, hr]
  | ok s => simp [disassemble, hr]

/-- A listing is made of the tokens with what the survey says of them. -/
theorem disassemble_eq_ok_iff {options : ListingOptions} {l : Listing} :
    (disassemble options b).result = .ok l ↔
      ∃ s, (resolve b).result = .ok s ∧ listing options s b.scan.tokens = l := by
  cases hr : (resolve b).result with
  | error e => simp [disassemble, hr]
  | ok s => simp [disassemble, hr]

theorem disassemble_append {options : ListingOptions} (x : Bytecode) (h : b.findings.fault = none) :
    disassemble options (b ++ x) = disassemble options b := by
  unfold disassemble resolve
  rw [findings_append x h, scan_append x (fault_scan_of_findings h)]

/-- A stream with a listing ends itself: whatever bytes follow, the report is the same, and a
stream that is cut at the end mark or before it can neither be surveyed nor listed. -/
theorem disassemble_delimited {options₀ : ListingOptions} {l₀ : Listing}
    (h : (disassemble options₀ b).result = .ok l₀) :
    ∃ e, b.scan.tokens.getLast? = some (e, .simple .endOfFile) ∧ e < b.size ∧
      (∀ options x, ∃ l, (disassemble options b).result = .ok l ∧
        disassemble options (b ++ x) = disassemble options b) ∧
      ∀ k ≤ e, (∃ err, (resolve (b.extract 0 k)).result = .error err) ∧
        ∀ options, ∃ err, (disassemble options (b.extract 0 k)).result = .error err := by
  have hf := (exists_disassemble_iff options₀).mp ⟨l₀, h⟩
  obtain ⟨e, he, hlt⟩ := exists_final_of_scanFrom (fault_scan_of_findings hf)
  refine ⟨e, he, hlt, ?_, ?_⟩
  · intro options x
    obtain ⟨l, hl⟩ := (exists_disassemble_iff options).mpr hf
    exact ⟨l, hl, disassemble_append x hf⟩
  · intro k hk
    have hcut : ¬ (Bytecode.findings (b.extract 0 k)).fault = none :=
      fun h => fault_scan_extract he hk (fault_scan_of_findings h)
    constructor
    · rw [exists_error_iff, exists_resolve_iff]
      exact hcut
    · intro options
      rw [exists_error_iff, exists_disassemble_iff]
      exact hcut

theorem disassemble_delimited_random :
    ∃ (b : Bytecode) (l₀ : Listing), b = #[47, 2, 0, 0, 0, 1, 0, 1, 0, 4, 0, 0, 0, 6, 0, 0, 0, 1, 46, 1,
        0, 0, 0, 1, 0] ∧
      (disassemble ⟨"  ", false⟩ b).result = .ok l₀ ∧
      b.scan.tokens.getLast? = some (24, .simple .endOfFile) ∧
      (∀ options x, ∃ l, (disassemble options b).result = .ok l ∧
        disassemble options (b ++ x) = disassemble options b) ∧
      ∀ k ≤ 24, (∃ err, (resolve (b.extract 0 k)).result = .error err) ∧
        ∀ options, ∃ err, (disassemble options (b.extract 0 k)).result = .error err := by
  obtain ⟨b, hb⟩ : ∃ b : Bytecode, b = #[47, 2, 0, 0, 0, 1, 0, 1, 0, 4, 0, 0, 0, 6, 0, 0, 0, 1, 46, 1, 0,
    0, 0, 1, 0] := ⟨_, rfl⟩
  have hf : (Bytecode.findings b).fault = none := by
    subst hb
    decide +kernel
  have hlast : (Bytecode.scan b).tokens.getLast? = some (24, .simple .endOfFile) := by
    subst hb
    decide +kernel
  obtain ⟨l₀, hl₀⟩ := (exists_disassemble_iff ⟨"  ", false⟩).mpr hf
  obtain ⟨e, he, -, hlonger, hcut⟩ := disassemble_delimited hl₀
  obtain rfl : 24 = e := congrArg Prod.fst (Option.some.inj (hlast.symm.trans he))
  exact ⟨b, l₀, hb, hl₀, hlast, hlonger, hcut⟩

end QbScript
