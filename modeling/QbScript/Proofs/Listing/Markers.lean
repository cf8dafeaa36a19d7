import QbScript.Proofs.Listing.Delimited
import QbScript.Proofs.Listing.Elements
import QbScript.Proofs.Script.RandomBlocks

/-!
# Markers of a compiled stream

A stream has no tokens for the branches and the ends of its random blocks. Its survey has a label
for each of them, where it stands in the script and in the order of the script, and one where a
short branch leads; it has no others.
-/

set_option autoImplicit false

namespace QbScript

open Bytecode Assembly

namespace Bytecode

variable {b : Bytecode} {pos : Nat} {l : Label}

theorem found_findings (h : b.findings.fault = none) :
    b.findings.found = b.scan.tokens.flatMap fun p => (b.findingsAt p.1 p.2).found := by
  have hall := (Findings.fault_foldr_eq_none_iff.mp h).1
  rw [findings, Findings.foldr_append _ hall]
  exact List.append_nil _

theorem kind_of_mem_randomEnds {header : Nat} {targets : List Nat}
    (h : .label pos l ∈ (b.randomEnds header targets).found) : l.kind = .randomEnd := by
  induction targets with
  | nil => cases h
  | cons target rest ih =>
    unfold randomEnds at h
    split at h
    · exact ih h
    split at h
    · split at h
      · split at h
        · rcases List.mem_cons.mp h with h | h
          · injection h with _ hl
            rw [hl]
          · exact ih h
        · cases h
      · rcases List.mem_cons.mp h with h | h
        · cases h
        · exact ih h
    · cases h

theorem kind_of_mem_randomFindings {header : RandomHeader} {start : Nat}
    (h : .label pos l ∈ (b.randomFindings header start).found) : l.kind ≠ .branch := by
  have hcase : .label pos l ∈ header.targets.map (fun target =>
      Finding.label target ⟨.randomCase, start⟩) → l.kind ≠ .branch := by
    intro hm
    obtain ⟨target, -, he⟩ := List.mem_map.mp hm
    injection he with _ hl
    simp [← hl]
  have hend : ∀ {place : Nat}, .label pos l ∈ [Finding.label place ⟨.randomEnd, start⟩] →
      l.kind ≠ .branch := by
    intro place hm
    injection List.mem_singleton.mp hm with _ hl
    simp [hl]
  unfold randomFindings at h
  dsimp only at h
  split at h
  · exact (List.mem_append.mp h).elim hcase hend
  · exact (List.mem_append.mp h).elim hcase hend
  · rcases List.mem_append.mp h with h | h
    · exact hcase h
    · simp [kind_of_mem_randomEnds h]

theorem mem_findingsAt_iff (hk : l.kind = .branch) {p : Nat × Token} :
    .label pos l ∈ (b.findingsAt p.1 p.2).found ↔ l = ⟨.branch, 0⟩ ∧
      (∃ tag d, p.2 = .shortBranch tag d) ∧ b.shortAddress (p.1 + 1) = .ok pos := by
  obtain ⟨start, t⟩ := p
  cases t with
  | shortBranch tag d =>
    simp only [findingsAt]
    cases b.shortAddress (start + 1) with
    | error e => simp [Findings.stop]
    | ok target => simp [Findings.all, eq_comm, and_comm]
  | random tag ws js =>
    simp only [findingsAt]
    cases b.randomHeader start with
    | error e => simp [Findings.stop]
    | ok header =>
      constructor
      · exact fun hm => absurd hk (kind_of_mem_randomFindings hm)
      · rintro ⟨-, ⟨tag', d, ht⟩, -⟩
        cases ht
  | _ => simp [findingsAt, Findings.all]

/-- Where the short branches of a stream lead, there and nowhere else labels of branches are
found. -/
theorem mem_found_branch_iff (h : b.findings.fault = none) (hk : l.kind = .branch) :
    .label pos l ∈ b.findings.found ↔ l = ⟨.branch, 0⟩ ∧
      ∃ p tag d, (p, .shortBranch tag d) ∈ b.scan.tokens ∧ b.shortAddress (p + 1) = .ok pos := by
  rw [found_findings h, List.mem_flatMap]
  constructor
  · rintro ⟨⟨p, t⟩, hp, hm⟩
    obtain ⟨hl, ⟨tag, d, rfl⟩, ha⟩ := (mem_findingsAt_iff hk).mp hm
    exact ⟨hl, p, tag, d, hp, ha⟩
  · rintro ⟨hl, p, tag, d, hp, ha⟩
    exact ⟨(p, .shortBranch tag d), hp, (mem_findingsAt_iff hk).mpr ⟨hl, ⟨tag, d, rfl⟩, ha⟩⟩

end Bytecode

namespace ClosedBlock

/-- Where the end of the block is found. No jump leads to the end of a block without two branches:
it is put after the head, or where the only branch starts. -/
def endPlace (k : ClosedBlock) : Nat :=
  match k.weights, k.starts with
  | [], _ => k.header + 5
  | [_], s :: _ => s
  | _, _ => k.finish

theorem mem_labels_iff {k : ClosedBlock} (h : k.starts.length = k.weights.length) {pos : Nat}
    {l : Label} : (pos, l) ∈ k.labels ↔
      l = ⟨.randomCase, k.header⟩ ∧ pos ∈ k.starts ∨
        l = ⟨.randomEnd, k.header⟩ ∧ pos = k.endPlace := by
  obtain ⟨⟨header, tag, weights, starts⟩, finish⟩ := k
  match weights, starts, h with
  | [], [], _ => simp [labels, Block.labels, endPlace, weightedSize, and_comm]
  | [w], [s], _ =>
    simp only [labels, Block.labels, endPlace]
    simp [and_comm]
  | v :: w :: ws, s :: s' :: ss, _ =>
    simp only [labels, Block.labels, endPlace, List.length_cons]
    rw [if_neg (by omega)]
    simp only [List.append_nil, List.mem_append, List.mem_map, Prod.mk.injEq, List.mem_singleton]
    constructor
    · rintro (⟨s, hs, rfl, rfl⟩ | ⟨rfl, rfl⟩)
      · exact Or.inl ⟨rfl, hs⟩
      · exact Or.inr ⟨rfl, rfl⟩
    · rintro (⟨rfl, hs⟩ | ⟨rfl, rfl⟩)
      · exact Or.inl ⟨pos, hs, rfl, rfl⟩
      · exact Or.inr ⟨rfl, rfl⟩

end ClosedBlock

def Mark.head? (m : Mark) : Option (Nat × List UInt16) :=
  match m.token with
  | .random _ ws _ => some (m.before, ws)
  | _ => none

namespace Nesting

def heads (n : Nesting) : List (Nat × List UInt16) :=
  n.opened.map (fun k => (k.header, k.weights)) ++ n.closed.map fun k => (k.header, k.weights)

theorem perm_heads_add (n : Nesting) (m : Mark) :
    (n.add m).heads.Perm (n.heads ++ m.head?.toList) := by
  unfold add
  split
  · rename_i tag ws js ht
    have hhead : m.head? = some (m.before, ws) := by rw [Mark.head?, ht]
    rw [hhead]
    exact (List.perm_append_singleton _ _).symm
  · rename_i f outer ht ho
    have hhead : m.head? = none := by rw [Mark.head?, ht]
    simp [heads, ho, hhead]
  · rename_i f outer ht ho
    have hhead : m.head? = none := by rw [Mark.head?, ht]
    simp only [heads, ho, hhead, List.map_append, List.map_cons, List.map_nil, Option.toList_none,
      List.append_nil, ← List.append_assoc]
    exact List.perm_append_singleton _ _
  · rename_i hr _ _
    have hhead : m.head? = none := by
      unfold Mark.head?
      split
      · rename_i ht
        exact (hr _ _ _ ht).elim
      · rfl
    simp [hhead]

/-- The blocks of a script are those that its heads open. -/
theorem perm_heads_foldl (n : Nesting) (ms : List Mark) :
    (ms.foldl add n).heads.Perm (n.heads ++ ms.filterMap Mark.head?) := by
  induction ms generalizing n with
  | nil => simp
  | cons m ms ih =>
    rw [List.foldl_cons]
    have hadd := (ih (n.add m)).trans ((n.perm_heads_add m).append_right _)
    cases hm : m.head? with
    | none => simpa [hm] using hadd
    | some head => simpa [hm] using hadd

end Nesting

/-- The labels of the survey are the marks of the script, and the places to which short branches of
the stream lead. -/
structure Survey.Recovers (s : Survey) (b : Bytecode) (ms : List Mark) : Prop where
  nodup : ∀ pos, (s.labelsAt pos).Nodup
  branch : ∀ pos l, l ∈ s.labelsAt pos ∧ l.kind = .branch ↔ l = ⟨.branch, 0⟩ ∧
    ∃ p tag d, (p, .shortBranch tag d) ∈ b.scan.tokens ∧ b.shortAddress (p + 1) = .ok pos
  /-- There is a block for each head of the script, and it has all its branches. -/
  heads : ((Nesting.ofMarks ms).closed.map fun k => (k.header, k.weights)).Perm
    (ms.filterMap Mark.head?)
  full : ∀ k ∈ (Nesting.ofMarks ms).closed, k.starts.length = k.weights.length
  owner : ∀ pos, ∀ l ∈ s.labelsAt pos, l.kind ≠ .branch →
    ∃ k ∈ (Nesting.ofMarks ms).closed, k.header = l.owner
  branches : ∀ k ∈ (Nesting.ofMarks ms).closed, ∀ pos,
    ⟨.randomCase, k.header⟩ ∈ s.labelsAt pos ↔ pos ∈ k.starts
  ends : ∀ k ∈ (Nesting.ofMarks ms).closed, ∀ pos,
    ⟨.randomEnd, k.header⟩ ∈ s.labelsAt pos ↔ pos = k.endPlace
  order : ∀ pos, (s.labelsAt pos).filter (fun l => l.kind ≠ .branch) =
    ((Nesting.markersOf ms).filter fun m => m.1 = pos).map Prod.snd

namespace Compiled

variable {options : CompileOptions} {source : String} {b : Bytecode} {ls : List Lexeme}
  {ps : List Phrase} {ts us : List Token} {a : Assembly}

theorem markers_eq (h : Compiled options source b ls ps ts us a) :
    Nesting.markersOf (marks options source ls) = markers options source ps := by
  rw [marks, markers, h.phrases]

theorem resolve_eq (h : Compiled options source b ls ps ts us a) (hs : b.size < 0x80000000)
    (hn : NoZeroNames ls) :
    resolve b = ⟨.ok (Survey.ofFindings b.findings.found), []⟩ := by
  have hfault := congrArg Findings.fault (h.findings hs (h.stands_entries hn))
  have hwarnings := (h.survey_eq hs (h.stands_entries hn)).1
  simp only [resolve, hfault, hwarnings]

/-- Two blocks with one head have their branches and their ends at the same places. -/
theorem eq_of_header_eq (h : Compiled options source b ls ps ts us a) (hs : b.size < 0x80000000)
    {k k' : ClosedBlock} (hk : k ∈ (nesting options source ps).closed)
    (hk' : k' ∈ (nesting options source ps).closed) (he : k'.header = k.header) :
    k'.starts = k.starts ∧ k'.endPlace = k.endPlace := by
  have hh := h.agrees.closed k hk
  have hh' := h.agrees.closed k' hk'
  have hr := h.randomHeader hs hh'
  rw [he, h.randomHeader hs hh] at hr
  obtain ⟨-, hweights, hstarts, -⟩ := RandomHeader.mk.inj (Except.ok.inj hr)
  refine ⟨hstarts.symm, ?_⟩
  have hfull := hh.full
  unfold ClosedBlock.endPlace
  rw [← hweights, ← hstarts, he]
  split
  · rfl
  · rfl
  · rename_i hnil hone
    -- With two branches a jump leads to the end, and it is one jump for both blocks.
    obtain ⟨s, hm⟩ : ∃ s, s ∈ k.starts.tail := by
      rcases hst : k.starts with _ | ⟨first, _ | ⟨second, rest⟩⟩
      · rw [hst, List.length_nil] at hfull
        exact (hnil (List.length_eq_zero_iff.mp hfull.symm)).elim
      · rw [hst, List.length_singleton] at hfull
        obtain ⟨w, hw⟩ := List.length_eq_one_iff.mp hfull.symm
        exact (hone w first [] hw hst).elim
      · exact ⟨second, List.mem_cons_self⟩
    have hend := h.read_of_settled (hh.ends s hm)
    rw [h.read_of_settled (hh'.ends s (hstarts ▸ hm))] at hend
    exact Except.ok.inj hend

theorem recovers (h : Compiled options source b ls ps ts us a) (hs : b.size < 0x80000000)
    (hn : NoZeroNames ls) :
    (Survey.ofFindings b.findings.found).Recovers b (marks options source ls) := by
  have hst := h.stands_entries hn
  have hat : ∀ pos l, l ∈ (Survey.ofFindings b.findings.found).labelsAt pos ↔
      .label pos l ∈ b.findings.found := fun pos => (Survey.labelsAt_ofFindings _ pos).1
  have hmark : ∀ pos l, l.kind ≠ .branch →
      (l ∈ (Survey.ofFindings b.findings.found).labelsAt pos ↔
        ∃ k ∈ (nesting options source ps).closed,
          l = ⟨.randomCase, k.header⟩ ∧ pos ∈ k.starts ∨
            l = ⟨.randomEnd, k.header⟩ ∧ pos = k.endPlace) := by
    intro pos l hl
    have hfound : (pos, l) ∈ markers options source ps ↔ _ := h.mem_found_iff hs hst
    rw [hat, ← (and_iff_right hl : _ ↔ .label pos l ∈ b.findings.found), ← hfound,
      h.mem_markers_iff]
    refine exists_congr fun k => and_congr_right fun hk => ?_
    exact ClosedBlock.mem_labels_iff (h.agrees.closed k hk).full
  constructor
  case nodup => exact fun pos => (Survey.labelsAt_ofFindings _ pos).2.1
  case branch =>
    intro pos l
    have hfault := congrArg Findings.fault (h.findings hs hst)
    rw [hat]
    constructor
    · rintro ⟨hm, hl⟩
      exact (mem_found_branch_iff hfault hl).mp hm
    · rintro ⟨rfl, hp⟩
      exact ⟨(mem_found_branch_iff hfault rfl).mpr ⟨rfl, hp⟩, rfl⟩
  case heads =>
    have hperm := Nesting.perm_heads_foldl ⟨[], []⟩ (marks options source ls)
    rw [← Nesting.ofMarks, Nesting.heads, h.nesting_eq, h.opened_eq_nil] at hperm
    rw [h.nesting_eq]
    exact hperm
  case full =>
    intro k hk
    rw [h.nesting_eq] at hk
    exact (h.agrees.closed k hk).full
  case owner =>
    intro pos l hl hk
    rw [h.nesting_eq]
    obtain ⟨k, hm, ⟨rfl, -⟩ | ⟨rfl, -⟩⟩ := (hmark pos l hk).mp hl
    · exact ⟨k, hm, rfl⟩
    · exact ⟨k, hm, rfl⟩
  case branches =>
    intro k hk pos
    rw [h.nesting_eq] at hk
    rw [hmark pos _ (by simp)]
    constructor
    · rintro ⟨k', hk', ⟨he, hp⟩ | ⟨he, -⟩⟩
      · exact (h.eq_of_header_eq hs hk hk' (Label.mk.inj he).2.symm).1 ▸ hp
      · cases he
    · exact fun hp => ⟨k, hk, Or.inl ⟨rfl, hp⟩⟩
  case ends =>
    intro k hk pos
    rw [h.nesting_eq] at hk
    rw [hmark pos _ (by simp)]
    constructor
    · rintro ⟨k', hk', ⟨he, -⟩ | ⟨he, hp⟩⟩
      · cases he
      · exact (h.eq_of_header_eq hs hk hk' (Label.mk.inj he).2.symm).2 ▸ hp
    · exact fun hp => ⟨k, hk, Or.inr ⟨rfl, hp⟩⟩
  case order =>
    intro pos
    rw [h.markers_eq]
    exact h.filter_labelsAt hs hst pos

end Compiled

/-- The marks of random blocks are recovered from a compiled stream. Its survey succeeds without
warnings; the labels are one where each short branch leads and one for each mark of a random block,
and the labels of one place are in the order of the script. -/
theorem markers_of_compile {options : CompileOptions} {source : String} {b : Bytecode}
    (h : compile options source = .ok b) (hs : b.size < 0x80000000) :
    ∃ ls, Lexeme.ofText source.toList = .ok ls ∧
      Phrase.Composes (ls.map Lexeme.token) ((marks options source ls).map Mark.token) ∧
      (NoZeroNames ls →
        ∃ s : Survey, resolve b = ⟨.ok s, []⟩ ∧ s.Recovers b (marks options source ls)) := by
  obtain ⟨ls, ps, ts, us, a, hc⟩ := exists_compiled h
  exact ⟨ls, hc.ofText, hc.composes_marks, fun hn =>
    ⟨_, hc.resolve_eq hs hn, hc.recovers hs hn⟩⟩

/-- A block without branches stands before the first branch of another one, and one with a single
branch in it. -/
theorem markers_of_compile_nested :
    ∃ source : String, source = "IF RANDOM(1,1) RANDOM() RANDOMEND RANDOMCASE " ++
        "RANDOM(2) RANDOMCASE RANDOMEND RANDOMCASE RANDOMEND ENDIF" ∧
      ∃ b ls s, compile ⟨.fast, false⟩ source = .ok b ∧ Lexeme.ofText source.toList = .ok ls ∧
        Phrase.Composes (ls.map Lexeme.token) ((marks ⟨.fast, false⟩ source ls).map Mark.token) ∧
        (marks ⟨.fast, false⟩ source ls).filterMap Mark.head? =
          [(3, [1, 1]), (20, []), (25, [2])] ∧
        resolve b = ⟨.ok s, []⟩ ∧ s.Recovers b (marks ⟨.fast, false⟩ source ls) ∧
        (s.labelsAt 25).filter (fun l => l.kind ≠ .branch) =
          [⟨.randomEnd, 20⟩, ⟨.randomCase, 3⟩] ∧
        (s.labelsAt 36).filter (fun l => l.kind ≠ .branch) =
          [⟨.randomCase, 25⟩, ⟨.randomEnd, 25⟩] ∧
        (s.labelsAt 41).filter (fun l => l.kind ≠ .branch) =
          [⟨.randomCase, 3⟩, ⟨.randomEnd, 3⟩] := by
  obtain ⟨source, hsource⟩ : ∃ source : String, source =
      "IF RANDOM(1,1) RANDOM() RANDOMEND RANDOMCASE " ++
        "RANDOM(2) RANDOMCASE RANDOMEND RANDOMCASE RANDOMEND ENDIF" := ⟨_, rfl⟩
  have hb : compile ⟨.fast, false⟩ source =
      .ok #[71, 41, 0, 47, 2, 0, 0, 0, 1, 0, 1, 0, 9, 0, 0, 0, 21, 0, 0, 0, 47, 0, 0, 0, 0, 47, 1,
        0, 0, 0, 2, 0, 0, 0, 0, 0, 46, 0, 0, 0, 0, 40, 0] := by
    subst hsource
    decide +kernel
  have hs : Array.size #[(71 : UInt8), 41, 0, 47, 2, 0, 0, 0, 1, 0, 1, 0, 9, 0, 0, 0, 21, 0, 0, 0,
      47, 0, 0, 0, 0, 47, 1, 0, 0, 0, 2, 0, 0, 0, 0, 0, 46, 0, 0, 0, 0, 40, 0] < 0x80000000 := by
    decide
  obtain ⟨ls, hl, hn, hheads, hms⟩ : ∃ ls, Lexeme.ofText source.toList = .ok ls ∧
      NoZeroNames ls ∧ (marks ⟨.fast, false⟩ source ls).filterMap Mark.head? =
        [(3, [1, 1]), (20, []), (25, [2])] ∧
      Nesting.markersOf (marks ⟨.fast, false⟩ source ls) =
        [(25, ⟨.randomEnd, 20⟩), (25, ⟨.randomCase, 3⟩), (36, ⟨.randomCase, 25⟩),
          (36, ⟨.randomEnd, 25⟩), (41, ⟨.randomCase, 3⟩), (41, ⟨.randomEnd, 3⟩)] := by
    subst hsource
    exact ⟨(Lexeme.ofText ("IF RANDOM(1,1) RANDOM() RANDOMEND RANDOMCASE " ++
      "RANDOM(2) RANDOMCASE RANDOMEND RANDOMCASE RANDOMEND ENDIF").toList).toOption.getD [],
      by decide +kernel⟩
  obtain ⟨ls', hl', hcomposes, hrecovers⟩ := markers_of_compile hb hs
  obtain rfl := Except.ok.inj (hl.symm.trans hl')
  obtain ⟨s, hr, hrec⟩ := hrecovers hn
  refine ⟨source, hsource, _, ls, s, hb, hl, hcomposes, hheads, hr, hrec, ?_, ?_, ?_⟩
  · rw [hrec.order, hms]
    rfl
  · rw [hrec.order, hms]
    rfl
  · rw [hrec.order, hms]
    rfl

end QbScript
