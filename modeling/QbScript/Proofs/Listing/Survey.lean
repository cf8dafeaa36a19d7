import Mathlib.Data.List.Nodup
import Mathlib.Tactic.Tauto
import QbScript.Listing.Survey

/-!
# What a survey holds

A survey has a label exactly where one was found, and lists the labels of a place in one order,
whatever the order in which they were found. Its names are the entries of the table.
-/

set_option autoImplicit false

namespace QbScript

namespace Label

/-- The label stands before the other where both are listed. -/
def Before (l m : Label) : Prop :=
  m.owner < l.owner ∨ l.owner = m.owner ∧ l.kind.rank < m.kind.rank

theorem rank_inj {k k' : LabelKind} (h : k.rank = k'.rank) : k = k' := by
  cases k <;> cases k' <;> first | rfl | cases h

theorem le_iff (l m : Label) :
    l.le m ↔ (l.kind = .branch ∧ (m.kind = .branch → m.owner ≤ l.owner)) ∨
      (l.kind ≠ .branch ∧ m.kind ≠ .branch ∧
        (m.owner < l.owner ∨ l.owner = m.owner ∧ l.kind.rank ≤ m.kind.rank)) := by
  unfold le
  by_cases hl : l.kind = .branch
  · by_cases hm : m.kind = .branch <;> simp [hl, hm]
  by_cases hm : m.kind = .branch
  · simp [hl, hm]
  by_cases ho : l.owner = m.owner
  · simp [hl, hm, ho]
  · simp [hl, hm, ho]
    omega

theorem le_trans (l m n : Label) (h : l.le m) (h' : m.le n) : l.le n := by
  rw [le_iff] at h h' ⊢
  rcases h with ⟨hl, h⟩ | ⟨hl, hm, h⟩
  · refine Or.inl ⟨hl, fun hn => ?_⟩
    rcases h' with ⟨hm, h'⟩ | ⟨hm, hn', h'⟩
    · exact Nat.le_trans (h' hn) (h hm)
    · exact absurd hn hn'
  · rcases h' with ⟨hm', h'⟩ | ⟨-, hn, h'⟩
    · exact absurd hm' hm
    · exact Or.inr ⟨hl, hn, by omega⟩

theorem le_total (l m : Label) : l.le m || m.le l := by
  rw [Bool.or_eq_true, le_iff, le_iff]
  by_cases hl : l.kind = .branch
  · by_cases hm : m.kind = .branch
    · rcases Nat.le_total m.owner l.owner with h | h
      · exact Or.inl (Or.inl ⟨hl, fun _ => h⟩)
      · exact Or.inr (Or.inl ⟨hm, fun _ => h⟩)
    · exact Or.inl (Or.inl ⟨hl, fun h => absurd h hm⟩)
  by_cases hm : m.kind = .branch
  · exact Or.inr (Or.inl ⟨hm, fun h => absurd h hl⟩)
  · have h : (m.owner < l.owner ∨ l.owner = m.owner ∧ l.kind.rank ≤ m.kind.rank) ∨
        (l.owner < m.owner ∨ m.owner = l.owner ∧ m.kind.rank ≤ l.kind.rank) := by omega
    exact h.imp (fun h => Or.inr ⟨hl, hm, h⟩) (fun h => Or.inr ⟨hm, hl, h⟩)

/-- The order tells all labels apart that belong to random blocks. -/
theorem eq_of_le {l m : Label} (hl : l.kind ≠ .branch) (h : l.le m) (h' : m.le l) : l = m := by
  rw [le_iff] at h h'
  have ho : l.owner = m.owner ∧ l.kind.rank = m.kind.rank := by
    rcases h with ⟨hl', -⟩ | ⟨-, hm, h⟩
    · exact absurd hl' hl
    rcases h' with ⟨hm', -⟩ | ⟨-, -, h'⟩
    · exact absurd hm' hm
    · omega
  obtain ⟨k, o⟩ := l
  obtain ⟨k', o'⟩ := m
  obtain rfl : o = o' := ho.1
  obtain rfl : k = k' := rank_inj ho.2
  rfl

theorem Before.le {l m : Label} (h : l.Before m) (hl : l.kind ≠ .branch) (hm : m.kind ≠ .branch) :
    l.le m := by
  rw [le_iff]
  refine Or.inr ⟨hl, hm, ?_⟩
  rcases h with h | ⟨ho, hr⟩
  · exact Or.inl h
  · exact Or.inr ⟨ho, Nat.le_of_lt hr⟩

theorem Before.ne {l m : Label} (h : l.Before m) : l ≠ m := by
  rintro rfl
  rcases h with h | ⟨-, h⟩
  · exact Nat.lt_irrefl _ h
  · exact Nat.lt_irrefl _ h

end Label

def Finding.IsLabel : Finding → Prop
  | .label .. => True
  | _ => False

namespace Survey

variable {s : Survey} {f : Finding} {found : List Finding} {pos : Nat} {l : Label}

/-- The labels at a position, in the order in which they were found. -/
def labelsFound (s : Survey) (pos : Nat) : List Label := (s.labels[pos]?).getD []

theorem labels_addName (s : Survey) (c : Checksum) (name : String) :
    (s.addName c name).labels = s.labels := by
  unfold addName
  split
  · rfl
  · split <;> rfl

theorem labelsFound_addLabel (s : Survey) (offset pos : Nat) (label : Label) :
    (s.addLabel offset label).labelsFound pos =
      if offset = pos ∧ label ∉ s.labelsFound pos then s.labelsFound pos ++ [label]
      else s.labelsFound pos := by
  unfold addLabel labelsFound
  dsimp only
  split
  · rename_i hm
    rw [if_neg]
    rintro ⟨rfl, hn⟩
    exact hn hm
  · rename_i hn
    simp only [Std.TreeMap.getElem?_insert, Std.LawfulEqCmp.compare_eq_iff_eq]
    by_cases ho : offset = pos
    · subst ho
      simp [hn]
    · simp [ho]

theorem labelsFound_add (s : Survey) (f : Finding) (pos : Nat) :
    (∀ l, l ∈ (s.add f).labelsFound pos ↔ l ∈ s.labelsFound pos ∨ f = .label pos l) ∧
      ((s.labelsFound pos).Nodup → ((s.add f).labelsFound pos).Nodup) := by
  cases f with
  | label offset label =>
    rw [add, labelsFound_addLabel]
    constructor
    · intro l
      split
      · rename_i h
        obtain ⟨rfl, -⟩ := h
        simp [eq_comm]
      · rename_i h
        constructor
        · exact Or.inl
        · rintro (hl | hl)
          · exact hl
          · injection hl with ho hl
            subst ho hl
            by_contra hn
            exact h ⟨rfl, hn⟩
    · intro hd
      split
      · rename_i h
        refine hd.append (List.nodup_singleton _) ?_
        simpa using h.2
      · exact hd
  | missingJump header target => exact ⟨fun l => by simp [add, warn, labelsFound], fun hd => hd⟩
  | entry c name =>
    rw [add, labelsFound, labels_addName]
    exact ⟨fun l => by simp [labelsFound], fun hd => hd⟩

theorem labelsFound_foldl (s : Survey) (found : List Finding) (pos : Nat) :
    (∀ l, l ∈ (found.foldl add s).labelsFound pos ↔
      l ∈ s.labelsFound pos ∨ .label pos l ∈ found) ∧
      ((s.labelsFound pos).Nodup → ((found.foldl add s).labelsFound pos).Nodup) := by
  induction found generalizing s with
  | nil => simp
  | cons f found ih =>
    rw [List.foldl_cons]
    obtain ⟨hm, hd⟩ := ih (s.add f)
    obtain ⟨hm', hd'⟩ := labelsFound_add s f pos
    refine ⟨fun l => ?_, fun h => hd (hd' h)⟩
    rw [hm, hm', List.mem_cons, or_assoc]
    tauto

/-- The labels of a place are those that were found there, in the order of labels. -/
theorem labelsAt_ofFindings (found : List Finding) (pos : Nat) :
    (∀ l, l ∈ (ofFindings found).labelsAt pos ↔ .label pos l ∈ found) ∧
      ((ofFindings found).labelsAt pos).Nodup ∧
      ((ofFindings found).labelsAt pos).Pairwise fun l m => l.le m := by
  have he : empty.labelsFound pos = [] := by simp [empty, labelsFound]
  obtain ⟨hm, hd⟩ := labelsFound_foldl empty found pos
  rw [he] at hm hd
  refine ⟨fun l => ?_, ?_, List.pairwise_mergeSort Label.le_trans Label.le_total _⟩
  · rw [labelsAt, List.mem_mergeSort]
    exact (hm l).trans (by simp)
  · exact (List.mergeSort_perm _ _).nodup_iff.mpr (hd List.nodup_nil)

/-- Labels of random blocks that are in order are the ones that are listed. -/
theorem filter_labelsAt_eq {found : List Finding} {pos : Nat} {ls : List Label}
    (hm : ∀ l, l ∈ ls ↔ l.kind ≠ .branch ∧ .label pos l ∈ found)
    (hs : ls.Pairwise Label.Before) :
    ((ofFindings found).labelsAt pos).filter (fun l => l.kind ≠ .branch) = ls := by
  obtain ⟨hmem, hnodup, hsorted⟩ := labelsAt_ofFindings found pos
  have hmem' : ∀ l, l ∈ ((ofFindings found).labelsAt pos).filter (fun l => l.kind ≠ .branch) ↔
      l ∈ ls := by
    intro l
    rw [List.mem_filter, hmem, hm, decide_eq_true_eq]
    exact and_comm
  have hperm := (List.perm_ext_iff_of_nodup (hnodup.filter _) (hs.imp Label.Before.ne)).mpr hmem'
  refine hperm.eq_of_pairwise ?_ (hsorted.filter _) (hs.imp_of_mem fun hl hl' hb => ?_)
  · intro l l' hl _ h h'
    exact Label.eq_of_le ((hm l).mp ((hmem' l).mp hl)).1 h h'
  · exact hb.le ((hm _).mp hl).1 ((hm _).mp hl').1

/-- Labels leave the names and the warnings as they are. -/
theorem foldl_of_isLabel (s : Survey) (h : ∀ f ∈ found, f.IsLabel) :
    (found.foldl add s).names = s.names ∧ (found.foldl add s).warnings = s.warnings := by
  induction found generalizing s with
  | nil => exact ⟨rfl, rfl⟩
  | cons f found ih =>
    rw [List.foldl_cons]
    obtain ⟨hnames, hwarnings⟩ := ih (s.add f) fun g hg => h g (List.mem_cons_of_mem f hg)
    rw [hnames, hwarnings]
    cases f with
    | label offset label =>
      rw [add, addLabel]
      split <;> exact ⟨rfl, rfl⟩
    | missingJump => exact (h _ List.mem_cons_self).elim
    | entry => exact (h _ List.mem_cons_self).elim

theorem exists_addName_eq (s : Survey) {c : Checksum} {name : String}
    (hc : Checksum.ofName name = c) (hn : s.names.get? c = none) :
    ∃ names, s.addName c name = { s with names } ∧
      ∀ k, names.get? k = if c = k then some name else s.names.get? k := by
  obtain ⟨t, ht⟩ : ∃ t, s.names.insertAt c name = .ok t := by
    unfold NameTable.insertAt
    rw [hn]
    exact ⟨_, rfl⟩
  refine ⟨t, by simp [addName, hc, ht], fun k => ?_⟩
  rw [NameTable.get?_insertAt ht k, hn, Option.getD_none]

/-- Entries under their own checksums, each of another one, are all kept. -/
theorem foldl_entry (s : Survey) {entries : List (Checksum × String)}
    (hc : ∀ e ∈ entries, Checksum.ofName e.2 = e.1)
    (hd : entries.Pairwise fun e e' => e.1 ≠ e'.1)
    (hn : ∀ e ∈ entries, s.names.get? e.1 = none) :
    ((entries.map fun e => Finding.entry e.1 e.2).foldl add s).warnings = s.warnings ∧
      ∀ k name,
        ((entries.map fun e => Finding.entry e.1 e.2).foldl add s).names.get? k = some name ↔
          (k, name) ∈ entries ∨ s.names.get? k = some name := by
  induction entries generalizing s with
  | nil => simp
  | cons e entries ih =>
    obtain ⟨hne, hd⟩ := List.pairwise_cons.mp hd
    obtain ⟨names, hadd, hget⟩ :=
      exists_addName_eq s (hc e List.mem_cons_self) (hn e List.mem_cons_self)
    obtain ⟨hwarnings, hnames⟩ := ih { s with names }
      (fun e' he => hc e' (List.mem_cons_of_mem e he)) hd fun e' he => by
        rw [hget, if_neg (hne e' he)]
        exact hn e' (List.mem_cons_of_mem e he)
    rw [List.map_cons, List.foldl_cons, add, hadd]
    refine ⟨hwarnings, fun k name => ?_⟩
    rw [hnames, hget, List.mem_cons, or_assoc]
    by_cases hk : e.1 = k
    · subst hk
      rw [if_pos rfl, hn e List.mem_cons_self]
      have : (e.1, name) ∉ entries := fun hm => hne _ hm rfl
      simp [this, Prod.ext_iff, eq_comm]
    · rw [if_neg hk]
      have : (k, name) ≠ e := fun he => hk (by rw [← he])
      simp [this]

end Survey

end QbScript
