import QbScript.Listing.Disassemble
import QbScript.Proofs.Listing.Labels

/-!
# The elements of a compiled stream

The elements of a listing are those of the listed script, phrase by phrase. The marks of random
blocks come from labels, all other elements from the tokens of the stream.
-/

set_option autoImplicit false

namespace QbScript

open Bytecode

def Label.mark (l : Label) : List Element :=
  match l.kind with
  | .branch => []
  | .randomCase => [.plain "RANDOMCASE"]
  | .randomEnd => [.word ⟨"RANDOMEND", .closes 1⟩]

theorem Label.elements_eq_mark {options : ListingOptions} (h : options.branchLabels = false)
    (pos : Nat) (l : Label) : l.elements options pos = l.mark := by
  unfold elements mark
  split <;> simp_all

def contents (names : NameTable) (isArg : Bool) : List Token → List Element
  | [] => []
  | t :: ts => t.elements names isArg ++ contents names (t = .simple .arg) ts

/-- The elements of tokens at their positions, each after what `marks` has for its position. -/
def markedElements (names : NameTable) (marks : Nat → List Element) (isArg : Bool) :
    List (Nat × Token) → List Element
  | [] => []
  | t :: ts =>
    marks t.1 ++ t.2.elements names isArg ++ markedElements names marks (t.2 = .simple .arg) ts

/-- The elements of a phrase in a listed script. -/
def Token.listing (names : NameTable) (t : Token) : List Element :=
  match t with
  | .simple .randomEnd => [.word ⟨"RANDOMEND", .closes 1⟩]
  | t => contents names false t.parts

def endsInArg (isArg : Bool) (ts : List Token) : Bool := ts.foldl (fun _ t => t = .simple .arg) isArg

section

variable {names : NameTable} {marks : Nat → List Element} {isArg : Bool} {pos : Nat}
  {ts us : List Token}

theorem elements_eq (options : ListingOptions) (s : Survey) (tokens : List (Nat × Token)) :
    elements options s tokens = markedElements s.names
      (fun pos => (s.labelsAt pos).flatMap (Label.elements options pos)) false tokens := by
  unfold elements
  generalize false = isArg
  induction tokens generalizing isArg with
  | nil => rfl
  | cons t tokens ih =>
    rw [markedElements, ← ih]
    rfl

theorem markedElements_append (xs ys : List (Nat × Token)) :
    markedElements names marks isArg (xs ++ ys) = markedElements names marks isArg xs ++
      markedElements names marks (endsInArg isArg (xs.map Prod.snd)) ys := by
  induction xs generalizing isArg with
  | nil => rfl
  | cons x xs ih =>
    simp only [List.cons_append, markedElements, ih, List.append_assoc]
    rfl

theorem markedElements_congr {marks' : Nat → List Element} {xs : List (Nat × Token)}
    (h : ∀ x ∈ xs, marks x.1 = marks' x.1) :
    markedElements names marks isArg xs = markedElements names marks' isArg xs := by
  induction xs generalizing isArg with
  | nil => rfl
  | cons x xs ih =>
    rw [markedElements, markedElements, h x List.mem_cons_self,
      ih fun y hy => h y (List.mem_cons_of_mem x hy)]

theorem markedElements_of_marks_eq_nil (h : ∀ x ∈ placed pos ts, marks x.1 = []) :
    markedElements names marks isArg (placed pos ts) = contents names isArg ts := by
  induction ts generalizing pos isArg with
  | nil => rfl
  | cons t ts ih =>
    rw [placed, markedElements, h _ List.mem_cons_self,
      ih fun x hx => h x (List.mem_cons_of_mem _ hx)]
    rfl

theorem le_of_mem_placed {x : Nat × Token} (h : x ∈ placed pos ts) : pos ≤ x.1 := by
  induction ts generalizing pos with
  | nil => cases h
  | cons t ts ih =>
    rcases List.mem_cons.mp h with rfl | h
    · exact Nat.le_refl _
    · exact Nat.le_trans (Nat.le_add_right _ _) (ih h)

theorem lt_of_mem_placed {x : Nat × Token} (h : x ∈ placed pos ts) :
    x.1 < pos + (wires ts).length := by
  induction ts generalizing pos with
  | nil => cases h
  | cons t ts ih =>
    have hpos : 0 < t.wire.length := by simp [Token.wire]
    rw [wires_cons, List.length_append]
    rcases List.mem_cons.mp h with rfl | h
    · omega
    · have := ih h
      omega

/-- Tokens with marks only before the first of them. -/
theorem markedElements_cons (t : Token)
    (h : ∀ p, pos < p → p < pos + (wires (t :: ts)).length → marks p = []) :
    markedElements names marks isArg (placed pos (t :: ts)) =
      marks pos ++ contents names isArg (t :: ts) := by
  have hpos : 0 < t.wire.length := by simp [Token.wire]
  rw [placed, markedElements, markedElements_of_marks_eq_nil, List.append_assoc]
  · rfl
  · intro x hx
    have hle := le_of_mem_placed hx
    have hlt := lt_of_mem_placed hx
    refine h x.1 (by omega) ?_
    rw [wires_cons, List.length_append]
    omega

theorem elements_congr {names' : NameTable} (h : ∀ k, names.get? k = names'.get? k) (t : Token) :
    t.elements names isArg = t.elements names' isArg := by
  cases t with
  | nameChecksum c => simp only [Token.elements, Literal.nameText, h]
  | simple tag => cases tag <;> rfl
  | _ => rfl

theorem markedElements_congr_names {names' : NameTable}
    (h : ∀ k, names.get? k = names'.get? k) (xs : List (Nat × Token)) :
    markedElements names marks isArg xs = markedElements names' marks isArg xs := by
  induction xs generalizing isArg with
  | nil => rfl
  | cons x xs ih => rw [markedElements, markedElements, ih, elements_congr h]

theorem elements_blank (t : Token) : t.blank.elements names isArg = t.elements names isArg := by
  cases t <;> rfl

theorem blank_eq_arg_iff (t : Token) : t.blank = .simple .arg ↔ t = .simple .arg := by
  cases t <;> simp [Token.blank]

theorem endsInArg_eq_of_blank (h : us.map Token.blank = ts.map Token.blank) :
    endsInArg isArg us = endsInArg isArg ts := by
  induction ts generalizing us isArg with
  | nil =>
    obtain rfl := List.map_eq_nil_iff.mp h
    rfl
  | cons t ts ih =>
    cases us with
    | nil => cases h
    | cons u us =>
      obtain ⟨hb, hbs⟩ := List.cons.inj h
      have ha : decide (u = .simple .arg) = decide (t = .simple .arg) := by
        rw [decide_eq_decide, ← blank_eq_arg_iff, hb, blank_eq_arg_iff]
      rw [endsInArg, List.foldl_cons, ← endsInArg, ih hbs, ha]
      rfl

theorem markedElements_eq_of_blank (h : us.map Token.blank = ts.map Token.blank) :
    markedElements names marks isArg (placed pos us) =
      markedElements names marks isArg (placed pos ts) := by
  induction ts generalizing us pos isArg with
  | nil =>
    obtain rfl := List.map_eq_nil_iff.mp h
    rfl
  | cons t ts ih =>
    cases us with
    | nil => cases h
    | cons u us =>
      obtain ⟨hb, hbs⟩ := List.cons.inj h
      have hl : u.wire.length = t.wire.length := by
        rw [← u.length_wire_blank, hb, t.length_wire_blank]
      have ha : decide (u = .simple .arg) = decide (t = .simple .arg) := by
        rw [decide_eq_decide, ← blank_eq_arg_iff, hb, blank_eq_arg_iff]
      rw [placed, placed, markedElements, markedElements, hl, ih hbs, ha, ← elements_blank u, hb,
        elements_blank]

end

namespace Assembly

variable {options : CompileOptions} {line : Nat} {a a' : Assembly} {t : Token}
  {ts us : List Token} {links : List Link} {names : NameTable}

theorem endsInArg_parts (ht : t.IsPhrase) : endsInArg false t.parts = false := by
  cases t with
  | simple tag =>
    have := ht.1
    simp [Token.parts, endsInArg, this]
  | _ => first | exact ht.elim | rfl

theorem Step.endsInArg (h : Step options line a t us links a') (ht : t.IsPhrase) :
    endsInArg false us = false := by
  cases h with
  | plain => exact endsInArg_parts ht
  | named => exact endsInArg_parts ht
  | openRandom => rfl
  | lineEndKept =>
    unfold lineMark
    split <;> rfl
  | _ => rfl

theorem listing_of_ne (h : t ≠ .simple .randomEnd) :
    t.listing names = contents names false t.parts := by
  unfold Token.listing
  split
  · exact absurd rfl h
  · rfl

/-- What a phrase writes and the labels of its marks are listed as its listed phrases. -/
theorem Step.listing (h : Step options line a t us links a') :
    (a.listed t).flatMap (Token.listing names) =
      contents names false us ++ (a.labelled t).flatMap Label.mark := by
  cases h with
  | plain hp =>
    have hlist : a.listed t = [t] := by
      unfold listed
      split <;> first | exact hp.elim | rfl
    have hlab : a.labelled t = [] := by
      unfold labelled
      split <;> first | exact hp.elim | rfl
    have hne : t ≠ .simple .randomEnd := by
      rintro rfl
      exact hp
    simp [hlist, hlab, listing_of_ne hne]
  | named hn =>
    have hlist : a.listed t = [t] := by
      unfold listed
      split <;> first | cases hn | rfl
    have hlab : a.labelled t = [] := by
      unfold labelled
      split <;> first | cases hn | rfl
    have hne : t ≠ .simple .randomEnd := by
      rintro rfl
      cases hn
    simp [hlist, hlab, listing_of_ne hne]
  | lineEndKept hl =>
    have hlist : a.listed (.simple .endOfLine) = [.simple .endOfLine] := if_neg hl
    rw [hlist]
    unfold lineMark
    split <;> rfl
  | lineEndDropped hl =>
    have hlist : a.listed (.simple .endOfLine) = [] := if_pos hl
    rw [hlist]
    rfl
  | openRandom =>
    simp only [listed, labelled]
    split <;> rfl
  | firstCase hr hf hc =>
    simp only [listed, labelled, hr]
    split <;> rfl
  | nextCase hr hf hc =>
    simp only [listed, labelled, hr]
    split <;> rfl
  | closeRandom hr =>
    simp only [listed, labelled, hr]
    split <;> rfl
  | firstBranch _ htag => rcases htag with rfl | rfl <;> rfl
  | nextBranch _ htag => rcases htag with rfl | rfl <;> rfl
  | _ => rfl

end Assembly

def marksAt (ms : List (Nat × Label)) (pos : Nat) : List Element :=
  (ms.filter fun m => m.1 = pos).flatMap fun m => m.2.mark

theorem marksAt_append (ms ms' : List (Nat × Label)) (pos : Nat) :
    marksAt (ms ++ ms') pos = marksAt ms pos ++ marksAt ms' pos := by
  simp [marksAt]

theorem marksAt_map_of_eq (xs : List Label) (pos : Nat) :
    marksAt (xs.map (pos, ·)) pos = xs.flatMap Label.mark := by
  simp [marksAt, List.filter_map, Function.comp_def, List.flatMap_map]

theorem marksAt_eq_nil {ms : List (Nat × Label)} {pos : Nat} (h : ∀ m ∈ ms, m.1 ≠ pos) :
    marksAt ms pos = [] := by
  rw [marksAt, List.filter_eq_nil_iff.mpr (by simpa using h)]
  rfl

theorem marksAt_map_of_ne (xs : List Label) {pos pos' : Nat} (h : pos ≠ pos') :
    marksAt (xs.map (pos, ·)) pos' = [] := by
  refine marksAt_eq_nil fun m hm => ?_
  obtain ⟨x, -, rfl⟩ := List.mem_map.mp hm
  exact h

namespace Assembly

variable {options : CompileOptions} {line : Nat} {lines : LineMap} {a a' : Assembly} {t : Token}
  {ts us : List Token} {links : List Link} {names : NameTable} {ms : List (Nat × Label)}
  {ps : List Phrase}

theorem mem_marked_iff {pos : Nat} {l : Label} :
    l ∈ (ms.filter fun m => m.1 = pos).map Prod.snd ↔ (pos, l) ∈ ms := by
  simp

theorem Labelled.pairwise_marked (h : a.Labelled ms) (pos : Nat) :
    ((ms.filter fun m => m.1 = pos).map Prod.snd).Pairwise Label.Before := by
  refine List.pairwise_map.mpr ((h.sorted.filter _).imp_of_mem fun hm hm' hb => ?_)
  have hp := (List.mem_filter.mp hm).2
  have hp' := (List.mem_filter.mp hm').2
  simp only [decide_eq_true_eq] at hp hp'
  rcases hb with hb | ⟨-, hb⟩
  · omega
  · exact hb

/-- The tokens and labels so far are listed as the listed phrases. -/
def Shows (names : NameTable) (a : Assembly) (ts : List Token) (ms : List (Nat × Label))
    (qs : List Token) : Prop :=
  qs.flatMap (Token.listing names) =
    markedElements names (marksAt ms) false (placed 0 ts) ++ marksAt ms a.out.size

theorem Shows.step {qs : List Token} (hq : Shows names a ts ms qs) (hs : a.Sound ts)
    (hl : a.Labelled ms) (he : endsInArg false ts = false)
    (h : Step options line a t us links a') :
    Shows names a' (ts ++ us) (ms ++ (a.labelled t).map (a'.out.size, ·)) (qs ++ a.listed t) := by
  have hsize := h.size_out
  have hts : ∀ x ∈ placed 0 ts, x.1 < a.out.size := by
    intro x hx
    have := lt_of_mem_placed hx
    rw [hs.size]
    omega
  unfold Shows at hq ⊢
  rw [List.flatMap_append, hq, h.listing, placed_append, markedElements_append, map_snd_placed, he,
    Nat.zero_add, ← hs.size, marksAt_append, marksAt_map_of_eq]
  have hold : markedElements names (marksAt (ms ++ (a.labelled t).map (a'.out.size, ·))) false
      (placed 0 ts) = markedElements names (marksAt ms) false (placed 0 ts) := by
    refine markedElements_congr fun x hx => ?_
    have := hts x hx
    rw [marksAt_append, marksAt_map_of_ne _ (by omega), List.append_nil]
  rw [hold]
  -- The labels of a step that writes nothing join those that wait for the next token.
  cases us with
  | nil =>
    have hsize : a'.out.size = a.out.size := hsize
    simp [hsize, placed, markedElements, contents]
  | cons u us =>
    have hlt : a.out.size < a'.out.size := by
      rw [hsize]
      simp [Token.wire]
    have hnew : markedElements names (marksAt (ms ++ (a.labelled t).map (a'.out.size, ·))) false
        (placed a.out.size (u :: us)) =
          marksAt ms a.out.size ++ contents names false (u :: us) := by
      have hfar : ∀ p, a.out.size < p → marksAt ms p = [] := by
        refine fun p hp => marksAt_eq_nil fun m hm => ?_
        have := hl.le_size m hm
        omega
      rw [markedElements_cons]
      · rw [marksAt_append, marksAt_map_of_ne _ (by omega), List.append_nil]
      · intro p h1 h2
        rw [marksAt_append, hfar p h1, marksAt_map_of_ne _ (by omega), List.append_nil]
    have hend : marksAt ms a'.out.size = [] := marksAt_eq_nil fun m hm => by
      have := hl.le_size m hm
      omega
    rw [hnew, hend]
    simp only [List.append_assoc, List.nil_append]

theorem endsInArg_append (isArg : Bool) (ts us : List Token) :
    endsInArg isArg (ts ++ us) = endsInArg (endsInArg isArg ts) us :=
  List.foldl_append

theorem Run.endsInArg (h : Run options lines ps ts a) (hp : ∀ p ∈ ps, p.token.IsPhrase) :
    endsInArg false ts = false := by
  induction h with
  | start => rfl
  | @step ps ts us a a' p links hr ha hs ih =>
    rw [endsInArg_append, ih fun q hq => hp q (List.mem_append_left _ hq)]
    exact hs.endsInArg (hp p (List.mem_append_right _ List.mem_cons_self))

theorem Run.shows (h : Run options lines ps ts a) (hp : ∀ p ∈ ps, p.token.IsPhrase)
    (names : NameTable) :
    Shows names a ts (Nesting.markersOf (trace options lines Assembly.start ps))
      (listedFrom options lines Assembly.start ps) := by
  induction h with
  | start => rfl
  | @step ps ts us a a' p links hr ha hs ih =>
    have hps : ∀ q ∈ ps, q.token.IsPhrase := fun q hq => hp q (List.mem_append_left _ hq)
    have ht : p.token.IsPhrase := hp p (List.mem_append_right _ List.mem_cons_self)
    rw [hr.listedFrom_concat, (hr.markersOf_concat ha).1, ← (hr.agrees hps).labelled_eq hs ht]
    exact (ih hps).step (hr.sound hps) (hr.labelled hps).1 (hr.endsInArg hps) hs

end Assembly

open Assembly

namespace Compiled

variable {options : CompileOptions} {source : String} {b : Bytecode} {ls : List Lexeme}
  {ps : List Phrase} {ts us : List Token} {a : Assembly}

/-- The labels of the marks of a compiled script, in its order. -/
def markers (options : CompileOptions) (source : String) (ps : List Phrase) :
    List (Nat × Label) :=
  Nesting.markersOf (trace options (LineMap.ofText source.toList) start ps)

theorem labelled (h : Compiled options source b ls ps ts us a) :
    a.Labelled (markers options source ps) :=
  (h.run.labelled h.isPhrase).1

theorem mem_markers_iff (h : Compiled options source b ls ps ts us a) {m : Nat × Label} :
    m ∈ markers options source ps ↔
      ∃ k ∈ (nesting options source ps).closed, m ∈ k.labels := by
  rw [markers, (h.run.labelled h.isPhrase).2, ← nesting, Nesting.labels, h.opened_eq_nil,
    List.flatMap_nil, List.nil_append, List.mem_flatMap]

/-- The labels of random blocks that are found in the stream are those of its blocks. -/
theorem mem_found_iff (h : Compiled options source b ls ps ts us a) (hs : b.size < 0x80000000)
    (hn : ∀ t ∈ a.names.entries, t.Stands) {pos : Nat} {l : Label} :
    (pos, l) ∈ markers options source ps ↔
      l.kind ≠ .branch ∧ .label pos l ∈ b.findings.found := by
  have hfind : ∀ k ∈ (nesting options source ps).closed,
      .label pos l ∈ k.findings ↔ (pos, l) ∈ k.labels :=
    fun k hk => ClosedBlock.mem_findings_iff (h.agrees.closed k hk).full
  rw [h.findings hs hn]
  constructor
  · intro hm
    obtain ⟨k, hk, hkl⟩ := h.mem_markers_iff.mp hm
    refine ⟨h.labelled.kind _ hm, List.mem_append_left _ (List.mem_flatMap.mpr ?_)⟩
    have hheld := h.agrees.closed k hk
    obtain ⟨u, hu, hb⟩ := exists_mem_placed_of_blank h.blank hheld.head
    obtain ⟨js, rfl⟩ : ∃ js, u = .random k.tag k.weights js := by
      cases u <;> simp_all [Token.blank]
    refine ⟨_, hu, ?_⟩
    rw [h.findingsAt_header hs hheld]
    exact (hfind k hk).mpr hkl
  · rintro ⟨hb, hm⟩
    rcases List.mem_append.mp hm with hm | hm
    · obtain ⟨p, hp, hm⟩ := List.mem_flatMap.mp hm
      obtain ⟨found, hf, rfl | ⟨target, rfl⟩ | ⟨k, hk, rfl⟩⟩ := h.exists_findingsAt hs hp
      · simp [hf, Findings.all] at hm
      · simp [hf, Findings.all] at hm
        exact absurd (by rw [hm.2]) hb
      · rw [hf] at hm
        exact h.mem_markers_iff.mpr ⟨k, hk, (hfind k hk).mp hm⟩
    · simp at hm

/-- Before the table only labels are found. -/
theorem isLabel_of_mem_found (h : Compiled options source b ls ps ts us a)
    (hs : b.size < 0x80000000) {f : Finding}
    (hf : f ∈ (placed 0 us).flatMap fun p => (b.findingsAt p.1 p.2).found) : f.IsLabel := by
  obtain ⟨p, hp, hf⟩ := List.mem_flatMap.mp hf
  obtain ⟨found, he, rfl | ⟨target, rfl⟩ | ⟨k, hk, rfl⟩⟩ := h.exists_findingsAt hs hp
  · simp [he, Findings.all] at hf
  · simp only [he, Findings.all, List.mem_singleton] at hf
    rw [hf]
    trivial
  · rw [he] at hf
    simp only [Findings.all, ClosedBlock.findings] at hf
    rcases List.mem_append.mp hf with hf | hf
    · obtain ⟨s, -, rfl⟩ := List.mem_map.mp hf
      trivial
    · split at hf
      · rw [List.mem_singleton.mp hf]
        trivial
      · rw [List.mem_singleton.mp hf]
        trivial
      · obtain ⟨s, -, rfl⟩ := List.mem_map.mp hf
        trivial

/-- If only labels are found before the table, all its entries are kept, and nothing is odd about
the stream. -/
theorem survey_of_isLabel (h : Compiled options source b ls ps ts us a)
    (hl : ∀ f ∈ (placed 0 us).flatMap fun p => (b.findingsAt p.1 p.2).found, f.IsLabel)
    (hf : b.findings = ⟨(placed 0 us).flatMap (fun p => (b.findingsAt p.1 p.2).found) ++
      a.names.toList.map (fun entry => .entry entry.1 entry.2), none⟩) :
    (Survey.ofFindings b.findings.found).warnings = #[] ∧
      ∀ k, (Survey.ofFindings b.findings.found).names.get? k = a.names.get? k := by
  have hempty : ∀ k, (Survey.empty.names.get? k) = none := fun k => NameTable.get?_empty k
  obtain ⟨hnames, hwarnings⟩ := Survey.foldl_of_isLabel Survey.empty hl
  obtain ⟨hwarnings', hnames'⟩ := Survey.foldl_entry
    (((placed 0 us).flatMap fun p => (b.findingsAt p.1 p.2).found).foldl Survey.add Survey.empty)
    (fun e he => h.run.isSound_names _ _ ((NameTable.mem_toList_iff _ _ _).mp he))
    (a.names.pairwise_toList.imp fun hlt heq => absurd (heq ▸ hlt) (UInt32.lt_irrefl _))
    (fun e _ => by rw [hnames, hempty])
  rw [hf, Survey.ofFindings, List.foldl_append]
  refine ⟨hwarnings'.trans hwarnings, fun k => Option.ext fun name => ?_⟩
  rw [hnames', hnames, hempty, NameTable.mem_toList_iff]
  simp

/-- All entries of the table are kept, and nothing is odd about the stream. -/
theorem survey_eq (h : Compiled options source b ls ps ts us a) (hs : b.size < 0x80000000)
    (hn : ∀ t ∈ a.names.entries, t.Stands) :
    (Survey.ofFindings b.findings.found).warnings = #[] ∧
      ∀ k, (Survey.ofFindings b.findings.found).names.get? k = a.names.get? k :=
  h.survey_of_isLabel (fun _ hf => h.isLabel_of_mem_found hs hf) (h.findings hs hn)

theorem get?_names_survey (h : Compiled options source b ls ps ts us a)
    (hs : b.size < 0x80000000) (hn : ∀ t ∈ a.names.entries, t.Stands) (k : Checksum) :
    (Survey.ofFindings b.findings.found).names.get? k = a.names.get? k :=
  (h.survey_eq hs hn).2 k

/-- At each position the labels of random blocks are listed in the order of the script. -/
theorem filter_labelsAt (h : Compiled options source b ls ps ts us a) (hs : b.size < 0x80000000)
    (hn : ∀ t ∈ a.names.entries, t.Stands) (pos : Nat) :
    ((Survey.ofFindings b.findings.found).labelsAt pos).filter (fun l => l.kind ≠ .branch) =
      ((markers options source ps).filter fun m => m.1 = pos).map Prod.snd := by
  apply Survey.filter_labelsAt_eq _ (h.labelled.pairwise_marked pos)
  exact fun l => mem_marked_iff.trans (h.mem_found_iff hs hn)

/-- At each position the listing has the marks of the labels there. -/
theorem flatMap_labelsAt (h : Compiled options source b ls ps ts us a) (hs : b.size < 0x80000000)
    (hn : ∀ t ∈ a.names.entries, t.Stands) {lo : ListingOptions} (hlo : lo.branchLabels = false)
    (pos : Nat) :
    ((Survey.ofFindings b.findings.found).labelsAt pos).flatMap (Label.elements lo pos) =
      marksAt (markers options source ps) pos := by
  have hbranch : ∀ xs : List Label, xs.flatMap Label.mark =
      (xs.filter fun l => l.kind ≠ .branch).flatMap Label.mark := by
    intro xs
    induction xs with
    | nil => rfl
    | cons x xs ih =>
      rw [List.flatMap_cons, ih, List.filter_cons]
      split
      · rfl
      · rename_i hx
        have hx : x.kind = .branch := by simpa using hx
        simp [Label.mark, hx]
  have hmark : Label.elements lo pos = Label.mark := by
    funext l
    exact l.elements_eq_mark hlo pos
  rw [hmark, hbranch, h.filter_labelsAt hs hn]
  simp [marksAt, List.flatMap_map]

theorem contents_entries (entries : List (Checksum × String)) (names : NameTable) :
    contents names false ((entries.map fun e => .checksumName e.1 e.2) ++ [.simple .endOfFile]) =
      [] := by
  induction entries with
  | nil => rfl
  | cons e entries ih => exact ih

/-- A stream whose labels have the marks of its script is listed as its listed script. -/
theorem elements_of_marks (h : Compiled options source b ls ps ts us a)
    (hb : b.scan = ⟨placed 0 (us ++ a.names.entries ++ [.simple .endOfFile]), none⟩)
    (hk : ∀ k, (Survey.ofFindings b.findings.found).names.get? k = a.names.get? k)
    {lo : ListingOptions}
    (hm : ∀ pos, ((Survey.ofFindings b.findings.found).labelsAt pos).flatMap
      (Label.elements lo pos) = marksAt (markers options source ps) pos) :
    elements lo (Survey.ofFindings b.findings.found) b.scan.tokens =
      (listedFrom options (LineMap.ofText source.toList) start ps).flatMap
        (Token.listing a.names) := by
  have he : endsInArg false us = false := by
    rw [endsInArg_eq_of_blank h.blank, h.run.endsInArg h.isPhrase]
  have hshow : Shows a.names a ts (markers options source ps) _ := h.run.shows h.isPhrase a.names
  have htable : markedElements a.names (marksAt (markers options source ps)) false
      (placed a.out.size (a.names.entries ++ [.simple .endOfFile])) =
        marksAt (markers options source ps) a.out.size := by
    have hc := contents_entries a.names.toList a.names
    rw [← NameTable.entries] at hc
    obtain ⟨t, rest, ht⟩ := List.exists_cons_of_ne_nil
      (show a.names.entries ++ [Token.simple .endOfFile] ≠ [] by simp)
    rw [ht, markedElements_cons, ← ht, hc, List.append_nil]
    intro p hp _
    exact marksAt_eq_nil fun m hm => by
      have := h.labelled.le_size m hm
      omega
  rw [QbScript.elements_eq, funext hm, markedElements_congr_names hk, hb, List.append_assoc,
    placed_append, markedElements_append, map_snd_placed, he, markedElements_eq_of_blank h.blank,
    hshow, Nat.zero_add, ← h.size_out, htable]

/-- A compiled stream is listed as its listed script, phrase by phrase. -/
theorem elements_eq (h : Compiled options source b ls ps ts us a) (hs : b.size < 0x80000000)
    (hn : ∀ t ∈ a.names.entries, t.Stands) {lo : ListingOptions} (hlo : lo.branchLabels = false) :
    elements lo (Survey.ofFindings b.findings.found) b.scan.tokens =
      (listedFrom options (LineMap.ofText source.toList) start ps).flatMap
        (Token.listing a.names) :=
  h.elements_of_marks (h.scan hs hn) (h.get?_names_survey hs hn) (h.flatMap_labelsAt hs hn hlo)

end Compiled

end QbScript
