import QbScript.Proofs.Listing.Rows

/-!
# Trees of statements

Statements with blocks in them, to any depth. Written one construct on a line and without
indentation, a tree compiles on both targets, and what is listed for it shows the tree again: each
line stands as deep as it is nested.
-/

set_option autoImplicit false

namespace QbScript

open Bytecode Assembly

mutual

inductive Statement where
  | assign (name : Identifier) (value : Int32)
  | conditional (condition : Identifier) (body : Statements) (rest : Alternatives)
  | loop (body : Statements) (times : Int32)
  | switch (subject : Identifier) (branches : Branches)
  | script (name : Identifier) (body : Statements)

inductive Statements where
  | nil
  | cons (s : Statement) (rest : Statements)

/-- What follows the first branch of a conditional. -/
inductive Alternatives where
  | nothing
  | otherwise (body : Statements)
  | elseIf (condition : Identifier) (body : Statements) (rest : Alternatives)

inductive Branches where
  | nil
  | case (value : Int32) (body : Statements) (rest : Branches)
  | default (body : Statements) (rest : Branches)

end

mutual

/-- The lines of a statement at a depth. What is in a block stands one deeper than its first and
its last line. -/
def Statement.rows (depth : Nat) : Statement → List Row
  | .assign name value => [⟨depth, .assign name value⟩]
  | .conditional condition body rest =>
    ⟨depth, .conditional condition⟩ ::
      (body.rows (depth + 1) ++ rest.rows depth ++ [⟨depth, .endConditional⟩])
  | .loop body times => ⟨depth, .loop⟩ :: (body.rows (depth + 1) ++ [⟨depth, .endLoop times⟩])
  | .switch subject branches =>
    ⟨depth, .switch subject⟩ :: (branches.rows (depth + 1) ++ [⟨depth, .endSwitch⟩])
  | .script name body => ⟨depth, .script name⟩ :: (body.rows (depth + 1) ++ [⟨depth, .endScript⟩])

def Statements.rows (depth : Nat) : Statements → List Row
  | .nil => []
  | .cons s rest => s.rows depth ++ rest.rows depth

def Alternatives.rows (depth : Nat) : Alternatives → List Row
  | .nothing => []
  | .otherwise body => ⟨depth, .otherwise⟩ :: body.rows (depth + 1)
  | .elseIf condition body rest =>
    ⟨depth, .elseCondition condition⟩ :: (body.rows (depth + 1) ++ rest.rows depth)

def Branches.rows (depth : Nat) : Branches → List Row
  | .nil => []
  | .case value body rest => ⟨depth, .case value⟩ :: (body.rows (depth + 1) ++ rest.rows depth)
  | .default body rest => ⟨depth, .default⟩ :: (body.rows (depth + 1) ++ rest.rows depth)

end

/-- A line after lines of depth `before` stands at depth `own`, and the lines after it at depth
`after`. -/
def Shift.Brings (s : Shift) (before own after : Nat) : Prop :=
  before + s.level + min s.balance 0 = own ∧ before + s.level + s.balance = after

namespace Shift

variable (n k : Nat)

theorem brings_none : none.Brings n n n := by
  simp [Brings, none]

theorem brings_opens : (opens k).Brings n n (n + k) := by
  simp [Brings, opens]

theorem brings_closes : (closes k).Brings (n + k) n n := by
  simp only [Brings, closes]
  omega

/-- A loop is closed by its last word, whatever else is on the line. -/
theorem brings_leaves : Brings ⟨-1, 0, false⟩ (n + 1) n n := by
  simp [Brings]

theorem brings_separates : separates.Brings (n + 1) n (n + 1) := by
  simp [Brings, separates]

end Shift

/-- How deep the next line stands, and the conditionals and the switches that are open. -/
structure Surroundings where
  depth : Nat
  conditionals : List (Unit × Nat)
  switches : List (Unit × Nat)

namespace Row

structure Leads (p : Surroundings) (rows : List Row) (q : Surroundings) : Prop where
  walks : Walks p.depth rows q.depth
  conditional : ∀ ts, Construct.conditional.Leaves p.conditionals ts →
    Construct.conditional.Leaves q.conditionals (ts ++ Construct.conditional.part (phrases rows))
  switch : ∀ ts, Construct.switch.Leaves p.switches ts →
    Construct.switch.Leaves q.switches (ts ++ Construct.switch.part (phrases rows))

end Row

namespace Heading

def mark : Heading → Token
  | assign .. => .simple .equals
  | conditional _ => .simple .if
  | elseCondition _ => .simple .elseIf
  | otherwise => .simple .else
  | endConditional => .simple .endIf
  | loop => .simple .begin
  | endLoop _ => .simple .repeat
  | switch _ => .simple .switch
  | case _ => .simple .case
  | default => .simple .default
  | endSwitch => .simple .endSwitch
  | script _ => .simple .script
  | endScript => .simple .endScript

end Heading

namespace Row

variable {p q r : Surroundings} {rows rest : List Row}

theorem Leads.nil (p : Surroundings) : Leads p [] p where
  walks := .nil _
  conditional ts h := by simpa [phrases, Construct.part] using h
  switch ts h := by simpa [phrases, Construct.part] using h

theorem Leads.append (h : Leads p rows q) (h' : Leads q rest r) : Leads p (rows ++ rest) r where
  walks := h.walks.append h'.walks
  conditional ts ht := by
    rw [phrases_append, Construct.part_append, ← List.append_assoc]
    exact h'.conditional _ (h.conditional ts ht)
  switch ts ht := by
    rw [phrases_append, Construct.part_append, ← List.append_assoc]
    exact h'.switch _ (h.switch ts ht)

/-- Only its mark makes a line belong to a construct. -/
theorem leads_row {row : Row} (hd : row.heading.shift.Brings p.depth row.depth q.depth)
    (hc : Construct.conditional.Moves row.heading.mark p.conditionals q.conditionals)
    (hw : Construct.switch.Moves row.heading.mark p.switches q.switches) : Leads p [row] q := by
  have hconditional : Construct.conditional.part (phrases [row]) =
      Construct.conditional.part [row.heading.mark] := by
    obtain ⟨depth, heading⟩ := row
    cases heading <;> rfl
  have hswitch : Construct.switch.part (phrases [row]) =
      Construct.switch.part [row.heading.mark] := by
    obtain ⟨depth, heading⟩ := row
    cases heading <;> rfl
  obtain ⟨hown, hnext⟩ := hd
  have hown : row.heading.line.ownDepth p.depth = row.depth := by
    rw [Line.ownDepth, row.heading.shift_line, hown, Int.toNat_natCast]
  have hnext : row.heading.line.nextDepth p.depth = q.depth := by
    rw [Line.nextDepth, row.heading.shift_line, hnext, Int.toNat_natCast]
  exact {
    walks := .cons hown (hnext ▸ .nil _)
    conditional := fun ts ht => hconditional ▸ ht.move hc
    switch := fun ts ht => hswitch ▸ ht.move hw }

end Row

mutual

theorem Statement.leads (s : Statement) (p : Surroundings) : Row.Leads p (s.rows p.depth) p := by
  cases s with
  | assign name value => exact Row.leads_row (Shift.brings_none _) (.stays rfl) (.stays rfl)
  | conditional condition body rest =>
    let inner : Surroundings := ⟨p.depth + 1, ((), 0) :: p.conditionals, p.switches⟩
    obtain ⟨m, hm, hrest⟩ := rest.leads p
    have hadmits : Construct.conditional.admits () m := by simpa [Construct.conditional] using hm
    have hopen : Row.Leads p [⟨p.depth, .conditional condition⟩] inner :=
      Row.leads_row (Shift.brings_opens p.depth 1) (.opens rfl) (.stays rfl)
    have hclose : Row.Leads ⟨p.depth + 1, ((), m) :: p.conditionals, p.switches⟩
        [⟨p.depth, .endConditional⟩] p :=
      Row.leads_row (Shift.brings_closes p.depth 1) (.closes rfl hadmits) (.stays rfl)
    exact hopen.append (((body.leads inner).append hrest).append hclose)
  | loop body times =>
    let inner : Surroundings := ⟨p.depth + 1, p.conditionals, p.switches⟩
    have hopen : Row.Leads p [⟨p.depth, .loop⟩] inner :=
      Row.leads_row (Shift.brings_opens p.depth 1) (.stays rfl) (.stays rfl)
    have hclose : Row.Leads inner [⟨p.depth, .endLoop times⟩] p :=
      Row.leads_row (Shift.brings_leaves p.depth) (.stays rfl) (.stays rfl)
    exact hopen.append ((body.leads inner).append hclose)
  | switch subject branches =>
    obtain ⟨m, hbranches⟩ := branches.leads p 0
    have hopen : Row.Leads p [⟨p.depth, .switch subject⟩]
        ⟨p.depth + 2, p.conditionals, ((), 0) :: p.switches⟩ :=
      Row.leads_row (Shift.brings_opens p.depth 2) (.stays rfl) (.opens rfl)
    have hclose : Row.Leads ⟨p.depth + 2, p.conditionals, ((), m) :: p.switches⟩
        [⟨p.depth, .endSwitch⟩] p :=
      Row.leads_row (Shift.brings_closes p.depth 2) (.stays rfl) (.closes rfl rfl)
    exact hopen.append (hbranches.append hclose)
  | script name body =>
    let inner : Surroundings := ⟨p.depth + 1, p.conditionals, p.switches⟩
    have hopen : Row.Leads p [⟨p.depth, .script name⟩] inner :=
      Row.leads_row (Shift.brings_opens p.depth 1) (.stays rfl) (.stays rfl)
    have hclose : Row.Leads inner [⟨p.depth, .endScript⟩] p :=
      Row.leads_row (Shift.brings_closes p.depth 1) (.stays rfl) (.stays rfl)
    exact hopen.append ((body.leads inner).append hclose)

theorem Statements.leads (ss : Statements) (p : Surroundings) :
    Row.Leads p (ss.rows p.depth) p := by
  cases ss with
  | nil => exact .nil p
  | cons s rest => exact (s.leads p).append (rest.leads p)

/-- At most one of the other branches has no condition. -/
theorem Alternatives.leads (rest : Alternatives) (p : Surroundings) :
    ∃ m ≤ 1, Row.Leads ⟨p.depth + 1, ((), 0) :: p.conditionals, p.switches⟩
      (rest.rows p.depth) ⟨p.depth + 1, ((), m) :: p.conditionals, p.switches⟩ := by
  let inner (n : Nat) : Surroundings := ⟨p.depth + 1, ((), n) :: p.conditionals, p.switches⟩
  cases rest with
  | nothing => exact ⟨0, Nat.zero_le 1, .nil _⟩
  | otherwise body =>
    have hfirst : Row.Leads (inner 0) [⟨p.depth, .otherwise⟩] (inner 1) :=
      Row.leads_row (Shift.brings_separates p.depth) (.divides rfl) (.stays rfl)
    exact ⟨1, Nat.le_refl 1, hfirst.append (body.leads (inner 1))⟩
  | elseIf condition body rest =>
    obtain ⟨m, hm, hrest⟩ := rest.leads p
    have hfirst : Row.Leads (inner 0) [⟨p.depth, .elseCondition condition⟩] (inner 0) :=
      Row.leads_row (Shift.brings_separates p.depth) (.stays rfl) (.stays rfl)
    exact ⟨m, hm, hfirst.append ((body.leads (inner 0)).append hrest)⟩

theorem Branches.leads (branches : Branches) (p : Surroundings) (n : Nat) :
    ∃ m, Row.Leads ⟨p.depth + 2, p.conditionals, ((), n) :: p.switches⟩
      (branches.rows (p.depth + 1)) ⟨p.depth + 2, p.conditionals, ((), m) :: p.switches⟩ := by
  let inner (n : Nat) : Surroundings := ⟨p.depth + 2, p.conditionals, ((), n) :: p.switches⟩
  cases branches with
  | nil => exact ⟨n, .nil _⟩
  | case value body rest =>
    obtain ⟨m, hrest⟩ := rest.leads p (n + 1)
    have hfirst : Row.Leads (inner n) [⟨p.depth + 1, .case value⟩] (inner (n + 1)) :=
      Row.leads_row (Shift.brings_separates (p.depth + 1)) (.stays rfl) (.divides rfl)
    exact ⟨m, hfirst.append ((body.leads (inner (n + 1))).append hrest)⟩
  | default body rest =>
    obtain ⟨m, hrest⟩ := rest.leads p (n + 1)
    have hfirst : Row.Leads (inner n) [⟨p.depth + 1, .default⟩] (inner (n + 1)) :=
      Row.leads_row (Shift.brings_separates (p.depth + 1)) (.stays rfl) (.divides rfl)
    exact ⟨m, hfirst.append ((body.leads (inner (n + 1))).append hrest)⟩

end

namespace Row

variable {options : CompileOptions} {rows : List Row} {m : Nat} {b : Bytecode}

def NoElseIf (rows : List Row) : Prop := ∀ row ∈ rows, row.heading.mark ≠ .simple .elseIf

instance (rows : List Row) : Decidable (NoElseIf rows) :=
  inferInstanceAs (Decidable (∀ row ∈ rows, row.heading.mark ≠ .simple .elseIf))

theorem elseIf_notMem_phrases (h : NoElseIf rows) : .simple .elseIf ∉ phrases rows := by
  intro hm
  obtain ⟨row, hrow, hm⟩ := List.mem_flatMap.mp hm
  have hmark : row.heading.mark ≠ .simple .elseIf := h row hrow
  revert hm hmark
  cases row.heading <;> simp [Heading.tokens, Heading.pieces, Heading.mark, Piece.tokens,
    Identifier.piece, Literal.NameForm.ref, Name.Ref.asName]

theorem part_random_phrases (rows : List Row) : Construct.random.part (phrases rows) = [] := by
  rw [Construct.part, List.filter_eq_nil_iff]
  intro t ht
  simp [(isStraight_of_mem ht).role]

theorem Leads.balancedOnFast (h : Leads ⟨0, [], []⟩ rows ⟨0, [], []⟩) (he : NoElseIf rows) :
    BalancedOnFast (phrases rows) := by
  have hbalanced : ∀ {kind : Construct Unit} {ts}, kind.Leaves [] ts → kind.Balanced ts := by
    intro kind ts hl
    cases hl with
    | nothing hb => exact hb
  exact {
    elseIf_notMem := elseIf_notMem_phrases he
    random := part_random_phrases rows ▸ .nil
    conditional := hbalanced (h.conditional [] (.nothing .nil))
    switch := hbalanced (h.switch [] (.nothing .nil)) }

theorem exists_lexemes (rows : List Row) :
    ∃ ls, Lexeme.ofText (source rows).toList = .ok ls ∧ ls.map Lexeme.token = phrases rows :=
  (spells_source rows).exists_ofText

/-- Rows that lead back to where they started compile, unless a branch leads too far. -/
theorem Leads.compiles (h : Leads ⟨0, [], []⟩ rows ⟨0, [], []⟩) (hn : NamesApart rows)
    (he : options.target = .fast → NoElseIf rows) :
    (∃ b, compile options (source rows) = .ok b) ∨ options.target = .fast ∧
      ∃ line distance, compile options (source rows) = .error (.branchTooFar line distance) := by
  obtain ⟨ls, hl, hls⟩ := exists_lexemes rows
  have hcomposes : Phrase.Composes (ls.map Lexeme.token) (phrases rows) :=
    hls ▸ composes_phrases rows
  have hcompletes : Completes True (fun _ => True) (compile options (source rows)) := by
    apply completes_compile hl hcomposes hn.noCollisions
    · exact part_random_phrases rows ▸ .nil
    · exact fun _ _ _ _ => Or.inl trivial
    · exact fun ht => ⟨trivial, h.balancedOnFast (he ht)⟩
  rcases completes_true_iff.mp hcompletes with ⟨b, hb, -⟩ | ⟨line, distance, hb⟩
  · exact Or.inl ⟨b, hb⟩
  · refine Or.inr ⟨?_, line, distance, hb⟩
    cases ht : options.target with
    | fast => rfl
    | plain =>
      have hrole : ∀ p ∈ (Phrase.ofLexemes ls).phrases, Construct.random.role? p.token = none := by
        intro p hp
        have hm := List.mem_map_of_mem (f := Phrase.token) hp
        rw [(Phrase.ofLexemes_of_composes hcomposes).2] at hm
        exact (isStraight_of_mem hm).role
      exact absurd rfl (ne_branchTooFar_of_plain ht hl hrole _ hb line distance)

/-- What is listed for rows that compile. -/
theorem Walks.disassemble_of_compile (h : Walks 0 rows m) (hn : NamesApart rows)
    (hb : compile options (source rows) = .ok b) (indent : String) :
    (disassemble ⟨indent, false⟩ b).result = .ok ⟨pretty indent rows, []⟩ := by
  obtain ⟨ls, ps, ts, us, a, hc⟩ := exists_compiled hb
  obtain ⟨ls', hl, hls⟩ := exists_lexemes rows
  obtain rfl := Except.ok.inj (hl.symm.trans hc.ofText)
  have hps : ps.map Phrase.token = phrases rows := by
    rw [hc.phrases]
    exact (Phrase.ofLexemes_of_composes (hls ▸ composes_phrases rows)).2
  have hmem : ∀ p ∈ ps, p.token ∈ phrases rows := fun p hp => hps ▸ List.mem_map_of_mem hp
  have hzero : NoZeroNames ls' := fun l hl =>
    zero_notMem_of_mem_names (hls ▸ List.mem_map_of_mem hl)
  have hchecksum : ∀ p ∈ ps, ∀ c, p.token ≠ .nameChecksum c ∧ p.token ≠ .argChecksum c := by
    intro p hp c
    rcases of_mem_phrases (hmem p hp) with ⟨name, -, ht⟩ | ⟨v, ht⟩ | ⟨tag, -, ht⟩ <;> simp [ht]
  have hknown : ∀ x ∈ names rows, a.names.get? (Checksum.ofName x.text) = some x.text := by
    intro x hx
    rw [hc.run.get?_names, hps]
    exact hn.firstSpelling_eq hx
  rw [hc.disassemble_of_isStraight (fun p hp => isStraight_of_mem (hmem p hp)) hzero
    (hps ▸ isChain_phrases rows) hchecksum rfl, hps, listing_phrases hknown, ofElements_lines,
    text_eq_pretty h]

end Row

namespace Statements

/-- The script with each construct on a line and no indentation. -/
def source (ss : Statements) : String := Row.source (ss.rows 0)

/-- The script with each line indented as deep as it is nested, and a blank line after each end of
a script that is not the last line. -/
def pretty (indent : String) (ss : Statements) : String := Row.pretty indent (ss.rows 0)

end Statements

/-- Decompiled scripts are pretty. A tree of statements, of any depth and width, whose names are the
same or have different checksums, compiles on both targets from lines without indentation, on the
fast target if there are no conditions on other branches and unless a branch leads too far; and
whatever indentation is asked for, it is listed with each line as deep as it is nested. -/
theorem pretty_of_compile (options : CompileOptions) (ss : Statements)
    (hnames : Row.NamesApart (ss.rows 0))
    (hfast : options.target = .fast → Row.NoElseIf (ss.rows 0)) :
    (∃ b, compile options ss.source = .ok b ∧ ∀ indent,
      (disassemble ⟨indent, false⟩ b).result = .ok ⟨ss.pretty indent, []⟩) ∨
    options.target = .fast ∧ ∃ line distance,
      compile options ss.source = .error (.branchTooFar line distance) ∧
        (distance < -0x8000 ∨ 0x8000 ≤ distance) := by
  have hleads : Row.Leads ⟨0, [], []⟩ (ss.rows 0) ⟨0, [], []⟩ := ss.leads ⟨0, [], []⟩
  rcases hleads.compiles hnames hfast with ⟨b, hb⟩ | ⟨ht, line, distance, hb⟩
  · exact Or.inl ⟨b, hb, hleads.walks.disassemble_of_compile hnames hb⟩
  · exact Or.inr ⟨ht, line, distance, hb, distance_of_compile hb⟩

/-- Two scripts, one with a switch and a loop in a conditional. -/
theorem pretty_of_compile_scripts :
    ∃ ss : Statements,
      ss.source = "SCRIPT Run\nIF ready\nSWITCH mode\nCASE -1\nx = 3\nDEFAULT\nENDSWITCH\nELSE\n" ++
        "BEGIN\nready = 0\nREPEAT 2\nENDIF\nENDSCRIPT\nSCRIPT Stop\nENDSCRIPT\n" ∧
      ss.pretty "\t" = "SCRIPT Run\n\tIF ready\n\t\tSWITCH mode\n\t\t\tCASE -1\n\t\t\t\tx = 3\n" ++
        "\t\t\tDEFAULT\n\t\tENDSWITCH\n\tELSE\n\t\tBEGIN\n\t\t\tready = 0\n\t\tREPEAT 2\n" ++
        "\tENDIF\nENDSCRIPT\n\nSCRIPT Stop\nENDSCRIPT\n" ∧
      Row.NamesApart (ss.rows 0) ∧ Row.NoElseIf (ss.rows 0) ∧
      ∃ b, compile ⟨.fast, true⟩ ss.source = .ok b ∧
        (disassemble ⟨"\t", false⟩ b).result = .ok ⟨ss.pretty "\t", []⟩ := by
  let name (text : String) (h : Literal.isWord text ∧ Tag.ofKeyword? text = none) : Identifier :=
    ⟨text, h.1, h.2⟩
  let ready := name "ready" (by decide +kernel)
  let choice := Statement.switch (name "mode" (by decide +kernel))
    (.case (-1) (.cons (.assign (name "x" (by decide +kernel)) 3) .nil) (.default .nil .nil))
  let wait := Statement.loop (.cons (.assign ready 0) .nil) 2
  let run := Statement.conditional ready (.cons choice .nil) (.otherwise (.cons wait .nil))
  let ss := Statements.cons (.script (name "Run" (by decide +kernel)) (.cons run .nil))
    (.cons (.script (name "Stop" (by decide +kernel)) .nil) .nil)
  have hnames : Row.NamesApart (ss.rows 0) := by decide +kernel
  have helse : Row.NoElseIf (ss.rows 0) := by decide +kernel
  have hok : (compile ⟨.fast, true⟩ ss.source).isOk = true := by decide +kernel
  refine ⟨ss, by decide +kernel, by decide +kernel, hnames, helse, ?_⟩
  rcases pretty_of_compile ⟨.fast, true⟩ ss hnames fun _ => helse with
    ⟨b, hb, hlisting⟩ | ⟨-, line, distance, hb, -⟩
  · exact ⟨b, hb, hlisting "\t"⟩
  · rw [hb] at hok
    cases hok

end QbScript
