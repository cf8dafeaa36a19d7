import QbScript.Proofs.Listing.Counters
import QbScript.Proofs.Listing.Delimited
import QbScript.Proofs.Listing.Names
import QbScript.Proofs.Script.LineEnds

/-!
# Indentation

After each line of a listing the depth is the number of levels that are open there. However the
words that open and close them stand on lines, the counters of the printer add up to it, and what is
balanced leaves the depth as it was. The counters have 32 bits: all of this is so up to the first
2 ^ 30 items, and there is a stream with so many that ends with another depth.
-/

set_option autoImplicit false

namespace QbScript

open Bytecode

/-- How many levels a tag opens or, if negative, closes. -/
def Tag.weight : Tag → Int
  | .startStruct | .startArray | .script | .begin | .if | .fastIf => 1
  | .switch => 2
  | .endStruct | .endArray | .endScript | .endIf | .repeat => -1
  | .endSwitch => -2
  | _ => 0

namespace Tag

theorem shift_weight (tag : Tag) : tag.shift.level + tag.shift.balance = tag.weight := by
  cases tag <;> rfl

theorem shift_narrow (tag : Tag) : tag.shift.level.natAbs + tag.shift.balance.natAbs ≤ 2 := by
  cases tag <;> decide

theorem weight_of_text? {tag : Tag} (h : tag.text? = none) : tag.weight = 0 := by
  revert h
  cases tag <;> first | exact fun _ => rfl | exact nofun

end Tag

/-- What a printer prints: the labels at a position, and the token there. -/
inductive Item where
  | label (pos : Nat) (l : Label)
  | token (t : Token)

def Survey.items (s : Survey) (tokens : List (Nat × Token)) : List Item :=
  tokens.flatMap fun t => (s.labelsAt t.1).map (.label t.1) ++ [.token t.2]

namespace Item

def weight : Item → Int
  | .label _ l => if l.kind = .randomEnd then -1 else 0
  | .token (.simple tag) | .token (.shortBranch tag _) => tag.weight
  | .token (.random ..) => 1
  | .token _ => 0

def openWeight (is : List Item) : Int := (is.map weight).sum

/-- No more levels are closed than were opened. -/
def NeverNegative (is : List Item) : Prop := ∀ front, front <+: is → 0 ≤ openWeight front

instance decidableNeverNegative (is : List Item) : Decidable (NeverNegative is) :=
  decidable_of_iff (∀ front ∈ is.inits, 0 ≤ openWeight front) (by simp [NeverNegative])

def isLineEnd : Item → Bool
  | .label .. => false
  | .token t => t.isLineEnd

def AtLineStart (is : List Item) : Prop := ∀ i ∈ is.getLast?, i.isLineEnd = true

def elements (options : ListingOptions) (names : NameTable) (isArg : Bool) : Item → List Element
  | .label pos l => l.elements options pos
  | .token t => t.elements names isArg

def leavesArg (isArg : Bool) : Item → Bool
  | .label .. => isArg
  | .token t => t = .simple .arg

def listed (options : ListingOptions) (names : NameTable) (isArg : Bool) : List Item → List Element
  | [] => []
  | i :: is => i.elements options names isArg ++ listed options names (i.leavesArg isArg) is

/-- What an item is listed as: the end of a line, a word that moves the depth by the weight of the
item, or nothing. -/
inductive Lists (i : Item) : List Element → Prop where
  | lineEnd (h : i.isLineEnd = true) (hw : i.weight = 0) : i.Lists [.lineEnd]
  | nothing (h : i.isLineEnd = false) (hw : i.weight = 0) : i.Lists []
  | word {w : Word} (h : i.isLineEnd = false)
      (hw : w.shift.level + w.shift.balance = i.weight)
      (hn : w.shift.level.natAbs + w.shift.balance.natAbs ≤ 2) : i.Lists [.word w]

section

variable {options : ListingOptions} {names : NameTable} {isArg : Bool} {i : Item}
  {is js : List Item}

theorem lists_plain {text : String} (h : i.isLineEnd = false) (hw : i.weight = 0) :
    i.Lists [.plain text] :=
  .word h hw.symm (Nat.zero_le 2)

theorem lists_tag {tag : Tag} (h : i.isLineEnd = false) (hw : i.weight = tag.weight) :
    i.Lists (tag.text?.map fun text => Element.word ⟨text, tag.shift⟩).toList := by
  cases ht : tag.text? with
  | none => exact .nothing h (hw.trans (Tag.weight_of_text? ht))
  | some text => exact .word h (tag.shift_weight.trans hw.symm) tag.shift_narrow

theorem lists_label (pos : Nat) (l : Label) :
    (label pos l).Lists (l.elements options pos) := by
  unfold Label.elements
  split
  · rename_i hk
    split
    · exact lists_plain rfl (by simp [weight, hk])
    · exact .nothing rfl (by simp [weight, hk])
  · rename_i hk
    exact lists_plain rfl (by simp [weight, hk])
  · rename_i hk
    exact .word rfl (by simp [weight, hk, Shift.closes]) (Nat.le_succ 1)

theorem lists_token (t : Token) : (token t).Lists (t.elements names isArg) := by
  unfold Token.elements
  split
  · exact .lineEnd rfl rfl
  · exact .lineEnd rfl rfl
  · exact .nothing rfl rfl
  · rename_i tag hline harg
    refine lists_tag ?_ rfl
    cases tag <;> first | rfl | exact absurd rfl hline
  · exact lists_tag rfl rfl
  all_goals first
    | exact lists_plain rfl rfl
    | exact .nothing rfl rfl
    | exact .word rfl rfl (Nat.le_succ 1)

theorem lists_elements (i : Item) : i.Lists (i.elements options names isArg) := by
  cases i with
  | label pos l => exact lists_label pos l
  | token t => exact lists_token t

theorem listed_append (is js : List Item) :
    listed options names isArg (is ++ js) =
      listed options names isArg is ++ listed options names (is.foldl leavesArg isArg) js := by
  induction is generalizing isArg with
  | nil => rfl
  | cons i is ih => rw [List.cons_append, listed, listed, ih, List.append_assoc, List.foldl_cons]

theorem openWeight_append (is js : List Item) :
    openWeight (is ++ js) = openWeight is + openWeight js := by
  rw [openWeight, List.map_append, List.sum_append, ← openWeight, ← openWeight]

theorem openWeight_concat (is : List Item) (i : Item) :
    openWeight (is ++ [i]) = openWeight is + i.weight := by
  rw [openWeight_append]
  exact congrArg _ (Int.add_zero _)

theorem NeverNegative.of_prefix (h : NeverNegative is) (hj : js <+: is) : NeverNegative js :=
  fun front hf => h front (hf.trans hj)

theorem NeverNegative.left (h : NeverNegative (is ++ js)) : NeverNegative is :=
  h.of_prefix (List.prefix_append is js)

theorem count_lineEnd_listed (is : List Item) :
    (listed options names isArg is).count .lineEnd = is.countP isLineEnd := by
  induction is generalizing isArg with
  | nil => rfl
  | cons i is ih =>
    rw [listed, List.count_append, ih, List.countP_cons]
    generalize he : i.elements options names isArg = es
    have hl := @lists_elements options names isArg i
    rw [he] at hl
    cases hl with
    | lineEnd h => rw [h]; exact Nat.add_comm _ _
    | nothing h => rw [h]; exact Nat.add_comm _ _
    | word h => rw [h]; exact Nat.add_comm _ _

end

end Item

theorem elements_eq_listed (options : ListingOptions) (s : Survey) (tokens : List (Nat × Token)) :
    elements options s tokens = Item.listed options s.names false (s.items tokens) := by
  have hlabels : ∀ (isArg : Bool) (pos : Nat) (ls : List Label) (is : List Item),
      Item.listed options s.names isArg (ls.map (.label pos) ++ is) =
        ls.flatMap (Label.elements options pos) ++ Item.listed options s.names isArg is := by
    intro isArg pos ls is
    induction ls with
    | nil => rfl
    | cons l ls ih =>
      rw [List.map_cons, List.cons_append, Item.listed, List.flatMap_cons, List.append_assoc, ← ih]
      rfl
  rw [elements_eq]
  generalize false = isArg
  induction tokens generalizing isArg with
  | nil => rfl
  | cons t tokens ih =>
    have hitems : s.items (t :: tokens) =
        (s.labelsAt t.1).map (.label t.1) ++ .token t.2 :: s.items tokens := by
      rw [Survey.items, List.flatMap_cons, List.append_assoc, ← Survey.items]
      rfl
    rw [markedElements, ih, hitems, hlabels, Item.listed, List.append_assoc]
    rfl

namespace Printer

def ofItems (options : ListingOptions) (names : NameTable) (is : List Item) : Printer :=
  (Item.listed options names false is).foldl (add options.indent) start

/-- The printer after the items, with counters of 32 bits. -/
def countItems (sums : Sums) (options : ListingOptions) (names : NameTable) (is : List Item) :
    Option Printer :=
  (Item.listed options names false is).foldlM (count sums options.indent) start

def total (p : Printer) : Int := p.depth + p.closed + p.opened

theorem total_addWord (p : Printer) (w : Word) :
    (p.addWord w).total = p.total + (w.shift.level + w.shift.balance) := by
  simp only [total, addWord]
  omega

theorem depth_endLine (indent : String) (p : Printer) :
    (p.endLine indent).depth = max p.total 0 := by
  simp only [endLine, breakLine, writeLine, total]
  split <;> split <;> omega

section

variable {options : ListingOptions} {names : NameTable} {is : List Item} {i : Item}

theorem exists_ofItems_concat (options : ListingOptions) (names : NameTable) (is : List Item)
    (i : Item) : ∃ es, i.Lists es ∧
      ofItems options names (is ++ [i]) =
        es.foldl (add options.indent) (ofItems options names is) ∧
      ∀ sums, countItems sums options names (is ++ [i]) =
        countItems sums options names is >>= es.foldlM (count sums options.indent) := by
  have hlisted : Item.listed options names false (is ++ [i]) = Item.listed options names false is ++
      i.elements options names (is.foldl Item.leavesArg false) := by
    rw [Item.listed_append, Item.listed, Item.listed, List.append_nil]
  refine ⟨_, @Item.lists_elements options names (is.foldl Item.leavesArg false) i, ?_, ?_⟩
  · rw [ofItems, hlisted, List.foldl_append, ← ofItems]
  · intro sums
    rw [countItems, hlisted, List.foldlM_append, ← countItems]

/-- The counters add up to the open weight. At the end of a line this takes that no more levels are
closed than were opened, for the depth does not go below zero. -/
theorem total_ofItems (h : Item.NeverNegative is) :
    (ofItems options names is).total = Item.openWeight is := by
  induction is using List.reverseRecOn with
  | nil => rfl
  | append_singleton is i ih =>
    have hnonneg := h _ (List.prefix_refl _)
    obtain ⟨es, hl, hp, -⟩ := exists_ofItems_concat options names is i
    replace ih := ih h.left
    rw [Item.openWeight_concat, ← ih] at hnonneg ⊢
    rw [hp]
    cases hl with
    | lineEnd _ hw =>
      rw [hw, Int.add_zero] at hnonneg ⊢
      have hdepth := (ofItems options names is).depth_endLine options.indent
      rw [max_eq_left hnonneg] at hdepth
      rw [← hdepth]
      exact (Int.add_zero _).trans (Int.add_zero _)
    | nothing _ hw =>
      rw [hw, Int.add_zero]
      rfl
    | word _ hw =>
      rw [← hw]
      exact total_addWord _ _

/-- The counters are small. -/
theorem spread_ofItems (options : ListingOptions) (names : NameTable) (is : List Item) :
    (ofItems options names is).spread ≤ 2 * is.length := by
  induction is using List.reverseRecOn with
  | nil => exact Nat.le_refl 0
  | append_singleton is i ih =>
    obtain ⟨es, hl, hp, -⟩ := exists_ofItems_concat options names is i
    rw [hp, List.length_append, List.length_singleton]
    cases hl with
    | lineEnd =>
      have hline := (ofItems options names is).spread_endLine options.indent
      rw [List.foldl_cons, List.foldl_nil, add]
      omega
    | nothing =>
      rw [List.foldl_nil]
      omega
    | @word w _ _ hn =>
      have hword := (ofItems options names is).spread_addWord w
      rw [List.foldl_cons, List.foldl_nil, add]
      omega

/-- The counters fit in words of 32 bits as long as there are fewer than 2 ^ 30 items. -/
theorem countItems_eq {sums : Sums} (hs : sums.Exact) (h : is.length < 0x40000000) :
    countItems sums options names is = some (ofItems options names is) := by
  induction is using List.reverseRecOn with
  | nil => rfl
  | append_singleton is i ih =>
    have hbefore := spread_ofItems options names is
    have hafter := spread_ofItems options names (is ++ [i])
    simp only [List.length_append, List.length_singleton] at h hafter
    obtain ⟨es, hl, hp, hc⟩ := exists_ofItems_concat options names is i
    rw [hc, ih (by omega), Option.bind_eq_bind, Option.bind_some]
    rw [hp] at hafter ⊢
    cases hl with
    | nothing => rfl
    | lineEnd | word =>
      rw [List.foldl_cons, List.foldl_nil] at hafter ⊢
      rw [List.foldlM_cons, count_eq hs options.indent (by omega) (by omega)]
      rfl

variable (options names)

/-- At the start of a line nothing is counted but the depth. -/
theorem ofItems_of_atLineStart (h : Item.AtLineStart is) :
    (ofItems options names is).line = [] ∧ (ofItems options names is).closed = 0 ∧
      (ofItems options names is).opened = 0 := by
  rcases List.eq_nil_or_concat' is with rfl | ⟨is, i, rfl⟩
  · exact ⟨rfl, rfl, rfl⟩
  · obtain ⟨es, hl, hp, -⟩ := exists_ofItems_concat options names is i
    have hi := h i (by simp)
    rw [hp]
    cases hl with
    | lineEnd => exact ⟨rfl, rfl, rfl⟩
    | nothing hn => rw [hi] at hn; cases hn
    | word hn => rw [hi] at hn; cases hn

theorem depth_ofItems (h : Item.NeverNegative is) (hs : Item.AtLineStart is) :
    (ofItems options names is).depth = Item.openWeight is := by
  obtain ⟨-, hclosed, hopened⟩ := ofItems_of_atLineStart options names hs
  rw [← total_ofItems h, total, hclosed, hopened, Int.add_zero, Int.add_zero]

end

end Printer

namespace Item

/-- A stream is printed with the depth that its open levels have, up to the first 2 ^ 30 items. -/
structure IndentsByWeight (sums : Sums) (options : ListingOptions) (s : Survey)
    (tokens : List (Nat × Token)) : Prop where
  /-- The listing is what the printer prints of the items. -/
  text : (s.items tokens).length < 0x40000000 →
    (Printer.countItems sums options s.names (s.items tokens) >>=
      Printer.countFinish sums options.indent) = some (listing options s tokens).text
  /-- In the middle of a line, too, the counters add up to the open levels. -/
  counters : NeverNegative (s.items tokens) → ∀ front, front <+: s.items tokens →
    front.length < 0x40000000 →
      ∃ p, Printer.countItems sums options s.names front = some p ∧
        p.depth + p.closed + p.opened = openWeight front
  /-- After each line the depth is that of the open levels, and nothing else is counted. -/
  depth : NeverNegative (s.items tokens) → ∀ front, front <+: s.items tokens →
    front.length < 0x40000000 → AtLineStart front →
      ∃ p, Printer.countItems sums options s.names front = some p ∧
        p.depth = openWeight front ∧ p.closed = 0 ∧ p.opened = 0
  /-- The lines of the sheet that follow are listed with this depth. -/
  lines : NeverNegative (s.items tokens) → ∀ front, front <+: s.items tokens →
    front.length < 0x40000000 → AtLineStart front →
      ((Sheet.linesFrom options.indent [] 0 ((Sheet.ofElements (QbScript.elements options s
        tokens)).lines.take (front.countP isLineEnd))).2 : Int) = openWeight front
  /-- What is balanced leaves the depth as it was. -/
  returns : NeverNegative (s.items tokens) → ∀ front middle, front ++ middle <+: s.items tokens →
    (front ++ middle).length < 0x40000000 → AtLineStart front → AtLineStart (front ++ middle) →
      openWeight middle = 0 →
        ∃ p q, Printer.countItems sums options s.names front = some p ∧
          Printer.countItems sums options s.names (front ++ middle) = some q ∧ q.depth = p.depth

variable (options : ListingOptions) (s : Survey) (tokens : List (Nat × Token))

/-- The depth after the first lines of a sheet is that of the printer there. -/
theorem linesFrom_take {front : List Item} (hf : front <+: s.items tokens)
    (h : AtLineStart front) :
    ((Sheet.linesFrom options.indent [] 0 ((Sheet.ofElements (QbScript.elements options s
      tokens)).lines.take (front.countP isLineEnd))).2 : Int) =
        (Printer.ofItems options s.names front).depth := by
  obtain ⟨rest, hrest⟩ := hf
  obtain ⟨-, hline, hon⟩ :=
    Printer.onLine_start.foldl_add options.indent (listed options s.names false front)
  have hnil := (Printer.ofItems_of_atLineStart options s.names h).1
  rw [show Printer.start.line = [] from rfl, Sheet.addLine_nil, ← Printer.ofItems] at hline hon
  rw [elements_eq_listed, ← hrest, listed_append, ← @count_lineEnd_listed options s.names false,
    Sheet.take_lines_ofElements _ (hline.symm.trans hnil), hon.depth, hnil]
  exact (Int.add_zero _).symm

theorem text_listing :
    (listing options s tokens).text =
      (Printer.ofItems options s.names (s.items tokens)).finish options.indent := by
  rw [listing, elements_eq_listed, ← Printer.finish_foldl_add]
  rfl

theorem indentsByWeight {sums : Sums} (hs : sums.Exact) :
    IndentsByWeight sums options s tokens where
  text hlen := by
    have hspread := Printer.spread_ofItems options s.names (s.items tokens)
    rw [Printer.countItems_eq hs hlen, text_listing, Option.bind_eq_bind, Option.bind_some]
    exact Printer.countFinish_eq hs options.indent (by omega)
  counters hn front hf hlen :=
    ⟨_, Printer.countItems_eq hs hlen, Printer.total_ofItems (hn.of_prefix hf)⟩
  depth hn front hf hlen hline :=
    ⟨_, Printer.countItems_eq hs hlen,
      Printer.depth_ofItems options s.names (hn.of_prefix hf) hline,
      (Printer.ofItems_of_atLineStart options s.names hline).2⟩
  lines hn front hf _ hline := by
    rw [linesFrom_take options s tokens hf hline,
      Printer.depth_ofItems options s.names (hn.of_prefix hf) hline]
  returns hn front middle hm hlen hline hmiddle hw := by
    have hfront : front.length < 0x40000000 := by
      rw [List.length_append] at hlen
      omega
    refine ⟨_, _, Printer.countItems_eq hs hfront, Printer.countItems_eq hs hlen, ?_⟩
    rw [Printer.depth_ofItems options s.names (hn.of_prefix hm) hmiddle, openWeight_append, hw,
      Printer.depth_ofItems options s.names (hn.of_prefix hm).left hline, Int.add_zero]

end Item

/-- Every stream that is listed is printed with the depth of its open levels up to its first
2 ^ 30 items, as long as no more levels are closed than were opened. -/
theorem indentation_of_disassemble {options : ListingOptions} {b : Bytecode} {l : Listing}
    (h : (disassemble options b).result = .ok l) :
    ∃ s, (resolve b).result = .ok s ∧ l = listing options s b.scan.tokens ∧
      ∀ sums : Sums, sums.Exact → Item.IndentsByWeight sums options s b.scan.tokens := by
  obtain ⟨s, hs, rfl⟩ := disassemble_eq_ok_iff.mp h
  exact ⟨s, hs, rfl, fun _ hsums => Item.indentsByWeight options s b.scan.tokens hsums⟩

/-- A script and a loop that are opened on one line, and closed on one; and a random block whose end
stands on a line with the end of the conditional around it. -/
theorem indentation_of_disassemble_rows :
    ∃ (b : Bytecode) (l : Listing) (s : Survey),
      (disassemble ⟨"  ", false⟩ b).result = .ok l ∧ (resolve b).result = .ok s ∧
      l = listing ⟨"  ", false⟩ s b.scan.tokens ∧ Item.NeverNegative (s.items b.scan.tokens) ∧
      (s.items b.scan.tokens).length = 21 ∧
      ((s.items b.scan.tokens).inits.filter fun front =>
        front.getLast?.any Item.isLineEnd).map Item.openWeight = [2, 3, 4, 2, 0] ∧
      Item.IndentsByWeight .checked ⟨"  ", false⟩ s b.scan.tokens ∧
      Item.IndentsByWeight .wrapping ⟨"  ", false⟩ s b.scan.tokens := by
  obtain ⟨b, hb⟩ : ∃ b : Bytecode, b = #[35, 22, 188, 65, 72, 23, 32, 1, 37, 22, 6, 16, 65, 142, 1,
    47, 2, 0, 0, 0, 1, 0, 1, 0, 4, 0, 0, 0, 11, 0, 0, 0, 22, 144, 32, 70, 249, 1, 46, 5, 0, 0, 0,
    22, 51, 181, 34, 103, 40, 1, 33, 36, 1, 0] := ⟨_, rfl⟩
  have hf : b.findings.fault = none := by
    subst hb
    decide +kernel
  obtain ⟨l, hl⟩ := (exists_disassemble_iff ⟨"  ", false⟩).mpr hf
  obtain ⟨s, hs, hlisting, hall⟩ := indentation_of_disassemble hl
  have hitems : Item.NeverNegative (s.items b.scan.tokens) ∧
      (s.items b.scan.tokens).length = 21 ∧
      ((s.items b.scan.tokens).inits.filter fun front =>
        front.getLast?.any Item.isLineEnd).map Item.openWeight = [2, 3, 4, 2, 0] := by
    rw [ofFindings_of_resolve hs, hb]
    decide +kernel
  exact ⟨b, l, s, hl, hs, hlisting, hitems.1, hitems.2.1, hitems.2.2,
    hall _ Sums.exact_checked, hall _ Sums.exact_wrapping⟩

/-- A line on which `n` switches are opened, and a word on the next one. -/
def switches (n : Nat) : Bytecode := Array.replicate n 0x3c ++ #[0x01, 0x22, 0x00]

def switchLine (n : Nat) : List Token := List.replicate n (.simple .switch) ++ [.simple .endOfLine]

theorem scan_switches (n : Nat) : (switches n).scan =
    ⟨placed 0 (switchLine n ++ [.simple .break, .simple .endOfFile]), none⟩ := by
  have hwires : wires (switchLine n ++ [.simple .break]) = List.replicate n 0x3c ++ [0x01, 0x22] := by
    rw [switchLine, List.append_assoc, wires_append, wires, List.flatMap_replicate]
    exact congrArg (· ++ _) List.flatten_replicate_singleton
  have hbytes : (switches n).toList =
      [] ++ wires (switchLine n ++ [.simple .break]) ++ [0] := by
    rw [hwires, switches, Array.toList_append, Array.toList_replicate, List.nil_append,
      List.append_assoc]
    rfl
  have hstands : ∀ t ∈ switchLine n ++ [.simple .break], t.Stands := by
    intro t ht
    simp only [switchLine, List.mem_append, List.mem_replicate, List.mem_singleton] at ht
    rcases ht with (⟨-, rfl⟩ | rfl) | rfl <;> rfl
  have hall : (switches n).toList = wires (switchLine n ++ [.simple .break]) ++ [0] ++ [] := by
    rw [hbytes, List.nil_append, List.append_nil]
  have hbody : (switches n).HoldsAt 0 (wires (switchLine n ++ [.simple .break])) :=
    holdsAt_of_eq_append hbytes rfl
  have hend : (switches n).HoldsAt (0 + (wires (switchLine n ++ [.simple .break])).length) [0] :=
    holdsAt_of_eq_append hall (Nat.zero_add _).symm
  have hplaced : placed 0 (switchLine n ++ [.simple .break, .simple .endOfFile]) =
      placed 0 (switchLine n ++ [.simple .break]) ++
        [(0 + (wires (switchLine n ++ [.simple .break])).length, .simple .endOfFile)] := by
    rw [List.append_cons]
    exact placed_append 0 _ _
  rw [Bytecode.scan, scanFrom_of_holdsAt hstands hbody, scanFrom_endOfFile hend, hplaced]

/-- A stream of tags alone has no labels and no names. -/
theorem findings_of_simple {b : Bytecode} (h : ∀ p ∈ b.scan.tokens, ∃ tag, p.2 = .simple tag)
    (hf : b.scan.fault = none) : b.findings = .all [] := by
  rw [findings, hf]
  generalize b.scan.tokens = ts at h
  induction ts with
  | nil => rfl
  | cons t ts ih =>
    obtain ⟨tag, ht⟩ := h t List.mem_cons_self
    rw [List.foldr_cons, ih fun p hp => h p (List.mem_cons_of_mem t hp), ht]
    rfl

theorem items_of_empty (tokens : List (Nat × Token)) :
    Survey.empty.items tokens = (tokens.map Prod.snd).map .token := by
  have hlabels : ∀ pos, Survey.empty.labelsAt pos = [] := by
    intro pos
    simp [Survey.labelsAt, Survey.empty]
  rw [Survey.items, List.map_map, List.map_eq_flatMap]
  simp only [hlabels, List.map_nil, List.nil_append, Function.comp_apply]

namespace Item

theorem neverNegative_of_weight {is : List Item} (h : ∀ i ∈ is, 0 ≤ i.weight) :
    NeverNegative is := by
  rintro front ⟨rest, rfl⟩
  apply List.sum_nonneg
  intro w hw
  obtain ⟨i, hi, rfl⟩ := List.mem_map.mp hw
  exact h i (List.mem_append_left _ hi)

theorem listed_replicate_switch (options : ListingOptions) (names : NameTable) (n : Nat) :
    listed options names false (List.replicate n (.token (.simple .switch))) =
      List.replicate n (.word ⟨"SWITCH", .opens 2⟩) := by
  induction n with
  | zero => rfl
  | succ n ih =>
    rw [List.replicate_succ, List.replicate_succ, listed]
    exact congrArg (_ :: ·) ih

end Item

namespace Printer

/-- The words of a line that opens `n` switches. -/
theorem foldl_add_switch (indent : String) (p : Printer) (n : Nat) :
    ((List.replicate n (.word ⟨"SWITCH", .opens 2⟩)).foldl (add indent) p).depth = p.depth ∧
    ((List.replicate n (.word ⟨"SWITCH", .opens 2⟩)).foldl (add indent) p).closed = p.closed ∧
    ((List.replicate n (.word ⟨"SWITCH", .opens 2⟩)).foldl (add indent) p).opened =
      p.opened + 2 * n := by
  induction n generalizing p with
  | zero => exact ⟨rfl, rfl, (Int.add_zero _).symm⟩
  | succ n ih =>
    obtain ⟨hdepth, hclosed, hopened⟩ := ih (p.addWord ⟨"SWITCH", .opens 2⟩)
    rw [List.replicate_succ, List.foldl_cons, add, hdepth, hclosed, hopened]
    refine ⟨Int.add_zero _, Int.add_zero _, ?_⟩
    have hadd : (p.addWord ⟨"SWITCH", .opens 2⟩).opened = p.opened + 2 := rfl
    rw [hadd]
    push_cast
    ring

variable {options : ListingOptions} {names : NameTable} {sums : Sums} {n : Nat}

/-- With the last of `2 ^ 30` switches on a line, the counter of what is opened is full. -/
theorem countItems_switch (hs : sums.Exact) (hn : n + 1 = 0x40000000) :
    ∃ p : Printer, countItems sums options names
        (List.replicate (n + 1) (.token (.simple .switch))) =
      (sums 0x80000000).map fun opened => { p with depth := 0, closed := 0, opened } := by
  have hlast : countItems sums options names (List.replicate (n + 1) (.token (.simple .switch))) =
      countItems sums options names (List.replicate n (.token (.simple .switch))) >>=
        fun p => p.countWord sums ⟨"SWITCH", .opens 2⟩ := by
    rw [countItems, Item.listed_replicate_switch, List.replicate_succ', List.foldlM_append,
      ← Item.listed_replicate_switch options names, ← countItems]
    simp only [List.foldlM_cons, List.foldlM_nil, bind_pure, count]
  have hlength : (List.replicate n (Item.token (.simple .switch))).length < 0x40000000 := by
    rw [List.length_replicate]
    omega
  obtain ⟨hdepth, hclosed, hopened⟩ := foldl_add_switch options.indent start n
  rw [← Item.listed_replicate_switch options names, ← ofItems] at hdepth hclosed hopened
  rw [hlast, countItems_eq hs hlength, Option.bind_eq_bind, Option.bind_some]
  generalize ofItems options names _ = p at hdepth hclosed hopened
  refine ⟨p.addWord ⟨"SWITCH", .opens 2⟩, ?_⟩
  have hzero : ∀ x : Int, x = 0 → sums x = some 0 := by
    rintro x rfl
    exact hs 0 (by decide) (by decide)
  have hfull : p.opened + max (Shift.opens 2).balance 0 = 0x80000000 := by
    rw [hopened]
    simp only [start, Shift.opens]
    omega
  simp only [countWord, hfull, hzero (p.depth + (Shift.opens 2).level) (by rw [hdepth]; rfl),
    hzero (p.closed + min (Shift.opens 2).balance 0) (by rw [hclosed]; rfl)]
  cases sums 0x80000000 <;> rfl

/-- At the end of the line the printing stops, or the next line is not indented. -/
theorem countItems_switchLine (hn : n + 1 = 0x40000000) :
    countItems .checked options names ((switchLine (n + 1)).map .token) = none ∧
      ∃ p, countItems .wrapping options names ((switchLine (n + 1)).map .token) = some p ∧
        p.depth = 0 := by
  have hline : ∀ sums, countItems sums options names ((switchLine (n + 1)).map .token) =
      countItems sums options names (List.replicate (n + 1) (.token (.simple .switch))) >>=
        fun p => (p.countLine sums options.indent).map breakLine := by
    intro sums
    obtain ⟨es, hl, -, hc⟩ := exists_ofItems_concat options names
      (List.replicate (n + 1) (.token (.simple .switch))) (.token (.simple .endOfLine))
    rw [switchLine, List.map_append, List.map_replicate, List.map_singleton, hc]
    cases hl with
    | lineEnd => simp only [List.foldlM_cons, List.foldlM_nil, bind_pure, count]
    | nothing h => cases h
    | word h => cases h
  constructor
  · obtain ⟨p, hp⟩ := @countItems_switch options names _ n Sums.exact_checked hn
    have hstop : Sums.checked 0x80000000 = none := by decide
    rw [hline, hp, hstop]
    rfl
  · obtain ⟨p, hp⟩ := @countItems_switch options names _ n Sums.exact_wrapping hn
    have hwrap : Sums.wrapping 0x80000000 = some (-0x80000000) := by decide
    have hkeep : Sums.wrapping (-0x80000000) = some (-0x80000000) := by decide
    rw [hline, hp, hwrap, Option.map_some, Option.bind_eq_bind, Option.bind_some, countLine]
    simp only [Int.zero_add, hkeep, Option.bind_eq_bind, Option.bind_some]
    exact ⟨_, rfl, rfl⟩

end Printer

/-- With `2 ^ 30` switches on one line, as many levels are open after it as there are numbers in a
word, and the next line is not indented. -/
theorem switches_at_margin :
    ∃ (l : Listing) (s : Survey) (front : List Item),
      (disassemble ⟨"\t", false⟩ (switches 0x40000000)).result = .ok l ∧
      (resolve (switches 0x40000000)).result = .ok s ∧
      Item.NeverNegative (s.items (switches 0x40000000).scan.tokens) ∧
      front <+: s.items (switches 0x40000000).scan.tokens ∧ Item.AtLineStart front ∧
      Item.openWeight front = 0x80000000 ∧
      Printer.countItems .checked ⟨"\t", false⟩ s.names front = none ∧
      ∃ p, Printer.countItems .wrapping ⟨"\t", false⟩ s.names front = some p ∧ p.depth = 0 := by
  obtain ⟨n, hn⟩ : ∃ n, n + 1 = 0x40000000 := ⟨_, rfl⟩
  have hscan := scan_switches (n + 1)
  have hsimple : ∀ p ∈ (switches (n + 1)).scan.tokens, ∃ tag, p.2 = .simple tag := by
    intro p hp
    rw [hscan] at hp
    have hm := List.mem_map_of_mem (f := Prod.snd) hp
    rw [map_snd_placed] at hm
    simp only [switchLine, List.mem_append, List.mem_replicate, List.mem_cons, List.not_mem_nil,
      or_false] at hm
    rcases hm with (⟨-, h⟩ | h) | h | h <;> exact ⟨_, h⟩
  have hfindings := findings_of_simple hsimple (by rw [hscan])
  obtain ⟨l, hl⟩ := (exists_disassemble_iff ⟨"\t", false⟩).mpr (congrArg Findings.fault hfindings)
  obtain ⟨s, hs, -⟩ := disassemble_eq_ok_iff.mp hl
  obtain rfl : s = Survey.empty := (ofFindings_of_resolve hs).trans (by rw [hfindings]; rfl)
  have hitems : Survey.empty.items (switches (n + 1)).scan.tokens =
      (switchLine (n + 1)).map .token ++ [.token (.simple .break), .token (.simple .endOfFile)] := by
    rw [items_of_empty, hscan, map_snd_placed, List.map_append]
    rfl
  obtain ⟨hstop, hmargin⟩ := @Printer.countItems_switchLine ⟨"\t", false⟩ Survey.empty.names n hn
  rw [← hn]
  refine ⟨l, _, (switchLine (n + 1)).map .token, hl, hs, ?_, ?_, ?_, ?_, hstop, hmargin⟩
  · rw [hitems]
    apply Item.neverNegative_of_weight
    simp only [switchLine, List.map_append, List.map_replicate, List.mem_append, List.mem_replicate,
      List.map_cons, List.map_nil, List.mem_cons, List.not_mem_nil, or_false]
    rintro i ((⟨-, rfl⟩ | rfl) | rfl | rfl) <;> decide
  · rw [hitems]
    exact List.prefix_append _ _
  · intro i hi
    rw [switchLine, List.map_append, List.map_singleton, List.getLast?_concat] at hi
    obtain rfl := Option.some.inj hi
    rfl
  · have hweight : (Item.token (.simple .switch)).weight = 2 := rfl
    rw [switchLine, List.map_append, List.map_singleton, List.map_replicate, Item.openWeight_concat,
      Item.openWeight, List.map_replicate, List.sum_replicate, hweight, nsmul_eq_mul]
    have hend : (Item.token (.simple .endOfLine)).weight = 0 := rfl
    rw [hend]
    omega

end QbScript
