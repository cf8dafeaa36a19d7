import QbScript.Proofs.Listing.Pieces
import QbScript.Proofs.Listing.Straight
import QbScript.Proofs.Script.Acceptance
import QbScript.Proofs.Script.NameSet

/-!
# Scripts in rows

A script with one construct on each line: assignments, and the lines that open, divide and close
blocks. How deep each line stands is given with it. If the depths are those that the constructs ask
for one after the other, the lines are listed at these depths.
-/

set_option autoImplicit false

namespace QbScript

structure Identifier where
  text : String
  isWord : Literal.isWord text
  notReserved : Tag.ofKeyword? text = none
  deriving DecidableEq

inductive Heading where
  | assign (name : Identifier) (value : Int32)
  | conditional (name : Identifier)
  | elseCondition (name : Identifier)
  | otherwise
  | endConditional
  | loop
  | endLoop (times : Int32)
  | switch (name : Identifier)
  | case (value : Int32)
  | default
  | endSwitch
  | script (name : Identifier)
  | endScript
  deriving DecidableEq

namespace Heading

def text : Heading → String
  | assign name v => name.text ++ " = " ++ Numeral.signed v.toInt
  | conditional name => "IF " ++ name.text
  | elseCondition name => "ELSEIF " ++ name.text
  | otherwise => "ELSE"
  | endConditional => "ENDIF"
  | loop => "BEGIN"
  | endLoop times => "REPEAT " ++ Numeral.signed times.toInt
  | switch name => "SWITCH " ++ name.text
  | case v => "CASE " ++ Numeral.signed v.toInt
  | default => "DEFAULT"
  | endSwitch => "ENDSWITCH"
  | script name => "SCRIPT " ++ name.text
  | endScript => "ENDSCRIPT"

def name? : Heading → Option Identifier
  | assign name _ | conditional name | elseCondition name | switch name | script name => some name
  | _ => none

end Heading

/-- A line, and how deep it stands. -/
structure Row where
  depth : Nat
  heading : Heading

namespace Row

/-- The lines of a script, without indentation. -/
def source (rows : List Row) : String :=
  String.join (rows.map fun r => r.heading.text ++ "\n")

/-- The lines at their depths, with a blank line after the end of a script that is not the last
line. -/
def pretty (indent : String) : List Row → String
  | [] => ""
  | r :: rest =>
    String.join (List.replicate r.depth indent) ++ r.heading.text ++ "\n" ++
      (if r.heading = .endScript ∧ rest ≠ [] then "\n" else "") ++ pretty indent rest

def names (rows : List Row) : List Identifier := rows.filterMap fun r => r.heading.name?

end Row

def Identifier.piece (i : Identifier) : Piece := .name (.word i.text i.isWord i.notReserved)

namespace Heading

def pieces : Heading → List Piece
  | assign name v => [name.piece, .symbol .equals "=" rfl nofun nofun, .integer v]
  | conditional name => [.symbol .if "IF" rfl nofun nofun, name.piece]
  | elseCondition name => [.symbol .elseIf "ELSEIF" rfl nofun nofun, name.piece]
  | otherwise => [.symbol .else "ELSE" rfl nofun nofun]
  | endConditional => [.symbol .endIf "ENDIF" rfl nofun nofun]
  | loop => [.symbol .begin "BEGIN" rfl nofun nofun]
  | endLoop times => [.symbol .repeat "REPEAT" rfl nofun nofun, .integer times]
  | switch name => [.symbol .switch "SWITCH" rfl nofun nofun, name.piece]
  | case v => [.symbol .case "CASE" rfl nofun nofun, .integer v]
  | default => [.symbol .default "DEFAULT" rfl nofun nofun]
  | endSwitch => [.symbol .endSwitch "ENDSWITCH" rfl nofun nofun]
  | script name => [.symbol .script "SCRIPT" rfl nofun nofun, name.piece]
  | endScript => [.symbol .endScript "ENDSCRIPT" rfl nofun nofun]

def tokens (h : Heading) : List Token := h.pieces.flatMap Piece.tokens

def shift : Heading → Shift
  | assign .. => .none
  | conditional _ | loop | script _ => .opens 1
  | elseCondition _ | otherwise | case _ | default => .separates
  | endConditional => .closes 1
  | endLoop _ => ⟨-1, 0, false⟩
  | switch _ => .opens 2
  | endSwitch => .closes 2
  | endScript => { Shift.closes 1 with endsScript := true }

def line (h : Heading) : Line :=
  h.pieces.map fun p => ⟨p.text, match p with | .symbol tag .. => tag.shift | _ => .none⟩

theorem shift_line (h : Heading) : h.line.shift = h.shift := by
  cases h <;> rfl

theorem map_text_line (h : Heading) : h.line.map Word.text = h.pieces.map Piece.text := by
  rw [line, List.map_map]
  rfl

theorem intercalate_pieces (h : Heading) : " ".intercalate (h.pieces.map Piece.text) = h.text := by
  rw [← String.toList_inj]
  cases h <;>
    simp [pieces, Piece.text, Identifier.piece, Literal.NameForm.text, text]

theorem line_ne_nil (h : Heading) : h.line ≠ [] := by
  cases h <;> simp [line, pieces]

/-- If its name is known, a line is listed as its words. -/
theorem listing {names : NameTable} (h : Heading)
    (hn : ∀ name ∈ h.name?, names.get? (Checksum.ofName name.text) = some name.text) :
    h.tokens.flatMap (Token.listing names) = h.line.map .word := by
  have hname : ∀ name ∈ h.name?,
      Token.listing names (.name name.text) = [.plain name.text] := by
    intro name hm
    have hword : Literal.nameText names (Checksum.ofName name.text) = name.text := by
      simp [Literal.nameText, hn name hm, name.isWord, name.notReserved]
    show [Element.plain (Literal.nameText names (Checksum.ofName name.text))] = _
    rw [hword]
  cases h with
  | assign name v =>
    have h := hname name rfl
    show Token.listing names (.name name.text) ++ _ = _
    rw [h]
    rfl
  | conditional name | elseCondition name | switch name | script name =>
    have h := hname name rfl
    show _ :: (Token.listing names (.name name.text) ++ []) = _
    rw [h]
    rfl
  | _ => rfl

def tags : List Tag :=
  [.equals, .if, .elseIf, .else, .endIf, .begin, .repeat, .switch, .case, .default, .endSwitch,
    .script, .endScript]

theorem of_mem_tokens (h : Heading) {t : Token} (ht : t ∈ h.tokens) :
    (∃ name ∈ h.name?, t = .name name.text) ∨ (∃ v, t = .integer v) ∨
      ∃ tag ∈ tags, t = .simple tag := by
  cases h with
  | assign name v =>
    rcases List.mem_cons.mp ht with rfl | ht
    · exact Or.inl ⟨name, rfl, rfl⟩
    · rcases List.mem_pair.mp ht with rfl | rfl
      · exact Or.inr (Or.inr ⟨_, by decide, rfl⟩)
      · exact Or.inr (Or.inl ⟨v, rfl⟩)
  | conditional name | elseCondition name | switch name | script name =>
    rcases List.mem_pair.mp ht with rfl | rfl
    · exact Or.inr (Or.inr ⟨_, by decide, rfl⟩)
    · exact Or.inl ⟨name, rfl, rfl⟩
  | endLoop v | case v =>
    rcases List.mem_pair.mp ht with rfl | rfl
    · exact Or.inr (Or.inr ⟨_, by decide, rfl⟩)
    · exact Or.inr (Or.inl ⟨v, rfl⟩)
  | _ =>
    obtain rfl := List.mem_singleton.mp ht
    exact Or.inr (Or.inr ⟨_, by decide, rfl⟩)

theorem tokens_ne_nil (h : Heading) : h.tokens ≠ [] := by
  cases h <;> simp [tokens, pieces, Piece.tokens, Identifier.piece]

theorem endOfLine_notMem_tokens (h : Heading) : .simple .endOfLine ∉ h.tokens := by
  intro hm
  rcases h.of_mem_tokens hm with ⟨name, -, he⟩ | ⟨v, he⟩ | ⟨tag, htag, he⟩
  · cases he
  · cases he
  · obtain rfl := Token.simple.inj he
    revert htag
    decide

end Heading

namespace Identifier

variable (i : Identifier)

theorem isNameChar_of_mem {c : Char} (hc : c ∈ i.text.toList) : isNameChar c := by
  obtain ⟨d, ds, hs, hd, hds⟩ := Literal.exists_of_isWord i.isWord
  rw [hs] at hc
  rcases List.mem_cons.mp hc with rfl | hc
  · exact isNameChar_of_isNameStart hd
  · exact hds c hc

theorem notMem {c : Char} (hc : isNameChar c = false) : c ∉ i.text.toList := by
  intro hm
  rw [i.isNameChar_of_mem hm] at hc
  cases hc

end Identifier

theorem Heading.newline_notMem_text (h : Heading) : '\n' ∉ h.text.toList := by
  have hliteral : ∀ {s : String}, s ∈ [" = ", "IF ", "ELSEIF ", "REPEAT ", "SWITCH ", "CASE ",
      "SCRIPT "] → '\n' ∉ s.toList := by decide
  have happend : ∀ {s u : String}, '\n' ∉ s.toList → '\n' ∉ u.toList → '\n' ∉ (s ++ u).toList := by
    intro s u hs hu hm
    rw [String.toList_append, List.mem_append] at hm
    exact hm.elim hs hu
  have hsigned : ∀ i, '\n' ∉ (Numeral.signed i).toList := fun i hm =>
    (Numeral.isPlain_of_mem_signed hm).ne_newline rfl
  cases h with
  | assign name v =>
    exact happend (happend (name.notMem (by decide)) (hliteral (by decide))) (hsigned _)
  | conditional name | elseCondition name | switch name | script name =>
    exact happend (hliteral (by decide)) (name.notMem (by decide))
  | endLoop v | case v => exact happend (hliteral (by decide)) (hsigned _)
  | _ => decide

theorem Heading.text_ne_empty (h : Heading) : h.text.toList ≠ [] := by
  cases h <;> simp [text]

/-- Sheets of given lines. -/
theorem ofElements_lines (lines : List Line) :
    Sheet.ofElements (lines.flatMap fun l => l.map .word ++ [.lineEnd]) = ⟨lines, []⟩ := by
  have hline : ∀ (l : Line) (es : List Element) (k : Line) (ks : List Line) (last : Line),
      Sheet.ofElements es = ⟨k :: ks, last⟩ →
        Sheet.ofElements (l.map .word ++ es) = ⟨(l ++ k) :: ks, last⟩ := by
    intro l es k ks last he
    induction l with
    | nil => exact he
    | cons w l ih =>
      rw [List.map_cons, List.cons_append, ofElements_word, ih]
      rfl
  induction lines with
  | nil => rfl
  | cons l lines ih =>
    rw [List.flatMap_cons, List.append_assoc]
    have hend : Sheet.ofElements ([.lineEnd] ++
        lines.flatMap fun l => l.map .word ++ [.lineEnd]) = ⟨[] :: lines, []⟩ := by
      rw [List.singleton_append, Sheet.ofElements, List.foldr_cons, ← Sheet.ofElements, ih]
    rw [hline l _ [] lines [] hend, List.append_nil]

namespace Row

/-- Listed after lines of depth `n`, the rows stand at their depths, and `m` is the depth after
them. -/
inductive Walks : Nat → List Row → Nat → Prop
  | nil (n : Nat) : Walks n [] n
  | cons {n m : Nat} {r : Row} {rest : List Row} (hd : r.heading.line.ownDepth n = r.depth)
      (h : Walks (r.heading.line.nextDepth n) rest m) : Walks n (r :: rest) m

variable {n m k : Nat} {r : Row} {rows rest : List Row} {indent : String}

theorem Walks.append (h : Walks n rows m) (h' : Walks m rest k) : Walks n (rows ++ rest) k := by
  induction h with
  | nil => exact h'
  | cons hd _ ih => exact .cons hd (ih h')

/-- A row with its indentation, and the line end after it unless it is the last one. -/
def listed (indent : String) (r : Row) : List Char :=
  (String.join (List.replicate r.depth indent) ++ r.heading.text).toList ++
    if r.heading = .endScript then ['\n', '\n'] else ['\n']

theorem endsScript_shift (h : Heading) : h.line.shift.endsScript = decide (h = .endScript) := by
  rw [h.shift_line]
  cases h <;> rfl

theorem linesText_eq (h : Walks n rows m) :
    linesText indent n (rows.map fun r => r.heading.line) = rows.flatMap (listed indent) := by
  induction h with
  | nil => rfl
  | @cons n m r rest hd _ ih =>
    have htext : (r.heading.line.text indent n) =
        String.join (List.replicate r.depth indent) ++ r.heading.text := by
      have hempty : r.heading.line.isEmpty = false := by
        rw [List.isEmpty_eq_false_iff]
        exact r.heading.line_ne_nil
      rw [Line.text, hempty, if_neg (by decide), hd, r.heading.map_text_line,
        r.heading.intercalate_pieces]
    have hending : r.heading.line.ending.toList =
        if r.heading = .endScript then ['\n', '\n'] else ['\n'] := by
      rw [Line.ending, endsScript_shift]
      by_cases he : r.heading = .endScript <;> simp [he]
    rw [List.map_cons, linesText_cons, ih, htext, hending, List.flatMap_cons, listed,
      List.append_assoc]

theorem toList_pretty_concat (rows : List Row) (r : Row) :
    (pretty indent (rows ++ [r])).toList = rows.flatMap (listed indent) ++
      ((String.join (List.replicate r.depth indent) ++ r.heading.text).toList ++ ['\n']) := by
  induction rows with
  | nil => simp [pretty]
  | cons q rows ih =>
    rw [List.cons_append, pretty, String.toList_append, ih, List.flatMap_cons, listed]
    have hne : rows ++ [r] ≠ [] := by simp
    by_cases he : q.heading = .endScript <;> simp [he]

theorem withoutFinalBlank_concat (v : List Char) :
    Sheet.withoutFinalBlank (String.ofList (v ++ ['\n', '\n'])) =
      String.ofList (v ++ ['\n']) := by
  simp [Sheet.withoutFinalBlank]

/-- A sheet of rows is listed as they are. -/
theorem text_eq_pretty (h : Walks 0 rows m) :
    Sheet.text indent ⟨rows.map fun r => r.heading.line, []⟩ = pretty indent rows := by
  obtain ⟨depth, ht⟩ := @toList_text_ofElements indent ⟨rows.map fun r => r.heading.line, []⟩
  have hlast : (Line.text indent [] depth).toList = [] := rfl
  rw [ht, linesText_eq h, hlast, List.append_nil]
  obtain rfl | ⟨rows, r, rfl⟩ := List.eq_nil_or_concat' rows
  · rfl
  · rw [← String.toList_inj, toList_pretty_concat, List.flatMap_append, List.flatMap_singleton,
      listed]
    by_cases he : r.heading = .endScript
    · rw [if_pos he, ← List.append_assoc, withoutFinalBlank_concat, String.toList_ofList,
        List.append_assoc]
    · rw [if_neg he]
      rcases withoutFinalBlank_cases (String.ofList (rows.flatMap (listed indent) ++
        ((String.join (List.replicate r.depth indent) ++ r.heading.text).toList ++ ['\n']))) with
        hw | ⟨v, hv, -⟩
      · rw [hw, String.toList_ofList]
      · -- A heading does not end in a newline.
        obtain ⟨u, c, hc⟩ := (List.eq_nil_or_concat' _).resolve_left r.heading.text_ne_empty
        rw [String.toList_ofList, String.toList_append, hc, ← List.append_assoc,
          ← List.append_assoc, ← List.append_assoc, List.append_cons v] at hv
        have hend : [c] = ['\n'] := List.append_inj_right' (List.append_inj_left' hv rfl) rfl
        have hmem : c ∈ r.heading.text.toList := hc ▸ List.mem_append_right u List.mem_cons_self
        rw [(List.cons.inj hend).1] at hmem
        exact absurd hmem r.heading.newline_notMem_text

def phrases (rows : List Row) : List Token :=
  rows.flatMap fun r => r.heading.tokens ++ [.simple .endOfLine]

theorem spells_source (rows : List Row) : Spells false (source rows).toList (phrases rows) := by
  have h := spells_pieceLines (rows.map fun r => ⟨[], r.heading.pieces, isGap_nil⟩)
  have htext : (rows.map fun r => (⟨[], r.heading.pieces, isGap_nil⟩ : PieceLine)).flatMap
      PieceLine.text = (source rows).toList := by
    rw [source, String.toList_join, List.flatMap_map, List.flatMap_map]
    congr 1
    funext r
    simp [PieceLine.text, r.heading.intercalate_pieces]
  rw [htext, List.flatMap_map] at h
  exact h

theorem of_mem_phrases {t : Token} (ht : t ∈ phrases rows) :
    (∃ name ∈ names rows, t = .name name.text) ∨ (∃ v, t = .integer v) ∨
      ∃ tag ∈ Tag.endOfLine :: Heading.tags, t = .simple tag := by
  obtain ⟨r, hr, ht⟩ := List.mem_flatMap.mp ht
  rcases List.mem_append.mp ht with ht | ht
  · rcases r.heading.of_mem_tokens ht with ⟨name, hn, rfl⟩ | ⟨v, rfl⟩ | ⟨tag, htag, rfl⟩
    · exact Or.inl ⟨name, List.mem_filterMap.mpr ⟨r, hr, hn⟩, rfl⟩
    · exact Or.inr (Or.inl ⟨v, rfl⟩)
    · exact Or.inr (Or.inr ⟨tag, List.mem_cons_of_mem _ htag, rfl⟩)
  · exact Or.inr (Or.inr ⟨.endOfLine, List.mem_cons_self, List.mem_singleton.mp ht⟩)

theorem isStraight_of_mem {t : Token} (ht : t ∈ phrases rows) : t.IsStraight := by
  rcases of_mem_phrases ht with ⟨name, -, rfl⟩ | ⟨v, rfl⟩ | ⟨tag, htag, rfl⟩
  · exact ⟨rfl, by simp [Token.wire, Token.payload]⟩
  · exact ⟨rfl, by simp [Token.wire, Token.payload]⟩
  · have hrole : ∀ tag ∈ Tag.endOfLine :: Heading.tags,
        (Construct.random.role? (.simple tag)).isNone := by decide
    exact ⟨Option.isNone_iff_eq_none.mp (hrole tag htag), by simp [Token.wire, Token.payload]⟩

theorem composes_phrases (rows : List Row) : Phrase.Composes (phrases rows) (phrases rows) := by
  have hself : ∀ ts : List Token, (∀ t ∈ ts, ¬ Phrase.StartsList t) → Phrase.Composes ts ts := by
    intro ts h
    induction ts with
    | nil => exact .nil
    | cons t ts ih =>
      apply Phrase.Composes.other (h t List.mem_cons_self)
      exact ih fun u hu => h u (List.mem_cons_of_mem t hu)
  apply hself
  intro t ht
  rcases of_mem_phrases ht with ⟨name, -, rfl⟩ | ⟨v, rfl⟩ | ⟨tag, htag, rfl⟩
  · exact id
  · exact id
  · have hplain : ∀ tag ∈ Tag.endOfLine :: Heading.tags,
        ¬ (tag = .pair ∨ tag = .vector ∨ tag.isRandomHeader) := by decide
    exact hplain tag htag

/-- No line is empty. -/
theorem isChain_phrases (rows : List Row) :
    (phrases rows).IsChain fun t u => t = .simple .endOfLine → u ≠ t := by
  induction rows with
  | nil => exact .nil
  | cons r rows ih =>
    have hne : ∀ t ∈ r.heading.tokens, t ≠ Token.simple .endOfLine := by
      rintro t ht rfl
      exact r.heading.endOfLine_notMem_tokens ht
    have hline : (r.heading.tokens ++ [Token.simple .endOfLine]).IsChain
        fun t u => t = .simple .endOfLine → u ≠ t := by
      rw [List.isChain_append]
      refine ⟨?_, .singleton _, fun t ht u _ he => absurd he (hne t (List.mem_of_getLast? ht))⟩
      apply List.Pairwise.isChain
      exact List.pairwise_of_forall_mem_list fun t ht u _ he => absurd he (hne t ht)
    have hhead : ∀ u ∈ (phrases rows).head?, u ≠ .simple .endOfLine := by
      intro u hu
      cases rows with
      | nil => cases hu
      | cons q rows =>
        rintro rfl
        apply q.heading.endOfLine_notMem_tokens
        obtain ⟨t, ts, ht⟩ := List.exists_cons_of_ne_nil q.heading.tokens_ne_nil
        rw [phrases, List.flatMap_cons, ht] at hu
        rw [ht]
        obtain rfl := Option.some.inj hu
        exact List.mem_cons_self
    rw [phrases, List.flatMap_cons, ← phrases, List.isChain_append]
    refine ⟨hline, ih, fun t ht u hu he => ?_⟩
    rw [he]
    exact hhead u hu

theorem phrases_cons (r : Row) (rows : List Row) :
    phrases (r :: rows) = r.heading.tokens ++ [.simple .endOfLine] ++ phrases rows := rfl

theorem phrases_append (rows rest : List Row) :
    phrases (rows ++ rest) = phrases rows ++ phrases rest :=
  List.flatMap_append

theorem spellings_phrases (rows : List Row) :
    spellings (phrases rows) = (names rows).map Identifier.text := by
  induction rows with
  | nil => rfl
  | cons r rows ih =>
    have hrow : spellings (r.heading.tokens ++ [.simple .endOfLine]) =
        r.heading.name?.toList.map Identifier.text := by
      cases r.heading <;> rfl
    rw [phrases_cons, spellings_append, hrow, ih, names, names, List.filterMap_cons]
    cases r.heading.name? <;> rfl

def NamesApart (rows : List Row) : Prop :=
  ∀ x ∈ names rows, ∀ y ∈ names rows, x = y ∨ Checksum.ofName x.text ≠ Checksum.ofName y.text

instance (rows : List Row) : Decidable (NamesApart rows) :=
  inferInstanceAs (Decidable (∀ x ∈ names rows, ∀ y ∈ names rows, _ ∨ _))

namespace NamesApart

theorem text_eq (h : NamesApart rows) {x y : Identifier} (hx : x ∈ names rows)
    (hy : y ∈ names rows) (hc : Checksum.ofName x.text = Checksum.ofName y.text) :
    x.text = y.text :=
  congrArg Identifier.text ((h x hx y hy).resolve_right fun hne => hne hc)

theorem noCollisions (h : NamesApart rows) : NoCollisions (spellings (phrases rows)) := by
  rw [spellings_phrases]
  intro s hs u hu hc
  obtain ⟨x, hx, rfl⟩ := List.mem_map.mp hs
  obtain ⟨y, hy, rfl⟩ := List.mem_map.mp hu
  rw [h.text_eq hx hy hc]

/-- The first spelling of a name is the only one. -/
theorem firstSpelling_eq (h : NamesApart rows) {x : Identifier} (hx : x ∈ names rows) :
    firstSpelling (spellings (phrases rows)) (Checksum.ofName x.text) = some x.text := by
  rw [spellings_phrases]
  obtain ⟨text, hf⟩ := exists_firstSpelling_iff.mpr
    ⟨x.text, List.mem_map_of_mem (f := Identifier.text) hx, rfl⟩
  obtain ⟨y, hy, rfl⟩ := List.mem_map.mp (List.mem_of_find?_eq_some hf)
  have hc : Checksum.ofName y.text = Checksum.ofName x.text := by simpa using List.find?_some hf
  rw [hf, h.text_eq hy hx hc]

end NamesApart

/-- With all names known, rows are listed as their lines. -/
theorem listing_phrases {known : NameTable}
    (h : ∀ x ∈ names rows, known.get? (Checksum.ofName x.text) = some x.text) :
    (phrases rows).flatMap (Token.listing known) =
      (rows.map fun r => r.heading.line).flatMap fun l => l.map .word ++ [.lineEnd] := by
  induction rows with
  | nil => rfl
  | cons r rows ih =>
    have hrow := r.heading.listing fun x hx => h x (by simp [names, Option.mem_def.mp hx])
    have hrest := ih fun x hx => h x (List.mem_filterMap.mpr <| by
      obtain ⟨q, hq, hx⟩ := List.mem_filterMap.mp hx
      exact ⟨q, List.mem_cons_of_mem r hq, hx⟩)
    rw [phrases_cons, List.flatMap_append, List.flatMap_append, hrow, hrest]
    rfl

theorem zero_notMem_of_mem_names {t : Token} (ht : t ∈ phrases rows) :
    ∀ text ∈ t.spelling?, '\x00' ∉ text.toList := by
  rcases of_mem_phrases ht with ⟨name, -, rfl⟩ | ⟨v, rfl⟩ | ⟨tag, -, rfl⟩
  · rintro text ⟨⟩
    exact name.notMem (by decide)
  · rintro text ⟨⟩
  · rintro text ⟨⟩

end Row

end QbScript
