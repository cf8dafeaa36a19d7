import QbScript.Proofs.Listing.Sheet

/-!
# Pieces of a listing

Whatever stands next to it, each piece that a listing can be made of is read as its tokens.
-/

set_option autoImplicit false

namespace QbScript

inductive Piece where
  /-- A sign or a reserved word. The conditionals of the fast target are written like others. -/
  | symbol (tag : Tag) (text : String) (h : tag.text? = some text) (hi : tag ≠ .fastIf)
    (he : tag ≠ .fastElse)
  | name (form : Literal.NameForm)
  | arg (form : Literal.NameForm)
  | integer (value : Int32)
  | hexInteger (value : UInt32)
  | random (tag : Tag) (weights : List UInt16) (h : tag.isRandomHeader)
  | string (bytes : List UInt8)
  | localString (bytes : List UInt8)

namespace Piece

def text : Piece → String
  | symbol _ text .. => text
  | name form => form.text
  | arg form => "<" ++ form.text ++ ">"
  | integer v => Numeral.signed v.toInt
  | hexInteger v => "0x" ++ Numeral.hex v.toNat
  | random tag ws _ =>
    (tag.keyword?.getD "RANDOM") ++ Literal.listText (ws.map fun w => Numeral.decimal w.toNat)
  | string bytes => Literal.stringText bytes
  | localString bytes => "#" ++ Literal.stringText bytes

def tokens : Piece → List Token
  | symbol tag .. => [.simple tag]
  | name form => [form.ref.asName]
  | arg form => [form.ref.asArg]
  | integer v => [.integer v]
  | hexInteger v => [.hexInteger v]
  | random tag ws _ => .simple tag :: .simple .openParenth :: listTokens (weightTokens ws)
  | string bytes => [.string bytes]
  | localString bytes => [.localString bytes]

theorem readsAs (p : Piece) : ReadsAs p.text.toList p.tokens := by
  cases p with
  | symbol tag text h hi he => exact readsAs_of_frontReads fun _ hr => frontReads_tag h hi he hr
  | name form => exact readsAs_of_frontReads fun _ hr => form.frontReads_text hr.isBoundary
  | arg form => exact readsAs_of_frontReads fun _ _ => form.frontReads_arg
  | integer v => exact readsAs_of_frontReads fun _ hr => Numeral.frontReads_signed v hr.isBoundary
  | hexInteger v => exact readsAs_of_frontReads fun _ hr => Numeral.frontReads_hex v hr.isBoundary
  | random tag ws h =>
    obtain ⟨word, hw, hop⟩ := exists_keyword?_of_isRandomHeader h
    rw [text, hw, Option.getD_some]
    exact readsAs_list hw (readsNumber_weights ws) hop
  | string bytes => exact readsAs_of_frontReads fun _ _ => Literal.frontReads_string bytes
  | localString bytes => exact readsAs_of_frontReads fun _ _ => Literal.frontReads_localString bytes

end Piece

/-- A line of pieces with a blank between any two, after blanks and tabs. -/
structure PieceLine where
  indent : List Char
  pieces : List Piece
  isGap_indent : IsGap indent

namespace PieceLine

def text (l : PieceLine) : List Char :=
  l.indent ++ ((" ".intercalate (l.pieces.map Piece.text)).toList ++ ['\n'])

def tokens (l : PieceLine) : List Token := l.pieces.flatMap Piece.tokens ++ [.simple .endOfLine]

theorem spells (l : PieceLine) {rest : List Char} {ts : List Token} (h : Spells false rest ts) :
    Spells false (l.text ++ rest) (l.tokens ++ ts) := by
  obtain ⟨indent, ps, hg⟩ := l
  have hend : ∀ op, Spells op ('\n' :: rest) (.simple .endOfLine :: ts) := fun _ =>
    spells_newline h
  by_cases hne : ps = []
  · -- The blanks of an empty line belong to the line end.
    subst hne
    have hline : Spells false (indent ++ (['\n'] ++ rest)) (.simple .endOfLine :: ts) := by
      refine .step hg (frontReads_sign rfl (Or.inr (by decide))) h
    simpa [text, tokens] using hline
  · have hwords : List.Forall₂ (fun w us => ReadsAs w.toList us) (ps.map Piece.text)
        (ps.map Piece.tokens) := by
      rw [List.forall₂_map_left_iff, List.forall₂_map_right_iff, List.forall₂_same]
      exact fun p _ => p.readsAs
    have hrow := spells_row hg (by simpa using hne) hwords (endsWord_newline rest) hend
    simpa [text, tokens, List.flatMap_def] using hrow

end PieceLine

theorem spells_pieceLines (lines : List PieceLine) :
    Spells false (lines.flatMap PieceLine.text) (lines.flatMap PieceLine.tokens) := by
  induction lines with
  | nil => exact .done
  | cons l lines ih => exact l.spells ih

/-- Lines of pieces are read as the tokens of the pieces, with a line end after each line. -/
theorem ofText_pieceLines (lines : List PieceLine) :
    (Lexeme.ofText (lines.flatMap PieceLine.text)).map (List.map Lexeme.token) =
      .ok (lines.flatMap PieceLine.tokens) := by
  obtain ⟨ls, hl, ht⟩ := (spells_pieceLines lines).exists_ofText
  exact map_eq_ok_iff.mpr ⟨ls, hl, ht⟩

end QbScript
