import QbScript.Source.Blank
import QbScript.Source.Literal
import QbScript.Source.Name
import QbScript.Source.Span

/-!
# Lexemes

A source is read from left to right as tokens with their spans. A sign directly before a digit
belongs to the number, unless it follows an operand without a blank. Every step takes at least one
character, also one that fails, so that a reading can go on after an error.
-/

set_option autoImplicit false

namespace QbScript

structure Lexeme where
  token : Token
  span : Span
  deriving DecidableEq

structure LexError where
  span : Span
  cause : Misreading
  deriving DecidableEq

structure Cursor where
  rest : List Char
  offset : Nat
  /-- The token before this place ends an operand. -/
  afterOperand : Bool

namespace Cursor

def start (text : List Char) : Cursor := ⟨text, 0, false⟩

def skip (c : Cursor) (n : Nat) : Cursor :=
  { c with rest := c.rest.drop n, offset := c.offset + Utf8.size (c.rest.take n) }

def sign? : Char → Option Tag
  | '\x7b' => some .startStruct
  | '\x7d' => some .endStruct
  | '[' => some .startArray
  | ']' => some .endArray
  | '(' => some .openParenth
  | ')' => some .closeParenth
  | '.' => some .dot
  | ',' => some .comma
  | ':' => some .colon
  | '-' => some .minus
  | '+' => some .add
  | '*' => some .multiply
  | '/' => some .divide
  | '|' => some .or
  | '&' => some .and
  | '^' => some .xor
  | '!' => some .not
  | '\n' => some .endOfLine
  | _ => none

/-- The token that starts with `c` and goes on in `rest`. The length of the reading counts the
characters of `rest`; `signed` says that a sign may belong to a number. -/
def read (signed : Bool) (c : Char) (rest : List Char) : Reading Token :=
  if isNameStart c then Name.word c rest
  else if c.isDigit then
    let r := Literal.number false (c :: rest)
    ⟨r.result, r.length - 1⟩
  else if (c = '-' ∨ c = '+') ∧ signed ∧ rest.head?.any Char.isDigit then
    Literal.number (c = '-') rest
  else
    match c, rest with
    | '"', _ => (Literal.string '"' rest).map .string
    | '\x27', _ => (Literal.string '\x27' rest).map .localString
    | '#', '"' :: body => ((Literal.string '"' body).map .localString).after 1
    | '%', _ => (Name.percent rest).map Name.Ref.asName
    | '<', _ => Name.angle rest
    | '>', '>' :: _ => .ok (.simple .shiftRight) 1
    | '>', '=' :: _ => .ok (.simple .greaterThanEqual) 1
    | '>', _ => .ok (.simple .greaterThan) 0
    | '=', '=' :: _ => .ok (.simple .sameAs) 1
    | '=', _ => .ok (.simple .equals) 0
    | _, _ =>
      match sign? c with
      | some tag => .ok (.simple tag) 0
      | none => .fail (.unexpectedChar c) 0

def advance (c : Cursor) (r : Reading Token) : Except LexError Lexeme × Cursor :=
  let last := c.skip (1 + r.length)
  match r.result with
  | .ok token =>
    (.ok ⟨token, ⟨c.offset, last.offset⟩⟩, { last with afterOperand := token.isOperand })
  | .error cause => (.error ⟨⟨c.offset, last.offset⟩, cause⟩, last)

/-- The next token or error and the place after it; none at the end of the source. -/
def next? (c : Cursor) : Option (Except LexError Lexeme × Cursor) :=
  let blanks := Blank.run c.rest
  let first := c.skip blanks.length
  match first.rest with
  | [] => none
  | ch :: rest =>
    some (first.advance (
      if blanks.unclosed then .fail .unclosedComment rest.length
      else read (blanks.length ≠ 0 ∨ ¬ c.afterOperand) ch rest))

@[simp] theorem rest_skip (c : Cursor) (n : Nat) : (c.skip n).rest = c.rest.drop n := rfl

theorem rest_advance (c : Cursor) (r : Reading Token) :
    (c.advance r).2.rest = c.rest.drop (1 + r.length) := by
  unfold advance
  cases r.result <;> rfl

theorem length_rest_next? {c d : Cursor} {r : Except LexError Lexeme}
    (h : c.next? = some (r, d)) : d.rest.length < c.rest.length := by
  simp only [next?] at h
  split at h
  · simp at h
  · rename_i ch rest hr
    have hd := congrArg (fun p => p.2.rest) (Option.some.inj h)
    simp only [rest_advance] at hd
    rw [rest_skip] at hr
    have hl := congrArg List.length hr
    simp only [List.length_drop, List.length_cons] at hl
    simp only [← hd, rest_skip, List.length_drop]
    omega

def stepsFrom (done : List (Except LexError Lexeme)) (c : Cursor) :
    List (Except LexError Lexeme) :=
  match h : c.next? with
  | none => done.reverse
  | some (r, d) =>
    have := length_rest_next? h
    stepsFrom (r :: done) d
  termination_by c.rest.length

def steps (c : Cursor) : List (Except LexError Lexeme) := stepsFrom [] c

end Cursor

namespace Lexeme

def steps (text : List Char) : List (Except LexError Lexeme) := (Cursor.start text).steps

/-- The tokens of a source, or its first error. -/
def ofText (text : List Char) : Except LexError (List Lexeme) := (steps text).mapM id

end Lexeme

end QbScript
