import QbScript.Proofs.Source.Front
import QbScript.Proofs.Text.Bytes

/-!
# Scanning bytes

A source is read as characters, and what a reading takes is counted in them. The scanner here goes
over the bytes of the source by an offset, byte by byte, and cuts texts out of it without asking
whether this is between characters. Its spans have 32 bits.
-/

set_option autoImplicit false

namespace QbScript

namespace Scanner

open Utf8

inductive Stop where
  /-- A text is cut out that is not there or ends within a character. -/
  | text
  /-- Bytes are taken that are not there. -/
  | outside
  deriving DecidableEq

variable (bs : List UInt8)

def text (start stop : Nat) : Except Stop String :=
  match slice? bs start stop with
  | some s => .ok s
  | none => .error .text

def tail (off : Nat) : Except Stop (List UInt8) :=
  if off ≤ bs.length then .ok (bs.drop off) else .error .outside

/-- The byte at an offset, as the character that it may be. -/
def peek? (off : Nat) : Option Char := bs[off]?.map byteChar

def pass (p : Char → Bool) (off : Nat) : Nat :=
  off + ((bs.drop off).takeWhile fun b => p (byteChar b)).length

def digits (start stop : Nat) : List Char := (bs.extract start stop).map byteChar

def closing? : List UInt8 → Option Nat
  | b :: c :: rest =>
    if byteChar b = '*' ∧ byteChar c = '/' then some 0 else (closing? (c :: rest)).map (· + 1)
  | _ => none

theorem le_pass (p : Char → Bool) (off : Nat) : off ≤ pass bs p off := Nat.le_add_right _ _

theorem lt_length_of_peek? {off : Nat} {c : Char} (h : peek? bs off = some c) :
    off < bs.length := by
  obtain ⟨b, hb, -⟩ := Option.map_eq_some_iff.mp h
  exact (List.getElem?_eq_some_iff.mp hb).1

theorem lt_pass {p : Char → Bool} {off : Nat} {c : Char} (h : peek? bs off = some c) (hp : p c) :
    off < pass bs p off := by
  obtain ⟨b, hb, rfl⟩ := Option.map_eq_some_iff.mp h
  obtain ⟨hlt, rfl⟩ := List.getElem?_eq_some_iff.mp hb
  rw [pass, List.drop_eq_getElem_cons hlt, List.takeWhile_cons, if_pos hp, List.length_cons]
  omega

inductive Piece where
  /-- A comment or a line end that is taken away, up to an offset. -/
  | upTo (stop : Nat)
  /-- A comment that is not closed. -/
  | unclosed
  | other
  deriving DecidableEq

def piece (off : Nat) : Except Stop Piece :=
  if peek? bs off = some '/' ∧ peek? bs (off + 1) = some '/' then
    .ok (.upTo (pass bs (· ≠ '\n') off))
  else if peek? bs off = some '/' ∧ peek? bs (off + 1) = some '*' then
    match tail bs (off + 2) with
    | .error e => .error e
    | .ok body =>
      match closing? body with
      | some i => .ok (.upTo (off + 2 + i + 2))
      | none => .ok .unclosed
  else if peek? bs off = some '\\' ∧ peek? bs (off + 1) = some '\n' then .ok (.upTo (off + 2))
  else if peek? bs off = some '\\' ∧ peek? bs (off + 1) = some '\r' ∧
      peek? bs (off + 2) = some '\n' then
    .ok (.upTo (off + 3))
  else .ok .other

theorem lt_of_piece {off stop : Nat} (h : piece bs off = .ok (.upTo stop)) :
    off < stop ∧ off < bs.length := by
  unfold piece at h
  split at h
  · rename_i hp
    obtain rfl := Piece.upTo.inj (Except.ok.inj h)
    exact ⟨lt_pass bs hp.1 (p := (· ≠ '\n')) (by decide), lt_length_of_peek? bs hp.1⟩
  split at h
  · rename_i hp
    split at h
    · cases h
    split at h
    · obtain rfl := Piece.upTo.inj (Except.ok.inj h)
      exact ⟨by omega, lt_length_of_peek? bs hp.1⟩
    · cases h
  split at h
  · rename_i hp
    obtain rfl := Piece.upTo.inj (Except.ok.inj h)
    exact ⟨by omega, lt_length_of_peek? bs hp.1⟩
  split at h
  · rename_i hp
    obtain rfl := Piece.upTo.inj (Except.ok.inj h)
    exact ⟨by omega, lt_length_of_peek? bs hp.1⟩
  · cases h

/-- The offset after blanks, comments and line ends that are taken away. A comment that is not
closed is passed to the end of the source, and the offset at which it starts comes with it. -/
def skip (off : Nat) : Except Stop (Nat × Option Nat) :=
  match _h : piece bs (pass bs Blank.isBlank off) with
  | .error e => .error e
  | .ok (.upTo stop) => skip stop
  | .ok .unclosed => .ok (bs.length, some (pass bs Blank.isBlank off))
  | .ok .other => .ok (pass bs Blank.isBlank off, none)
  termination_by bs.length - off
  decreasing_by
    have hle := le_pass bs Blank.isBlank off
    have hlt := lt_of_piece bs _h
    omega

abbrev Scan (α : Type) := Except Misreading α × Nat

def closeNumber (t : Token) (off : Nat) : Scan Token :=
  if (peek? bs off).any isNameChar then (.error .badNumber, off) else (.ok t, off)

def hexNumber (negative : Bool) (off : Nat) : Scan Token :=
  let stop := pass bs isHexDigit off
  let value := wordOfDigits 16 (digits bs off stop)
  if stop = off then (.error .badNumber, stop)
  else closeNumber bs (.hexInteger (if negative then -value else value)) stop

def decimalNumber (negative : Bool) (off : Nat) : Scan Token :=
  let stop := pass bs Char.isDigit off
  let whole := digits bs off stop
  if peek? bs stop = some '.' ∧ (peek? bs (stop + 1)).any Char.isDigit then
    let last := pass bs Char.isDigit (stop + 1)
    closeNumber bs (.float (Literal.float negative whole (digits bs (stop + 1) last))) last
  else
    let value := (wordOfDigits 10 whole).toInt32
    closeNumber bs (.integer (if negative then -value else value)) stop

def number (negative : Bool) (off : Nat) : Scan Token :=
  if peek? bs off = some '0' ∧ (peek? bs (off + 1) = some 'x' ∨ peek? bs (off + 1) = some 'X') then
    hexNumber bs negative (off + 2)
  else decimalNumber bs negative off

/-- What a byte stands for after a backslash, and how many bytes of `rest` belong to it. A byte that
is no character of its own stands for itself. -/
def escape (e : UInt8) (rest : List UInt8) : List UInt8 × Nat :=
  if e.toNat < 0x80 then Literal.escape (byteChar e) (rest.map byteChar) else ([e], 0)

/-- The bytes of a string after those of `done` in reverse, from the bytes of its text on. -/
def stringFrom (mark : Char) (done : List UInt8) (off : Nat) (rest : List UInt8) :
    Scan (List UInt8) :=
  match rest with
  | [] => (.error .unclosedString, off)
  | b :: rest =>
    if byteChar b = '\n' then (.error .unclosedString, off + 1)
    else if byteChar b = mark then (.ok done.reverse, off + 1)
    else if byteChar b = '\\' then
      match rest with
      | [] => (.error .unclosedString, off + 1)
      | e :: rest =>
        let r := escape e rest
        stringFrom mark (r.1.reverse ++ done) (off + 2 + r.2) (rest.drop r.2)
    else stringFrom mark (b :: done) (off + 1) rest
  termination_by rest.length
  decreasing_by
    · simp only [List.length_cons, List.length_drop]
      omega
    · simp

def string (mark : Char) (off : Nat) : Scan (List UInt8) := stringFrom mark [] off (bs.drop off)

def change {α β : Type} (f : α → β) (s : Scan α) : Scan β := (s.1.map f, s.2)

def word (start : Nat) : Except Stop (Scan Token) := do
  let stop := pass bs isNameChar (start + 1)
  let s ← text bs start stop
  return (.ok (match Tag.ofKeyword? s with | some tag => .simple tag | none => .name s), stop)

def quoted (off : Nat) : Except Stop (Scan Name.Ref) := do
  let stop := pass bs (fun c => c ≠ '"' ∧ c ≠ '\n') off
  match peek? bs stop with
  | some '"' => return (.ok (.text (← text bs off stop)), stop + 1)
  | some _ => return (.error .unclosedString, stop + 1)
  | none => return (.error .unclosedString, stop)

def checksum (off : Nat) : Scan Name.Ref :=
  let stop := pass bs isHexDigit off
  if 8 < stop - off then (.error .badName, off + 8)
  else if off < stop ∧ peek? bs stop = some ')' then
    (.ok (.checksum (UInt32.ofNat (numberOfDigits 16 (digits bs off stop)))), stop + 1)
  else (.error .badName, stop)

def percent (off : Nat) : Except Stop (Scan Name.Ref) :=
  if peek? bs off = some '"' then quoted bs (off + 1)
  else if peek? bs off = some '(' then
    if peek? bs (off + 1) = some '0' then
      if peek? bs (off + 2) = some 'x' ∨ peek? bs (off + 2) = some 'X' then
        .ok (checksum bs (off + 3))
      else .ok (.error .badName, off + 2)
    else .ok (.error .badName, off + 1)
  else .ok (.error .badName, off)

/-- Closes an argument of which all but the bracket is scanned. -/
def closeArg : Scan Name.Ref → Scan Token
  | (.ok ref, off) =>
    if peek? bs off = some '>' then (.ok ref.asArg, off + 1) else (.error .badArgument, off)
  | (.error m, off) => (.error m, off)

/-- An argument that is a plain name, or an angle bracket that opens none. -/
def plainArg (off : Nat) : Except Stop (Scan Token) := do
  let stop := pass bs isNameChar off
  if (peek? bs off).any isNameStart ∧ peek? bs stop = some '>' then
    return (.ok (.arg (← text bs off stop)), stop + 1)
  else return (.ok (.simple .lessThan), off)

def angle (off : Nat) : Except Stop (Scan Token) := do
  let front := (← tail bs off).map byteChar
  if front.take 4 = ['.', '.', '.', '>'] then return (.ok (.simple .allArgs), off + 4)
  else if peek? bs off = some '<' then return (.ok (.simple .shiftLeft), off + 1)
  else if peek? bs off = some '=' then return (.ok (.simple .lessThanEqual), off + 1)
  else if peek? bs off = some '%' then return closeArg bs (← percent bs (off + 1))
  else plainArg bs off

def unexpected (start : Nat) : Except Stop (Scan Token) := do
  let c := (← text bs start bs.length).toList.headD '\uFFFD'
  return (.error (.unexpectedChar c), start + c.utf8Size)

/-- The token that starts at `start` with the byte `c`, which begins no word and no number. -/
def mark (start : Nat) (c : Char) : Except Stop (Scan Token) :=
  let off := start + 1
  match c with
  | '"' => .ok (change .string (string bs '"' off))
  | '\x27' => .ok (change .localString (string bs '\x27' off))
  | '#' =>
    if peek? bs off = some '"' then .ok (change .localString (string bs '"' (off + 1)))
    else unexpected bs start
  | '%' => (percent bs off).map (change Name.Ref.asName)
  | '<' => angle bs off
  | '>' =>
    if peek? bs off = some '>' then .ok (.ok (.simple .shiftRight), off + 1)
    else if peek? bs off = some '=' then .ok (.ok (.simple .greaterThanEqual), off + 1)
    else .ok (.ok (.simple .greaterThan), off)
  | '=' =>
    if peek? bs off = some '=' then .ok (.ok (.simple .sameAs), off + 1)
    else .ok (.ok (.simple .equals), off)
  | c =>
    match Cursor.sign? c with
    | some tag => .ok (.ok (.simple tag), off)
    | none => unexpected bs start

/-- The token that starts with the byte `c` at `start`; `signed` says that a sign may belong to a
number. -/
def read (signed : Bool) (start : Nat) (c : Char) : Except Stop (Scan Token) :=
  if isNameStart c then word bs start
  else if c.isDigit then .ok (number bs false start)
  else if (c = '-' ∨ c = '+') ∧ signed ∧ (peek? bs (start + 1)).any Char.isDigit then
    .ok (number bs (c = '-') (start + 1))
  else mark bs start c

structure State where
  offset : Nat
  afterOperand : Bool
  deriving DecidableEq

/-- A span of 32 bits. -/
def span (start stop : Nat) : Span := ⟨start % 0x100000000, stop % 0x100000000⟩

/-- The next token or error, or none at the end of the source, and what is remembered after it. -/
def call (s : State) : Except Stop (Option (Except LexError Lexeme) × State) := do
  match ← skip bs s.offset with
  | (off, some start) =>
    return (some (.error ⟨span start off, .unclosedComment⟩), { s with offset := off })
  | (start, none) =>
    match peek? bs start with
    | none => return (none, { s with offset := start })
    | some c =>
      match ← read bs (s.offset < start ∨ ¬ s.afterOperand) start c with
      | (.ok t, off) => return (some (.ok ⟨t, span start off⟩), ⟨off, t.isOperand⟩)
      | (.error m, off) =>
        return (some (.error ⟨span start off, m⟩), { s with offset := off })

end Scanner

end QbScript
