/-!
# Tags

A tag says what a token of a script is. A tag with a code of zero or more is one byte of a
stream; one with a negative code stands for a token of a source that has no byte of its own.
`ofByte?_eq_some_iff` says that the two readings of a byte agree.
-/

set_option autoImplicit false

namespace QbScript

inductive Tag where
  /-- Closes a random block; has no byte of its own. -/
  | randomEnd
  /-- Opens a branch of a random block; has no byte of its own. -/
  | randomCase
  /-- Reserved for a position in a source. -/
  | label
  /-- A name of which only the checksum is known. -/
  | nameChecksum
  /-- An argument of which only the checksum is known. -/
  | argChecksum
  /-- The last token of every stream. -/
  | endOfFile
  /-- A line end. -/
  | endOfLine
  /-- A line end that carries the number of its line. -/
  | endOfLineNumber
  | startStruct
  | endStruct
  | startArray
  | endArray
  | equals
  | dot
  | comma
  | minus
  | add
  | divide
  | multiply
  | openParenth
  | closeParenth
  /-- Assigned, but no layout is known. -/
  | debugInfo
  | sameAs
  | lessThan
  | lessThanEqual
  | greaterThan
  | greaterThanEqual
  /-- A name, by its checksum. -/
  | name
  /-- A signed 32-bit integer. -/
  | integer
  /-- An unsigned 32-bit integer. -/
  | hexInteger
  /-- Assigned, but no layout is known. -/
  | enum
  /-- A 32-bit float. -/
  | float
  /-- A byte string. -/
  | string
  /-- A byte string that is subject to localisation. -/
  | localString
  /-- Assigned, but no layout is known. -/
  | array
  /-- Three floats. -/
  | vector
  /-- Two floats. -/
  | pair
  | begin
  | repeat
  | break
  | script
  | endScript
  | if
  | else
  | elseIf
  | endIf
  | return
  /-- Assigned, but no layout is known. -/
  | undefined
  /-- An entry of the table of names at the end of a stream. -/
  | checksumName
  /-- All arguments of the caller. -/
  | allArgs
  /-- Says that the name that follows is an argument. -/
  | arg
  /-- A jump with a 32-bit address. -/
  | jump
  | random
  | randomRange
  /-- Assigned, but no layout is known. -/
  | at
  | or
  | and
  | xor
  | shiftLeft
  | shiftRight
  | random2
  | randomRange2
  | not
  | keywordAnd
  | keywordOr
  | switch
  | endSwitch
  | case
  | default
  | randomNoRepeat
  | randomPermute
  | colon
  /-- A conditional with a short address, that of its false branch. -/
  | fastIf
  /-- The end of a true branch, with the short address of the end of the conditional. -/
  | fastElse
  /-- A jump with a short address. -/
  | shortJump
  deriving DecidableEq, Repr

namespace Tag

def all : List Tag :=
  [.randomEnd, .randomCase, .label, .nameChecksum, .argChecksum, .endOfFile, .endOfLine,
    .endOfLineNumber, .startStruct, .endStruct, .startArray, .endArray, .equals, .dot, .comma,
    .minus, .add, .divide, .multiply, .openParenth, .closeParenth, .debugInfo, .sameAs, .lessThan,
    .lessThanEqual, .greaterThan, .greaterThanEqual, .name, .integer, .hexInteger, .enum, .float,
    .string, .localString, .array, .vector, .pair, .begin, .repeat, .break, .script, .endScript,
    .if, .else, .elseIf, .endIf, .return, .undefined, .checksumName, .allArgs, .arg, .jump,
    .random, .randomRange, .at, .or, .and, .xor, .shiftLeft, .shiftRight, .random2, .randomRange2,
    .not, .keywordAnd, .keywordOr, .switch, .endSwitch, .case, .default, .randomNoRepeat,
    .randomPermute, .colon, .fastIf, .fastElse, .shortJump]

/-- The signed number of a tag; the byte of a stream where it is not negative. -/
def code : Tag → Int
  | .randomEnd => -1
  | .randomCase => -2
  | .label => -3
  | .nameChecksum => -4
  | .argChecksum => -5
  | .endOfFile => 0
  | .endOfLine => 1
  | .endOfLineNumber => 2
  | .startStruct => 3
  | .endStruct => 4
  | .startArray => 5
  | .endArray => 6
  | .equals => 7
  | .dot => 8
  | .comma => 9
  | .minus => 10
  | .add => 11
  | .divide => 12
  | .multiply => 13
  | .openParenth => 14
  | .closeParenth => 15
  | .debugInfo => 16
  | .sameAs => 17
  | .lessThan => 18
  | .lessThanEqual => 19
  | .greaterThan => 20
  | .greaterThanEqual => 21
  | .name => 22
  | .integer => 23
  | .hexInteger => 24
  | .enum => 25
  | .float => 26
  | .string => 27
  | .localString => 28
  | .array => 29
  | .vector => 30
  | .pair => 31
  | .begin => 32
  | .repeat => 33
  | .break => 34
  | .script => 35
  | .endScript => 36
  | .if => 37
  | .else => 38
  | .elseIf => 39
  | .endIf => 40
  | .return => 41
  | .undefined => 42
  | .checksumName => 43
  | .allArgs => 44
  | .arg => 45
  | .jump => 46
  | .random => 47
  | .randomRange => 48
  | .at => 49
  | .or => 50
  | .and => 51
  | .xor => 52
  | .shiftLeft => 53
  | .shiftRight => 54
  | .random2 => 55
  | .randomRange2 => 56
  | .not => 57
  | .keywordAnd => 58
  | .keywordOr => 59
  | .switch => 60
  | .endSwitch => 61
  | .case => 62
  | .default => 63
  | .randomNoRepeat => 64
  | .randomPermute => 65
  | .colon => 66
  | .fastIf => 71
  | .fastElse => 72
  | .shortJump => 73

def ofByte? (b : UInt8) : Option Tag :=
  match b.toNat with
  | 0 => some .endOfFile
  | 1 => some .endOfLine
  | 2 => some .endOfLineNumber
  | 3 => some .startStruct
  | 4 => some .endStruct
  | 5 => some .startArray
  | 6 => some .endArray
  | 7 => some .equals
  | 8 => some .dot
  | 9 => some .comma
  | 10 => some .minus
  | 11 => some .add
  | 12 => some .divide
  | 13 => some .multiply
  | 14 => some .openParenth
  | 15 => some .closeParenth
  | 16 => some .debugInfo
  | 17 => some .sameAs
  | 18 => some .lessThan
  | 19 => some .lessThanEqual
  | 20 => some .greaterThan
  | 21 => some .greaterThanEqual
  | 22 => some .name
  | 23 => some .integer
  | 24 => some .hexInteger
  | 25 => some .enum
  | 26 => some .float
  | 27 => some .string
  | 28 => some .localString
  | 29 => some .array
  | 30 => some .vector
  | 31 => some .pair
  | 32 => some .begin
  | 33 => some .repeat
  | 34 => some .break
  | 35 => some .script
  | 36 => some .endScript
  | 37 => some .if
  | 38 => some .else
  | 39 => some .elseIf
  | 40 => some .endIf
  | 41 => some .return
  | 42 => some .undefined
  | 43 => some .checksumName
  | 44 => some .allArgs
  | 45 => some .arg
  | 46 => some .jump
  | 47 => some .random
  | 48 => some .randomRange
  | 49 => some .at
  | 50 => some .or
  | 51 => some .and
  | 52 => some .xor
  | 53 => some .shiftLeft
  | 54 => some .shiftRight
  | 55 => some .random2
  | 56 => some .randomRange2
  | 57 => some .not
  | 58 => some .keywordAnd
  | 59 => some .keywordOr
  | 60 => some .switch
  | 61 => some .endSwitch
  | 62 => some .case
  | 63 => some .default
  | 64 => some .randomNoRepeat
  | 65 => some .randomPermute
  | 66 => some .colon
  | 71 => some .fastIf
  | 72 => some .fastElse
  | 73 => some .shortJump
  | _ => none

/-- An internal tag has no byte. -/
def isInternal (t : Tag) : Bool := t.code < 0

def byte (t : Tag) : UInt8 := UInt8.ofNat t.code.toNat

/-- The tags that open a random block, with a table of weights and addresses. -/
def isRandomHeader : Tag → Bool
  | .random | .random2 | .randomNoRepeat | .randomPermute => true
  | _ => false

def isShortBranch : Tag → Bool
  | .fastIf | .fastElse | .shortJump => true
  | _ => false

def endsLine : Tag → Bool
  | .endOfLine | .endOfLineNumber | .endOfFile => true
  | _ => false

theorem mem_all (t : Tag) : t ∈ all := by
  cases t <;> decide

theorem ofByte?_byte {t : Tag} (h : t.isInternal = false) : ofByte? t.byte = some t := by
  revert h
  cases t <;> decide

theorem ofByte?_eq_some_iff {b : UInt8} {t : Tag} :
    ofByte? b = some t ↔ t.isInternal = false ∧ t.byte = b := by
  constructor
  · intro h
    have hb : ∀ n : Fin 256, ∀ u ∈ ofByte? (UInt8.ofNat n),
        u.isInternal = false ∧ u.byte = UInt8.ofNat n := by decide +kernel
    have h256 := b.toNat_lt
    have := hb ⟨b.toNat, h256⟩ t (by simpa using h)
    simpa using this
  · rintro ⟨h, rfl⟩
    exact ofByte?_byte h

theorem isInternal_of_isRandomHeader {t : Tag} (h : t.isRandomHeader) : t.isInternal = false := by
  revert h
  cases t <;> decide

theorem isInternal_of_isShortBranch {t : Tag} (h : t.isShortBranch) : t.isInternal = false := by
  revert h
  cases t <;> decide

end Tag

end QbScript
