import QbScript.NameTable
import QbScript.Number.Shortest
import QbScript.Source.Reading
import QbScript.Tag.Spelling

/-!
# Literals of a listing

How names, strings and numbers are written so that they read as the same tokens.
-/

set_option autoImplicit false

namespace QbScript

namespace Literal

def isWord (s : String) : Bool :=
  match s.toList with
  | c :: rest => isNameStart c && rest.all isNameChar
  | [] => false

def isControl (c : Char) : Bool :=
  c.toNat < 0x20 || (0x7f ≤ c.toNat && c.toNat < 0xa0)

def isQuotable (s : String) : Bool := s.toList.all fun c => c ≠ '"' && !isControl c

def checksumText (c : Checksum) : String := "%(0x" ++ c.digits ++ ")"

/-- A name as itself, in quotes, or by its checksum; the first of these that reads back. -/
def nameText (names : NameTable) (c : Checksum) : String :=
  match names.get? c with
  | some name =>
    if isWord name && (Tag.ofKeyword? name).isNone then name
    else if isQuotable name then "%\"" ++ name ++ "\""
    else checksumText c
  | none => checksumText c

def octal (n : Nat) : List Char := '\\' :: Numeral.padded 8 3 n

def escapeChar (c : Char) : List Char :=
  match c with
  | '\\' => ['\\', '\\']
  | '"' => ['\\', '"']
  | '\x07' => ['\\', 'a']
  | '\x08' => ['\\', 'b']
  | '\x0c' => ['\\', 'f']
  | '\n' => ['\\', 'n']
  | '\r' => ['\\', 'r']
  | '\t' => ['\\', 't']
  | '\x0b' => ['\\', 'v']
  | _ => if c.toNat < 0x20 || c.toNat = 0x7f then octal c.toNat else [c]

def escapeSegment : Utf8.Segment → List Char
  | .char c => escapeChar c
  | .invalid bytes => bytes.flatMap fun b => octal b.toNat

def escapeText (bytes : List UInt8) : String :=
  String.ofList ((Utf8.segments bytes).flatMap escapeSegment)

def stringText (bytes : List UInt8) : String := "\"" ++ escapeText bytes ++ "\""

def listText (items : List String) : String := "(" ++ ", ".intercalate items ++ ")"

end Literal

end QbScript
