import QbScript.Source.Reading
import QbScript.Token

/-!
# Literals

Numbers and strings. An integer is taken modulo `2 ^ 32`, however many digits it has. The digits of
a float are added up in the double format, in the order they are written. A string stands for bytes,
with escapes for those that have no other way to be written.
-/

set_option autoImplicit false

namespace QbScript

namespace Literal

open BinaryFormat

def wholePart (digits : List Char) : Magnitude :=
  digits.foldl (fun m d => double.tenfoldPlus m (digitValue d)) (.finite 0)

/-- Adds the digits after the point to `whole`, the first of them a tenth. -/
def addFraction (whole : Magnitude) (digits : List Char) : Magnitude :=
  (digits.foldl
    (fun (m, power) d =>
      (double.plus m (double.quotient (digitValue d) power), double.tenfoldPlus power 0))
    (whole, double.ofNat 10)).1

def float (negative : Bool) (whole fraction : List Char) : Binary32 :=
  Binary32.ofMagnitude negative
    (single.convert double (addFraction (wholePart whole) fraction))

/-- A number may not run into a name. -/
def closeNumber (t : Token) (rest : List Char) (length : Nat) : Reading Token :=
  if rest.head?.any isNameChar then .fail .badNumber length else .ok t length

def hexNumber (negative : Bool) (cs : List Char) : Reading Token :=
  let digits := cs.takeWhile isHexDigit
  let value := wordOfDigits 16 digits
  if digits.isEmpty then .fail .badNumber 0
  else
    closeNumber (.hexInteger (if negative then -value else value)) (cs.drop digits.length)
      digits.length

def fractionDigits : List Char → List Char
  | '.' :: cs => cs.takeWhile Char.isDigit
  | _ => []

def decimalNumber (negative : Bool) (cs : List Char) : Reading Token :=
  let whole := cs.takeWhile Char.isDigit
  let rest := cs.drop whole.length
  let fraction := fractionDigits rest
  if fraction.isEmpty then
    let value := (wordOfDigits 10 whole).toInt32
    closeNumber (.integer (if negative then -value else value)) rest whole.length
  else
    closeNumber (.float (float negative whole fraction)) (rest.drop (1 + fraction.length))
      (whole.length + 1 + fraction.length)

def number (negative : Bool) (cs : List Char) : Reading Token :=
  match cs with
  | '0' :: 'x' :: rest => (hexNumber negative rest).after 2
  | '0' :: 'X' :: rest => (hexNumber negative rest).after 2
  | _ => decimalNumber negative cs

/-- The length of the text before the closing mark, of which `n` characters are read; or how far
the text goes when a line or the source ends first. -/
def bodyLength (mark : Char) (n : Nat) : List Char → Except Nat Nat
  | [] => .error n
  | '\\' :: [] => .error (n + 1)
  | '\\' :: _ :: rest => bodyLength mark (n + 2) rest
  | c :: rest =>
    if c = '\n' then .error (n + 1)
    else if c = mark then .ok n
    else bodyLength mark (n + 1) rest

/-- What `e` stands for after a backslash, and how many characters of `rest` belong to it. -/
def escape (e : Char) (rest : List Char) : List UInt8 × Nat :=
  match e with
  | 'a' => ([0x07], 0)
  | 'b' => ([0x08], 0)
  | 'f' => ([0x0c], 0)
  | 'n' => ([0x0a], 0)
  | 'r' => ([0x0d], 0)
  | 't' => ([0x09], 0)
  | 'v' => ([0x0b], 0)
  | 'x' =>
    let digits := (rest.take 2).takeWhile isHexDigit
    if digits.isEmpty then ([0x78], 0)
    else ([UInt8.ofNat (numberOfDigits 16 digits)], digits.length)
  | _ =>
    if isOctalDigit e then
      let digits := (rest.take 2).takeWhile isOctalDigit
      ([UInt8.ofNat (numberOfDigits 8 (e :: digits))], digits.length)
    else (String.utf8EncodeChar e, 0)

def unescapeFrom (done : List UInt8) (cs : List Char) : List UInt8 :=
  match cs with
  | [] => done.reverse
  | '\\' :: e :: rest =>
    unescapeFrom ((escape e rest).1.reverse ++ done) (rest.drop (escape e rest).2)
  | c :: rest => unescapeFrom ((String.utf8EncodeChar c).reverse ++ done) rest
  termination_by cs.length
  decreasing_by
    · simp only [List.length_cons, List.length_drop]
      omega
    · simp

def unescape (cs : List Char) : List UInt8 := unescapeFrom [] cs

def string (mark : Char) (cs : List Char) : Reading (List UInt8) :=
  match bodyLength mark 0 cs with
  | .ok n => .ok (unescape (cs.take n)) (n + 1)
  | .error n => .fail .unclosedString n

end Literal

end QbScript
