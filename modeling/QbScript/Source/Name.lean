import QbScript.Source.Reading
import QbScript.Tag.Spelling
import QbScript.Token

/-!
# Names and arguments

A name is written plainly, in quotes after a percent sign when it has other characters, or by its
checksum. An argument is a name in angle brackets; an angle bracket that opens none is an operator.
-/

set_option autoImplicit false

namespace QbScript

namespace Name

inductive Ref where
  | text (s : String)
  | checksum (c : Checksum)

def Ref.asName : Ref → Token
  | .text s => .name s
  | .checksum c => .nameChecksum c

def Ref.asArg : Ref → Token
  | .text s => .arg s
  | .checksum c => .argChecksum c

def word (c : Char) (cs : List Char) : Reading Token :=
  let more := cs.takeWhile isNameChar
  let s := String.ofList (c :: more)
  .ok (match Tag.ofKeyword? s with | some tag => .simple tag | none => .name s) more.length

/-- A quoted name after its opening mark. There are no escapes in it. -/
def quoted (cs : List Char) : Reading Ref :=
  let text := cs.takeWhile fun c => c ≠ '"' ∧ c ≠ '\n'
  match cs.drop text.length with
  | '"' :: _ => .ok (.text (String.ofList text)) (text.length + 1)
  | _ :: _ => .fail .unclosedString (text.length + 1)
  | [] => .fail .unclosedString text.length

/-- The digits of a checksum up to the closing parenthesis; there are one to eight. -/
def checksumDigits (cs : List Char) : Reading Ref :=
  let digits := cs.takeWhile isHexDigit
  if 8 < digits.length then .fail .badName 8
  else
    match digits, cs.drop digits.length with
    | _ :: _, ')' :: _ =>
      .ok (.checksum (UInt32.ofNat (numberOfDigits 16 digits))) (digits.length + 1)
    | _, _ => .fail .badName digits.length

def percent : List Char → Reading Ref
  | '"' :: rest => (quoted rest).after 1
  | '(' :: '0' :: 'x' :: rest => (checksumDigits rest).after 3
  | '(' :: '0' :: 'X' :: rest => (checksumDigits rest).after 3
  | '(' :: '0' :: _ => .fail .badName 2
  | '(' :: _ => .fail .badName 1
  | _ => .fail .badName 0

/-- Closes an argument of which `r` has read all but the bracket; `rest` follows it. -/
def closeArg (r : Reading Ref) (rest : List Char) : Reading Token :=
  match r.result, rest with
  | .ok ref, '>' :: _ => .ok ref.asArg (r.length + 1)
  | .ok _, _ => .fail .badArgument r.length
  | .error m, _ => .fail m r.length

def angle (cs : List Char) : Reading Token :=
  match cs with
  | '.' :: '.' :: '.' :: '>' :: _ => .ok (.simple .allArgs) 4
  | '<' :: _ => .ok (.simple .shiftLeft) 1
  | '=' :: _ => .ok (.simple .lessThanEqual) 1
  | '%' :: rest =>
    let r := percent rest
    (closeArg r (rest.drop r.length)).after 1
  | c :: _ =>
    let w := cs.takeWhile isNameChar
    match isNameStart c, cs.drop w.length with
    | true, '>' :: _ => .ok (.arg (String.ofList w)) (w.length + 1)
    | _, _ => .ok (.simple .lessThan) 0
  | [] => .ok (.simple .lessThan) 0

end Name

end QbScript
