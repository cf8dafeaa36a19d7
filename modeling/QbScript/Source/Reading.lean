import QbScript.Text.Quoted

/-!
# Readings

What the front of a text reads as, and how far the reading goes.
-/

set_option autoImplicit false

namespace QbScript

inductive Misreading where
  | unexpectedChar (c : Char)
  | unclosedComment
  | unclosedString
  | badNumber
  | badName
  | badArgument
  deriving DecidableEq

def Misreading.message : Misreading → String
  | .unexpectedChar c => "unexpected character: " ++ Quoted.char c
  | .unclosedComment => "unterminated block comment"
  | .unclosedString => "unterminated string literal"
  | .badNumber => "invalid number literal"
  | .badName => "expected %\"name\" or %(0x checksum)"
  | .badArgument => "expected '>' to close argument"

/-- The result of a reading and the number of characters that it takes. A reading that fails takes
those up to where it failed. -/
structure Reading (α : Type) where
  result : Except Misreading α
  length : Nat

namespace Reading

variable {α β : Type}

def ok (a : α) (length : Nat) : Reading α := ⟨.ok a, length⟩

def fail (m : Misreading) (length : Nat) : Reading α := ⟨.error m, length⟩

def map (f : α → β) (r : Reading α) : Reading β := ⟨r.result.map f, r.length⟩

def after (n : Nat) (r : Reading α) : Reading α := ⟨r.result, n + r.length⟩

end Reading

def isNameChar (c : Char) : Bool := c.isAlphanum || c = '_'

def isNameStart (c : Char) : Bool := c.isAlpha || c = '_'

def isHexDigit (c : Char) : Bool :=
  c.isDigit || ('a' ≤ c && c ≤ 'f') || ('A' ≤ c && c ≤ 'F')

def isOctalDigit (c : Char) : Bool := '0' ≤ c && c ≤ '7'

def digitValue (c : Char) : Nat :=
  if c ≤ '9' then c.toNat - '0'.toNat
  else if c ≤ 'F' then c.toNat - 'A'.toNat + 10
  else c.toNat - 'a'.toNat + 10

def numberOfDigits (base : Nat) (digits : List Char) : Nat :=
  digits.foldl (fun n d => base * n + digitValue d) 0

/-- The number that digits stand for, modulo `2 ^ 32`. -/
def wordOfDigits (base : UInt32) (digits : List Char) : UInt32 :=
  digits.foldl (fun n d => base * n + UInt32.ofNat (digitValue d)) 0

end QbScript
