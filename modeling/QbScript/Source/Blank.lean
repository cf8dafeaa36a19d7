/-!
# Blanks

What may stand between tokens: blank characters, comments, and line ends that a backslash takes
away.
-/

set_option autoImplicit false

namespace QbScript

namespace Blank

/-- Blank characters; a newline is none of them. -/
def isBlank (c : Char) : Bool :=
  c = ' ' ∨ c = '\t' ∨ c = '\r' ∨ c = '\x0b' ∨ c = '\x0c'

/-- The number of characters up to and with the end of a comment, of which `n` are read. -/
def commentLength? (n : Nat) : List Char → Option Nat
  | '*' :: '/' :: _ => some (n + 2)
  | _ :: rest => commentLength? (n + 1) rest
  | [] => none

inductive Front where
  /-- A blank of so many characters, at least one. -/
  | blank (more : Nat)
  /-- A comment that is not closed. -/
  | unclosed
  | other
  deriving DecidableEq

def front : List Char → Front
  | '/' :: '/' :: rest => .blank (1 + (rest.takeWhile (· ≠ '\n')).length)
  | '/' :: '*' :: rest =>
    match commentLength? 0 rest with
    | some n => .blank (1 + n)
    | none => .unclosed
  | '\\' :: '\n' :: _ => .blank 1
  | '\\' :: '\r' :: '\n' :: _ => .blank 2
  | c :: _ => if isBlank c then .blank 0 else .other
  | [] => .other

/-- The blanks at the front of a text: how many characters they have, and whether an unclosed
comment follows. -/
structure Run where
  length : Nat
  unclosed : Bool
  deriving DecidableEq

def runFrom (n : Nat) (cs : List Char) : Run :=
  match cs with
  | [] => ⟨n, false⟩
  | c :: rest =>
    match front (c :: rest) with
    | .blank more => runFrom (n + 1 + more) (rest.drop more)
    | .unclosed => ⟨n, true⟩
    | .other => ⟨n, false⟩
  termination_by cs.length
  decreasing_by
    simp only [List.length_cons, List.length_drop]
    omega

def run (cs : List Char) : Run := runFrom 0 cs

end Blank

end QbScript
