import QbScript.Checksum
import QbScript.Number.Binary32
import QbScript.Tag

/-!
# Tokens

What a script consists of: a tag and what comes with it. A source names its names; a stream has
only their checksums, and adds addresses.
-/

set_option autoImplicit false

namespace QbScript

inductive Token where
  /-- A tag that nothing comes with: a sign, a reserved word or a mark. -/
  | simple (tag : Tag)
  | name (text : String)
  | arg (text : String)
  | nameChecksum (checksum : Checksum)
  | argChecksum (checksum : Checksum)
  | integer (value : Int32)
  | hexInteger (value : UInt32)
  | float (value : Binary32)
  | string (bytes : List UInt8)
  | localString (bytes : List UInt8)
  | pair (x y : Binary32)
  | vector (x y z : Binary32)
  | endOfLineNumber (line : UInt32)
  /-- A jump, relative to the end of its address. -/
  | jump (distance : Int32)
  /-- A jump that `tag` stands for, relative to the start of its address. -/
  | shortBranch (tag : Tag) (distance : Int16)
  /-- The head of a random block: the weights of its branches and the jumps to them. -/
  | random (tag : Tag) (weights : List UInt16) (jumps : List Int32)
  /-- An entry of the table of names. -/
  | checksumName (checksum : Checksum) (text : String)
  deriving DecidableEq

namespace Token

def tag : Token → Tag
  | .simple tag => tag
  | .name _ => .name
  | .arg _ => .arg
  | .nameChecksum _ => .nameChecksum
  | .argChecksum _ => .argChecksum
  | .integer _ => .integer
  | .hexInteger _ => .hexInteger
  | .float _ => .float
  | .string _ => .string
  | .localString _ => .localString
  | .pair .. => .pair
  | .vector .. => .vector
  | .endOfLineNumber _ => .endOfLineNumber
  | .jump _ => .jump
  | .shortBranch tag _ => tag
  | .random tag .. => tag
  | .checksumName .. => .checksumName

/-- A token that ends an operand, so that a sign after it is an operator. -/
def isOperand : Token → Bool
  | .name _ | .arg _ | .nameChecksum _ | .argChecksum _ | .integer _ | .hexInteger _ | .float _
  | .string _ | .localString _ => true
  | .simple tag => tag = .closeParenth ∨ tag = .endArray ∨ tag = .endStruct
  | _ => false

end Token

end QbScript
