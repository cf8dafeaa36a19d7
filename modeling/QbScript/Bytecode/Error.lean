import QbScript.Tag
import QbScript.Text.Numeral

/-!
# Errors of streams

Why bytes are no stream of tokens, or a token has no bytes.
-/

set_option autoImplicit false

namespace QbScript

/-- A stream of tokens, or a part of one. -/
abbrev Bytecode := Array UInt8

namespace Bytecode

inductive Error where
  | outOfRange (offset needed size : Nat)
  | unknownTag (byte : UInt8) (offset : Nat)
  /-- The address at `offset` leads to no position of the stream. -/
  | badAddress (offset : Nat) (target : Int)
  | internalTag (tag : Tag)
  deriving DecidableEq

def Error.message : Error → String
  | .outOfRange offset needed size =>
    "out of range: need " ++ Numeral.decimal needed ++ " bytes at offset "
      ++ Numeral.decimal offset ++ " (buffer is " ++ Numeral.decimal size ++ " bytes)"
  | .unknownTag byte offset =>
    "unknown tag " ++ Numeral.decimal byte.toNat ++ " at offset " ++ Numeral.decimal offset
  | .badAddress offset target =>
    "address field at offset " ++ Numeral.decimal offset
      ++ " points outside the buffer (target " ++ Numeral.signed target ++ ")"
  | .internalTag tag => "internal tag " ++ Numeral.signed tag.code ++ " cannot be encoded"

end Bytecode

end QbScript
