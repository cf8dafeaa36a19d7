import QbScript.Listing.Line
import Std.Data.TreeSet

/-!
# Disassembly

From a stream to a listing that compiles to the same stream. It fails where the survey of the stream
fails; warnings are given in either case.
-/

set_option autoImplicit false

namespace QbScript

structure Listing where
  text : String
  /-- The checksums of which no name is known, in ascending order. -/
  unresolved : List Checksum
  deriving DecidableEq

structure Report (α : Type) where
  result : Except Bytecode.Error α
  warnings : List Warning

def resolve (b : Bytecode) : Report Survey :=
  let f := b.findings
  let s := Survey.ofFindings f.found
  ⟨match f.fault with | some e => .error e | none => .ok s, s.warnings.toList⟩

/-- The checksums of names that are not known, as often as they occur. -/
def unknownNames (names : NameTable) (tokens : List (Nat × Token)) : List Checksum :=
  tokens.filterMap fun t =>
    match t.2 with
    | .nameChecksum c => if (names.get? c).isNone then some c else none
    | _ => none

def listing (options : ListingOptions) (s : Survey) (tokens : List (Nat × Token)) : Listing where
  text := (Sheet.ofElements (elements options s tokens)).text options.indent
  unresolved := (Std.TreeSet.ofList (unknownNames s.names tokens)).toList

def disassemble (options : ListingOptions) (b : Bytecode) : Report Listing :=
  let r := resolve b
  match r.result with
  | .error e => ⟨.error e, r.warnings⟩
  | .ok s =>
    let tokens := b.scan.tokens
    let unknown := (unknownNames s.names tokens).eraseDups
    ⟨.ok (listing options s tokens), r.warnings ++ unknown.map .unresolved⟩

end QbScript
