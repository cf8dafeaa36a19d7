import QbScript.Bytecode.Decode
import QbScript.NameTable
import Std.Data.TreeMap

/-!
# Survey of a stream

What a stream says about itself before it is listed: where its addresses lead and which names its
table holds. Places to which branches lead get labels; the branches and the end of a random block
are such places, although a stream has no tokens for them. Every address followed must lead to a
position of the stream.
-/

set_option autoImplicit false

namespace QbScript

inductive LabelKind where
  | branch
  | randomCase
  | randomEnd
  deriving DecidableEq

/-- A label, and the position of the random head that it belongs to; zero for a branch. -/
structure Label where
  kind : LabelKind
  owner : Nat
  deriving DecidableEq

namespace LabelKind

def rank : LabelKind → Nat
  | .branch => 0
  | .randomCase => 1
  | .randomEnd => 2

end LabelKind

/-- The order of labels at one position: branches first, then the innermost random block, that is
the one that starts last. -/
def Label.le (a b : Label) : Bool :=
  if a.kind = .branch ∨ b.kind = .branch then
    a.kind = .branch ∧ (b.kind ≠ .branch ∨ b.owner ≤ a.owner)
  else if a.owner = b.owner then a.kind.rank ≤ b.kind.rank
  else b.owner ≤ a.owner

inductive Warning where
  | unresolved (checksum : Checksum)
  /-- Before a branch of a random block no jump leads to its end. -/
  | missingJump (header target : Nat)
  /-- An entry of the table of names has the wrong checksum. -/
  | wrongChecksum (name : String) (checksum : Checksum)
  | collision (c : Collision)
  deriving DecidableEq

def Warning.message : Warning → String
  | .unresolved checksum => "unresolved checksum 0x" ++ checksum.digits
  | .missingJump header target =>
    "random at 0x" ++ Numeral.hex header ++ ": no end jump before case at 0x" ++ Numeral.hex target
  | .wrongChecksum name checksum =>
    "name " ++ Quoted.text name ++ " does not hash to 0x" ++ checksum.digits ++ ", ignored"
  | .collision c => c.message ++ ", keeping " ++ Quoted.text c.existing

inductive Finding where
  | label (offset : Nat) (label : Label)
  | missingJump (header target : Nat)
  | entry (checksum : Checksum) (name : String)
  deriving DecidableEq

structure Findings where
  found : List Finding
  fault : Option Bytecode.Error
  deriving DecidableEq

namespace Findings

def all (found : List Finding) : Findings := ⟨found, none⟩

def stop (e : Bytecode.Error) : Findings := ⟨[], some e⟩

/-- The findings of `g` follow, unless those of `f` end at a fault. -/
def append (f g : Findings) : Findings :=
  match f.fault with
  | none => ⟨f.found ++ g.found, g.fault⟩
  | some _ => f

end Findings

namespace Bytecode

def randomEnds (b : Bytecode) (header : Nat) : List Nat → Findings
  | [] => .all []
  | target :: rest =>
    if target < 5 then b.randomEnds header rest
    else
      match b.byteAt (target - 5) with
      | .ok byte =>
        if byte = Tag.jump.byte then
          match b.longAddress (target - 4) with
          | .ok address =>
            (Findings.all [.label address ⟨.randomEnd, header⟩]).append (b.randomEnds header rest)
          | .error e => .stop e
        else (Findings.all [.missingJump header target]).append (b.randomEnds header rest)
      | .error e => .stop e

/-- The labels of a random block. A block without two branches has no jump to its end, so the end
is put where it cannot do harm: after the head, or at the only branch. -/
def randomFindings (b : Bytecode) (h : RandomHeader) (pos : Nat) : Findings :=
  let cases := Findings.all (h.targets.map fun target => .label target ⟨.randomCase, pos⟩)
  match h.targets with
  | [] => cases.append (.all [.label h.finish ⟨.randomEnd, pos⟩])
  | [only] => cases.append (.all [.label only ⟨.randomEnd, pos⟩])
  | _ :: rest => cases.append (b.randomEnds pos rest)

def findingsAt (b : Bytecode) (pos : Nat) : Token → Findings
  | .shortBranch .. =>
    match b.shortAddress (pos + 1) with
    | .ok target => .all [.label target ⟨.branch, 0⟩]
    | .error e => .stop e
  | .random .. =>
    match b.randomHeader pos with
    | .ok h => b.randomFindings h pos
    | .error e => .stop e
  | .checksumName checksum name => .all [.entry checksum name]
  | _ => .all []

/-- What the tokens of a stream say, up to the first fault of any kind. -/
def findings (b : Bytecode) : Findings :=
  let s := b.scan
  s.tokens.foldr (fun t rest => (b.findingsAt t.1 t.2).append rest) ⟨[], s.fault⟩

end Bytecode

structure Survey where
  labels : Std.TreeMap Nat (List Label)
  names : NameTable
  warnings : Array Warning

namespace Survey

def empty : Survey := ⟨∅, NameTable.empty, #[]⟩

def addLabel (s : Survey) (offset : Nat) (label : Label) : Survey :=
  let here := (s.labels[offset]?).getD []
  if label ∈ here then s else { s with labels := s.labels.insert offset (here ++ [label]) }

def warn (s : Survey) (w : Warning) : Survey := { s with warnings := s.warnings.push w }

/-- Enters a name whose checksum is right and not taken by another name. -/
def addName (s : Survey) (checksum : Checksum) (name : String) : Survey :=
  if Checksum.ofName name ≠ checksum then s.warn (.wrongChecksum name checksum)
  else
    match s.names.insertAt checksum name with
    | .ok names => { s with names }
    | .error c => s.warn (.collision c)

def add (s : Survey) : Finding → Survey
  | .label offset label => s.addLabel offset label
  | .missingJump header target => s.warn (.missingJump header target)
  | .entry checksum name => s.addName checksum name

def ofFindings (found : List Finding) : Survey := found.foldl add empty

def labelsAt (s : Survey) (offset : Nat) : List Label :=
  ((s.labels[offset]?).getD []).mergeSort Label.le

def labelList (s : Survey) : List (Nat × List Label) :=
  s.labels.toList.map fun entry => (entry.1, s.labelsAt entry.1)

end Survey

end QbScript
