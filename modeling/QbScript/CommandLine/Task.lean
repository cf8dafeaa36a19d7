import QbScript.Listing.Disassemble
import QbScript.Script.Compile

/-!
# Tasks

What a command asks for. Files are named as they are written, a dash for the standard input or
output; the output may also be a file beside the input.
-/

set_option autoImplicit false

namespace QbScript

namespace CommandLine

inductive Input where
  | standard
  | file (path : String)
  deriving DecidableEq

inductive Output where
  | standard
  | file (path : String)
  /-- A file beside the input, named after it. -/
  | beside
  deriving DecidableEq

inductive Action where
  | compile (options : CompileOptions)
  | decompile (options : ListingOptions)
  deriving DecidableEq

structure Task where
  action : Action
  input : Input
  output : Output
  /-- Missing directories above the output are made. -/
  mkdir : Bool
  /-- An output that exists is replaced. -/
  overwrite : Bool
  time : Bool
  deriving DecidableEq

structure FileOptions where
  input : Option String
  output : Option String
  mkdir : Bool
  overwrite : Bool
  time : Bool
  auto : Bool
  deriving DecidableEq

namespace FileOptions

def source (o : FileOptions) : Input :=
  match o.input with
  | some path => if path = "-" then .standard else .file path
  | none => .standard

def target (o : FileOptions) : Output :=
  if o.auto then .beside
  else
    match o.output with
    | some path => if path = "-" then .standard else .file path
    | none => .standard

def task (o : FileOptions) (action : Action) : Task where
  action
  input := o.source
  output := o.target
  mkdir := o.mkdir
  overwrite := o.overwrite
  time := o.time

end FileOptions

inductive Command where
  | compile (files : FileOptions) (target : Target) (lineNumbers : Bool)
  | decompile (files : FileOptions) (labels : Bool) (indentSpaces : Option UInt64)
  deriving DecidableEq

/-- A row of spaces. There is none that takes more than half of the memory there can be. -/
def spaces? (n : UInt64) : Option String :=
  if n.toNat < 0x8000000000000000 then some ("".pushn ' ' n.toNat) else none

/-- What a command asks for, if its indentation can be had. -/
def Command.task? : Command → Option Task
  | .compile files target lineNumbers => some (files.task (.compile ⟨target, lineNumbers⟩))
  | .decompile files labels none => some (files.task (.decompile ⟨"\t", labels⟩))
  | .decompile files labels (some n) =>
    (spaces? n).map fun indent => files.task (.decompile ⟨indent, labels⟩)

/-- Why a command line is no command, with the text that is shown instead. -/
inductive Refusal where
  | usage (text : String)
  /-- The text was asked for. -/
  | shown (text : String)
  deriving DecidableEq

end CommandLine

end QbScript
