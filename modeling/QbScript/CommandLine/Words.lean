import QbScript.CommandLine.Arguments
import QbScript.CommandLine.Task

/-!
# Commands in words

The command that the words of a command line stand for. Arguments are taken in order: a request for
help or for the version ends the reading, and so does the first argument that is repeated, misplaced
or without a valid value.
-/

set_option autoImplicit false

namespace QbScript

namespace CommandLine

def versionText : String := "qscript 0.1.0\n"

def usageText : String :=
  "QScript ↔ QB : compiler, décompiler\n\n"
    ++ "Usage: qscript [OPTIONS] <compile|decompile> [INPUT] [-o OUTPUT | --auto]\n"

def globalFlags : List (Spelling Flag) :=
  [⟨.verbose, some 'v', "verbose"⟩, ⟨.quiet, some 'q', "quiet"⟩, ⟨.help, some 'h', "help"⟩]

def globalSettings : List (Spelling Setting) := [⟨.color, none, "color"⟩]

def topGrammar : Grammar where
  flags := ⟨.version, some 'V', "version"⟩ :: globalFlags
  settings := globalSettings
  verbs := [("compile", .compile), ("decompile", .decompile), ("help", .help)]
  takesOperand := false

def taskFlags : List (Spelling Flag) :=
  [⟨.mkdir, none, "mkdir"⟩, ⟨.overwrite, none, "overwrite"⟩, ⟨.time, none, "time"⟩,
   ⟨.auto, none, "auto"⟩]

def taskGrammar (flags : List (Spelling Flag)) (settings : List (Spelling Setting)) : Grammar where
  flags := flags ++ taskFlags ++ globalFlags
  settings := ⟨.output, some 'o', "output"⟩ :: settings ++ globalSettings
  verbs := []
  takesOperand := true

def compileGrammar : Grammar :=
  taskGrammar [⟨.lineNumbers, none, "line-numbers"⟩] [⟨.target, none, "target"⟩]

def decompileGrammar : Grammar :=
  taskGrammar [⟨.labels, none, "labels"⟩] [⟨.indentSpaces, none, "indent-spaces"⟩]

structure Settings where
  flags : List Flag
  values : List (Setting × String)
  operand : Option String

/-- A number of at most 64 bits; a plus sign may stand before its digits. -/
def count? (s : String) : Option Nat :=
  let digits := match s.toList with
    | '+' :: ds => ds
    | ds => ds
  let n := numberOfDigits 10 digits
  if digits ≠ [] ∧ digits.all Char.isDigit ∧ n < 0x10000000000000000 then some n else none

def targets : List (String × Target) := [("thug1", .plain), ("thug2", .fast)]

def Setting.admits (value : String) : Setting → Bool
  | .color => ["auto", "always", "never"].contains value
  | .output => value ≠ ""
  | .target => (targets.lookup value).isSome
  | .indentSpaces => (count? value).isSome

namespace Settings

def none : Settings := ⟨[], [], Option.none⟩

def has (s : Settings) (f : Flag) : Bool := f ∈ s.flags

def get? (s : Settings) (x : Setting) : Option String := s.values.lookup x

def add (g : Grammar) (s : Settings) : Argument → Except Refusal Settings
  | .flag .help => .error (.shown usageText)
  | .flag .version => .error (.shown versionText)
  | .flag .verbose => .ok s
  | .flag f => if s.has f then .error (.usage usageText) else .ok { s with flags := f :: s.flags }
  | .setting x value =>
    if (s.get? x).isSome ∨ ¬ x.admits value then .error (.usage usageText)
    else .ok { s with values := (x, value) :: s.values }
  | .operand text =>
    if text = "" ∨ s.operand.isSome ∨ ¬ g.takesOperand then .error (.usage usageText)
    else .ok { s with operand := some text }

def ofArguments (g : Grammar) (args : List Argument) : Except Refusal Settings :=
  args.foldlM (add g) none

def files (s : Settings) : FileOptions where
  input := s.operand
  output := s.get? .output
  mkdir := s.has .mkdir
  overwrite := s.has .overwrite
  time := s.has .time
  auto := s.has .auto

def target (s : Settings) : Target :=
  ((s.get? .target).bind fun name => targets.lookup name).getD .plain

def indentSpaces (s : Settings) : Option UInt64 :=
  ((s.get? .indentSpaces).bind count?).map UInt64.ofNat

end Settings

/-- The settings after a verb. A file can be named for the output only if it is not derived. -/
def commandSettings (g : Grammar) (words : List String) : Except Refusal Settings := do
  let scanned := g.scan words
  let s ← Settings.ofArguments g scanned.args
  match scanned.ending with
  | .finished =>
    if s.has .auto ∧ (s.get? .output).isSome then throw (.usage usageText) else return s
  | _ => throw (.usage usageText)

def Command.ofWords (words : List String) : Except Refusal Command := do
  let scanned := topGrammar.scan words
  let _ ← Settings.ofArguments topGrammar scanned.args
  match scanned.ending with
  | .verb .compile rest =>
    let s ← commandSettings compileGrammar rest
    return .compile s.files s.target (s.has .lineNumbers)
  | .verb .decompile rest =>
    let s ← commandSettings decompileGrammar rest
    return .decompile s.files (s.has .labels) s.indentSpaces
  | .verb .help [] => throw (.shown usageText)
  | .verb .help [name] =>
    throw (if (topGrammar.verbs.lookup name).isSome then .shown usageText else .usage usageText)
  | _ => throw (.usage usageText)

end CommandLine

end QbScript
