/-!
# Arguments

The words of a command line as flags, settings and operands. A long option is written out after two
dashes, and its value after an equals sign or as the next word. After one dash several short options
may stand together, the last of them with its value. Two dashes alone end the options.
-/

set_option autoImplicit false

namespace QbScript

namespace CommandLine

inductive Flag where
  | verbose
  | quiet
  | help
  | version
  | lineNumbers
  | mkdir
  | overwrite
  | time
  | auto
  | labels
  deriving DecidableEq

inductive Setting where
  | color
  | output
  | target
  | indentSpaces
  deriving DecidableEq

inductive Verb where
  | compile
  | decompile
  | help
  deriving DecidableEq

inductive Argument where
  | flag (f : Flag)
  | setting (s : Setting) (value : String)
  | operand (text : String)
  deriving DecidableEq

structure Spelling (α : Type) where
  option : α
  short : Option Char
  long : String

structure Grammar where
  flags : List (Spelling Flag)
  settings : List (Spelling Setting)
  verbs : List (String × Verb)
  takesOperand : Bool

inductive Word where
  | complete (args : List Argument)
  /-- The value of a setting comes with the next word. -/
  | awaits (args : List Argument) (s : Setting)
  /-- From some option on the word says nothing. -/
  | unknown (args : List Argument)

def Word.after (a : Argument) : Word → Word
  | .complete args => .complete (a :: args)
  | .awaits args s => .awaits (a :: args) s
  | .unknown args => .unknown (a :: args)

inductive Ending where
  | finished
  | verb (v : Verb) (rest : List String)
  | unknown

structure Scanned where
  args : List Argument
  ending : Ending

namespace Grammar

def shortFlag? (g : Grammar) (c : Char) : Option Flag :=
  (g.flags.find? fun s => s.short = some c).map (·.option)

def longFlag? (g : Grammar) (name : String) : Option Flag :=
  (g.flags.find? fun s => s.long = name).map (·.option)

def shortSetting? (g : Grammar) (c : Char) : Option Setting :=
  (g.settings.find? fun s => s.short = some c).map (·.option)

def longSetting? (g : Grammar) (name : String) : Option Setting :=
  (g.settings.find? fun s => s.long = name).map (·.option)

/-- Short options that stand together. -/
def cluster (g : Grammar) : List Char → Word
  | [] => .complete []
  | c :: rest =>
    match g.shortFlag? c, g.shortSetting? c, rest with
    | some f, _, _ => (g.cluster rest).after (.flag f)
    | none, some s, [] => .awaits [] s
    | none, some s, '=' :: value => .complete [.setting s (String.ofList value)]
    | none, some s, value => .complete [.setting s (String.ofList value)]
    | none, none, _ => .unknown []

def long (g : Grammar) (text : List Char) : Word :=
  let name := String.ofList (text.takeWhile (· ≠ '='))
  match g.longFlag? name, g.longSetting? name, text.dropWhile (· ≠ '=') with
  | some f, _, [] => .complete [.flag f]
  | none, some s, [] => .awaits [] s
  | none, some s, _ :: value => .complete [.setting s (String.ofList value)]
  | _, _, _ => .unknown []

def word (g : Grammar) (w : String) : Word :=
  match w.toList with
  | '-' :: '-' :: text => g.long text
  | '-' :: c :: rest => g.cluster (c :: rest)
  | _ => .complete [.operand w]

/-- A word that can be the value of the setting before it. -/
def isValue (w : String) : Bool :=
  match w.toList with
  | '-' :: _ :: _ => false
  | _ => true

/-- Reads words up to a verb, after the arguments `done` in reverse. -/
def scanFrom (g : Grammar) (done : List Argument) : List String → Scanned
  | [] => ⟨done.reverse, .finished⟩
  | w :: rest =>
    match g.verbs.lookup w with
    | some v => ⟨done.reverse, .verb v rest⟩
    | none =>
      if w = "--" then ⟨done.reverse ++ rest.map .operand, .finished⟩
      else
        match g.word w with
        | .complete args => g.scanFrom (args.reverse ++ done) rest
        | .awaits args s =>
          match rest with
          | value :: rest =>
            if isValue value then g.scanFrom (.setting s value :: (args.reverse ++ done)) rest
            else ⟨done.reverse ++ args, .unknown⟩
          | [] => ⟨done.reverse ++ args, .unknown⟩
        | .unknown args => ⟨done.reverse ++ args, .unknown⟩

def scan (g : Grammar) (words : List String) : Scanned := g.scanFrom [] words

end Grammar

end CommandLine

end QbScript
