import QbScript.CommandLine.Task
import QbScript.Host
import QbScript.Path

/-!
# Running a command

A task reads its input, converts it and delivers the result. A file is delivered by way of a second
one beside it, which takes its place at the end. A task that fails says why in one line, from the
general to the particular.
-/

set_option autoImplicit false

namespace QbScript

namespace CommandLine

def Input.describe : Input → String
  | .standard => "<stdin>"
  | .file path => path

inductive Failure where
  | unreadable (action : Action) (path : String) (e : OsError)
  | notUtf8 (input : Input)
  | uncompiled (input : Input) (e : CompileError)
  | undecoded (input : Input) (e : Bytecode.Error)
  | inputHasNoName
  | outputExists (path : String)
  | directoryNotMade (e : OsError)
  | unwritable (path : String) (e : OsError)

def osErrorText (e : OsError) : String :=
  e.text ++ " (os error " ++ Numeral.decimal e.code ++ ")"

/-- What is said of a compile error; the cause of a lexical error is said once more. -/
def compileErrorTexts (e : CompileError) : List String :=
  match e with
  | .lexical _ error => [e.message, error.cause.message]
  | _ => [e.message]

/-- The line of a failure, in parts from the general to the particular. -/
def Failure.texts : Failure → List String
  | .unreadable (.compile _) path e =>
    ["lecture de la source", "ouverture: " ++ path, osErrorText e]
  | .unreadable (.decompile _) path e =>
    ["lecture du bytecode", "ouverture: " ++ path, osErrorText e]
  | .notUtf8 input => ["source non UTF-8: " ++ input.describe]
  | .uncompiled input e => ("échec de compilation: " ++ input.describe) :: compileErrorTexts e
  | .undecoded input e => ["échec de décompilation: " ++ input.describe, e.message]
  | .inputHasNoName => ["--auto nécessite un fichier d'entrée"]
  | .outputExists path => ["fichier de sortie existe déjà: " ++ path]
  | .directoryNotMade e => [osErrorText e]
  | .unwritable path e => ["écriture de " ++ path, osErrorText e]

def Failure.message (f : Failure) : String :=
  "error: " ++ ": ".intercalate ("échec d'exécution de la commande" :: f.texts) ++ "\n"

structure Outcome where
  status : Nat
  output : List UInt8
  messages : String
  deriving DecidableEq

inductive Color where
  | green
  | blue
  deriving DecidableEq

def Color.code : Color → String
  | .green => "32"
  | .blue => "34"

def statusLine (color : Color) (tag text : String) : String :=
  "\x1b[1m\x1b[" ++ color.code ++ "m" ++ tag ++ "\x1b[39m\x1b[0m " ++ text ++ "\n"

structure Product where
  content : List UInt8
  unresolved : Nat
  deriving DecidableEq

def Task.convert (t : Task) (bytes : List UInt8) : Except Failure Product :=
  match t.action with
  | .compile options =>
    match Utf8.decode? bytes with
    | none => .error (.notUtf8 t.input)
    | some source =>
      match compile options source with
      | .ok out => .ok ⟨out.toList, 0⟩
      | .error e => .error (.uncompiled t.input e)
  | .decompile options =>
    match (disassemble options bytes.toArray).result with
    | .ok l => .ok ⟨Utf8.ofString l.text, l.unresolved.length⟩
    | .error e => .error (.undecoded t.input e)

def Action.title : Action → String
  | .compile _ => "COMPILE"
  | .decompile _ => "DECOMPILE"

def Action.word : Action → String
  | .compile _ => "compile"
  | .decompile _ => "decompile"

def Action.extension : Action → String
  | .compile _ => "qb"
  | .decompile _ => "q"

/-- The file that the result goes to; none if it goes to the standard output. -/
def Task.destination (t : Task) : Except Failure (Option String) :=
  match t.output, t.input with
  | .standard, _ => .ok none
  | .file path, _ => .ok (some path)
  | .beside, .file path => .ok (some (Path.outputFor path t.action.extension))
  | .beside, .standard => .error .inputHasNoName

def directoryOf (path : String) : String :=
  match Path.parent? path with
  | some dir => if dir = "" then "." else dir
  | none => "."

section Host

variable {m : Type → Type} [Monad m] [Host m]

def Task.read (t : Task) : ExceptT Failure m (List UInt8) := do
  match t.input with
  | .standard => Host.input
  | .file path =>
    match ← Host.readFile path with
    | .ok bytes => return bytes
    | .error e => throw (.unreadable t.action path e)

/-- That a directory cannot be made is no error if it is there. -/
def orDirectory (path : String) (made : Except OsError Unit) : m (Except OsError Unit) := do
  match made with
  | .ok () => return .ok ()
  | .error e => if ← Host.isDirectory path then return .ok () else return .error e

/-- Makes the first of the directories; the others are those above it, which are made as far as
they are missing. -/
def makeDirectories : List String → m (Except OsError Unit)
  | [] => return .error .notFound
  | path :: above => do
    if path = "" then return .ok ()
    match ← Host.makeDirectory path with
    | .ok () => return .ok ()
    | .error .notFound =>
      match ← makeDirectories above with
      | .error e => return .error e
      | .ok () => orDirectory path (← Host.makeDirectory path)
    | .error e => orDirectory path (.error e)

/-- The first of the `n` numbered names from `i` on that is not taken; none if they all are. -/
def freshName (dir base : String) (i : Nat) : (n : Nat) → m (Option String)
  | 0 => return none
  | n + 1 => do
    if ← Host.exists? (numbered i) then freshName dir base (i + 1) n
    else return some (numbered i)
where
  numbered (i : Nat) : String :=
    String.ofList (Path.join dir.toList (base ++ ".tmp" ++ Numeral.decimal i).toList)

def copy (source target : String) : m (Except OsError Unit) := do
  match ← Host.readFile source with
  | .ok bytes => Host.writeFile target bytes
  | .error e => return .error e

/-- Puts a file in the place of another, or else its content. -/
def replace (source target : String) : m (Except OsError Unit) := do
  match ← Host.rename source target with
  | .ok () => return .ok ()
  | .error _ =>
    match ← copy source target with
    | .ok () => Host.removeFile source
    | .error e => return .error e

/-- Moves a file to the place of another, which is removed first. -/
def settle (source target : String) : m (Except OsError Unit) := do
  if ← Host.exists? target then
    let _ ← Host.removeFile target
  replace source target

/-- Writes a file by way of another one in the same directory. Where every name for that one is
taken, nothing is written. -/
def writeBeside (path : String) (content : List UInt8) : m (Except OsError Unit) := do
  match ← freshName (directoryOf path) ((Path.fileName? path).getD "") 0 0x100000000 with
  | none => return .error .alreadyExists
  | some draft =>
    match ← Host.writeFile draft content with
    | .error e => return .error e
    | .ok () => settle draft path

def Task.makeWay (t : Task) (path : String) : ExceptT Failure m Unit := do
  if t.mkdir then
    match Path.parent? path with
    | some dir =>
      match ← (makeDirectories (Path.ancestors dir) : m _) with
      | .ok () => pure ()
      | .error e => throw (.directoryNotMade e)
    | none => pure ()

def Task.deliver (t : Task) (path : String) (content : List UInt8) : ExceptT Failure m Unit := do
  t.makeWay path
  if (← Host.exists? path) && !t.overwrite then
    throw (.outputExists path)
  match ← (writeBeside path content : m _) with
  | .ok () => pure ()
  | .error e => throw (.unwritable path e)

def Task.statusLines (t : Task) (destination : Option String) (unresolved elapsed : Nat) :
    String :=
  let done := match destination with
    | some path => statusLine .green t.action.title path
    | none => ""
  let names :=
    if unresolved = 0 then ""
    else statusLine .blue "NAMES" (Numeral.decimal unresolved ++ " checksum(s) sans nom")
  let time :=
    if t.time then
      statusLine .blue "TIME" (t.action.word ++ ": " ++ Numeral.decimal elapsed ++ " ms")
    else ""
  done ++ names ++ time

def Task.execute (t : Task) : ExceptT Failure m Outcome := do
  let bytes ← t.read
  let before ← Host.now
  let product ← t.convert bytes
  let after ← Host.now
  let destination ← t.destination
  match destination with
  | some path => t.deliver path product.content
  | none => pure ()
  return {
    status := 0
    output := if destination.isSome then [] else product.content
    messages := t.statusLines destination product.unresolved (after - before) }

/-- Runs a command. Where its indentation cannot be had the program breaks off. -/
def Command.run (c : Command) : m Outcome := do
  match c.task? with
  | none => return ⟨101, [], "capacity overflow\n"⟩
  | some t =>
    match ← t.execute.run with
    | .ok outcome => return outcome
    | .error f => return ⟨1, [], f.message⟩

def runWith {ω : Type} (parse : List ω → Except Refusal Command) (words : List ω) : m Outcome := do
  match parse words with
  | .error (.usage text) => return ⟨2, [], text⟩
  | .error (.shown text) => return ⟨0, Utf8.ofString text, ""⟩
  | .ok c => c.run

end Host

end CommandLine

end QbScript
