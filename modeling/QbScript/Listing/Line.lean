import QbScript.Listing.Literal
import QbScript.Listing.Survey

/-!
# Lines of a listing

A listing is made of words, on lines where the stream has its line ends. Some words open or close a
block, and so change how deep lines are indented.
-/

set_option autoImplicit false

namespace QbScript

/-- How a word changes the depth. What a word closes counts against what its line opens: only the
balance of the line moves it or the lines after it. -/
structure Shift where
  /-- The change that is not weighed: of the line itself and those after it. -/
  level : Int
  /-- What the word opens or, if negative, closes. -/
  balance : Int
  /-- The word ends a script. -/
  endsScript : Bool
  deriving DecidableEq

namespace Shift

def none : Shift := ⟨0, 0, false⟩

def opens (n : Int) : Shift := ⟨0, n, false⟩

def closes (n : Int) : Shift := ⟨0, -n, false⟩

/-- A word between two parts of a block, one level above both. -/
def separates : Shift := ⟨-1, 1, false⟩

def add (a b : Shift) : Shift :=
  ⟨a.level + b.level, a.balance + b.balance, a.endsScript || b.endsScript⟩

end Shift

/-- A switch opens two levels, one for the lines of its branches and one for what is in them. -/
def Tag.shift : Tag → Shift
  | .startStruct | .startArray | .script | .begin | .if | .fastIf => .opens 1
  | .endStruct | .endArray | .endIf => .closes 1
  | .endScript => { Shift.closes 1 with endsScript := true }
  | .else | .elseIf | .fastElse | .case | .default => .separates
  | .switch => .opens 2
  | .endSwitch => .closes 2
  | .repeat => ⟨-1, 0, false⟩
  | _ => .none

structure Word where
  text : String
  shift : Shift
  deriving DecidableEq

inductive Element where
  | word (w : Word)
  | lineEnd
  deriving DecidableEq

namespace Element

def plain (text : String) : Element := .word ⟨text, .none⟩

end Element

structure ListingOptions where
  /-- What a level of depth is indented by. -/
  indent : String
  /-- Labels are listed also where short branches lead; such a listing does not compile. -/
  branchLabels : Bool
  deriving DecidableEq

def Label.elements (options : ListingOptions) (pos : Nat) (l : Label) : List Element :=
  match l.kind with
  | .branch =>
    if options.branchLabels then [.plain ("LABEL_" ++ Numeral.decimal pos ++ ":")] else []
  | .randomCase => [.plain "RANDOMCASE"]
  | .randomEnd => [.word ⟨"RANDOMEND", .closes 1⟩]

/-- The elements of a token; `isArg` says that the mark of an argument stands before it. The jumps
of random blocks and the table of names are not listed. -/
def Token.elements (names : NameTable) (isArg : Bool) : Token → List Element
  | .simple .endOfLine => [.lineEnd]
  | .endOfLineNumber _ => [.lineEnd]
  | .simple .arg => []
  | .simple tag => (tag.text?.map fun text => .word ⟨text, tag.shift⟩).toList
  | .shortBranch tag _ => (tag.text?.map fun text => .word ⟨text, tag.shift⟩).toList
  | .nameChecksum c =>
    let name := Literal.nameText names c
    [.plain (if isArg then "<" ++ name ++ ">" else name)]
  | .integer v => [.plain (Numeral.signed v.toInt)]
  | .hexInteger v => [.plain ("0x" ++ Numeral.hex v.toNat)]
  | .float x => [.plain x.text]
  | .string bytes => [.plain (Literal.stringText bytes)]
  | .localString bytes => [.plain ("#" ++ Literal.stringText bytes)]
  | .pair x y => [.plain ("PAIR" ++ Literal.listText [x.text, y.text])]
  | .vector x y z => [.plain ("VECTOR" ++ Literal.listText [x.text, y.text, z.text])]
  | .random tag weights _ =>
    let weights := weights.map fun w => Numeral.decimal w.toNat
    [.word ⟨(tag.keyword?.getD "RANDOM") ++ Literal.listText weights, .opens 1⟩]
  | .jump _ | .checksumName .. => []
  | .name _ | .arg _ | .argChecksum _ => []

def elements (options : ListingOptions) (s : Survey) (tokens : List (Nat × Token)) :
    List Element :=
  let afterArg := false :: tokens.map fun t => t.2 = .simple .arg
  (List.zipWith
    (fun t isArg => (s.labelsAt t.1).flatMap (Label.elements options t.1)
      ++ t.2.elements s.names isArg)
    tokens afterArg).flatten

abbrev Line := List Word

namespace Line

def shift (l : Line) : Shift := l.foldl (fun s w => s.add w.shift) .none

/-- The depth of the line itself after lines of depth `depth`: what it closes on balance counts
already, what it opens not yet. -/
def ownDepth (l : Line) (depth : Nat) : Nat :=
  (depth + l.shift.level + min l.shift.balance 0).toNat

def nextDepth (l : Line) (depth : Nat) : Nat :=
  (depth + l.shift.level + l.shift.balance).toNat

/-- A line without words is not indented. -/
def text (indent : String) (l : Line) (depth : Nat) : String :=
  if l.isEmpty then ""
  else String.join (List.replicate (l.ownDepth depth) indent) ++ " ".intercalate (l.map Word.text)

/-- After the end of a script comes a blank line. -/
def ending (l : Line) : String := if l.shift.endsScript then "\n\n" else "\n"

end Line

/-- The lines of a listing; the last one has no end. -/
structure Sheet where
  lines : List Line
  last : Line
  deriving DecidableEq

namespace Sheet

def ofElements (es : List Element) : Sheet :=
  es.foldr
    (fun e s =>
      match e, s.lines with
      | .lineEnd, lines => ⟨[] :: lines, s.last⟩
      | .word w, [] => ⟨[], w :: s.last⟩
      | .word w, l :: lines => ⟨(w :: l) :: lines, s.last⟩)
    ⟨[], []⟩

/-- The texts of lines after those of depth `depth`, and the depth after them, with the texts
`done` before them in reverse. -/
def linesFrom (indent : String) (done : List String) (depth : Nat) :
    List Line → List String × Nat
  | [] => (done.reverse, depth)
  | l :: rest =>
    linesFrom indent ((l.text indent depth ++ l.ending) :: done) (l.nextDepth depth) rest

def withoutFinalBlank (s : String) : String :=
  match s.toList.reverse with
  | '\n' :: '\n' :: rest => String.ofList ('\n' :: rest).reverse
  | _ => s

def text (indent : String) (s : Sheet) : String :=
  let (texts, depth) := linesFrom indent [] 0 s.lines
  withoutFinalBlank (String.join (texts ++ [s.last.text indent depth]))

end Sheet

end QbScript
