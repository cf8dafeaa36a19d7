import QbScript.Bytecode.Encode
import QbScript.Bytecode.Link
import QbScript.Bytecode.Decode
import QbScript.Script.Error

/-!
# Assembly

A stream is put together phrase by phrase. Addresses that lead forward are left open, with a frame
for each construct that is not closed yet, and are linked when the construct goes on. Conditionals,
switches and random blocks are balanced each on their own.
-/

set_option autoImplicit false

namespace QbScript

/-- What a stream is meant for: on the fast target conditionals and switches carry addresses. -/
inductive Target where
  | plain
  | fast
  deriving DecidableEq

structure CompileOptions where
  target : Target
  /-- Line ends carry the numbers of their lines. -/
  lineNumbers : Bool
  deriving DecidableEq

structure ConditionalFrame where
  hasElse : Bool
  field : Nat
  line : Nat

structure SwitchCase where
  /-- The address of the jump before the branch, to the end of the switch; the first has none. -/
  skip : Option Nat
  start : Nat
  /-- The address of the jump after the branch's tag, to the next branch. -/
  next : Nat

/-- An open switch and its branches, the last one first. -/
structure SwitchFrame where
  cases : List SwitchCase
  line : Nat

structure RandomFrame where
  header : Nat
  count : Nat
  /-- How many branches are open or done. -/
  filled : Nat
  /-- The addresses of the jumps to the end of the block, the last one first. -/
  ends : List Nat
  line : Nat

structure Assembly where
  out : Bytecode
  names : NameTable
  conditionals : List ConditionalFrame
  switches : List SwitchFrame
  randoms : List RandomFrame
  /-- The size of the stream just after the last line end. -/
  lineEnd : Option Nat
  /-- The addresses that were linked, the last one first. No phrase is added differently for them:
  they tell where the stream was written over. -/
  linked : List Bytecode.Address

namespace Assembly

open Bytecode

def start : Assembly := ⟨#[], NameTable.empty, [], [], [], none, []⟩

def write (a : Assembly) (t : Token) : Except CompileError Assembly :=
  match t.encode with
  | .ok bytes => .ok { a with out := a.out ++ bytes.toArray }
  | .error e => .error (.stream e)

def linkError (line : Nat) : LinkError → CompileError
  | .tooFar distance => .branchTooFar line distance
  | .stream e => .stream e

def linkShort (a : Assembly) (line pos target : Nat) : Except CompileError Assembly :=
  match a.out.linkShort pos target with
  | .ok out => .ok { a with out, linked := .short pos :: a.linked }
  | .error e => .error (linkError line e)

def linkLong (a : Assembly) (line pos target : Nat) : Except CompileError Assembly :=
  match a.out.linkLong pos target with
  | .ok out => .ok { a with out, linked := .long pos :: a.linked }
  | .error e => .error (linkError line e)

/-- Enters a name and writes what it is known by. -/
def writeName (a : Assembly) (text : String) (asToken : Checksum → Token) :
    Except CompileError Assembly :=
  match a.names.insert text with
  | .ok names => write { a with names } (asToken (Checksum.ofName text))
  | .error c => .error (.collision c)

/-- Writes a line end, unless nothing was written since the last one. -/
def writeLineEnd (options : CompileOptions) (a : Assembly) (line : Nat) :
    Except CompileError Assembly := do
  if a.lineEnd = some a.out.size then return a
  let a ← a.write (
    if options.lineNumbers then .endOfLineNumber (UInt32.ofNat line) else .simple .endOfLine)
  return { a with lineEnd := some a.out.size }

def openRandom (a : Assembly) (line : Nat) (tag : Tag) (weights : List UInt16)
    (jumps : List Int32) : Except CompileError Assembly :=
  let frame : RandomFrame := ⟨a.out.size, weights.length, 0, [], line⟩
  write { a with randoms := frame :: a.randoms } (.random tag weights jumps)

/-- Starts a branch of the innermost random block. Before every branch but the first a jump leads
to the end of the block. -/
def startRandomCase (a : Assembly) (line : Nat) : Except CompileError Assembly :=
  match a.randoms with
  | [] => .error (.unbalanced line .caseOutsideRandom)
  | f :: outer =>
    if f.count ≤ f.filled then .error (.unbalanced line .surplusCase)
    else do
      let isFirst := f.filled = 0
      let field := a.out.size + 1
      let a ← if isFirst then pure a else a.write (.jump 0)
      let ends := if isFirst then f.ends else field :: f.ends
      let a := { a with randoms := { f with filled := f.filled + 1, ends } :: outer }
      a.linkLong line (slot f.header f.count f.filled) a.out.size

def closeRandom (a : Assembly) (line : Nat) : Except CompileError Assembly :=
  match a.randoms with
  | [] => .error (.unbalanced line .endOutsideRandom)
  | f :: outer =>
    if f.filled ≠ f.count then .error (.unbalanced line (.missingCases f.filled f.count))
    else
      f.ends.reverse.foldlM (fun a field => a.linkLong line field a.out.size)
        { a with randoms := outer }

def openConditional (a : Assembly) (line : Nat) : Except CompileError Assembly :=
  let frame : ConditionalFrame := ⟨false, a.out.size + 1, line⟩
  write { a with conditionals := frame :: a.conditionals } (.shortBranch .fastIf 0)

/-- The false branch starts after the token that ends the true one. -/
def startElse (a : Assembly) (line : Nat) : Except CompileError Assembly :=
  match a.conditionals with
  | [] => .error (.unbalanced line .elseWithoutIf)
  | f :: outer =>
    if f.hasElse then .error (.unbalanced line .elseAfterElse)
    else do
      let a ← a.linkShort line f.field (a.out.size + 3)
      let frame : ConditionalFrame := ⟨true, a.out.size + 1, line⟩
      write { a with conditionals := frame :: outer } (.shortBranch .fastElse 0)

def closeConditional (a : Assembly) (line : Nat) : Except CompileError Assembly :=
  match a.conditionals with
  | [] => .error (.unbalanced line .endIfWithoutIf)
  | f :: outer => do
    let a ← linkShort { a with conditionals := outer } line f.field (a.out.size + 1)
    a.write (.simple .endIf)

def openSwitch (a : Assembly) (line : Nat) : Except CompileError Assembly :=
  write { a with switches := ⟨[], line⟩ :: a.switches } (.simple .switch)

/-- Starts a branch of the innermost switch. Before every branch but the first a jump leads behind
the switch, and after the tag of each a jump leads to the next. A jump takes three bytes. -/
def startCase (a : Assembly) (line : Nat) (tag : Tag) : Except CompileError Assembly :=
  match a.switches with
  | [] => .error (.unbalanced line (.caseOutsideSwitch tag))
  | f :: outer => do
    let isFirst := f.cases.isEmpty
    let start := if isFirst then a.out.size else a.out.size + 3
    let skip := if isFirst then none else some (a.out.size + 1)
    let frame : SwitchFrame := { f with cases := ⟨skip, start, start + 2⟩ :: f.cases }
    let a := { a with switches := frame :: outer }
    let a ← if isFirst then pure a else a.write (.shortBranch .shortJump 0)
    let a ← a.write (.simple tag)
    a.write (.shortBranch .shortJump 0)

def linkCases (line finish : Nat) (a : Assembly) : List SwitchCase → Except CompileError Assembly
  | [] => .ok a
  | c :: rest => do
    let next := (rest.head?.map (·.start)).getD finish
    let a ← a.linkShort line c.next next
    let a ← match c.skip with
      | some field => a.linkShort line field (finish + 1)
      | none => pure a
    linkCases line finish a rest

def closeSwitch (a : Assembly) (line : Nat) : Except CompileError Assembly :=
  match a.switches with
  | [] => .error (.unbalanced line .endSwitchWithoutSwitch)
  | f :: outer => do
    let a ← linkCases line a.out.size { a with switches := outer } f.cases.reverse
    a.write (.simple .endSwitch)

def addFast (a : Assembly) (line : Nat) (place : Position) (tag : Tag) :
    Except CompileError Assembly :=
  match tag with
  | .if => a.openConditional line
  | .else => a.startElse line
  | .endIf => a.closeConditional line
  | .elseIf => .error (.malformed place .elseIfOnFastTarget)
  | .switch => a.openSwitch line
  | .case | .default => a.startCase line tag
  | .endSwitch => a.closeSwitch line
  | _ => a.write (.simple tag)

def add (options : CompileOptions) (a : Assembly) (place : Position) (t : Token) :
    Except CompileError Assembly :=
  match t with
  | .name text => a.writeName text .nameChecksum
  | .arg text => a.writeName text .argChecksum
  | .random tag weights jumps => a.openRandom place.line tag weights jumps
  | .simple .endOfLine => writeLineEnd options a place.line
  | .simple .randomCase => a.startRandomCase place.line
  | .simple .randomEnd => a.closeRandom place.line
  | .simple tag =>
    match options.target with
    | .plain => a.write (.simple tag)
    | .fast => a.addFast place.line place tag
  | t => a.write t

def unclosed? (a : Assembly) : Option CompileError :=
  match a.conditionals, a.switches, a.randoms with
  | f :: _, _, _ => some (.unbalanced f.line (if f.hasElse then .unclosedElse else .unclosedIf))
  | [], f :: _, _ => some (.unbalanced f.line .unclosedSwitch)
  | [], [], f :: _ => some (.unbalanced f.line .unclosedRandom)
  | [], [], [] => none

/-- Closes the stream with the table of names and the end mark. -/
def finish (a : Assembly) : Except CompileError Bytecode := do
  if let some e := a.unclosed? then
    throw e
  let a ← a.names.toList.foldlM (fun a entry => a.write (.checksumName entry.1 entry.2)) a
  let a ← a.write (.simple .endOfFile)
  return a.out

end Assembly

end QbScript
