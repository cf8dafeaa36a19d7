import QbScript.Host
import QbScript.Path
import QbScript.Text.Utf8

/-!
# A tree of files

Files and directories in memory, with the usual rules for paths: a path is followed component by
component, each of which is looked up in a directory, and a slash at the end asks for a directory.
Names and whole paths have a greatest length. `Machine` is a host that has nothing else.
-/

set_option autoImplicit false

namespace QbScript

inductive Node where
  | file (bytes : List UInt8)
  | directory
  deriving DecidableEq

/-- The components that lead from the root to a place. -/
abbrev Place := List String

/-- What is at each place. The root is always a directory. -/
structure FileTree where
  entries : List (Place × Node)
  deriving DecidableEq

namespace FileTree

def empty : FileTree := ⟨[]⟩

def get? (t : FileTree) (p : Place) : Option Node :=
  if p = [] then some .directory else t.entries.lookup p

def erase (t : FileTree) (p : Place) : FileTree :=
  ⟨t.entries.filter fun e => e.1 ≠ p⟩

def set (t : FileTree) (p : Place) (n : Node) : FileTree :=
  ⟨(p, n) :: (t.erase p).entries⟩

/-- What lies below the directory `p`, by the path from there. -/
def below (t : FileTree) (p : Place) : List (Place × Node) :=
  t.entries.filterMap fun e =>
    if p.isPrefixOf e.1 ∧ e.1 ≠ p then some (e.1.drop p.length, e.2) else none

def maxName : Nat := 255

def maxPath : Nat := 4095

/-- The place that `components` lead to from `p`; there need not be anything, but in all places on
the way there must be a directory. -/
def walk (t : FileTree) (p : Place) : List String → Except OsError Place
  | [] => .ok p
  | c :: rest =>
    match t.get? p with
    | none => .error .notFound
    | some (.file _) => .error .notDirectory
    | some .directory =>
      if c = "." then t.walk p rest
      else if c = ".." then t.walk p.dropLast rest
      else if maxName < (Utf8.ofString c).length then .error .nameTooLong
      else t.walk (p ++ [c]) rest

def components (path : String) : List String :=
  ((path.toList.splitOnP (· = '/')).filter (· ≠ [])).map String.ofList

def asksDirectory (path : String) : Bool := path.toList.getLast? = some '/'

/-- The place of a path, for one who is at `cwd`. -/
def locate (t : FileTree) (cwd : Place) (path : String) : Except OsError Place :=
  if path = "" then .error .notFound
  else if maxPath < (Utf8.ofString path).length then .error .nameTooLong
  else t.walk (if path.toList.head? = some '/' then [] else cwd) (components path)

def look (t : FileTree) (cwd : Place) (path : String) : Except OsError Node := do
  let p ← t.locate cwd path
  match t.get? p with
  | none => .error .notFound
  | some .directory => .ok .directory
  | some (.file bytes) => if asksDirectory path then .error .notDirectory else .ok (.file bytes)

def readFile (t : FileTree) (cwd : Place) (path : String) : Except OsError (List UInt8) := do
  match ← t.look cwd path with
  | .file bytes => .ok bytes
  | .directory => .error .isDirectory

def writeFile (t : FileTree) (cwd : Place) (path : String) (bytes : List UInt8) :
    Except OsError FileTree := do
  let p ← t.locate cwd path
  if asksDirectory path ∨ t.get? p = some .directory then .error .isDirectory
  else .ok (t.set p (.file bytes))

def makeDirectory (t : FileTree) (cwd : Place) (path : String) : Except OsError FileTree := do
  let p ← t.locate cwd path
  if (t.get? p).isSome then .error .alreadyExists else .ok (t.set p .directory)

def removeFile (t : FileTree) (cwd : Place) (path : String) : Except OsError FileTree := do
  let p ← t.locate cwd path
  match ← t.look cwd path with
  | .file _ => .ok (t.erase p)
  | .directory => .error .isDirectory

def rename (t : FileTree) (cwd : Place) (source target : String) : Except OsError FileTree := do
  let p ← t.locate cwd source
  match ← t.look cwd source with
  | .directory => .error .isDirectory
  | .file bytes =>
    let q ← t.locate cwd target
    if t.get? q = some .directory then .error .isDirectory
    else if asksDirectory target then .error .notDirectory
    else .ok ((t.erase p).set q (.file bytes))

end FileTree

/-- A host in memory. Its clock stands still. -/
structure Machine where
  files : FileTree
  cwd : Place
  input : List UInt8

namespace Machine

/-- Runs an operation that changes the files; one that fails does not. -/
def change (f : FileTree → Place → Except OsError FileTree) :
    StateM Machine (Except OsError Unit) :=
  fun s =>
    match f s.files s.cwd with
    | .ok files => (.ok (), { s with files })
    | .error e => (.error e, s)

instance : Host (StateM Machine) where
  input := fun s => (s.input, s)
  now := pure 0
  readFile path := fun s => (s.files.readFile s.cwd path, s)
  writeFile path bytes := change fun t cwd => t.writeFile cwd path bytes
  exists? path := fun s => ((s.files.look s.cwd path).isOk, s)
  isDirectory path := fun s =>
    ((s.files.look s.cwd path).toOption = some .directory, s)
  makeDirectory path := change fun t cwd => t.makeDirectory cwd path
  removeFile path := change fun t cwd => t.removeFile cwd path
  rename source target := change fun t cwd => t.rename cwd source target

end Machine

end QbScript
