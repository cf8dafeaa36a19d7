/-!
# What a command needs of its surroundings

Files, an input and a clock, as operations of any monad that offers them. A file operation fails
with the error of the operating system.
-/

set_option autoImplicit false

namespace QbScript

inductive OsError where
  | notFound
  | alreadyExists
  | notDirectory
  | isDirectory
  | nameTooLong
  | other (code : Nat) (text : String)
  deriving DecidableEq

namespace OsError

def code : OsError → Nat
  | .notFound => 2
  | .alreadyExists => 17
  | .notDirectory => 20
  | .isDirectory => 21
  | .nameTooLong => 36
  | .other code _ => code

def text : OsError → String
  | .notFound => "No such file or directory"
  | .alreadyExists => "File exists"
  | .notDirectory => "Not a directory"
  | .isDirectory => "Is a directory"
  | .nameTooLong => "File name too long"
  | .other _ text => text

end OsError

class Host (m : Type → Type) where
  /-- All of the input. -/
  input : m (List UInt8)
  /-- Milliseconds since some moment. -/
  now : m Nat
  readFile : (path : String) → m (Except OsError (List UInt8))
  /-- Makes a file or empties it, and writes `bytes` to it. -/
  writeFile : (path : String) → (bytes : List UInt8) → m (Except OsError Unit)
  exists? : (path : String) → m Bool
  isDirectory : (path : String) → m Bool
  makeDirectory : (path : String) → m (Except OsError Unit)
  removeFile : (path : String) → m (Except OsError Unit)
  /-- Moves a file in one step, over another one if there is one. -/
  rename : (source target : String) → m (Except OsError Unit)

/-- With failures of its own a monad has the same surroundings. -/
instance {ε : Type} {m : Type → Type} [Monad m] [Host m] : Host (ExceptT ε m) where
  input := ExceptT.lift Host.input
  now := ExceptT.lift Host.now
  readFile path := ExceptT.lift (Host.readFile path)
  writeFile path bytes := ExceptT.lift (Host.writeFile path bytes)
  exists? path := ExceptT.lift (Host.exists? path)
  isDirectory path := ExceptT.lift (Host.isDirectory path)
  makeDirectory path := ExceptT.lift (Host.makeDirectory path)
  removeFile path := ExceptT.lift (Host.removeFile path)
  rename source target := ExceptT.lift (Host.rename source target)

end QbScript
