import QbScript.CommandLine.Run

/-!
# The program

Runs its command line on the machine it is started on.
-/

set_option autoImplicit false

namespace QbScript

namespace Main

def details : IO.Error → UInt32 × String
  | .alreadyExists _ code text | .invalidArgument _ code text | .permissionDenied _ code text
  | .resourceExhausted _ code text | .inappropriateType _ code text
  | .noSuchThing _ code text => (code, text)
  | .otherError code text | .resourceBusy code text | .resourceVanished code text
  | .unsupportedOperation code text | .hardwareFault code text
  | .unsatisfiedConstraints code text | .illegalOperation code text | .protocolError code text
  | .timeExpired code text => (code, text)
  | .interrupted _ code text | .noFileOrDirectory _ code text => (code, text)
  | .unexpectedEof => (0, "unexpected end of file")
  | .userError text => (0, text)

/-- The number of an error may be given as a negative one. -/
def osError (e : IO.Error) : OsError :=
  let (code, text) := details e
  let code := if code < 0x80000000 then code.toNat else (-code).toNat
  let known := [OsError.notFound, .alreadyExists, .notDirectory, .isDirectory, .nameTooLong]
  (known.find? fun k => k.code = code).getD (.other code text)

def attempt {α : Type} (action : IO α) : IO (Except OsError α) := do
  try return .ok (← action)
  catch e => return .error (osError e)

partial def readAll (stream : IO.FS.Stream) (done : ByteArray) : IO ByteArray := do
  let chunk ← stream.read 65536
  if chunk.isEmpty then return done else readAll stream (done ++ chunk)

instance : Host IO where
  input := do return (← readAll (← IO.getStdin) .empty).toList
  now := IO.monoMsNow
  readFile path := attempt do return (← IO.FS.readBinFile path).toList
  writeFile path bytes := attempt (IO.FS.writeBinFile path ⟨bytes.toArray⟩)
  exists? path := do return (← attempt (IO.FS.realPath path)).isOk
  isDirectory path := do return (← attempt (IO.FS.realPath (path ++ "/."))).isOk
  makeDirectory path := attempt (IO.FS.createDir path)
  removeFile path := attempt (IO.FS.removeFile path)
  rename source target := attempt (IO.FS.rename source target)

end Main

end QbScript

def main (args : List String) : IO UInt32 := do
  let outcome ← (QbScript.CommandLine.run args : IO QbScript.CommandLine.Outcome)
  let output ← IO.getStdout
  output.write ⟨outcome.output.toArray⟩
  output.flush
  IO.eprint outcome.messages
  return outcome.status.toUInt32
