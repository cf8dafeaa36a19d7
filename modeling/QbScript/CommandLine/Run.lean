import QbScript.CommandLine.Execute
import QbScript.CommandLine.Words

/-!
# Running a command line
-/

set_option autoImplicit false

namespace QbScript

namespace CommandLine

def run {m : Type → Type} [Monad m] [Host m] (words : List String) : m Outcome :=
  runWith Command.ofWords words

end CommandLine

end QbScript
