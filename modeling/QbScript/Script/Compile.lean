import QbScript.Script.Assembly

/-!
# Compilation

From a source to a stream: lexemes, phrases, assembly. The first error in the order of the source
decides, and no stream comes with it; constructs left open show at the end.
-/

set_option autoImplicit false

namespace QbScript

def Phrase.Gathered.assemble (options : CompileOptions) (lines : LineMap) (g : Phrase.Gathered) :
    Except CompileError Assembly := do
  let a ← g.phrases.foldlM (fun a p => a.add options (lines.position p.start) p.token)
    Assembly.start
  match g.fault with
  | some fault => .error (.malformed (lines.position fault.start) fault.cause)
  | none => .ok a

def compile (options : CompileOptions) (source : String) : Except CompileError Bytecode := do
  let text := source.toList
  let lines := LineMap.ofText text
  match Lexeme.ofText text with
  | .error e => .error (.lexical (lines.position e.span.start) e)
  | .ok lexemes =>
    let a ← (Phrase.ofLexemes lexemes).assemble options lines
    a.finish

end QbScript
