import QbScript.Bytecode.Error
import QbScript.NameTable
import QbScript.Script.Phrase
import QbScript.Source.LineMap

/-!
# Errors of scripts

Why a source has no stream. Each error names the place in the source where it shows.
-/

set_option autoImplicit false

namespace QbScript

inductive Imbalance where
  | elseAfterElse
  | elseWithoutIf
  | endIfWithoutIf
  /-- A branch, with a value or without, that no switch is open for. -/
  | caseOutsideSwitch (tag : Tag)
  | endSwitchWithoutSwitch
  | caseOutsideRandom
  | surplusCase
  | endOutsideRandom
  | missingCases (filled count : Nat)
  | unclosedIf
  | unclosedElse
  | unclosedSwitch
  | unclosedRandom
  deriving DecidableEq

namespace Imbalance

def construct : Imbalance → String
  | .elseAfterElse | .elseWithoutIf | .unclosedElse => "ELSE"
  | .endIfWithoutIf => "ENDIF"
  | .caseOutsideSwitch tag => tag.display
  | .endSwitchWithoutSwitch => "ENDSWITCH"
  | .caseOutsideRandom | .surplusCase => "RANDOMCASE"
  | .endOutsideRandom | .missingCases .. => "RANDOMEND"
  | .unclosedIf => "IF"
  | .unclosedSwitch => "SWITCH"
  | .unclosedRandom => "RANDOM"

def message : Imbalance → String
  | .elseAfterElse => "ELSE after ELSE"
  | .elseWithoutIf => "ELSE without IF"
  | .endIfWithoutIf => "ENDIF without IF"
  | .caseOutsideSwitch _ | .endSwitchWithoutSwitch => "no open SWITCH"
  | .caseOutsideRandom | .endOutsideRandom => "no open RANDOM"
  | .surplusCase => "more cases than weights"
  | .missingCases filled count =>
    "random was incomplete (" ++ Numeral.decimal filled ++ " of " ++ Numeral.decimal count
      ++ " cases)"
  | .unclosedIf | .unclosedElse => "missing ENDIF"
  | .unclosedSwitch => "missing ENDSWITCH"
  | .unclosedRandom => "missing RANDOMEND"

end Imbalance

inductive CompileError where
  | malformed (place : Position) (cause : Malformation)
  | unbalanced (line : Nat) (cause : Imbalance)
  | collision (c : Collision)
  | branchTooFar (line : Nat) (distance : Int)
  | lexical (place : Position) (error : LexError)
  | stream (e : Bytecode.Error)
  deriving DecidableEq

namespace CompileError

def atPosition (place : Position) (what : String) : String :=
  "line " ++ Numeral.decimal place.line ++ ", column " ++ Numeral.decimal place.column
    ++ ": syntax error: " ++ what

def message : CompileError → String
  | .malformed place cause => atPosition place cause.message
  | .unbalanced line cause =>
    "line " ++ Numeral.decimal line ++ ": unbalanced " ++ cause.construct ++ ": " ++ cause.message
  | .collision c => c.message
  | .branchTooFar line distance =>
    "line " ++ Numeral.decimal line ++ ": branch distance " ++ Numeral.signed distance
      ++ " does not fit in a short jump"
  | .lexical place error => atPosition place error.cause.message
  | .stream e => e.message

end CompileError

end QbScript
