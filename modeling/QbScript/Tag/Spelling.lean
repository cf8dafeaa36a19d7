import QbScript.Tag

/-!
# Spellings of tags

The words and signs that stand for a tag in a script, and the name of a tag in a message. A
keyword may be written in any letter case.
-/

set_option autoImplicit false

namespace QbScript

namespace Tag

def keywords : List (String × Tag) :=
  [("BEGIN", .begin),
   ("REPEAT", .repeat),
   ("BREAK", .break),
   ("SCRIPT", .script),
   ("ENDSCRIPT", .endScript),
   ("IF", .if),
   ("ELSE", .else),
   ("ELSEIF", .elseIf),
   ("ENDIF", .endIf),
   ("RETURN", .return),
   ("RANDOM", .random),
   ("RANDOM2", .random2),
   ("RANDOM_NO_REPEAT", .randomNoRepeat),
   ("RANDOM_PERMUTE", .randomPermute),
   ("RANDOMCASE", .randomCase),
   ("RANDOMEND", .randomEnd),
   ("RANDOM_RANGE", .randomRange),
   ("RANDOM_RANGE2", .randomRange2),
   ("NOT", .not),
   ("AND", .keywordAnd),
   ("OR", .keywordOr),
   ("SWITCH", .switch),
   ("ENDSWITCH", .endSwitch),
   ("CASE", .case),
   ("DEFAULT", .default),
   ("VECTOR", .vector),
   ("PAIR", .pair)]

/-- The tag of a reserved word; the case of its ASCII letters does not matter. -/
def ofKeyword? (word : String) : Option Tag :=
  (keywords.find? fun entry => entry.1 == word.toUpper).map (·.2)

def keyword? (t : Tag) : Option String :=
  (keywords.find? fun entry => entry.2 == t).map (·.1)

/-- What stands for a tag in a script: a sign or a reserved word. Both conditionals of a fast
stream are written as the plain ones. -/
def text? (t : Tag) : Option String :=
  match t with
  | .startStruct => some "\x7b"
  | .endStruct => some "\x7d"
  | .startArray => some "["
  | .endArray => some "]"
  | .equals => some "="
  | .dot => some "."
  | .comma => some ","
  | .minus => some "-"
  | .add => some "+"
  | .divide => some "/"
  | .multiply => some "*"
  | .openParenth => some "("
  | .closeParenth => some ")"
  | .sameAs => some "=="
  | .lessThan => some "<"
  | .lessThanEqual => some "<="
  | .greaterThan => some ">"
  | .greaterThanEqual => some ">="
  | .allArgs => some "<...>"
  | .or => some "|"
  | .and => some "&"
  | .xor => some "^"
  | .shiftLeft => some "<<"
  | .shiftRight => some ">>"
  | .colon => some ":"
  | .fastIf => some "IF"
  | .fastElse => some "ELSE"
  | _ => t.keyword?

def title : Tag → String
  | .randomEnd => "RandomEnd"
  | .randomCase => "RandomCase"
  | .label => "Label"
  | .nameChecksum => "NameChecksum"
  | .argChecksum => "ArgChecksum"
  | .endOfFile => "EndOfFile"
  | .endOfLine => "EndOfLine"
  | .endOfLineNumber => "EndOfLineNumber"
  | .startStruct => "StartStruct"
  | .endStruct => "EndStruct"
  | .startArray => "StartArray"
  | .endArray => "EndArray"
  | .equals => "Equals"
  | .dot => "Dot"
  | .comma => "Comma"
  | .minus => "Minus"
  | .add => "Add"
  | .divide => "Divide"
  | .multiply => "Multiply"
  | .openParenth => "OpenParenth"
  | .closeParenth => "CloseParenth"
  | .debugInfo => "DebugInfo"
  | .sameAs => "SameAs"
  | .lessThan => "LessThan"
  | .lessThanEqual => "LessThanEqual"
  | .greaterThan => "GreaterThan"
  | .greaterThanEqual => "GreaterThanEqual"
  | .name => "Name"
  | .integer => "Integer"
  | .hexInteger => "HexInteger"
  | .enum => "Enum"
  | .float => "Float"
  | .string => "String"
  | .localString => "LocalString"
  | .array => "Array"
  | .vector => "Vector"
  | .pair => "Pair"
  | .begin => "Begin"
  | .repeat => "Repeat"
  | .break => "Break"
  | .script => "Script"
  | .endScript => "EndScript"
  | .if => "If"
  | .else => "Else"
  | .elseIf => "ElseIf"
  | .endIf => "EndIf"
  | .return => "Return"
  | .undefined => "Undefined"
  | .checksumName => "ChecksumName"
  | .allArgs => "AllArgs"
  | .arg => "Arg"
  | .jump => "Jump"
  | .random => "Random"
  | .randomRange => "RandomRange"
  | .at => "At"
  | .or => "Or"
  | .and => "And"
  | .xor => "Xor"
  | .shiftLeft => "ShiftLeft"
  | .shiftRight => "ShiftRight"
  | .random2 => "Random2"
  | .randomRange2 => "RandomRange2"
  | .not => "Not"
  | .keywordAnd => "KeywordAnd"
  | .keywordOr => "KeywordOr"
  | .switch => "Switch"
  | .endSwitch => "EndSwitch"
  | .case => "Case"
  | .default => "Default"
  | .randomNoRepeat => "RandomNoRepeat"
  | .randomPermute => "RandomPermute"
  | .colon => "Colon"
  | .fastIf => "FastIf"
  | .fastElse => "FastElse"
  | .shortJump => "ShortJump"

def ofTitle? (s : String) : Option Tag :=
  all.find? fun t => t.title == s

/-- How a tag is shown to a reader: as it is written in a script, or else by its name. -/
def display (t : Tag) : String :=
  t.text?.getD t.title

theorem mem_keywords_of_ofKeyword? {word : String} {t : Tag} (h : ofKeyword? word = some t) :
    (word.toUpper, t) ∈ keywords := by
  obtain ⟨entry, hf, rfl⟩ := Option.map_eq_some_iff.mp h
  have hw : entry.1 = word.toUpper := by simpa using List.find?_some hf
  simpa [← hw] using List.mem_of_find?_eq_some hf

end Tag

end QbScript
