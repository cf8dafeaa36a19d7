import QbScript.Text.Numeral

/-!
# Quoted text in messages

How a message quotes a text or a character: in quotation marks, with escapes for the marks, the
backslash and whatever would not show.
-/

set_option autoImplicit false

namespace QbScript

namespace Quoted

/-- Ranges of characters that do not show by themselves: controls, spaces other than the blank,
separators, format characters, combining marks, and what is for private use or not assigned. -/
def unprintable : List (Nat × Nat) :=
  [(0x00, 0x1f), (0x7f, 0xa0), (0xad, 0xad), (0x300, 0x36f), (0x483, 0x489), (0x591, 0x5bd),
   (0x600, 0x605), (0x610, 0x61a), (0x61c, 0x61c), (0x64b, 0x65f), (0x6dd, 0x6dd),
   (0x70f, 0x70f), (0x1680, 0x1680), (0x180b, 0x180f), (0x1ab0, 0x1aff), (0x1dc0, 0x1dff),
   (0x2000, 0x200f), (0x2028, 0x202f), (0x205f, 0x206f), (0x20d0, 0x20f0), (0x3000, 0x3000),
   (0x302a, 0x302f), (0x3099, 0x309a), (0xe000, 0xf8ff), (0xfb1e, 0xfb1e),
   (0xfe00, 0xfe0f), (0xfe20, 0xfe2f), (0xfeff, 0xfeff), (0xfff0, 0xfffb), (0xfffe, 0xffff),
   (0xe0000, 0x10ffff)]

def isUnprintable (c : Char) : Bool :=
  unprintable.any fun range => range.1 ≤ c.toNat && c.toNat ≤ range.2

def escapeChar (mark c : Char) : List Char :=
  if c = '\\' then ['\\', '\\']
  else if c = '\n' then ['\\', 'n']
  else if c = '\r' then ['\\', 'r']
  else if c = '\t' then ['\\', 't']
  else if c = '\x00' then ['\\', '0']
  else if c = mark then ['\\', mark]
  else if isUnprintable c then ['\\', 'u', '\x7b'] ++ (Numeral.hex c.toNat).toList ++ ['\x7d']
  else [c]

def enclose (mark : Char) (s : List Char) : String :=
  String.ofList (mark :: s.flatMap (escapeChar mark) ++ [mark])

def text (s : String) : String := enclose '"' s.toList

def char (c : Char) : String := enclose '\x27' [c]

end Quoted

end QbScript
