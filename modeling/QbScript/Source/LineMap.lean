/-!
# Lines and columns

Where the lines of a source start, and the line and column of an offset. Both count from one, and
columns count bytes. Looking an offset up takes one bisection of the line starts.
-/

set_option autoImplicit false

namespace QbScript

structure Position where
  line : Nat
  column : Nat
  deriving DecidableEq

/-- The offsets at which lines start. -/
structure LineMap where
  starts : Array Nat

namespace LineMap

def startsAfter (offset : Nat) : List Char → List Nat
  | [] => []
  | c :: rest =>
    if c = '\n' then (offset + c.utf8Size) :: startsAfter (offset + c.utf8Size) rest
    else startsAfter (offset + c.utf8Size) rest

def ofText (text : List Char) : LineMap := ⟨(0 :: startsAfter 0 text).toArray⟩

def lineCount (m : LineMap) : Nat := m.starts.size

/-- Among the `size` lines from line `base` on, the last that does not start after `offset`; or
`base`. -/
def bisect (starts : Array Nat) (offset base size : Nat) : Nat :=
  if size ≤ 1 then base
  else
    let half := size / 2
    let mid := base + half
    bisect starts offset (if offset < starts.getD mid 0 then base else mid) (size - half)
  termination_by size

def lineIndex (m : LineMap) (offset : Nat) : Nat :=
  let i := bisect m.starts offset 0 m.starts.size
  if offset < m.starts.getD i 0 then i - 1 else i

def position (m : LineMap) (offset : Nat) : Position :=
  let i := m.lineIndex offset
  ⟨i + 1, offset - m.starts.getD i 0 + 1⟩

end LineMap

end QbScript
