import QbScript.Bytecode.Field
import QbScript.Token

/-!
# The tokens of a stream

How far a token reaches follows from its tag and its own bytes; what it holds is read after that. A
stream is read token by token up to the end mark, or up to the first position where no whole token
stands.
-/

set_option autoImplicit false

namespace QbScript

inductive Layout where
  /-- The end mark; no token follows. -/
  | final
  /-- So many bytes. -/
  | fixed (size : Nat)
  /-- A count, and so many bytes. -/
  | counted
  /-- A checksum, and bytes up to a zero. -/
  | terminated
  /-- A count, and so many weights and long addresses. -/
  | weighted
  | unknown
  deriving DecidableEq

def Tag.layout : Tag → Layout
  | .endOfFile => .final
  | .name | .integer | .hexInteger | .float | .endOfLineNumber | .jump => .fixed 5
  | .pair => .fixed 9
  | .vector => .fixed 13
  | .string | .localString => .counted
  | .checksumName => .terminated
  | .random | .random2 | .randomNoRepeat | .randomPermute => .weighted
  | .fastIf | .fastElse | .shortJump => .fixed 3
  | .debugInfo | .enum | .array | .undefined | .at => .unknown
  | .randomEnd | .randomCase | .label | .nameChecksum | .argChecksum => .unknown
  | _ => .fixed 1

namespace Bytecode

def extent (b : Bytecode) (pos n : Nat) : Except Error Nat :=
  (b.field pos n).map fun _ => pos + n

def zeroFrom? (b : Bytecode) (pos : Nat) : Option Nat :=
  if h : pos < b.size then
    if b[pos] = 0 then some pos else b.zeroFrom? (pos + 1)
  else none
  termination_by b.size - pos

/-- The end of the bytes at `pos` that a zero closes. -/
def terminatedEnd (b : Bytecode) (pos : Nat) : Except Error Nat :=
  match b.zeroFrom? pos with
  | some mark => .ok (mark + 1)
  | none => .error (.outOfRange pos (b.size - pos + 1) b.size)

def weightedSize (count : Nat) : Nat := 5 + 6 * count

/-- The position after the token at `pos`; none after the end mark. -/
def tokenEnd (b : Bytecode) (pos : Nat) : Except Error (Option Nat) := do
  let tag ← b.tagAt pos
  match tag.layout with
  | .final => return none
  | .fixed size => return some (← b.extent pos size)
  | .counted => return some (← b.extent (pos + 5) (← b.word32At (pos + 1)).toNat)
  | .terminated =>
    let start ← b.extent pos 5
    return some (← b.terminatedEnd start)
  | .weighted => return some (← b.extent pos (weightedSize (← b.word32At (pos + 1)).toNat))
  | .unknown => .error (.unknownTag (← b.byteAt pos) pos)

def weightsAt (b : Bytecode) (pos count : Nat) : Except Error (List UInt16) :=
  (List.range count).mapM fun i => b.word16At (pos + 5 + 2 * i)

/-- Where the address of branch `i` stands in a random head at `pos` with `count` branches. -/
def slot (pos count i : Nat) : Nat := pos + 5 + 2 * count + 4 * i

def withoutFinalZero (bytes : List UInt8) : List UInt8 :=
  if bytes.getLast? = some 0 then bytes.dropLast else bytes

def stringAt (b : Bytecode) (pos : Nat) : Except Error (List UInt8) := do
  let count ← b.word32At (pos + 1)
  return withoutFinalZero (← b.field (pos + 5) count.toNat)

/-- The token at `pos`. A name is read as its checksum, and the mark of an argument on its own. -/
def tokenAt (b : Bytecode) (pos : Nat) : Except Error Token := do
  let next ← b.tokenEnd pos
  let tag ← b.tagAt pos
  match tag with
  | .name => return .nameChecksum (← b.word32At (pos + 1))
  | .integer => return .integer (← b.int32At (pos + 1))
  | .hexInteger => return .hexInteger (← b.word32At (pos + 1))
  | .float => return .float (← b.floatAt (pos + 1))
  | .endOfLineNumber => return .endOfLineNumber (← b.word32At (pos + 1))
  | .jump => return .jump (← b.int32At (pos + 1))
  | .pair => return .pair (← b.floatAt (pos + 1)) (← b.floatAt (pos + 5))
  | .vector =>
    return .vector (← b.floatAt (pos + 1)) (← b.floatAt (pos + 5)) (← b.floatAt (pos + 9))
  | .string => return .string (← b.stringAt pos)
  | .localString => return .localString (← b.stringAt pos)
  | .checksumName =>
    let checksum ← b.word32At (pos + 1)
    let size := next.getD (pos + 6) - 1 - (pos + 5)
    return .checksumName checksum (Utf8.decodeLossy (← b.field (pos + 5) size))
  | .random | .random2 | .randomNoRepeat | .randomPermute =>
    let count := (← b.word32At (pos + 1)).toNat
    let weights ← b.weightsAt pos count
    let jumps ← (List.range count).mapM fun i => b.int32At (slot pos count i)
    return .random tag weights jumps
  | .fastIf | .fastElse | .shortJump => return .shortBranch tag (← b.int16At (pos + 1))
  | _ => return .simple tag

structure RandomHeader where
  tag : Tag
  weights : List UInt16
  targets : List Nat
  finish : Nat
  deriving DecidableEq

/-- The random head at `pos`; that its tag is one of a random block is left to the caller. -/
def randomHeader (b : Bytecode) (pos : Nat) : Except Error RandomHeader := do
  let tag ← b.tagAt pos
  let count := (← b.word32At (pos + 1)).toNat
  let finish ← b.extent pos (weightedSize count)
  let weights ← b.weightsAt pos count
  let targets ← (List.range count).mapM fun i => b.longAddress (slot pos count i)
  return ⟨tag, weights, targets, finish⟩

theorem extent_eq_ok_iff {b : Bytecode} {pos n next : Nat} :
    b.extent pos n = .ok next ↔ pos + n ≤ b.size ∧ next = pos + n := by
  unfold extent field
  split
  · rename_i hle
    simp [Except.map, hle, eq_comm]
  · rename_i hlt
    exact ⟨fun h => (nomatch h), fun h => absurd h.1 hlt⟩

theorem le_of_zeroFrom?_eq_some {b : Bytecode} {pos mark : Nat}
    (h : b.zeroFrom? pos = some mark) : pos ≤ mark ∧ mark < b.size := by
  fun_induction zeroFrom? b pos with
  | case1 pos hlt hz =>
    obtain rfl := Option.some.inj h
    exact ⟨Nat.le_refl _, hlt⟩
  | case2 pos hlt hz ih =>
    have := ih h
    omega
  | case3 => simp at h

theorem bounds_of_terminatedEnd_eq_ok {b : Bytecode} {pos next : Nat}
    (h : b.terminatedEnd pos = .ok next) : pos < next ∧ next ≤ b.size := by
  unfold terminatedEnd at h
  split at h
  · rename_i mark hz
    have := le_of_zeroFrom?_eq_some hz
    obtain rfl := Except.ok.inj h
    omega
  · simp at h

/-- Every token takes room, and it lies in the stream. -/
theorem bounds_of_tokenEnd_eq_ok {b : Bytecode} {pos next : Nat}
    (h : b.tokenEnd pos = .ok (some next)) : pos < next ∧ next ≤ b.size := by
  unfold tokenEnd at h
  cases ht : b.tagAt pos with
  | error e => simp [ht, bind, Except.bind] at h
  | ok tag =>
    have hsize : ∀ n, tag.layout = .fixed n → 0 < n := by
      cases tag <;> simp [Tag.layout]
    simp only [ht, bind, Except.bind] at h
    split at h
    · simp [pure, Except.pure] at h
    · rename_i size hl
      have := hsize size hl
      cases he : b.extent pos size with
      | error e => simp [he] at h
      | ok n =>
        have := extent_eq_ok_iff.mp he
        simp [he, pure, Except.pure] at h
        omega
    · cases hw : b.word32At (pos + 1) with
      | error e => simp [hw] at h
      | ok count =>
        cases he : b.extent (pos + 5) count.toNat with
        | error e => simp [hw, he] at h
        | ok n =>
          have := extent_eq_ok_iff.mp he
          simp [hw, he, pure, Except.pure] at h
          omega
    · cases he : b.extent pos 5 with
      | error e => simp [he] at h
      | ok start =>
        cases hz : b.terminatedEnd start with
        | error e => simp [he, hz] at h
        | ok n =>
          have := extent_eq_ok_iff.mp he
          have := bounds_of_terminatedEnd_eq_ok hz
          simp [he, hz, pure, Except.pure] at h
          omega
    · cases hw : b.word32At (pos + 1) with
      | error e => simp [hw] at h
      | ok count =>
        cases he : b.extent pos (weightedSize count.toNat) with
        | error e => simp [hw, he] at h
        | ok n =>
          have := extent_eq_ok_iff.mp he
          simp [hw, he, pure, Except.pure] at h
          simp only [weightedSize] at this
          omega
    · cases hb : b.byteAt pos with
      | error e => simp [hb] at h
      | ok byte => simp [hb] at h

/-- The tokens of a stream with their positions, and why no more are read when the end mark is not
the last of them. -/
structure Scan where
  tokens : List (Nat × Token)
  fault : Option Error
  deriving DecidableEq

def scanFrom (b : Bytecode) (pos : Nat) : Scan :=
  match b.tokenAt pos with
  | .error e => ⟨[], some e⟩
  | .ok token =>
    match h : b.tokenEnd pos with
    | .error e => ⟨[], some e⟩
    | .ok none => ⟨[(pos, token)], none⟩
    | .ok (some next) =>
      have := bounds_of_tokenEnd_eq_ok h
      let rest := b.scanFrom next
      ⟨(pos, token) :: rest.tokens, rest.fault⟩
  termination_by b.size - pos

def scan (b : Bytecode) : Scan := b.scanFrom 0

end Bytecode

end QbScript
