import QbScript.Proofs.Bytecode.Scan

/-!
# Reading with words of 64 bits

The positions of a stream are numbers without a bound, and a field of it is asked for before it is
taken. The readers here count in words of 64 bits: they stop where a number does not fit in a word,
where it would be negative, and where bytes are taken that are not there. On a stream of less than
2 ^ 63 bytes they read what the readers of the stream read. Only where an address leads to is
counted in words with a sign: near the end of a stream of more than 2 ^ 63 - 2 ^ 31 bytes there is
an address whose sum does not fit in one.
-/

set_option autoImplicit false

namespace QbScript

open LittleEndian

namespace Bytecode

/-- Why a reader with words of 64 bits gives nothing. -/
inductive Stop where
  /-- A number does not fit in a word. -/
  | wrapped
  /-- Bytes are taken that are not there. -/
  | outside
  | error (e : Error)

/-- What a reader of the stream gives, as what a reader with words of 64 bits gives. -/
def exact {α : Type} (x : Except Error α) : Except Stop α := x.mapError .error

namespace Machine

def word (n : Nat) : Except Stop Nat :=
  if n < 0x10000000000000000 then .ok n else .error .wrapped

def minus (m n : Nat) : Except Stop Nat := if n ≤ m then .ok (m - n) else .error .wrapped

/-- The bytes of `b` from `start` to `stop`, taken without being asked for. -/
def slice (b : Bytecode) (start stop : Nat) : Except Stop (List UInt8) :=
  if start ≤ stop ∧ stop ≤ b.size then .ok (b.extract start stop).toList else .error .outside

def field (b : Bytecode) (pos n : Nat) : Except Stop (List UInt8) :=
  if pos + n < 0x10000000000000000 ∧ pos + n ≤ b.size then slice b pos (pos + n)
  else .error (.error (.outOfRange pos n b.size))

def extent (b : Bytecode) (pos n : Nat) : Except Stop Nat := do
  let _ ← field b pos n
  word (pos + n)

def byteAt (b : Bytecode) (pos : Nat) : Except Stop UInt8 := do
  match (← field b pos 1)[0]? with
  | some byte => .ok byte
  | none => .error .outside

def valueAt {α : Type} (width : Nat) (read : List UInt8 → α) (b : Bytecode) (pos : Nat) :
    Except Stop α := do
  let bytes ← field b pos width
  if width ≤ bytes.length then .ok (read bytes) else .error .outside

def word16At : Bytecode → Nat → Except Stop UInt16 := valueAt 2 toWord16

def int16At : Bytecode → Nat → Except Stop Int16 := valueAt 2 toInt16

def word32At : Bytecode → Nat → Except Stop UInt32 := valueAt 4 toWord32

def int32At : Bytecode → Nat → Except Stop Int32 := valueAt 4 toInt32

def floatAt : Bytecode → Nat → Except Stop Binary32 := valueAt 4 fun bytes => ⟨toWord32 bytes⟩

def tagAt (b : Bytecode) (pos : Nat) : Except Stop Tag := do
  let byte ← byteAt b pos
  match Tag.ofByte? byte with
  | some tag => .ok tag
  | none => .error (.error (.unknownTag byte pos))

def signed (t : Int) : Except Stop Int :=
  if -0x8000000000000000 ≤ t ∧ t < 0x8000000000000000 then .ok t else .error .wrapped

def target (b : Bytecode) (pos base : Nat) (distance : Int) : Except Stop Nat := do
  let start ← signed base
  let t ← signed (start + distance)
  if 0 ≤ t ∧ t ≤ b.size then .ok t.toNat else .error (.error (.badAddress pos t))

def longAddress (b : Bytecode) (pos : Nat) : Except Stop Nat := do
  let d ← int32At b pos
  target b pos (← word (pos + 4)) d.toInt

def shortAddress (b : Bytecode) (pos : Nat) : Except Stop Nat := do
  target b pos pos (← int16At b pos).toInt

def terminatedEnd (b : Bytecode) (pos : Nat) : Except Stop Nat := do
  let needed ← word (b.size - pos + 1)
  match b.zeroFrom? pos with
  | some mark => word (mark + 1)
  | none => .error (.error (.outOfRange pos needed b.size))

def weightedSizeAt (b : Bytecode) (pos : Nat) : Except Stop Nat := do
  let count ← word32At b (← word (pos + 1))
  if 6 * count.toNat + 5 < 0x10000000000000000 then .ok (6 * count.toNat + 5)
  else .error (.error (.outOfRange pos 0xffffffffffffffff b.size))

def countAt (b : Bytecode) (pos : Nat) : Except Stop Nat := do
  let size ← minus (← weightedSizeAt b pos) 5
  return size / 6

/-- The end of `size` bytes at `pos`; a single byte has been read before and is not asked for. -/
def fixedEnd (b : Bytecode) (pos size : Nat) : Except Stop Nat :=
  if size = 1 then word (pos + 1) else extent b pos size

def tokenEnd (b : Bytecode) (pos : Nat) : Except Stop (Option Nat) := do
  let tag ← tagAt b pos
  match tag.layout with
  | .final => return none
  | .fixed size => return some (← fixedEnd b pos size)
  | .counted =>
    let count ← word32At b (← word (pos + 1))
    return some (← extent b (← word (pos + 5)) count.toNat)
  | .terminated =>
    let _ ← extent b pos 5
    return some (← terminatedEnd b (← word (pos + 5)))
  | .weighted => return some (← extent b pos (← weightedSizeAt b pos))
  | .unknown => .error (.error (.unknownTag (← byteAt b pos) pos))

def weightsAt (b : Bytecode) (pos count : Nat) : Except Stop (List UInt16) :=
  (List.range count).mapM fun i => do word16At b (← word (pos + 5 + 2 * i))

def slotsAt {α : Type} (read : Bytecode → Nat → Except Stop α) (b : Bytecode) (pos count : Nat) :
    Except Stop (List α) := do
  let slots ← word (pos + 5 + 2 * count)
  (List.range count).mapM fun i => do read b (← word (slots + 4 * i))

def stringAt (b : Bytecode) (pos : Nat) (next : Option Nat) : Except Stop (List UInt8) := do
  let start ← word (pos + 5)
  return withoutFinalZero (← slice b start (next.getD start))

def textAt (b : Bytecode) (pos : Nat) (next : Option Nat) : Except Stop String := do
  let start ← word (pos + 5)
  let stop ← minus (next.getD (← word (pos + 6))) 1
  return Utf8.decodeLossy (← slice b start stop)

def tokenAt (b : Bytecode) (pos : Nat) : Except Stop Token := do
  let next ← tokenEnd b pos
  let tag ← tagAt b pos
  match tag with
  | .name => return .nameChecksum (← word32At b (← word (pos + 1)))
  | .integer => return .integer (← int32At b (← word (pos + 1)))
  | .hexInteger => return .hexInteger (← word32At b (← word (pos + 1)))
  | .float => return .float (← floatAt b (← word (pos + 1)))
  | .endOfLineNumber => return .endOfLineNumber (← word32At b (← word (pos + 1)))
  | .jump => return .jump (← int32At b (← word (pos + 1)))
  | .pair =>
    return .pair (← floatAt b (← word (pos + 1))) (← floatAt b (← word (pos + 5)))
  | .vector =>
    return .vector (← floatAt b (← word (pos + 1))) (← floatAt b (← word (pos + 5)))
      (← floatAt b (← word (pos + 9)))
  | .string => return .string (← stringAt b pos next)
  | .localString => return .localString (← stringAt b pos next)
  | .checksumName =>
    let text ← textAt b pos next
    return .checksumName (← word32At b (← word (pos + 1))) text
  | .random | .random2 | .randomNoRepeat | .randomPermute =>
    let count ← countAt b pos
    let weights ← weightsAt b pos count
    return .random tag weights (← slotsAt int32At b pos count)
  | .fastIf | .fastElse | .shortJump => return .shortBranch tag (← int16At b (← word (pos + 1)))
  | _ => return .simple tag

def randomHeader (b : Bytecode) (pos : Nat) : Except Stop RandomHeader := do
  let tag ← tagAt b pos
  let size ← weightedSizeAt b pos
  let finish ← extent b pos size
  let count := (← minus size 5) / 6
  let weights ← weightsAt b pos count
  return ⟨tag, weights, ← slotsAt longAddress b pos count, finish⟩

end Machine

section
variable {α β : Type}

@[simp] theorem exact_ok (a : α) : exact (.ok a) = .ok a := rfl

theorem exact_bind (x : Except Error α) (f : α → Except Error β) :
    exact (x >>= f) = exact x >>= fun a => exact (f a) :=
  mapError_bind _ x f

end

/-- `x` reads what `y` reads, unless the stream is `wide` and a number does not fit in a word. -/
def Follows {α : Type} (wide : Prop) (x : Except Stop α) (y : Except Error α) : Prop :=
  x = exact y ∨ wide ∧ x = .error .wrapped

namespace Follows
variable {α β : Type} {wide : Prop} {x : Except Stop α} {y : Except Error α}

theorem eq (h : Follows False x y) : x = exact y := h.resolve_right And.left

theorem bind {f : α → Except Stop β} {g : α → Except Error β} (hx : Follows wide x y)
    (hf : ∀ a, y = .ok a → Follows wide (f a) (g a)) : Follows wide (x >>= f) (y >>= g) := by
  rcases hx with rfl | ⟨hw, rfl⟩
  · cases y with
    | error e => exact Or.inl rfl
    | ok a => exact hf a rfl
  · exact Or.inr ⟨hw, rfl⟩

theorem mapM {f : α → Except Stop β} {g : α → Except Error β} {as : List α}
    (h : ∀ a ∈ as, Follows wide (f a) (g a)) : Follows wide (as.mapM f) (as.mapM g) := by
  induction as with
  | nil => exact Or.inl rfl
  | cons a as ih =>
    rw [List.mapM_cons, List.mapM_cons]
    apply (h a List.mem_cons_self).bind
    intro b _
    apply (ih fun c hc => h c (List.mem_cons_of_mem a hc)).bind
    intro bs _
    exact Or.inl rfl

end Follows

namespace Machine

variable {b : Bytecode} {pos : Nat}

theorem word_eq {n : Nat} (h : n < 0x10000000000000000) : word n = .ok n := if_pos h

theorem minus_eq {m n : Nat} (h : n ≤ m) : minus m n = .ok (m - n) := if_pos h

theorem slice_eq {start stop : Nat} (h : start ≤ stop) (hs : stop ≤ b.size) :
    slice b start stop = exact (b.field start (stop - start)) := by
  rw [slice, if_pos ⟨h, hs⟩, Bytecode.field, if_pos (by omega)]
  rw [Nat.add_sub_cancel' h]
  rfl

section
variable (hb : b.size < 0x8000000000000000)
include hb

theorem field_eq (pos n : Nat) : field b pos n = exact (b.field pos n) := by
  unfold field
  by_cases h : pos + n ≤ b.size
  · rw [if_pos ⟨by omega, h⟩, slice_eq (by omega) h, Nat.add_sub_cancel_left]
  · rw [if_neg fun hc => h hc.2, Bytecode.field, if_neg h]
    rfl

theorem extent_eq (pos n : Nat) : extent b pos n = exact (b.extent pos n) := by
  rw [extent, field_eq hb, Bytecode.extent]
  cases hf : b.field pos n with
  | error e => rfl
  | ok bytes =>
    obtain ⟨hle, -⟩ := field_eq_ok_iff.mp hf
    rw [exact_ok, ok_bind, word_eq (by omega)]
    rfl

theorem byteAt_eq (pos : Nat) : byteAt b pos = exact (b.byteAt pos) := by
  rw [byteAt, field_eq hb, Bytecode.field, Bytecode.byteAt]
  by_cases h : pos + 1 ≤ b.size
  · rw [if_pos h, exact_ok, ok_bind, Array.getElem?_toList, Array.getElem?_extract, if_pos (by omega),
      Nat.add_zero, Array.getElem?_eq_getElem h]
    rfl
  · rw [if_neg h, Array.getElem?_eq_none (by omega)]
    rfl

theorem valueAt_eq {α : Type} (width : Nat) (read : List UInt8 → α) (pos : Nat) :
    valueAt width read b pos = exact ((b.field pos width).map read) := by
  rw [valueAt, field_eq hb]
  cases hf : b.field pos width with
  | error e => rfl
  | ok bytes =>
    rw [exact_ok, ok_bind, if_pos (length_of_field_eq_ok hf).ge]
    rfl

theorem word16At_eq (pos : Nat) : word16At b pos = exact (b.word16At pos) :=
  valueAt_eq hb 2 toWord16 pos

theorem int16At_eq (pos : Nat) : int16At b pos = exact (b.int16At pos) :=
  valueAt_eq hb 2 toInt16 pos

theorem word32At_eq (pos : Nat) : word32At b pos = exact (b.word32At pos) :=
  valueAt_eq hb 4 toWord32 pos

theorem int32At_eq (pos : Nat) : int32At b pos = exact (b.int32At pos) :=
  valueAt_eq hb 4 toInt32 pos

theorem floatAt_eq (pos : Nat) : floatAt b pos = exact (b.floatAt pos) := by
  rw [floatAt, valueAt_eq hb, Bytecode.floatAt, Bytecode.word32At]
  cases b.field pos 4 <;> rfl

theorem tagAt_eq (pos : Nat) : tagAt b pos = exact (b.tagAt pos) := by
  rw [tagAt, byteAt_eq hb, Bytecode.tagAt, exact_bind]
  apply bind_congr_ok
  intro byte _
  cases Tag.ofByte? byte <;> rfl

theorem terminatedEnd_eq (pos : Nat) : terminatedEnd b pos = exact (b.terminatedEnd pos) := by
  rw [terminatedEnd, word_eq (by omega), ok_bind, Bytecode.terminatedEnd]
  cases hz : b.zeroFrom? pos with
  | none => rfl
  | some mark =>
    have := le_of_zeroFrom?_eq_some hz
    dsimp only
    rw [word_eq (by omega)]
    rfl

theorem weightedSizeAt_eq (hp : pos < b.size) :
    weightedSizeAt b pos = exact ((b.word32At (pos + 1)).map fun count => weightedSize count.toNat) := by
  rw [weightedSizeAt, word_eq (by omega), ok_bind, word32At_eq hb]
  cases b.word32At (pos + 1) with
  | error e => rfl
  | ok count =>
    have := count.toNat_lt
    rw [exact_ok, ok_bind, if_pos (by omega), map_ok, exact_ok, weightedSize, Nat.add_comm]

theorem countAt_eq (hp : pos < b.size) :
    countAt b pos = exact ((b.word32At (pos + 1)).map UInt32.toNat) := by
  rw [countAt, weightedSizeAt_eq hb hp]
  cases b.word32At (pos + 1) with
  | error e => rfl
  | ok count =>
    rw [map_ok, exact_ok, ok_bind, minus_eq (by rw [weightedSize]; omega), ok_bind, pure_eq_ok, map_ok,
      exact_ok, weightedSize]
    congr 1
    omega

theorem weightsAt_eq {count : Nat} (hp : pos < b.size) (hc : count < 0x100000000) :
    weightsAt b pos count = exact (b.weightsAt pos count) := by
  rw [weightsAt, Bytecode.weightsAt, exact, mapError_mapM]
  -- A count has 32 bits, so the positions that follow from it are far from the end of a word.
  apply mapM_congr
  intro i hi
  have := List.mem_range.mp hi
  rw [word_eq (by omega), ok_bind, word16At_eq hb]
  rfl

omit hb in
theorem follows_slotsAt {α : Type} {wide : Prop} {read : Bytecode → Nat → Except Stop α}
    {read' : Nat → Except Error α} {count : Nat} (hr : ∀ pos, Follows wide (read b pos) (read' pos))
    (hp : pos < 0x8000000000000000) (hc : count < 0x100000000) :
    Follows wide (slotsAt read b pos count)
      ((List.range count).mapM fun i => read' (slot pos count i)) := by
  rw [slotsAt, word_eq (by omega), ok_bind]
  apply Follows.mapM
  intro i hi
  have := List.mem_range.mp hi
  rw [word_eq (by omega), ok_bind]
  exact hr _

theorem fixedEnd_eq {size : Nat} (hp : pos < b.size) :
    fixedEnd b pos size = exact (b.extent pos size) := by
  unfold fixedEnd
  split
  · rename_i h
    subst h
    rw [extent_eq_ok hp, word_eq (by omega)]
    rfl
  · exact extent_eq hb pos size

theorem tokenEnd_eq (pos : Nat) : tokenEnd b pos = exact (b.tokenEnd pos) := by
  rw [tokenEnd, tagAt_eq hb, Bytecode.tokenEnd, exact_bind]
  cases htag : b.tagAt pos with
  | error e => rfl
  | ok tag =>
    have hp := lt_size_of_tagAt_eq_ok htag
    rw [exact_ok, ok_bind, ok_bind]
    cases tag.layout with
    | final => rfl
    | fixed size =>
      dsimp only
      rw [fixedEnd_eq hb hp, exact_bind]
      rfl
    | counted =>
      dsimp only
      rw [word_eq (by omega), word_eq (by omega), ok_bind, word32At_eq hb, exact_bind]
      simp only [ok_bind, exact_bind, extent_eq hb]
      rfl
    | terminated =>
      dsimp only
      rw [extent_eq hb, exact_bind]
      cases he : b.extent pos 5 with
      | error e => rfl
      | ok start =>
        obtain ⟨hle, rfl⟩ := extent_eq_ok_iff.mp he
        rw [exact_ok, ok_bind, ok_bind, word_eq (by omega), ok_bind, terminatedEnd_eq hb, exact_bind]
        rfl
    | weighted =>
      dsimp only
      rw [weightedSizeAt_eq hb hp, exact_bind]
      cases b.word32At (pos + 1) with
      | error e => rfl
      | ok count =>
        rw [map_ok, exact_ok, ok_bind, extent_eq hb, exact_ok, ok_bind, exact_bind]
        rfl
    | unknown =>
      dsimp only
      rw [byteAt_eq hb, exact_bind]
      rfl

theorem stringAt_eq {tag : Tag} {next : Option Nat} (htag : b.tagAt pos = .ok tag)
    (hl : tag.layout = .counted) (hend : b.tokenEnd pos = .ok next) :
    stringAt b pos next = exact (b.stringAt pos) := by
  rw [Bytecode.tokenEnd, htag, ok_bind] at hend
  simp only [hl, bind_eq_ok_iff, pure_eq_ok, Except.ok.injEq] at hend
  obtain ⟨count, hc, stop, he, rfl⟩ := hend
  obtain ⟨hle, rfl⟩ := extent_eq_ok_iff.mp he
  rw [stringAt, word_eq (by omega), ok_bind, Option.getD_some, slice_eq (by omega) hle,
    Nat.add_sub_cancel_left, Bytecode.stringAt, hc, ok_bind, exact_bind]
  rfl

theorem textAt_eq {next : Option Nat} (htag : b.tagAt pos = .ok .checksumName)
    (hend : b.tokenEnd pos = .ok next) :
    ∃ c bytes, b.word32At (pos + 1) = .ok c ∧
      b.field (pos + 5) (next.getD (pos + 6) - 1 - (pos + 5)) = .ok bytes ∧
      textAt b pos next = .ok (Utf8.decodeLossy bytes) := by
  rw [Bytecode.tokenEnd, htag, ok_bind] at hend
  simp only [Tag.layout, bind_eq_ok_iff, pure_eq_ok, Except.ok.injEq] at hend
  obtain ⟨start, he, stop, hz, rfl⟩ := hend
  obtain ⟨hle, rfl⟩ := extent_eq_ok_iff.mp he
  have hstop := bounds_of_terminatedEnd_eq_ok hz
  have hc : b.field (pos + 1) 4 = .ok _ := field_eq_ok_iff.mpr ⟨by omega, rfl⟩
  have hbytes : b.field (pos + 5) (stop - 1 - (pos + 5)) = .ok _ :=
    field_eq_ok_iff.mpr ⟨by omega, rfl⟩
  refine ⟨_, _, by rw [Bytecode.word32At, hc]; rfl, hbytes, ?_⟩
  rw [textAt, word_eq (by omega), ok_bind, word_eq (by omega), ok_bind, Option.getD_some,
    minus_eq (by omega), ok_bind, slice_eq (by omega) (by omega), hbytes]
  rfl

theorem tokenAt_eq (pos : Nat) : tokenAt b pos = exact (b.tokenAt pos) := by
  rw [tokenAt, tokenEnd_eq hb, Bytecode.tokenAt]
  cases hend : b.tokenEnd pos with
  | error e => rfl
  | ok next =>
    obtain ⟨tag, htag, -⟩ := bind_eq_ok_iff.mp hend
    have hp := lt_size_of_tagAt_eq_ok htag
    have h1 : word (pos + 1) = .ok (pos + 1) := word_eq (by omega)
    have h5 : word (pos + 5) = .ok (pos + 5) := word_eq (by omega)
    have h9 : word (pos + 9) = .ok (pos + 9) := word_eq (by omega)
    rw [exact_ok, ok_bind, ok_bind, tagAt_eq hb, htag, exact_ok, ok_bind, ok_bind]
    cases tag with
    | name | integer | hexInteger | float | endOfLineNumber | jump | fastIf | fastElse | shortJump
    | pair | vector =>
      simp only [h1, h5, h9, ok_bind, exact_bind, word32At_eq hb, int32At_eq hb, int16At_eq hb,
        floatAt_eq hb]
      rfl
    | string | localString =>
      simp only [stringAt_eq hb htag rfl hend, exact_bind]
      rfl
    | checksumName =>
      obtain ⟨c, bytes, hc, hbytes, ht⟩ := textAt_eq hb htag hend
      simp only [ht, h1, ok_bind, word32At_eq hb, hc, exact_ok, hbytes]
      rfl
    | random | random2 | randomNoRepeat | randomPermute =>
      simp only [countAt_eq hb hp, exact_bind]
      cases b.word32At (pos + 1) with
      | error e => rfl
      | ok count =>
        have hc := count.toNat_lt
        have hslots : slotsAt int32At b pos count.toNat = exact _ :=
          (follows_slotsAt (fun pos => Or.inl (int32At_eq hb pos)) (by omega) hc).eq
        simp only [map_ok, exact_ok, ok_bind, weightsAt_eq hb hp hc, hslots]
        rfl
    | _ => rfl

end

end Machine

/-- A distance of `d` can lead from the stream to a place that does not fit in a word with a sign. -/
def Reaches (b : Bytecode) (d : Nat) : Prop := 0x8000000000000000 < b.size + d

namespace Machine

section
variable {b : Bytecode} {pos base : Nat} {d : Int}

theorem signed_eq {t : Int} (hlow : -0x8000000000000000 ≤ t) (hhigh : t < 0x8000000000000000) :
    signed t = .ok t :=
  if_pos ⟨hlow, hhigh⟩

theorem follows_target {n : Nat} (hb : b.size < 0x8000000000000000) (hbase : base ≤ b.size)
    (hlow : -0x8000000000000000 ≤ d) (hhigh : d < n) :
    Follows (b.Reaches n) (target b pos base d) (b.target pos base d) := by
  rw [target, signed_eq (by omega) (by omega), ok_bind]
  by_cases h : (base : Int) + d < 0x8000000000000000
  · left
    rw [signed_eq (by omega) h, ok_bind, Bytecode.target]
    split <;> rfl
  · right
    refine ⟨?_, ?_⟩
    · rw [Reaches]
      omega
    · rw [signed, if_neg fun hc => h hc.2]
      rfl

theorem follows_longAddress (hb : b.size < 0x8000000000000000) (pos : Nat) :
    Follows (b.Reaches 0x80000000) (longAddress b pos) (b.longAddress pos) := by
  apply Follows.bind (Or.inl (int32At_eq hb pos))
  intro d hd
  have hle := le_size_of_map_field hd
  have hlow := d.le_toInt
  rw [word_eq (by omega), ok_bind]
  exact follows_target hb hle (by omega) d.toInt_lt

theorem follows_shortAddress (hb : b.size < 0x8000000000000000) (pos : Nat) :
    Follows (b.Reaches 0x8000) (shortAddress b pos) (b.shortAddress pos) := by
  apply Follows.bind (Or.inl (int16At_eq hb pos))
  intro d hd
  have hle := le_size_of_map_field hd
  have hlow := d.le_toInt
  exact follows_target hb (by omega) (by omega) d.toInt_lt

theorem follows_randomHeader (hb : b.size < 0x8000000000000000) (pos : Nat) :
    Follows (b.Reaches 0x80000000) (randomHeader b pos) (b.randomHeader pos) := by
  apply Follows.bind (Or.inl (tagAt_eq hb pos))
  intro tag htag
  have hp := lt_size_of_tagAt_eq_ok htag
  rw [weightedSizeAt_eq hb hp]
  cases hcount : b.word32At (pos + 1) with
  | error e => exact Or.inl rfl
  | ok count =>
    have hc := count.toNat_lt
    have hsize : 5 ≤ weightedSize count.toNat := by rw [weightedSize]; omega
    have hdiv : (weightedSize count.toNat - 5) / 6 = count.toNat := by rw [weightedSize]; omega
    rw [map_ok, exact_ok, ok_bind, ok_bind, minus_eq hsize]
    apply Follows.bind (Or.inl (extent_eq hb pos _))
    intro finish _
    rw [ok_bind, hdiv]
    apply Follows.bind (Or.inl (weightsAt_eq hb hp hc))
    intro weights _
    apply Follows.bind (follows_slotsAt (follows_longAddress hb) (by omega) hc)
    intro targets _
    exact Or.inl rfl

end

end Machine

/-- At `pos` the readers with words of 64 bits read what the readers of the stream read there, and so
they stop nowhere. Where an address leads to takes a stream from whose end no distance leads to a
number that does not fit in a word. -/
structure ReadsInWords (b : Bytecode) (pos : Nat) : Prop where
  field : ∀ n, Machine.field b pos n = exact (b.field pos n)
  byteAt : Machine.byteAt b pos = exact (b.byteAt pos)
  word16At : Machine.word16At b pos = exact (b.word16At pos)
  int16At : Machine.int16At b pos = exact (b.int16At pos)
  word32At : Machine.word32At b pos = exact (b.word32At pos)
  int32At : Machine.int32At b pos = exact (b.int32At pos)
  floatAt : Machine.floatAt b pos = exact (b.floatAt pos)
  tagAt : Machine.tagAt b pos = exact (b.tagAt pos)
  tokenEnd : Machine.tokenEnd b pos = exact (b.tokenEnd pos)
  tokenAt : Machine.tokenAt b pos = exact (b.tokenAt pos)
  longAddress : Follows (b.Reaches 0x80000000) (Machine.longAddress b pos) (b.longAddress pos)
  shortAddress : Follows (b.Reaches 0x8000) (Machine.shortAddress b pos) (b.shortAddress pos)
  randomHeader : Follows (b.Reaches 0x80000000) (Machine.randomHeader b pos) (b.randomHeader pos)

theorem readsInWords {b : Bytecode} (hb : b.size < 0x8000000000000000) (pos : Nat) :
    b.ReadsInWords pos where
  field := Machine.field_eq hb pos
  byteAt := Machine.byteAt_eq hb pos
  word16At := Machine.word16At_eq hb pos
  int16At := Machine.int16At_eq hb pos
  word32At := Machine.word32At_eq hb pos
  int32At := Machine.int32At_eq hb pos
  floatAt := Machine.floatAt_eq hb pos
  tagAt := Machine.tagAt_eq hb pos
  tokenEnd := Machine.tokenEnd_eq hb pos
  tokenAt := Machine.tokenAt_eq hb pos
  longAddress := Machine.follows_longAddress hb pos
  shortAddress := Machine.follows_shortAddress hb pos
  randomHeader := Machine.follows_randomHeader hb pos

/-- A stream with a long address after `n` bytes that is as large as it can be. -/
def endingFar (n : Nat) : Bytecode := Array.replicate n 0 ++ #[0xff, 0xff, 0xff, 0x7f]

theorem size_endingFar (n : Nat) : (endingFar n).size = n + 4 := by
  rw [endingFar, Array.size_append, Array.size_replicate]
  rfl

theorem field_endingFar (n : Nat) : (endingFar n).field n 4 = .ok [0xff, 0xff, 0xff, 0x7f] := by
  rw [Bytecode.field, if_pos (size_endingFar n).ge, endingFar, Array.toList_extract,
    Array.toList_append, Array.toList_replicate, List.extract_eq_take_drop,
    List.drop_left' List.length_replicate, Nat.add_sub_cancel_left]
  rfl

theorem longAddress_endingFar {n : Nat} (h : n + 4 < 0x8000000000000000)
    (hn : 0x7fffffff7ffffffd ≤ n) : Machine.longAddress (endingFar n) n = .error .wrapped := by
  have hs := size_endingFar n
  have hword : Machine.int32At (endingFar n) n = .ok 0x7fffffff := by
    rw [Machine.int32At_eq (by omega), Bytecode.int32At, field_endingFar]
    rfl
  have hd : (0x7fffffff : Int32).toInt = 0x7fffffff := rfl
  rw [Machine.longAddress, hword, ok_bind, Machine.word_eq (by omega), ok_bind, Machine.target,
    Machine.signed_eq (by omega) (by omega), ok_bind, hd, Machine.signed, if_neg (by omega)]
  rfl

/-- The readers stay in the stream and agree on its layout at every position. So the items of a
stream come to an end, and nothing is read after the end mark or an error. -/
theorem readers_agree (b : Bytecode) (hb : b.size < 0x8000000000000000) :
    (∀ pos, b.ReadsInWords pos ∧
      (∀ next, b.tokenEnd pos = .ok (some next) → pos < next ∧ next ≤ b.size) ∧
      (∀ e, b.tokenAt pos = .error e ↔ b.tokenEnd pos = .error e) ∧
      ∀ tag h, b.tagAt pos = .ok tag → tag.isRandomHeader → b.randomHeader pos = .ok h →
        b.tokenEnd pos = .ok (some h.finish) ∧
          ∃ jumps, b.tokenAt pos = .ok (.random h.tag h.weights jumps) ∧ h.tag = tag ∧
            h.targets.length = h.weights.length ∧ jumps.length = h.weights.length ∧
            ∀ (i t : Nat) (d : Int32), h.targets[i]? = some t → jumps[i]? = some d →
              (t : Int) = slot pos h.weights.length i + 4 + d.toInt) ∧
    b.scan.items.length ≤ b.size + 1 ∧ (b.scan.tokens.map Prod.fst).Pairwise (· < ·) ∧
    ∃ init last, b.scan.items = init ++ [last] ∧ Stops last ∧ ∀ item ∈ init, ¬ Stops item := by
  refine ⟨fun pos => ⟨readsInWords hb pos, ?_, ?_, ?_⟩, ?_⟩
  · intro next h
    exact bounds_of_tokenEnd_eq_ok h
  · intro e
    exact tokenAt_eq_error_iff
  · intro tag h htag ht hh
    exact reads_of_randomHeader htag ht hh
  · obtain ⟨init, last, hi, hl, hn, hlen⟩ := exists_items_eq b 0
    refine ⟨?_, (pairwise_scanFrom b 0).1, init, last, hi, hl, hn⟩
    rw [scan, hi, List.length_append, List.length_singleton]
    omega

theorem readers_agree_random :
    ∃ b : Bytecode, b = #[47, 2, 0, 0, 0, 1, 0, 1, 0, 4, 0, 0, 0, 6, 0, 0, 0, 1, 46, 1, 0, 0, 0, 1, 0] ∧
      b.size < 0x8000000000000000 ∧ b.ReadsInWords 0 ∧
      b.randomHeader 0 = .ok ⟨.random, [1, 1], [17, 23], 17⟩ ∧ b.tokenEnd 0 = .ok (some 17) ∧
      (∃ jumps, b.tokenAt 0 = .ok (.random .random [1, 1] jumps) ∧ jumps.length = 2) ∧
      b.scan.items.length ≤ 26 := by
  obtain ⟨b, hb⟩ : ∃ b : Bytecode, b = #[47, 2, 0, 0, 0, 1, 0, 1, 0, 4, 0, 0, 0, 6, 0, 0, 0, 1, 46, 1, 0,
    0, 0, 1, 0] := ⟨_, rfl⟩
  have hs : Array.size b = 25 := by rw [hb]; rfl
  have htag : Bytecode.tagAt b 0 = .ok .random := by subst hb; decide +kernel
  have hh : Bytecode.randomHeader b 0 = .ok ⟨.random, [1, 1], [17, 23], 17⟩ := by
    subst hb
    decide +kernel
  obtain ⟨hpos, hitems, -⟩ := readers_agree b (by omega)
  obtain ⟨hwords, -, -, hheader⟩ := hpos 0
  obtain ⟨hend, jumps, hat, -, -, hlen, -⟩ := hheader .random _ htag rfl hh
  exact ⟨b, hb, by omega, hwords, hh, hend, ⟨jumps, hat, hlen⟩, by omega⟩

/-- The shortest stream that is too long for the sum of an address. -/
theorem longAddress_wraps : (endingFar 0x7fffffff7ffffffd).size < 0x8000000000000000 ∧
    Machine.longAddress (endingFar 0x7fffffff7ffffffd) 0x7fffffff7ffffffd = .error .wrapped :=
  ⟨by rw [size_endingFar]; decide, longAddress_endingFar (by decide) (by decide)⟩

end Bytecode

end QbScript
