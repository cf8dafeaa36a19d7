import QbScript.Proofs.Outcome
import QbScript.Proofs.Text.Utf8
import QbScript.Bytecode.Decode
import QbScript.Bytecode.Encode

/-!
# Reading what was written

Bytes that stand at a position of a stream are read there, whatever is before and after them. So a
token that reads as itself is read where its bytes stand, and a stream of such tokens is read as
those tokens, each at the sum of the sizes before it.
-/

set_option autoImplicit false

namespace QbScript

open LittleEndian

namespace Bytecode

structure HoldsAt (b : Bytecode) (pos : Nat) (bs : List UInt8) : Prop where
  size_le : pos + bs.length ≤ b.size
  getElem? : ∀ i, i < bs.length → b[pos + i]? = bs[i]?

variable {b : Bytecode} {pos : Nat} {xs ys : List UInt8}

theorem HoldsAt.left (h : b.HoldsAt pos (xs ++ ys)) : b.HoldsAt pos xs := by
  have hs := h.size_le
  simp only [List.length_append] at hs
  refine ⟨by omega, fun i hi => ?_⟩
  rw [h.getElem? i (by simp; omega), List.getElem?_append_left hi]

theorem HoldsAt.right (h : b.HoldsAt pos (xs ++ ys)) : b.HoldsAt (pos + xs.length) ys := by
  have hs := h.size_le
  simp only [List.length_append] at hs
  refine ⟨by omega, fun i hi => ?_⟩
  rw [Nat.add_assoc, h.getElem? _ (by simp; omega), List.getElem?_append_right (by omega)]
  simp

theorem HoldsAt.append (hx : b.HoldsAt pos xs) (hy : b.HoldsAt (pos + xs.length) ys) :
    b.HoldsAt pos (xs ++ ys) := by
  have hs := hy.size_le
  refine ⟨by simp; omega, fun i hi => ?_⟩
  simp only [List.length_append] at hi
  by_cases hl : i < xs.length
  · rw [hx.getElem? i hl, List.getElem?_append_left hl]
  · rw [List.getElem?_append_right (by omega), ← hy.getElem? _ (by omega)]
    congr 1
    omega

theorem HoldsAt.head {x : UInt8} (h : b.HoldsAt pos (x :: xs)) : b[pos]? = some x := by
  simpa using h.getElem? 0 (by simp)

theorem HoldsAt.tail {x : UInt8} (h : b.HoldsAt pos (x :: xs)) : b.HoldsAt (pos + 1) xs :=
  @HoldsAt.right _ _ [x] xs h

theorem HoldsAt.field {n : Nat} (h : b.HoldsAt pos xs) (hn : xs.length = n) :
    b.field pos n = .ok xs := by
  subst hn
  have hs := h.size_le
  refine field_eq_ok_iff.mpr ⟨hs, List.ext_getElem? fun i => ?_⟩
  by_cases hi : i < xs.length
  · rw [← h.getElem? i hi, @Array.getElem?_toList _ (b.extract _ _), Array.getElem?_extract,
      if_pos (by omega)]
  · rw [List.getElem?_eq_none (by omega), List.getElem?_eq_none (by simp; omega)]

theorem holdsAt_of_field {n : Nat} (h : b.field pos n = .ok xs) : b.HoldsAt pos xs := by
  have hn := length_of_field_eq_ok h
  obtain ⟨hle, rfl⟩ := field_eq_ok_iff.mp h
  refine ⟨by omega, fun i hi => ?_⟩
  rw [Array.getElem?_toList, Array.getElem?_extract, if_pos (by omega)]

theorem holdsAt_of_eq_append {before after : List UInt8}
    (hb : b.toList = before ++ xs ++ after) (hp : before.length = pos) : b.HoldsAt pos xs := by
  subst hp
  have hs := congrArg List.length hb
  simp only [Array.length_toList, List.length_append] at hs
  refine ⟨by omega, fun i hi => ?_⟩
  rw [← Array.getElem?_toList, hb, List.append_assoc, List.getElem?_append_right (by omega),
    List.getElem?_append_left (by omega)]
  congr 1
  omega

theorem HoldsAt.byteAt {x : UInt8} (h : b.HoldsAt pos (x :: xs)) : b.byteAt pos = .ok x := by
  simp [Bytecode.byteAt, h.head]

theorem HoldsAt.tagAt {t : Tag} (h : b.HoldsAt pos (t.byte :: xs)) (ht : t.isInternal = false) :
    b.tagAt pos = .ok t := by
  simp [Bytecode.tagAt, h.byteAt, Tag.ofByte?_byte ht]

theorem HoldsAt.word16At {v : UInt16} (h : b.HoldsAt pos (word16 v)) : b.word16At pos = .ok v := by
  simp [Bytecode.word16At, h.field (length_word16 v)]

theorem HoldsAt.int16At {v : Int16} (h : b.HoldsAt pos (int16 v)) : b.int16At pos = .ok v := by
  simp [Bytecode.int16At, h.field (length_int16 v)]

theorem HoldsAt.word32At {v : UInt32} (h : b.HoldsAt pos (word32 v)) : b.word32At pos = .ok v := by
  simp [Bytecode.word32At, h.field (length_word32 v)]

theorem HoldsAt.int32At {v : Int32} (h : b.HoldsAt pos (int32 v)) : b.int32At pos = .ok v := by
  simp [Bytecode.int32At, h.field (length_int32 v)]

theorem HoldsAt.floatAt {x : Binary32} (h : b.HoldsAt pos (Token.float32 x)) :
    b.floatAt pos = .ok x := by
  simp [Bytecode.floatAt, h.word32At]

theorem extent_eq_ok {n : Nat} (h : pos + n ≤ b.size) : b.extent pos n = .ok (pos + n) :=
  extent_eq_ok_iff.mpr ⟨h, rfl⟩

/-- The bytes up to a zero end at the first zero. -/
theorem HoldsAt.zeroFrom? (h : b.HoldsAt pos (Token.terminated xs)) (h0 : 0 ∉ xs) :
    b.zeroFrom? pos = some (pos + xs.length) := by
  induction xs generalizing pos with
  | nil =>
    obtain ⟨hlt, hx⟩ := Array.getElem?_eq_some_iff.mp (show b[pos]? = some 0 from h.head)
    rw [Bytecode.zeroFrom?, dif_pos hlt, if_pos hx]
    simp
  | cons x xs ih =>
    obtain ⟨hlt, hx⟩ := Array.getElem?_eq_some_iff.mp (show b[pos]? = some x from h.head)
    have hne : x ≠ 0 := fun hx => h0 (by simp [hx])
    rw [Bytecode.zeroFrom?, dif_pos hlt, if_neg (by rwa [hx]),
      ih h.tail (fun h => h0 (List.mem_cons_of_mem x h))]
    simp only [List.length_cons, Option.some.injEq]
    omega

end Bytecode

namespace Token

def wire (t : Token) : List UInt8 := t.leadTag.byte :: t.payload

/-- A token that is read as itself. -/
def Stands : Token → Prop
  | .simple tag => tag.layout = .fixed 1
  | .name _ | .arg _ | .argChecksum _ => False
  | .string bytes | .localString bytes => bytes.length + 1 < 0x100000000
  | .shortBranch tag _ => tag.isShortBranch
  | .random tag weights jumps =>
    tag.isRandomHeader ∧ jumps.length = weights.length ∧ weights.length < 0x100000000
  | .checksumName _ text => '\x00' ∉ text.toList
  | _ => True

theorem isInternal_of_stands {t : Token} (h : t.Stands) : t.leadTag.isInternal = false := by
  cases t with
  | simple tag =>
    revert h
    cases tag <;> simp [Stands, Tag.layout, leadTag, tag, Tag.isInternal, Tag.code]
  | shortBranch tag d => exact Tag.isInternal_of_isShortBranch h
  | random tag ws js => exact Tag.isInternal_of_isRandomHeader h.1
  | name | arg | argChecksum => exact h.elim
  | _ => rfl

end Token

namespace Bytecode

variable {b : Bytecode} {pos : Nat} {tag : Tag}

theorem tokenEnd_of_fixed {n : Nat} (ht : b.tagAt pos = .ok tag) (hl : tag.layout = .fixed n)
    (hs : pos + n ≤ b.size) : b.tokenEnd pos = .ok (some (pos + n)) := by
  simp [tokenEnd, ht, hl, extent_eq_ok hs]

theorem tokenAt_of_simple (ht : b.tagAt pos = .ok tag) (hl : tag.layout = .fixed 1) :
    b.tokenAt pos = .ok (.simple tag) := by
  have hs := lt_size_of_tagAt_eq_ok ht
  have he := tokenEnd_of_fixed ht hl hs
  cases tag <;> first | (simp [Tag.layout] at hl; done) | simp [tokenAt, he, ht]

/-- The token `t` is read at `pos`, and its bytes end where the reading goes on. -/
structure ReadsAt (b : Bytecode) (pos : Nat) (t : Token) : Prop where
  tokenEnd : b.tokenEnd pos = .ok (some (pos + t.wire.length))
  tokenAt : b.tokenAt pos = .ok t

variable {t : Token}

theorem readsAt_simple (h : b.HoldsAt pos (Token.simple tag).wire) (ht : tag.layout = .fixed 1) :
    b.ReadsAt pos (.simple tag) := by
  have hi : tag.isInternal = false := Token.isInternal_of_stands (t := .simple tag) ht
  have htag : b.tagAt pos = .ok tag := h.tagAt hi
  exact ⟨tokenEnd_of_fixed htag ht h.size_le, tokenAt_of_simple htag ht⟩

theorem readsAt_word (tag : Tag) {v : List UInt8} (h : b.HoldsAt pos (tag.byte :: v))
    (hi : tag.isInternal = false) (hl : tag.layout = .fixed (v.length + 1)) :
    b.tagAt pos = .ok tag ∧ b.tokenEnd pos = .ok (some (pos + (v.length + 1))) ∧
      b.HoldsAt (pos + 1) v :=
  ⟨h.tagAt hi, tokenEnd_of_fixed (h.tagAt hi) hl h.size_le, h.tail⟩

theorem withoutFinalZero_terminated (bytes : List UInt8) :
    withoutFinalZero (Token.terminated bytes) = bytes := by
  simp [withoutFinalZero, Token.terminated]

theorem toNat_ofNat_of_lt {n : Nat} (h : n < 0x100000000) : (UInt32.ofNat n).toNat = n := by
  rw [UInt32.toNat_ofNat']
  exact Nat.mod_eq_of_lt h

/-- A payload with its size before it is read up to its size, whatever bytes it has. -/
theorem HoldsAt.counted (tag : Tag) {payload : List UInt8}
    (h : b.HoldsAt pos (tag.byte :: (word32 (UInt32.ofNat payload.length) ++ payload)))
    (hi : tag.isInternal = false) (hl : tag.layout = .counted)
    (hb : payload.length < 0x100000000) :
    b.tokenEnd pos = .ok (some (pos + (payload.length + 5))) ∧
      b.stringAt pos = .ok (withoutFinalZero payload) := by
  have hw := h.tail.left.word32At
  have hs := h.tail.right
  rw [length_word32] at hs
  have hf := hs.field rfl
  have he : b.extent (pos + 1 + 4) payload.length = .ok (pos + 1 + 4 + payload.length) :=
    extent_eq_ok hs.size_le
  constructor
  · simp only [tokenEnd, h.tagAt hi, ok_bind, hl, hw, toNat_ofNat_of_lt hb, pure_eq_ok]
    rw [show pos + 5 = pos + 1 + 4 by omega, he, ok_bind]
    congr 2
    omega
  · simp only [stringAt, hw, ok_bind, toNat_ofNat_of_lt hb, pure_eq_ok]
    rw [show pos + 5 = pos + 1 + 4 by omega, hf, ok_bind]

theorem counted_eq (bytes : List UInt8) :
    Token.counted bytes =
      word32 (UInt32.ofNat (Token.terminated bytes).length) ++ Token.terminated bytes := by
  simp [Token.counted, Token.terminated]

theorem HoldsAt.flatMap {α : Type} {f : α → List UInt8} {w : Nat} {as : List α}
    (hf : ∀ a, (f a).length = w) (h : b.HoldsAt pos (as.flatMap f)) {i : Nat} {a : α}
    (ha : as[i]? = some a) : b.HoldsAt (pos + w * i) (f a) := by
  induction as generalizing pos i with
  | nil => simp at ha
  | cons x as ih =>
    rw [List.flatMap_cons] at h
    cases i with
    | zero =>
      obtain rfl : x = a := by simpa using ha
      simpa using h.left
    | succ i =>
      have := ih h.right (by simpa using ha)
      rw [hf, Nat.add_assoc] at this
      rwa [Nat.mul_succ, Nat.add_comm (w * i)]

theorem mapM_range_eq_ok {α : Type} {f : Nat → Except Error α} {as : List α} {n : Nat}
    (hn : as.length = n) (h : ∀ i a, as[i]? = some a → f i = .ok a) :
    (List.range n).mapM f = .ok as := by
  apply mapM_eq_ok_of_forall₂
  rw [List.forall₂_iff_get]
  refine ⟨by simp [hn], fun i hi hi' => ?_⟩
  simpa using h i _ (List.getElem?_eq_getElem hi')

theorem length_flatMap {α : Type} {f : α → List UInt8} {w : Nat} (hf : ∀ a, (f a).length = w)
    (as : List α) : (as.flatMap f).length = w * as.length := by
  induction as with
  | nil => rfl
  | cons a as ih => rw [List.flatMap_cons, List.length_append, hf, ih, List.length_cons,
      Nat.mul_succ, Nat.add_comm]

structure HoldsRandom (b : Bytecode) (pos : Nat) (tag : Tag) (weights : List UInt16)
    (jumps : List Int32) : Prop where
  tagAt : b.tagAt pos = .ok tag
  count : b.word32At (pos + 1) = .ok (UInt32.ofNat weights.length)
  weightsAt : b.weightsAt pos weights.length = .ok weights
  jumpAt : ∀ i d, jumps[i]? = some d → b.int32At (slot pos weights.length i) = .ok d
  finish : b.extent pos (weightedSize weights.length) = .ok (pos + weightedSize weights.length)

theorem HoldsAt.random {weights : List UInt16} {jumps : List Int32}
    (h : b.HoldsAt pos (Token.random tag weights jumps).wire) (ht : tag.isRandomHeader)
    (hj : jumps.length = weights.length) : b.HoldsRandom pos tag weights jumps := by
  have hs := h.size_le
  have hp : b.HoldsAt (pos + 1) (word32 (UInt32.ofNat weights.length)
      ++ weights.flatMap word16 ++ jumps.flatMap int32) := h.tail
  have hw := hp.left.right
  have hd := hp.right
  simp only [List.length_append, length_word32, length_flatMap length_word16] at hw hd
  simp only [Token.wire, Token.payload, List.length_cons, List.length_append, length_word32,
    length_flatMap length_word16, length_flatMap length_int32, hj] at hs
  refine ⟨h.tagAt (Tag.isInternal_of_isRandomHeader ht), hp.left.left.word32At, ?_, ?_, ?_⟩
  · refine mapM_range_eq_ok rfl fun i w hi => ?_
    rw [show pos + 5 + 2 * i = pos + 1 + 4 + 2 * i by omega]
    exact (hw.flatMap length_word16 hi).word16At
  · intro i d hi
    have := (hd.flatMap length_int32 hi).int32At
    rwa [show pos + 1 + (4 + 2 * weights.length) + 4 * i = slot pos weights.length i by
      simp only [slot]; omega] at this
  · apply extent_eq_ok
    simp only [weightedSize]
    omega

theorem readsAt_shortBranch {d : Int16} (h : b.HoldsAt pos (Token.shortBranch tag d).wire)
    (ht : tag.isShortBranch) : b.ReadsAt pos (.shortBranch tag d) := by
  have hl : tag.layout = .fixed ((int16 d).length + 1) := by
    revert ht
    cases tag <;> simp [Tag.isShortBranch, Tag.layout]
  obtain ⟨htag, hend, hp⟩ := readsAt_word tag h (Tag.isInternal_of_isShortBranch ht) hl
  refine ⟨hend, ?_⟩
  revert ht
  cases tag <;> intro ht <;> first
    | exact absurd ht (by decide)
    | simp [tokenAt, hend, htag, HoldsAt.int16At (v := d) hp]

theorem readsAt_random {weights : List UInt16} {jumps : List Int32}
    (h : b.HoldsAt pos (Token.random tag weights jumps).wire) (ht : tag.isRandomHeader)
    (hj : jumps.length = weights.length) (hw : weights.length < 0x100000000) :
    b.ReadsAt pos (.random tag weights jumps) := by
  have hr := h.random ht hj
  have hl : tag.layout = .weighted := by
    revert ht
    cases tag <;> simp [Tag.isRandomHeader, Tag.layout]
  have hlen : (Token.random tag weights jumps).wire.length = weightedSize weights.length := by
    simp only [Token.wire, Token.payload, List.length_cons, List.length_append, length_word32,
      length_flatMap length_word16, length_flatMap length_int32, hj, weightedSize]
    omega
  have hend : b.tokenEnd pos = .ok (some (pos + (Token.random tag weights jumps).wire.length)) := by
    rw [hlen]
    simp only [tokenEnd, hr.tagAt, hl, hr.count, ok_bind, toNat_ofNat_of_lt hw, pure_eq_ok]
    rw [hr.finish, ok_bind]
  have hjumps := mapM_range_eq_ok hj hr.jumpAt
  refine ⟨hend, ?_⟩
  revert ht
  cases tag <;> intro ht <;> first
    | exact absurd ht (by decide)
    | simp only [tokenAt, hend, hr.tagAt, hr.count, ok_bind, toNat_ofNat_of_lt hw, hr.weightsAt, hjumps,
        pure_eq_ok]

/-- An entry of the table of names is read up to its first zero, whatever bytes it has. -/
theorem HoldsAt.entry {c : Checksum} {bytes : List UInt8}
    (h : b.HoldsAt pos (Tag.checksumName.byte :: (word32 c ++ Token.terminated bytes)))
    (h0 : 0 ∉ bytes) :
    b.tokenEnd pos = .ok (some (pos + (bytes.length + 6))) ∧
      b.tokenAt pos = .ok (.checksumName c (Utf8.decodeLossy bytes)) := by
  have hz := h.tail.right
  rw [length_word32] at hz
  have hs := hz.size_le
  have htag : b.tagAt pos = .ok .checksumName := h.tagAt rfl
  have he : b.extent pos 5 = .ok (pos + 5) := extent_eq_ok (by omega)
  have hte : b.terminatedEnd (pos + 5) = .ok (pos + 5 + bytes.length + 1) := by
    rw [terminatedEnd, show pos + 5 = pos + 1 + 4 by omega, hz.zeroFrom? h0]
  have hend : b.tokenEnd pos = .ok (some (pos + (bytes.length + 6))) := by
    simp only [tokenEnd, htag, Tag.layout, he, ok_bind, hte, pure_eq_ok]
    congr 2
    omega
  refine ⟨hend, ?_⟩
  have hf := hz.left.field rfl
  simp only [tokenAt, hend, htag, h.tail.left.word32At, ok_bind, Option.getD_some, pure_eq_ok]
  rw [show pos + (bytes.length + 6) - 1 - (pos + 5) = bytes.length by omega,
    show pos + 5 = pos + 1 + 4 by omega, hf, ok_bind]

theorem readsAt_string (tag : Tag) {bytes : List UInt8}
    (h : b.HoldsAt pos (tag.byte :: Token.counted bytes)) (hi : tag.isInternal = false)
    (hl : tag.layout = .counted) (hb : bytes.length + 1 < 0x100000000) :
    b.tokenEnd pos = .ok (some (pos + (tag.byte :: Token.counted bytes).length)) ∧
      b.stringAt pos = .ok bytes := by
  have hlen : (Token.terminated bytes).length = bytes.length + 1 := by simp [Token.terminated]
  rw [counted_eq] at h ⊢
  obtain ⟨hend, hs⟩ := h.counted tag hi hl (by omega)
  rw [withoutFinalZero_terminated] at hs
  refine ⟨?_, hs⟩
  rw [hend]
  simp only [List.length_cons, List.length_append, length_word32]
  congr 3
  omega

theorem readsAt_checksumName {c : Checksum} {text : String}
    (h : b.HoldsAt pos (Token.checksumName c text).wire) (h0 : '\x00' ∉ text.toList) :
    b.ReadsAt pos (.checksumName c text) := by
  obtain ⟨hend, hat⟩ := HoldsAt.entry h fun h => h0 ((Utf8.zero_mem_ofString_iff text).mp h)
  rw [Utf8.decodeLossy_ofString] at hat
  refine ⟨?_, hat⟩
  rw [hend]
  simp only [Token.wire, Token.payload, Token.terminated, List.length_cons, List.length_append,
    length_word32, List.length_nil]
  congr 3
  omega

theorem readsAt_of_stands (ht : t.Stands) (h : b.HoldsAt pos t.wire) : b.ReadsAt pos t := by
  cases t with
  | simple tag => exact readsAt_simple h ht
  | name | arg | argChecksum => exact ht.elim
  | nameChecksum c =>
    obtain ⟨htag, hend, hp⟩ := readsAt_word .name h rfl rfl
    exact ⟨hend, by simp [tokenAt, hend, htag, HoldsAt.word32At (v := c) hp]⟩
  | integer v =>
    obtain ⟨htag, hend, hp⟩ := readsAt_word .integer h rfl rfl
    exact ⟨hend, by simp [tokenAt, hend, htag, HoldsAt.int32At (v := v) hp]⟩
  | hexInteger v =>
    obtain ⟨htag, hend, hp⟩ := readsAt_word .hexInteger h rfl rfl
    exact ⟨hend, by simp [tokenAt, hend, htag, HoldsAt.word32At (v := v) hp]⟩
  | float x =>
    obtain ⟨htag, hend, hp⟩ := readsAt_word .float h rfl rfl
    exact ⟨hend, by simp [tokenAt, hend, htag, HoldsAt.floatAt (x := x) hp]⟩
  | endOfLineNumber v =>
    obtain ⟨htag, hend, hp⟩ := readsAt_word .endOfLineNumber h rfl rfl
    exact ⟨hend, by simp [tokenAt, hend, htag, HoldsAt.word32At (v := v) hp]⟩
  | jump d =>
    obtain ⟨htag, hend, hp⟩ := readsAt_word .jump h rfl rfl
    exact ⟨hend, by simp [tokenAt, hend, htag, HoldsAt.int32At (v := d) hp]⟩
  | pair x y =>
    obtain ⟨htag, hend, hp⟩ := readsAt_word .pair h rfl rfl
    have hx : b.floatAt (pos + 1) = .ok x := hp.left.floatAt
    have hy : b.floatAt (pos + 5) = .ok y := hp.right.floatAt
    exact ⟨hend, by simp [tokenAt, hend, htag, hx, hy]⟩
  | vector x y z =>
    obtain ⟨htag, hend, hp⟩ := readsAt_word .vector h rfl rfl
    have hx : b.floatAt (pos + 1) = .ok x := hp.left.left.floatAt
    have hy : b.floatAt (pos + 5) = .ok y := hp.left.right.floatAt
    have hz : b.floatAt (pos + 9) = .ok z := hp.right.floatAt
    exact ⟨hend, by simp [tokenAt, hend, htag, hx, hy, hz]⟩
  | string bytes =>
    obtain ⟨hend, hs⟩ := readsAt_string .string h rfl rfl ht
    have htag : b.tagAt pos = .ok .string := h.tagAt rfl
    exact ⟨hend, by simp [tokenAt, hend, htag, hs]⟩
  | localString bytes =>
    obtain ⟨hend, hs⟩ := readsAt_string .localString h rfl rfl ht
    have htag : b.tagAt pos = .ok .localString := h.tagAt rfl
    exact ⟨hend, by simp [tokenAt, hend, htag, hs]⟩
  | shortBranch tag d => exact readsAt_shortBranch h ht
  | random tag weights jumps => exact readsAt_random h ht.1 ht.2.1 ht.2.2
  | checksumName c text => exact readsAt_checksumName h ht

def placed (pos : Nat) : List Token → List (Nat × Token)
  | [] => []
  | t :: ts => (pos, t) :: placed (pos + t.wire.length) ts

def wires (ts : List Token) : List UInt8 := ts.flatMap Token.wire

@[simp] theorem wires_nil : wires [] = [] := rfl

@[simp] theorem wires_cons (t : Token) (ts : List Token) : wires (t :: ts) = t.wire ++ wires ts :=
  rfl

@[simp] theorem wires_append (ts us : List Token) : wires (ts ++ us) = wires ts ++ wires us :=
  List.flatMap_append

theorem placed_append (pos : Nat) (ts us : List Token) :
    placed pos (ts ++ us) = placed pos ts ++ placed (pos + (wires ts).length) us := by
  induction ts generalizing pos with
  | nil => simp [placed]
  | cons t ts ih => simp [placed, ih, Nat.add_assoc]

theorem map_snd_placed (pos : Nat) (ts : List Token) : (placed pos ts).map Prod.snd = ts := by
  induction ts generalizing pos with
  | nil => rfl
  | cons t ts ih => simp [placed, ih]

/-- The tokens that read as themselves are read where they stand, and the reading goes on behind
them. -/
theorem scanFrom_of_holdsAt {ts : List Token} (ht : ∀ t ∈ ts, t.Stands)
    (h : b.HoldsAt pos (wires ts)) :
    b.scanFrom pos =
      ⟨placed pos ts ++ (b.scanFrom (pos + (wires ts).length)).tokens,
        (b.scanFrom (pos + (wires ts).length)).fault⟩ := by
  induction ts generalizing pos with
  | nil => simp [placed]
  | cons t ts ih =>
    rw [wires_cons] at h
    have hr := readsAt_of_stands (ht t List.mem_cons_self) h.left
    have hn := ih (fun u hu => ht u (List.mem_cons_of_mem t hu)) h.right
    rw [scanFrom, hr.tokenAt]
    dsimp only
    split
    · rename_i e he
      simp [hr.tokenEnd] at he
    · rename_i he
      simp [hr.tokenEnd] at he
    · rename_i next he
      obtain rfl : pos + t.wire.length = next := by simpa [hr.tokenEnd] using he
      rw [hn]
      simp [placed, Nat.add_assoc]

theorem scanFrom_endOfFile (h : b.HoldsAt pos [0]) :
    b.scanFrom pos = ⟨[(pos, .simple .endOfFile)], none⟩ := by
  have htag : b.tagAt pos = .ok .endOfFile := HoldsAt.tagAt (t := .endOfFile) h rfl
  have hend : b.tokenEnd pos = .ok none := by simp [tokenEnd, htag, Tag.layout]
  have hat : b.tokenAt pos = .ok (.simple .endOfFile) := by simp [tokenAt, hend, htag]
  rw [scanFrom, hat]
  dsimp only
  split
  · rename_i e he
    simp [hend] at he
  · rfl
  · rename_i next he
    simp [hend] at he

end Bytecode

end QbScript
