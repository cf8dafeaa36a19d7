import QbScript.Proofs.Bytecode.Reading
import QbScript.Bytecode.Link

/-!
# Addresses of a stream

An address that is linked leads to its target, and linking changes no byte outside of it. The
addresses of a stream of tokens stand at positions that follow from the tokens without their
addresses, and no two of them overlap.
-/

set_option autoImplicit false

namespace QbScript

open LittleEndian

namespace Bytecode

section
variable {b : Bytecode} {pos : Nat} {xs ys bs : List UInt8}

theorem HoldsAt.toList_eq (h : b.HoldsAt 0 xs) (hs : b.size ≤ xs.length) : b.toList = xs := by
  refine List.ext_getElem? fun i => ?_
  by_cases hi : i < xs.length
  · simpa using h.getElem? i hi
  · rw [List.getElem?_eq_none (by rw [Array.length_toList]; omega),
      List.getElem?_eq_none (by omega)]

theorem size_go (b : Bytecode) (pos : Nat) (bs : List UInt8) :
    (overwrite.go b pos bs).size = b.size := by
  induction bs generalizing b pos with
  | nil => rfl
  | cons x bs ih => rw [overwrite.go, ih, Array.size_setIfInBounds]

theorem getElem?_go_outside {i : Nat} (h : i < pos ∨ pos + bs.length ≤ i) :
    (overwrite.go b pos bs)[i]? = b[i]? := by
  induction bs generalizing b pos with
  | nil => rfl
  | cons x bs ih =>
    simp only [List.length_cons] at h
    rw [overwrite.go, ih (by omega), Array.getElem?_setIfInBounds_ne (by omega)]

theorem HoldsAt.go_outside (h : b.HoldsAt pos xs) {at' : Nat}
    (hd : pos + xs.length ≤ at' ∨ at' + bs.length ≤ pos) :
    (overwrite.go b at' bs).HoldsAt pos xs := by
  refine ⟨by rw [size_go]; exact h.size_le, fun i hi => ?_⟩
  rw [getElem?_go_outside (by omega), h.getElem? i hi]

theorem holdsAt_go (h : pos + bs.length ≤ b.size) : (overwrite.go b pos bs).HoldsAt pos bs := by
  induction bs generalizing b pos with
  | nil => exact ⟨h, fun i hi => absurd hi (Nat.not_lt_zero i)⟩
  | cons x bs ih =>
    simp only [List.length_cons] at h
    have ht := @ih (b.setIfInBounds pos x) (pos + 1) (by rw [Array.size_setIfInBounds]; omega)
    refine @HoldsAt.append _ _ [x] _ ?_ ht
    refine ⟨by rw [size_go]; simp; omega, fun i hi => ?_⟩
    obtain rfl : i = 0 := by simpa using hi
    rw [overwrite.go, getElem?_go_outside (by omega)]
    simp only [Nat.add_zero, Array.getElem?_setIfInBounds_self_of_lt (show pos < b.size by omega),
      List.getElem?_cons_zero]

theorem toList_go {old : List UInt8} (hb : b.toList = xs ++ old ++ ys)
    (hl : old.length = bs.length) : (overwrite.go b xs.length bs).toList = xs ++ bs ++ ys := by
  have hs := congrArg List.length hb
  simp only [Array.length_toList, List.length_append] at hs
  have hx : b.HoldsAt 0 xs := by
    apply holdsAt_of_eq_append _ List.length_nil
    · exact old ++ ys
    · simpa using hb
  have hy : b.HoldsAt (xs ++ old).length ys := by
    apply holdsAt_of_eq_append _ rfl
    · exact []
    · simpa using hb
  have hx : (overwrite.go b xs.length bs).HoldsAt 0 xs := hx.go_outside (by omega)
  have hy : (overwrite.go b xs.length bs).HoldsAt (xs ++ old).length ys :=
    hy.go_outside (by simp; omega)
  have hm : (overwrite.go b xs.length bs).HoldsAt xs.length bs := holdsAt_go (by omega)
  have hall : (overwrite.go b xs.length bs).HoldsAt 0 (xs ++ bs ++ ys) := by
    apply HoldsAt.append
    · apply hx.append
      rwa [Nat.zero_add]
    · simpa [hl] using hy
  exact hall.toList_eq (by rw [size_go]; simp; omega)

end

namespace Address

def pos : Address → Nat
  | .long pos => pos
  | .short pos => pos

def size : Address → Nat
  | .long _ => 4
  | .short _ => 2

def stop (f : Address) : Nat := f.pos + f.size

theorem pos_lt_stop (f : Address) : f.pos < f.stop := by
  cases f <;> simp [stop, pos, size]

def read (b : Bytecode) : Address → Except Error Nat
  | .long pos => b.longAddress pos
  | .short pos => b.shortAddress pos

def link (b : Bytecode) (f : Address) (target : Nat) : Except LinkError Bytecode :=
  match f with
  | .long pos => b.linkLong pos target
  | .short pos => b.linkShort pos target

def bytes (target : Nat) : Address → List UInt8
  | .long pos => int32 (Int32.ofInt (target - (pos + 4 : Nat)))
  | .short pos => int16 (Int16.ofInt (target - pos))

def Reaches (target : Nat) : Address → Prop
  | .long pos =>
    -0x80000000 ≤ (target : Int) - (pos + 4 : Nat) ∧ (target : Int) - (pos + 4 : Nat) < 0x80000000
  | .short pos => -0x8000 ≤ (target : Int) - pos ∧ (target : Int) - pos < 0x8000

@[simp] theorem length_bytes (target : Nat) (f : Address) : (f.bytes target).length = f.size := by
  cases f <;> simp [bytes, size]

theorem mapError_overwrite_eq_ok_iff {b c : Bytecode} {pos : Nat} {bs : List UInt8} :
    (b.overwrite pos bs).mapError LinkError.stream = .ok c ↔
      pos + bs.length ≤ b.size ∧ c = overwrite.go b pos bs := by
  unfold overwrite
  split
  · rename_i h
    simp [Except.mapError, h, eq_comm]
  · rename_i h
    simp [Except.mapError, h]

theorem link_eq_ok_iff {b c : Bytecode} {f : Address} {target : Nat} :
    f.link b target = .ok c ↔
      f.Reaches target ∧ f.stop ≤ b.size ∧ c = overwrite.go b f.pos (f.bytes target) := by
  cases f with
  | long pos =>
    unfold link linkLong Reaches
    dsimp only
    by_cases hd : -0x80000000 ≤ (target : Int) - (pos + 4 : Nat) ∧
        (target : Int) - (pos + 4 : Nat) < 0x80000000
    · rw [if_pos hd, mapError_overwrite_eq_ok_iff, length_int32]
      exact (and_iff_right hd).symm
    · rw [if_neg hd]
      exact ⟨fun h => (nomatch h), fun h => absurd h.1 hd⟩
  | short pos =>
    unfold link linkShort Reaches
    dsimp only
    by_cases hd : -0x8000 ≤ (target : Int) - pos ∧ (target : Int) - pos < 0x8000
    · rw [if_pos hd, mapError_overwrite_eq_ok_iff, length_int16]
      exact (and_iff_right hd).symm
    · rw [if_neg hd]
      exact ⟨fun h => (nomatch h), fun h => absurd h.1 hd⟩

theorem read_eq_ok {b : Bytecode} {f : Address} {target : Nat} (hr : f.Reaches target)
    (ht : target ≤ b.size) (h : b.HoldsAt f.pos (f.bytes target)) : f.read b = .ok target := by
  cases f with
  | long pos =>
    obtain ⟨hlow, hhigh⟩ := hr
    have hi := HoldsAt.int32At h
    have hv : (Int32.ofInt (target - (pos + 4 : Nat))).toInt = target - (pos + 4 : Nat) := by
      apply Int32.toInt_ofInt_of_le hlow
      exact hhigh
    simp only [read, longAddress, Address.pos] at hi ⊢
    rw [hi, ok_bind, hv, Bytecode.target]
    rw [if_pos (by omega)]
    congr 1
    omega
  | short pos =>
    obtain ⟨hlow, hhigh⟩ := hr
    have hi := HoldsAt.int16At h
    have hv : (Int16.ofInt (target - pos)).toInt = target - pos := by
      apply Int16.toInt_ofInt_of_le hlow
      exact hhigh
    simp only [read, shortAddress, Address.pos] at hi ⊢
    rw [hi, ok_bind, hv, Bytecode.target]
    rw [if_pos (by omega)]
    congr 1
    omega

end Address

end Bytecode

end QbScript
