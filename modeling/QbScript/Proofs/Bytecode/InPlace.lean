import QbScript.Proofs.Bytecode.Linking
import QbScript.Proofs.Bytecode.Machine

/-!
# Linking in place

A writer changes the stream that it holds byte by byte, and still holds a stream when it stops. The
writers here count in words of 64 bits and stop where a number does not fit in a word and where a
byte is set that is not there. In a stream of less than 2 ^ 31 bytes they link an address as it is
linked in a stream of its own: the address then leads to the target, nothing else has changed, and a
writer that refuses leaves the stream as it was.
-/

set_option autoImplicit false

namespace QbScript

open LittleEndian

namespace Bytecode

namespace Machine

inductive WriteStop where
  /-- A number does not fit in a word. -/
  | wrapped
  /-- A byte is set that is not there. -/
  | outside
  | refused (e : LinkError)

abbrev Writer := EStateM WriteStop Bytecode Unit

def setByte (pos : Nat) (byte : UInt8) : Writer := fun b =>
  if pos < b.size then .ok () (b.setIfInBounds pos byte) else .error .outside b

def setBytes (pos : Nat) : List UInt8 → Writer
  | [] => pure ()
  | byte :: rest => do
    setByte pos byte
    setBytes (pos + 1) rest

def require (pos n : Nat) : Writer := fun b =>
  if pos + n < 0x10000000000000000 ∧ pos + n ≤ b.size then .ok () b
  else .error (.refused (.stream (.outOfRange pos n b.size))) b

def overwrite (pos : Nat) (bytes : List UInt8) : Writer := do
  require pos bytes.length
  setBytes pos bytes

/-- The difference of two positions, all three in words with a sign. -/
def distance (start stop : Nat) : EStateM WriteStop Bytecode Int :=
  if start < 0x8000000000000000 ∧ stop < 0x8000000000000000 then pure ((stop : Int) - start)
  else throw .wrapped

def linkShort (pos target : Nat) : Writer := do
  let d ← distance pos target
  if -0x8000 ≤ d ∧ d < 0x8000 then overwrite pos (int16 (Int16.ofInt d))
  else throw (.refused (.tooFar d))

def linkLong (pos target : Nat) : Writer := do
  let d ← distance (pos + 4) target
  if -0x80000000 ≤ d ∧ d < 0x80000000 then overwrite pos (int32 (Int32.ofInt d))
  else throw (.refused (.tooFar d))

def link (target : Nat) : Address → Writer
  | .long pos => linkLong pos target
  | .short pos => linkShort pos target

def hold (b : Bytecode) : Except LinkError Bytecode → EStateM.Result WriteStop Bytecode Unit
  | .ok c => .ok () c
  | .error e => .error (.refused e) b

variable {b : Bytecode} {pos target : Nat}

theorem setBytes_eq {bytes : List UInt8} (h : pos + bytes.length ≤ b.size) :
    setBytes pos bytes b = .ok () (overwrite.go b pos bytes) := by
  induction bytes generalizing b pos with
  | nil => rfl
  | cons byte rest ih =>
    simp only [List.length_cons] at h
    have hset : setByte pos byte b = .ok () (b.setIfInBounds pos byte) := if_pos (by omega)
    have hrest := @ih (b.setIfInBounds pos byte) (pos + 1)
      (by rw [Array.size_setIfInBounds]; omega)
    simp only [setBytes, bind, EStateM.bind, hset, hrest]
    rfl

theorem overwrite_eq (hb : b.size < 0x80000000) (pos : Nat) (bytes : List UInt8) :
    overwrite pos bytes b = hold b ((b.overwrite pos bytes).mapError .stream) := by
  unfold overwrite Bytecode.overwrite
  by_cases h : pos + bytes.length ≤ b.size
  · have hask : require pos bytes.length b = .ok () b := if_pos ⟨by omega, h⟩
    simp only [bind, EStateM.bind, hask, setBytes_eq h, if_pos h]
    rfl
  · have hask : require pos bytes.length b =
        .error (.refused (.stream (.outOfRange pos bytes.length b.size))) b :=
      if_neg fun hc => h hc.2
    simp only [bind, EStateM.bind, hask, if_neg h]
    rfl

theorem distance_eq {start stop : Nat} (h : start < 0x100000000) (h' : stop < 0x100000000) :
    distance start stop b = .ok ((stop : Int) - start) b := by
  rw [distance, if_pos ⟨by omega, by omega⟩]
  rfl

theorem link_eq {f : Address} (hb : b.size < 0x80000000) (hf : f.pos < 0x80000000)
    (ht : target ≤ b.size) : link target f b = hold b (f.link b target) := by
  cases f with
  | long pos =>
    have hf : pos < 0x80000000 := hf
    have hd : distance (pos + 4) target b = .ok ((target : Int) - (pos + 4 : Nat)) b :=
      distance_eq (by omega) (by omega)
    simp only [link, linkLong, Address.link, Bytecode.linkLong, bind, EStateM.bind, hd]
    split
    · exact overwrite_eq hb pos _
    · rfl
  | short pos =>
    have hf : pos < 0x80000000 := hf
    have hd : distance pos target b = .ok ((target : Int) - pos) b :=
      distance_eq (by omega) (by omega)
    simp only [link, linkShort, Address.link, Bytecode.linkShort, bind, EStateM.bind, hd]
    split
    · exact overwrite_eq hb pos _
    · rfl

end Machine

/-- An address is linked in place exactly if all of it is there and the distance fits. Then it leads
to the target, and what is around it has not changed; else nothing has. Either way the writer
comes to what linking comes to. -/
structure LinksInPlace (b : Bytecode) (f : Address) (target : Nat) : Prop where
  links_iff : (∃ c, Machine.link target f b = .ok () c) ↔ f.stop ≤ b.size ∧ f.Reaches target
  of_ok : ∀ d, Machine.link target f b = .ok () d →
    f.link b target = .ok d ∧ f.read d = .ok target ∧ d.size = b.size ∧
      ∀ i, i < f.pos ∨ f.stop ≤ i → d[i]? = b[i]?
  of_error : ∀ stop d, Machine.link target f b = .error stop d →
    d = b ∧ ∃ e, stop = .refused e ∧ f.link b target = .error e

theorem linksInPlace {b : Bytecode} {f : Address} {target : Nat} (hb : b.size < 0x80000000)
    (hf : f.pos < 0x80000000) (ht : target ≤ b.size) : LinksInPlace b f target := by
  have heq := Machine.link_eq hb hf ht
  constructor
  · rw [heq]
    cases hl : f.link b target with
    | error e =>
      have hno : ¬ (f.stop ≤ b.size ∧ f.Reaches target) := by
        rintro ⟨hs, hr⟩
        have hok := Address.link_eq_ok_iff.mpr ⟨hr, hs, rfl⟩
        rw [hl] at hok
        cases hok
      exact ⟨fun ⟨_, h⟩ => (nomatch h), fun h => absurd h hno⟩
    | ok c =>
      obtain ⟨hr, hs, -⟩ := Address.link_eq_ok_iff.mp hl
      exact ⟨fun _ => ⟨hs, hr⟩, fun _ => ⟨c, rfl⟩⟩
  · intro c hc
    rw [heq] at hc
    cases hl : f.link b target with
    | error e =>
      rw [hl] at hc
      cases hc
    | ok d =>
      rw [hl] at hc
      obtain rfl : d = c := by injection hc
      obtain ⟨-, -, hgo⟩ := Address.link_eq_ok_iff.mp hl
      refine ⟨rfl, (read_of_link hl ht).1, size_of_link hl, fun i hi => ?_⟩
      rw [hgo]
      apply getElem?_go_outside
      rwa [Address.length_bytes]
  · intro stop c hc
    rw [heq] at hc
    cases hl : f.link b target with
    | error e =>
      rw [hl] at hc
      injection hc with hstop hbc
      exact ⟨hbc.symm, e, hstop.symm, rfl⟩
    | ok d =>
      rw [hl] at hc
      cases hc

/-- Linking an address and reading it are inverse. In a stream of less than 2 ^ 31 bytes a short
address can be linked if the distance from its first byte has 16 bits, and a long one always; an
address that is not all there cannot be linked. -/
theorem linking_in_place (b : Bytecode) (pos target : Nat) (hb : b.size < 0x80000000)
    (hp : pos < 0x80000000) (ht : target ≤ b.size) :
    LinksInPlace b (.short pos) target ∧ LinksInPlace b (.long pos) target ∧
      (pos + 2 ≤ b.size → ((∃ c, Machine.linkShort pos target b = .ok () c) ↔
        -32768 ≤ (target : Int) - pos ∧ (target : Int) - pos ≤ 32767)) ∧
      (pos + 4 ≤ b.size → ∃ c, Machine.linkLong pos target b = .ok () c) := by
  have hshort : LinksInPlace b (.short pos) target := linksInPlace hb hp ht
  have hlong : LinksInPlace b (.long pos) target := linksInPlace hb hp ht
  refine ⟨hshort, hlong, fun hfield => ?_, fun hfield => ?_⟩
  · apply hshort.links_iff.trans
    simp only [Address.stop, Address.pos, Address.size, Address.Reaches]
    omega
  · apply hlong.links_iff.mpr
    simp only [Address.stop, Address.pos, Address.size, Address.Reaches]
    omega

/-- A long address at the very end, back to the start, and a short one that is cut off. -/
theorem linking_in_place_end :
    ∃ b : Bytecode, b = #[22, 0, 0, 0, 0, 46, 9, 9, 9, 9] ∧
      Machine.linkLong 6 0 b = .ok () #[22, 0, 0, 0, 0, 46, 0xf6, 0xff, 0xff, 0xff] ∧
      longAddress #[22, 0, 0, 0, 0, 46, 0xf6, 0xff, 0xff, 0xff] 6 = .ok 0 ∧
      ∃ stop, Machine.linkShort 9 0 b = .error stop b := by
  obtain ⟨b, hb⟩ : ∃ b : Bytecode, b = #[22, 0, 0, 0, 0, 46, 9, 9, 9, 9] := ⟨_, rfl⟩
  have hs : Array.size b = 10 := by rw [hb]; rfl
  obtain ⟨-, hlong, -⟩ := linking_in_place b 6 0 (by omega) (by decide) (by omega)
  obtain ⟨hshort, -⟩ := linking_in_place b 9 0 (by omega) (by decide) (by omega)
  have hlink : Machine.linkLong 6 0 b = .ok () #[22, 0, 0, 0, 0, 46, 0xf6, 0xff, 0xff, 0xff] := by
    subst hb
    rfl
  refine ⟨b, hb, hlink, (hlong.of_ok _ hlink).2.1, ?_⟩
  have hno : ¬ ∃ c, Machine.linkShort 9 0 b = .ok () c := by
    intro hc
    have hstop : 9 + 2 ≤ b.size := (hshort.links_iff.mp hc).1
    omega
  cases hr : Machine.linkShort 9 0 b with
  | ok u c => exact absurd ⟨c, hr⟩ hno
  | error stop c =>
    obtain ⟨rfl, -⟩ := hshort.of_error stop c hr
    exact ⟨stop, rfl⟩

end Bytecode

end QbScript
