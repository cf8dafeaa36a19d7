import QbScript.Proofs.Bytecode.Scan
import QbScript.Proofs.Script.Step

/-!
# Encoding and decoding of streams

Encoded tokens are read back with their names as checksums, whatever bytes follow the end mark. The
other way round, the tokens of a stream encode to its bytes, if its strings are closed by a zero and
the texts of its table of names are made of characters.
-/

set_option autoImplicit false

namespace QbScript

open LittleEndian Bytecode

namespace Utf8

theorem exists_map_char_of_mapM {ss : List Segment} {cs : List Char}
    (h : ss.mapM Segment.char? = some cs) : ss = cs.map .char := by
  induction ss generalizing cs with
  | nil =>
    obtain rfl : [] = cs := by simpa using h
    rfl
  | cons s ss ih =>
    cases s with
    | invalid => simp [Segment.char?] at h
    | char c =>
      simp only [List.mapM_cons, Segment.char?, Option.pure_def, Option.bind_eq_bind,
        Option.bind_some, Option.bind_eq_some_iff, Option.some.injEq] at h
      obtain ⟨cs', hcs, rfl⟩ := h
      rw [ih hcs, List.map_cons]

/-- Bytes that are all characters are those of their lossy text, in which nothing is lost. -/
theorem ofString_decodeLossy {bytes : List UInt8} (h : (decode? bytes).isSome) :
    ofString (decodeLossy bytes) = bytes := by
  rw [decode?, Option.isSome_map] at h
  obtain ⟨cs, hcs⟩ := Option.isSome_iff_exists.mp h
  have hs := exists_map_char_of_mapM hcs
  have hb := flatMap_bytes_segments bytes
  rw [hs, List.flatMap_map] at hb
  rw [decodeLossy, hs, List.map_map, ofString, String.toList_ofList]
  have hid : Segment.charOrReplacement ∘ Segment.char = id := rfl
  rw [hid, List.map_id]
  exact hb

end Utf8

namespace Token

/-- A token that is read back from its bytes, a name as its checksum and an argument in two parts. -/
def Readable : Token → Prop
  | .name _ | .arg _ | .argChecksum _ => True
  | t => t.Stands

theorem Readable.stands {t u : Token} (h : t.Readable) (hu : u ∈ t.parts) : u.Stands := by
  cases t with
  | name =>
    obtain rfl := List.mem_singleton.mp hu
    trivial
  | arg | argChecksum =>
    rcases List.mem_cons.mp hu with rfl | hu
    · rfl
    · obtain rfl := List.mem_singleton.mp hu
      trivial
  | _ =>
    obtain rfl := List.mem_singleton.mp hu
    exact h

theorem Readable.isInternal {t : Token} (h : t.Readable) : t.leadTag.isInternal = false := by
  cases t with
  | name | arg | argChecksum => rfl
  | _ => exact isInternal_of_stands h

theorem wires_flatMap_parts (ts : List Token) : wires (ts.flatMap parts) = wires ts := by
  induction ts with
  | nil => rfl
  | cons t ts ih => rw [List.flatMap_cons, wires_append, t.wires_parts, ih, wires_cons]

end Token

namespace Bytecode

/-- The stream `b` with the bytes of tokens after it, one token after the other. -/
def encodeAll (b : Bytecode) (ts : List Token) : Except Error Bytecode :=
  ts.foldlM (fun b t => t.encode.map fun bytes => b ++ bytes.toArray) b

theorem encodeAll_eq_ok {ts : List Token} (b : Bytecode)
    (h : ∀ t ∈ ts, t.leadTag.isInternal = false) : b.encodeAll ts = .ok (b.extend ts) := by
  induction ts generalizing b with
  | nil => simp [encodeAll]
  | cons t ts ih =>
    have ht : t.encode = .ok t.wire := Token.encode_eq_ok_iff.mpr ⟨h t List.mem_cons_self, rfl⟩
    rw [encodeAll, List.foldlM_cons, ht, map_ok, ok_bind]
    apply (ih _ fun u hu => h u (List.mem_cons_of_mem t hu)).trans
    simp [extend, Array.append_assoc]

/-- Decoding undoes encoding: tokens that are encoded before an end mark are read back at the sums of
the sizes before them, and nothing after the end mark is. -/
theorem scan_encodeAll (ts : List Token) (x : Bytecode) (h : ∀ t ∈ ts, t.Readable) :
    ∃ b, encodeAll #[] (ts ++ [.simple .endOfFile]) = .ok b ∧
      (b ++ x).scan = ⟨placed 0 (ts.flatMap Token.parts ++ [.simple .endOfFile]), none⟩ := by
  refine ⟨_, encodeAll_eq_ok _ ?_, ?_⟩
  · intro t ht
    rcases List.mem_append.mp ht with ht | ht
    · exact (h t ht).isInternal
    · obtain rfl := List.mem_singleton.mp ht
      rfl
  have hw : wires (ts ++ [.simple .endOfFile]) = wires (ts.flatMap Token.parts) ++ [0] := by
    rw [wires_append, Token.wires_flatMap_parts]
    rfl
  have hb : Bytecode.HoldsAt (extend #[] (ts ++ [.simple .endOfFile]) ++ x) 0
      (wires (ts.flatMap Token.parts) ++ [0]) := by
    apply holdsAt_of_eq_append _ List.length_nil
    · exact x.toList
    · simp [extend, hw]
  have hst : ∀ u ∈ ts.flatMap Token.parts, u.Stands := by
    intro u hu
    obtain ⟨t, ht, hu⟩ := List.mem_flatMap.mp hu
    exact (h t ht).stands hu
  rw [scan, scanFrom_of_holdsAt hst hb.left, scanFrom_endOfFile hb.right, placed_append]
  simp [placed]

theorem scan_encodeAll_mixed :
    (∀ t ∈ [Token.arg "a", .string [22, 0], .random .random2 [1, 2] [0, -5], .checksumName 7 "x"],
      t.Readable) ∧
    ∃ b, encodeAll #[] ([Token.arg "a", .string [22, 0], .random .random2 [1, 2] [0, -5],
        .checksumName 7 "x"] ++ [.simple .endOfFile]) = .ok b ∧
      (b ++ #[27, 255]).scan = ⟨[(0, .simple .arg), (1, .nameChecksum 0x174841bc),
        (6, .string [22, 0]), (14, .random .random2 [1, 2] [0, -5]), (31, .checksumName 7 "x"),
        (38, .simple .endOfFile)], none⟩ := by
  have h : ∀ t ∈ [Token.arg "a", .string [22, 0], .random .random2 [1, 2] [0, -5],
      .checksumName 7 "x"], t.Readable := by
    simp [Token.Readable, Token.Stands, Tag.isRandomHeader]
  refine ⟨h, ?_⟩
  obtain ⟨b, hb, hs⟩ := scan_encodeAll _ #[27, 255] h
  refine ⟨b, hb, hs.trans ?_⟩
  decide +kernel

def payloadAt (b : Bytecode) (pos : Nat) : Except Error (List UInt8) := do
  b.field (pos + 5) (← b.word32At (pos + 1)).toNat

def textAt (b : Bytecode) (pos : Nat) : Except Error (List UInt8) := do
  b.field (pos + 5) ((← b.terminatedEnd (pos + 5)) - 1 - (pos + 5))

/-- The token at `pos` has the form in which it is written. -/
def IsCanonicalAt (b : Bytecode) (pos : Nat) : Token → Prop
  | .string _ | .localString _ => ∃ bytes, b.payloadAt pos = .ok bytes ∧ bytes.getLast? = some 0
  | .checksumName .. => ∃ bytes, b.textAt pos = .ok bytes ∧ (Utf8.decode? bytes).isSome
  | _ => True

variable {b : Bytecode} {pos : Nat} {t : Token} {bs : List UInt8}

theorem HoldsAt.payloadAt {tag : Tag} {payload : List UInt8}
    (h : b.HoldsAt pos (tag.byte :: (word32 (UInt32.ofNat payload.length) ++ payload)))
    (hb : payload.length < 0x100000000) : b.payloadAt pos = .ok payload := by
  have hw := h.tail.left.word32At
  have hs := h.tail.right
  rw [length_word32] at hs
  rw [Bytecode.payloadAt, hw, ok_bind, toNat_ofNat_of_lt hb]
  exact hs.field rfl

theorem HoldsAt.textAt {c : Checksum} {bytes : List UInt8}
    (h : b.HoldsAt pos (Tag.checksumName.byte :: (word32 c ++ Token.terminated bytes)))
    (h0 : 0 ∉ bytes) : b.textAt pos = .ok bytes := by
  have hs := h.tail.right
  rw [length_word32] at hs
  have he : b.terminatedEnd (pos + 5) = .ok (pos + 5 + bytes.length + 1) := by
    rw [terminatedEnd, show pos + 5 = pos + 1 + 4 by omega, hs.zeroFrom? h0]
  rw [Bytecode.textAt, he, ok_bind]
  apply hs.left.field
  omega

theorem wire_string {payload : List UInt8} (h : payload.getLast? = some 0) :
    Token.counted (withoutFinalZero payload) =
      word32 (UInt32.ofNat payload.length) ++ payload := by
  obtain ⟨bytes, rfl⟩ := List.getLast?_eq_some_iff.mp h
  have hp : withoutFinalZero (bytes ++ [0]) = bytes := withoutFinalZero_terminated bytes
  rw [hp, counted_eq]
  rfl

/-- A record in the form that is written is what its token is encoded to. -/
theorem eq_wire_of_isCanonicalAt (ht : t.Record bs) (hb : b.HoldsAt pos bs)
    (hc : b.IsCanonicalAt pos t) : bs = t.wire := by
  cases ht with
  | wire => rfl
  | string h =>
    obtain ⟨payload, hp, hl⟩ := hc
    obtain rfl := Except.ok.inj (hp.symm.trans (hb.payloadAt h))
    rw [← wire_string hl]
    rfl
  | localString h =>
    obtain ⟨payload, hp, hl⟩ := hc
    obtain rfl := Except.ok.inj (hp.symm.trans (hb.payloadAt h))
    rw [← wire_string hl]
    rfl
  | entry h0 =>
    obtain ⟨bytes, hp, hl⟩ := hc
    obtain rfl := Except.ok.inj (hp.symm.trans (hb.textAt h0))
    rw [Token.wire, Token.payload, Utf8.ofString_decodeLossy hl]
    rfl

theorem isInternal_of_record (ht : t.Record bs) : t.leadTag.isInternal = false := by
  cases ht with
  | wire h => exact Token.isInternal_of_stands h
  | string | localString | entry => rfl

/-- The tokens of a stream in the form that is written are encoded to the bytes that they are read
from. -/
theorem exists_wires_of_scanFrom (hf : (b.scanFrom pos).fault = none)
    (hc : ∀ p ∈ (b.scanFrom pos).tokens, b.IsCanonicalAt p.1 p.2) :
    ∃ e, (b.scanFrom pos).tokens.getLast? = some (e, .simple .endOfFile) ∧
      b.HoldsAt pos (wires ((b.scanFrom pos).tokens.map Prod.snd)) ∧
      pos + (wires ((b.scanFrom pos).tokens.map Prod.snd)).length = e + 1 ∧
      ∀ p ∈ (b.scanFrom pos).tokens, p.2.leadTag.isInternal = false := by
  revert hf hc
  refine scanFrom_induction
    (motive := fun pos s => s.fault = none → (∀ p ∈ s.tokens, b.IsCanonicalAt p.1 p.2) →
      ∃ e, s.tokens.getLast? = some (e, .simple .endOfFile) ∧
        b.HoldsAt pos (wires (s.tokens.map Prod.snd)) ∧
        pos + (wires (s.tokens.map Prod.snd)).length = e + 1 ∧
        ∀ p ∈ s.tokens, p.2.leadTag.isInternal = false) ?_ ?_ ?_ pos
  · intro pos e _ hf
    cases hf
  · intro pos hb _ _
    refine ⟨pos, rfl, hb, rfl, fun p hp => ?_⟩
    obtain rfl := List.mem_singleton.mp hp
    rfl
  · intro pos t bs s ht hb ih hf hc
    obtain rfl := eq_wire_of_isCanonicalAt ht hb (hc _ List.mem_cons_self)
    obtain ⟨e, he, hs, hl, hi⟩ := ih hf fun p hp => hc p (List.mem_cons_of_mem _ hp)
    refine ⟨e, ?_, hb.append hs, ?_, fun p hp => ?_⟩
    · rw [List.getLast?_cons, he]
      rfl
    · rw [List.map_cons, wires_cons, List.length_append, ← Nat.add_assoc]
      exact hl
    · rcases List.mem_cons.mp hp with rfl | hp
      · exact isInternal_of_record ht
      · exact hi p hp

/-- Encoding undoes decoding: the tokens of a stream that is read to its end mark encode to its bytes
up to and with the end mark, if they have the form in which they are written. -/
theorem encodeAll_scan (hf : b.scan.fault = none)
    (hc : ∀ p ∈ b.scan.tokens, b.IsCanonicalAt p.1 p.2) :
    ∃ e, b.scan.tokens.getLast? = some (e, .simple .endOfFile) ∧ e < b.size ∧
      encodeAll #[] (b.scan.tokens.map Prod.snd) = .ok (b.extract 0 (e + 1)) := by
  obtain ⟨e, he, hb, hl, hi⟩ := exists_wires_of_scanFrom hf hc
  rw [Nat.zero_add] at hl
  have hs := hb.size_le
  refine ⟨e, he, by omega, ?_⟩
  rw [encodeAll_eq_ok]
  · have hbytes := (field_eq_ok_iff.mp (hb.field hl)).2
    rw [Nat.zero_add] at hbytes
    rw [extend, scan, hbytes, Array.toArray_toList, Array.empty_append]
  · intro t ht
    obtain ⟨p, hp, rfl⟩ := List.mem_map.mp ht
    exact hi p hp

theorem encodeAll_scan_mixed :
    ∃ b : Bytecode, b = #[26, 1, 0, 128, 255, 28, 3, 0, 0, 0, 0, 27, 0, 43, 1, 2, 3, 4, 195, 169, 0, 0,
        72] ∧
      b.scan.fault = none ∧ (∀ p ∈ b.scan.tokens, b.IsCanonicalAt p.1 p.2) ∧
      b.scan.tokens = [(0, .float ⟨0xff800001⟩), (5, .localString [0, 27]),
        (13, .checksumName 0x4030201 "é"), (21, .simple .endOfFile)] ∧
      encodeAll #[] (b.scan.tokens.map Prod.snd) = .ok (b.extract 0 22) := by
  obtain ⟨b, hb⟩ : ∃ b : Bytecode, b = #[26, 1, 0, 128, 255, 28, 3, 0, 0, 0, 0, 27, 0, 43, 1, 2, 3, 4,
    195, 169, 0, 0, 72] := ⟨_, rfl⟩
  have ht : Bytecode.scan b = ⟨[(0, .float ⟨0xff800001⟩), (5, .localString [0, 27]),
      (13, .checksumName 0x4030201 "é"), (21, .simple .endOfFile)], none⟩ := by
    subst hb
    decide +kernel
  have hf : (Bytecode.scan b).fault = none := congrArg Scan.fault ht
  have hc : ∀ p ∈ (Bytecode.scan b).tokens, Bytecode.IsCanonicalAt b p.1 p.2 := by
    rw [ht]
    intro p hp
    simp only [List.mem_cons, List.not_mem_nil, or_false] at hp
    rcases hp with rfl | rfl | rfl | rfl
    · trivial
    · exact ⟨[0, 27, 0], by subst hb; decide +kernel, rfl⟩
    · exact ⟨[195, 169], by subst hb; decide +kernel, by decide +kernel⟩
    · trivial
  obtain ⟨e, he, -, hall⟩ := encodeAll_scan hf hc
  rw [ht] at he
  obtain rfl : 21 = e := congrArg Prod.fst (Option.some.inj he)
  exact ⟨b, hb, hf, hc, congrArg Scan.tokens ht, hall⟩

end Bytecode

end QbScript
