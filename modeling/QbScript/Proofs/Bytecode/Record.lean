import QbScript.Proofs.Bytecode.Reading

/-!
# Records

The bytes that a token is read from. A token other than the end mark is read at a position exactly if
a record of it stands there. What is written is a record, but a string need not be closed by a zero
to be read, and the text of an entry need not be made of characters.
-/

set_option autoImplicit false

namespace QbScript

open LittleEndian Bytecode

theorem Tag.cases_of_fixed {tag : Tag} {n : Nat} (h : tag.layout = .fixed n) :
    n = 1 ∨ n = 9 ∧ tag = .pair ∨ n = 13 ∧ tag = .vector ∨ n = 3 ∧ tag.isShortBranch ∨
      n = 5 ∧ (tag = .name ∨ tag = .integer ∨ tag = .hexInteger ∨ tag = .float ∨
        tag = .endOfLineNumber ∨ tag = .jump) := by
  revert h
  cases tag <;> simp [Tag.layout, Tag.isShortBranch] <;> omega

theorem Tag.cases_of_counted {tag : Tag} (h : tag.layout = .counted) :
    tag = .string ∨ tag = .localString := by
  revert h
  cases tag <;> simp [Tag.layout]

theorem Tag.eq_of_terminated {tag : Tag} (h : tag.layout = .terminated) : tag = .checksumName := by
  revert h
  cases tag <;> simp [Tag.layout]

theorem Tag.weighted_iff {tag : Tag} : tag.layout = .weighted ↔ tag.isRandomHeader := by
  cases tag <;> simp [Tag.layout, Tag.isRandomHeader]

theorem Tag.eq_of_final {tag : Tag} (h : tag.layout = .final) : tag = .endOfFile := by
  revert h
  cases tag <;> simp [Tag.layout]

namespace Token

inductive Record : Token → List UInt8 → Prop where
  | wire {t : Token} (h : t.Stands) : Record t t.wire
  | string {payload : List UInt8} (h : payload.length < 0x100000000) :
    Record (.string (withoutFinalZero payload))
      (Tag.string.byte :: (word32 (UInt32.ofNat payload.length) ++ payload))
  | localString {payload : List UInt8} (h : payload.length < 0x100000000) :
    Record (.localString (withoutFinalZero payload))
      (Tag.localString.byte :: (word32 (UInt32.ofNat payload.length) ++ payload))
  | entry {c : Checksum} {bytes : List UInt8} (h : 0 ∉ bytes) :
    Record (.checksumName c (Utf8.decodeLossy bytes))
      (Tag.checksumName.byte :: (word32 c ++ terminated bytes))

theorem Record.ne_nil {t : Token} {bs : List UInt8} (h : t.Record bs) : bs ≠ [] := by
  cases h <;> exact List.cons_ne_nil _ _

/-- No record is that of an end mark. -/
theorem Record.ne_endOfFile {t : Token} {bs : List UInt8} (h : t.Record bs) :
    t ≠ .simple .endOfFile := by
  rintro rfl
  cases h with
  | wire h => cases h

theorem exists_word32 {bs : List UInt8} (h : bs.length = 4) : ∃ v, word32 v = bs :=
  ⟨_, word32_toWord32 h⟩

theorem exists_float32 (bs : List UInt8) (h : bs.length = 4) : ∃ x, float32 x = bs :=
  ⟨⟨toWord32 bs⟩, word32_toWord32 h⟩

/-- All bytes that follow the tag in a layout of fixed size are the payload of a token. -/
theorem exists_wire_of_fixed {tag : Tag} {bs : List UInt8} (hl : tag.layout = .fixed (bs.length + 1)) :
    ∃ t : Token, t.Stands ∧ t.wire = tag.byte :: bs := by
  rcases tag.cases_of_fixed hl with hn | ⟨hn, rfl⟩ | ⟨hn, rfl⟩ | ⟨hn, hs⟩ | ⟨hn, htag⟩
  · obtain rfl : bs = [] := List.length_eq_zero_iff.mp (by omega)
    exact ⟨.simple tag, hl, rfl⟩
  · obtain ⟨x, hx⟩ := exists_float32 (bs.take 4) (by simp; omega)
    obtain ⟨y, hy⟩ := exists_float32 (bs.drop 4) (by simp; omega)
    refine ⟨.pair x y, trivial, ?_⟩
    rw [wire, payload, hx, hy, List.take_append_drop]
    rfl
  · obtain ⟨x, hx⟩ := exists_float32 (bs.take 4) (by simp; omega)
    obtain ⟨y, hy⟩ := exists_float32 ((bs.drop 4).take 4) (by simp; omega)
    obtain ⟨z, hz⟩ := exists_float32 ((bs.drop 4).drop 4) (by simp; omega)
    refine ⟨.vector x y z, trivial, ?_⟩
    rw [wire, payload, hx, hy, hz, List.append_assoc, List.take_append_drop, List.take_append_drop]
    rfl
  · refine ⟨.shortBranch tag (toInt16 bs), hs, ?_⟩
    rw [wire, payload, int16_toInt16 (by omega)]
    rfl
  · have h4 : bs.length = 4 := by omega
    rcases htag with rfl | rfl | rfl | rfl | rfl | rfl
    · exact ⟨.nameChecksum (toWord32 bs), trivial, congrArg _ (word32_toWord32 h4)⟩
    · exact ⟨.integer (toInt32 bs), trivial, congrArg _ (int32_toInt32 h4)⟩
    · exact ⟨.hexInteger (toWord32 bs), trivial, congrArg _ (word32_toWord32 h4)⟩
    · exact ⟨.float ⟨toWord32 bs⟩, trivial, congrArg _ (word32_toWord32 h4)⟩
    · exact ⟨.endOfLineNumber (toWord32 bs), trivial, congrArg _ (word32_toWord32 h4)⟩
    · exact ⟨.jump (toInt32 bs), trivial, congrArg _ (int32_toInt32 h4)⟩

/-- Bytes are the words of a list if their number is a multiple of the width of a word. -/
theorem exists_flatMap_eq {α : Type} (f : α → List UInt8) {width n : Nat} {bs : List UInt8}
    (hf : ∀ bs : List UInt8, bs.length = width → ∃ a, f a = bs) (h : bs.length = width * n) :
    ∃ as : List α, as.length = n ∧ as.flatMap f = bs := by
  induction n generalizing bs with
  | zero =>
    obtain rfl := List.length_eq_zero_iff.mp h
    exact ⟨[], rfl, rfl⟩
  | succ n ih =>
    rw [Nat.mul_succ] at h
    obtain ⟨a, ha⟩ := hf (bs.take width) (by simp; omega)
    have hdrop : (bs.drop width).length = width * n := by simp; omega
    obtain ⟨as, hn, has⟩ := ih hdrop
    refine ⟨a :: as, congrArg (· + 1) hn, ?_⟩
    rw [List.flatMap_cons, ha, has, List.take_append_drop]

/-- All bytes of the size that the count asks for are the weights and jumps of a random head. -/
theorem exists_wire_of_weighted {tag : Tag} {bs : List UInt8} {count : UInt32}
    (ht : tag.isRandomHeader) (hn : bs.length = 6 * count.toNat) :
    ∃ t : Token, t.Stands ∧ t.wire = tag.byte :: (word32 count ++ bs) := by
  have hcount := count.toNat_lt
  have htake : (bs.take (2 * count.toNat)).length = 2 * count.toNat := by simp; omega
  have hdrop : (bs.drop (2 * count.toNat)).length = 4 * count.toNat := by simp; omega
  obtain ⟨weights, hw, hwb⟩ := exists_flatMap_eq word16 (fun _ h => ⟨_, word16_toWord16 h⟩) htake
  obtain ⟨jumps, hj, hjb⟩ := exists_flatMap_eq int32 (fun _ h => ⟨_, int32_toInt32 h⟩) hdrop
  refine ⟨.random tag weights jumps, ⟨ht, by omega, by omega⟩, ?_⟩
  rw [wire, payload, hwb, hjb, hw, UInt32.ofNat_toNat, List.append_assoc, List.take_append_drop]
  rfl

end Token

namespace Bytecode

variable {b : Bytecode} {pos : Nat} {t : Token} {bs : List UInt8}

theorem getElem?_of_tagAt {tag : Tag} (h : b.tagAt pos = .ok tag) :
    tag.isInternal = false ∧ b[pos]? = some tag.byte := by
  obtain ⟨byte, hb, htag⟩ := bind_eq_ok_iff.mp h
  unfold byteAt at hb
  split at hb
  · rename_i byte' hs
    obtain rfl := Except.ok.inj hb
    split at htag
    · rename_i tag' hof
      obtain rfl := Except.ok.inj htag
      obtain ⟨hi, rfl⟩ := Tag.ofByte?_eq_some_iff.mp hof
      exact ⟨hi, hs⟩
    · cases htag
  · cases hb

theorem exists_holdsAt {n : Nat} (h : pos + n ≤ b.size) :
    ∃ bs : List UInt8, bs.length = n ∧ b.HoldsAt pos bs := by
  have hf := field_eq_ok_iff.mpr ⟨h, rfl⟩
  exact ⟨_, length_of_field_eq_ok hf, holdsAt_of_field hf⟩

theorem holdsAt_singleton {x : UInt8} (h : b[pos]? = some x) : b.HoldsAt pos [x] := by
  obtain ⟨hlt, -⟩ := Array.getElem?_eq_some_iff.mp h
  refine ⟨hlt, fun i hi => ?_⟩
  obtain rfl : i = 0 := Nat.lt_one_iff.mp hi
  exact h

/-- The `n` bytes after a tag, if so many stand there. -/
theorem exists_holdsAt_of_tagAt {tag : Tag} {n : Nat} (h : b.tagAt pos = .ok tag)
    (hn : pos + 1 + n ≤ b.size) :
    ∃ bs : List UInt8, bs.length = n ∧ b.HoldsAt pos (tag.byte :: bs) := by
  obtain ⟨bs, hl, hb⟩ := exists_holdsAt hn
  exact ⟨bs, hl, (holdsAt_singleton (getElem?_of_tagAt h).2).append hb⟩

theorem holdsAt_of_word32At {v : UInt32} (h : b.word32At pos = .ok v) : b.HoldsAt pos (word32 v) := by
  obtain ⟨bytes, hf, rfl⟩ := map_eq_ok_iff.mp h
  rw [word32_toWord32 (length_of_field_eq_ok hf)]
  exact holdsAt_of_field hf

/-- The bytes before the first zero have none among them. -/
theorem exists_holdsAt_of_terminatedEnd {next : Nat} (h : b.terminatedEnd pos = .ok next) :
    ∃ bs : List UInt8, 0 ∉ bs ∧ next = pos + bs.length + 1 ∧
      b.HoldsAt pos (Token.terminated bs) := by
  unfold terminatedEnd at h
  split at h
  · rename_i mark hz
    obtain rfl := Except.ok.inj h
    clear h
    fun_induction zeroFrom? b pos with
    | case1 pos hlt h0 =>
      obtain rfl := Option.some.inj hz
      refine ⟨[], List.not_mem_nil, rfl, holdsAt_singleton ?_⟩
      rw [Array.getElem?_eq_getElem hlt, h0]
    | case2 pos hlt h0 ih =>
      obtain ⟨bs, hbs, hnext, hh⟩ := ih hz
      refine ⟨b[pos] :: bs, ?_, ?_, ?_⟩
      · intro hm
        rcases List.mem_cons.mp hm with hx | hm
        · exact h0 hx.symm
        · exact hbs hm
      · rw [hnext, List.length_cons]
        omega
      · exact (holdsAt_singleton (Array.getElem?_eq_getElem hlt)).append hh
    | case3 => cases hz
  · cases h

def HoldsRecord (b : Bytecode) (pos next : Nat) : Prop :=
  ∃ t bs, Token.Record t bs ∧ b.HoldsAt pos bs ∧ next = pos + bs.length

section
variable {tag : Tag} {count : UInt32}

theorem holdsRecord_of_fixed {n : Nat} (htag : b.tagAt pos = .ok tag) (hl : tag.layout = .fixed n)
    (hle : pos + n ≤ b.size) : b.HoldsRecord pos (pos + n) := by
  have hn : n ≠ 0 := by
    rcases tag.cases_of_fixed hl with hn | ⟨hn, -⟩ | ⟨hn, -⟩ | ⟨hn, -⟩ | ⟨hn, -⟩ <;> omega
  have hbody : pos + 1 + (n - 1) ≤ b.size := by omega
  obtain ⟨bs, hbs, hb⟩ := exists_holdsAt_of_tagAt htag hbody
  obtain rfl : n = bs.length + 1 := by omega
  obtain ⟨t, ht, hw⟩ := Token.exists_wire_of_fixed hl
  exact ⟨t, t.wire, .wire ht, hw ▸ hb, by rw [hw, List.length_cons]⟩

theorem holdsAt_of_count {body : List UInt8} (htag : b.tagAt pos = .ok tag)
    (hc : b.word32At (pos + 1) = .ok count) (hb : b.HoldsAt (pos + 5) body) :
    b.HoldsAt pos (tag.byte :: (word32 count ++ body)) := by
  apply (holdsAt_singleton (getElem?_of_tagAt htag).2).append
  apply (holdsAt_of_word32At hc).append
  rwa [length_word32]

theorem holdsRecord_of_counted (htag : b.tagAt pos = .ok tag) (hl : tag.layout = .counted)
    (hc : b.word32At (pos + 1) = .ok count) (hle : pos + 5 + count.toNat ≤ b.size) :
    b.HoldsRecord pos (pos + 5 + count.toNat) := by
  have hcount := count.toNat_lt
  obtain ⟨payload, hp, hpay⟩ := exists_holdsAt hle
  have hb := holdsAt_of_count htag hc hpay
  rw [← UInt32.ofNat_toNat (x := count), ← hp] at hb
  have hnext : pos + 5 + payload.length =
      pos + (tag.byte :: (word32 (UInt32.ofNat payload.length) ++ payload)).length := by
    simp only [List.length_cons, List.length_append, length_word32]
    omega
  rw [← hp, hnext]
  rcases tag.cases_of_counted hl with rfl | rfl
  · exact ⟨_, _, .string (by omega), hb, rfl⟩
  · exact ⟨_, _, .localString (by omega), hb, rfl⟩

theorem holdsRecord_of_terminated {next : Nat} (htag : b.tagAt pos = .ok .checksumName)
    (hle : pos + 5 ≤ b.size) (hz : b.terminatedEnd (pos + 5) = .ok next) :
    b.HoldsRecord pos next := by
  have hbody : pos + 1 + 4 ≤ b.size := hle
  obtain ⟨c, hc, hb⟩ := exists_holdsAt_of_tagAt htag hbody
  obtain ⟨c, rfl⟩ := Token.exists_word32 hc
  obtain ⟨bytes, h0, rfl, ht⟩ := exists_holdsAt_of_terminatedEnd hz
  have hall : b.HoldsAt pos ((Tag.checksumName.byte :: word32 c) ++ Token.terminated bytes) := by
    apply hb.append
    rwa [List.length_cons, hc]
  refine ⟨_, _, .entry h0, hall, ?_⟩
  simp only [List.length_cons, List.length_append, length_word32, Token.terminated,
    List.length_nil]
  omega

theorem holdsRecord_of_weighted (htag : b.tagAt pos = .ok tag) (ht : tag.isRandomHeader)
    (hc : b.word32At (pos + 1) = .ok count) (hle : pos + weightedSize count.toNat ≤ b.size) :
    b.HoldsRecord pos (pos + weightedSize count.toNat) := by
  rw [weightedSize, ← Nat.add_assoc] at hle
  obtain ⟨body, hbody, hbb⟩ := exists_holdsAt hle
  obtain ⟨t, hst, hw⟩ := Token.exists_wire_of_weighted ht hbody
  refine ⟨t, t.wire, .wire hst, hw ▸ holdsAt_of_count htag hc hbb, ?_⟩
  rw [hw, List.length_cons, List.length_append, length_word32, hbody, weightedSize]
  omega

end

/-- Where a token reaches to a next one, a record stands. -/
theorem holdsRecord_of_tokenEnd {next : Nat} (h : b.tokenEnd pos = .ok (some next)) :
    b.HoldsRecord pos next := by
  obtain ⟨tag, htag, h⟩ := bind_eq_ok_iff.mp h
  cases hl : tag.layout with
  | final => simp [hl] at h
  | fixed n =>
    simp only [hl, bind_eq_ok_iff, pure_eq_ok, Except.ok.injEq, Option.some.injEq] at h
    obtain ⟨next, he, rfl⟩ := h
    obtain ⟨hle, rfl⟩ := extent_eq_ok_iff.mp he
    exact holdsRecord_of_fixed htag hl hle
  | counted =>
    simp only [hl, bind_eq_ok_iff, pure_eq_ok, Except.ok.injEq, Option.some.injEq] at h
    obtain ⟨count, hc, next, he, rfl⟩ := h
    obtain ⟨hle, rfl⟩ := extent_eq_ok_iff.mp he
    exact holdsRecord_of_counted htag hl hc hle
  | terminated =>
    obtain rfl := tag.eq_of_terminated hl
    simp only [Tag.layout, bind_eq_ok_iff, pure_eq_ok, Except.ok.injEq, Option.some.injEq] at h
    obtain ⟨start, he, next, hz, rfl⟩ := h
    obtain ⟨hle, rfl⟩ := extent_eq_ok_iff.mp he
    exact holdsRecord_of_terminated htag hle hz
  | weighted =>
    simp only [hl, bind_eq_ok_iff, pure_eq_ok, Except.ok.injEq, Option.some.injEq] at h
    obtain ⟨count, hc, next, he, rfl⟩ := h
    obtain ⟨hle, rfl⟩ := extent_eq_ok_iff.mp he
    exact holdsRecord_of_weighted htag (Tag.weighted_iff.mp hl) hc hle
  | unknown => simp [hl, bind_eq_ok_iff] at h

/-- What stands as a record is read. -/
theorem reads_of_record (ht : t.Record bs) (hb : b.HoldsAt pos bs) :
    b.tokenEnd pos = .ok (some (pos + bs.length)) ∧ b.tokenAt pos = .ok t := by
  have hstring : ∀ payload : List UInt8,
      pos + (payload.length + 5) = pos + (word32 (UInt32.ofNat payload.length) ++ payload).length + 1 := by
    intro payload
    rw [List.length_append, length_word32]
    omega
  cases ht with
  | wire h =>
    have hr := readsAt_of_stands h hb
    exact ⟨hr.tokenEnd, hr.tokenAt⟩
  | string h =>
    obtain ⟨hend, hs⟩ := hb.counted .string rfl rfl h
    have htag : b.tagAt pos = .ok .string := hb.tagAt rfl
    exact ⟨by rw [hend, hstring]; rfl, by simp [tokenAt, hend, htag, hs]⟩
  | localString h =>
    obtain ⟨hend, hs⟩ := hb.counted .localString rfl rfl h
    have htag : b.tagAt pos = .ok .localString := hb.tagAt rfl
    exact ⟨by rw [hend, hstring]; rfl, by simp [tokenAt, hend, htag, hs]⟩
  | @entry c bytes h =>
    obtain ⟨hend, hat⟩ := hb.entry h
    refine ⟨?_, hat⟩
    rw [hend]
    simp only [List.length_cons, List.length_append, length_word32, Token.terminated,
      List.length_nil]
    congr 3
    omega

theorem tokenEnd_eq_none_iff : b.tokenEnd pos = .ok none ↔ b.HoldsAt pos [0] := by
  constructor
  · intro h
    obtain ⟨tag, htag, h⟩ := bind_eq_ok_iff.mp h
    have hl : tag.layout = .final := by
      cases hl : tag.layout <;> simp [hl, bind_eq_ok_iff] at h ⊢
    obtain rfl := tag.eq_of_final hl
    exact holdsAt_singleton (getElem?_of_tagAt htag).2
  · intro h
    have htag : b.tagAt pos = .ok .endOfFile := HoldsAt.tagAt (t := .endOfFile) h rfl
    simp [tokenEnd, htag, Tag.layout]

theorem tokenAt_of_final (h : b.HoldsAt pos [0]) : b.tokenAt pos = .ok (.simple .endOfFile) := by
  have hend := tokenEnd_eq_none_iff.mpr h
  have htag : b.tagAt pos = .ok .endOfFile := HoldsAt.tagAt (t := .endOfFile) h rfl
  simp [tokenAt, hend, htag]

/-- A token is read wherever its end is found. -/
theorem exists_tokenAt_of_tokenEnd {next : Option Nat} (h : b.tokenEnd pos = .ok next) :
    ∃ t, b.tokenAt pos = .ok t := by
  cases next with
  | none => exact ⟨_, tokenAt_of_final (tokenEnd_eq_none_iff.mp h)⟩
  | some next =>
    obtain ⟨t, bs, ht, hb, -⟩ := holdsRecord_of_tokenEnd h
    exact ⟨t, (reads_of_record ht hb).2⟩

/-- The token and its end are found, or missing for the same reason. -/
theorem tokenAt_eq_error_iff {e : Error} : b.tokenAt pos = .error e ↔ b.tokenEnd pos = .error e := by
  cases hend : b.tokenEnd pos with
  | error d => simp [tokenAt, hend]
  | ok next =>
    obtain ⟨t, ht⟩ := exists_tokenAt_of_tokenEnd hend
    simp [ht]

theorem getElem?_of_mapM_range {α : Type} {f : Nat → Except Error α} {as : List α} {n : Nat}
    (h : (List.range n).mapM f = .ok as) :
    as.length = n ∧ ∀ i a, as[i]? = some a → f i = .ok a := by
  have hf := forall₂_of_mapM_eq_ok h
  have hn := hf.length_eq
  rw [List.length_range] at hn
  refine ⟨hn.symm, fun i a ha => ?_⟩
  obtain ⟨hi, rfl⟩ := List.getElem?_eq_some_iff.mp ha
  have := (List.forall₂_iff_get.mp hf).2 i (by rw [List.length_range]; omega) hi
  simpa using this

/-- The parts that a random head is read from. -/
theorem exists_parts_of_randomHeader {h : RandomHeader} (hh : b.randomHeader pos = .ok h) :
    ∃ count, b.tagAt pos = .ok h.tag ∧ b.word32At (pos + 1) = .ok count ∧
      b.extent pos (weightedSize count.toNat) = .ok h.finish ∧
      b.weightsAt pos count.toNat = .ok h.weights ∧ h.targets.length = count.toNat ∧
      ∀ i t, h.targets[i]? = some t → b.longAddress (slot pos count.toNat i) = .ok t := by
  obtain ⟨tag, htag, hh⟩ := bind_eq_ok_iff.mp hh
  obtain ⟨count, hc, hh⟩ := bind_eq_ok_iff.mp hh
  obtain ⟨finish, he, hh⟩ := bind_eq_ok_iff.mp hh
  obtain ⟨weights, hw, hh⟩ := bind_eq_ok_iff.mp hh
  obtain ⟨targets, ht, hh⟩ := bind_eq_ok_iff.mp hh
  obtain rfl := Except.ok.inj hh
  obtain ⟨hl, hall⟩ := getElem?_of_mapM_range ht
  exact ⟨count, htag, hc, he, hw, hl, hall⟩

theorem le_size_of_map_field {α : Type} {f : List UInt8 → α} {n : Nat} {a : α}
    (h : (b.field pos n).map f = .ok a) : pos + n ≤ b.size := by
  obtain ⟨bytes, hf, -⟩ := map_eq_ok_iff.mp h
  exact (field_eq_ok_iff.mp hf).1

theorem target_eq_ok_iff {base t : Nat} {d : Int} :
    b.target pos base d = .ok t ↔ (t : Int) = base + d ∧ t ≤ b.size := by
  simp only [target]
  split
  · rw [Except.ok.injEq]
    omega
  · simp only [reduceCtorEq, false_iff]
    omega

theorem longAddress_eq_ok_iff {t : Nat} :
    b.longAddress pos = .ok t ↔
      ∃ d, b.int32At pos = .ok d ∧ (t : Int) = pos + 4 + d.toInt ∧ t ≤ b.size := by
  rw [longAddress, bind_eq_ok_iff]
  simp only [target_eq_ok_iff, Nat.cast_add, Nat.cast_ofNat]

/-- The three readings of a random head agree: where it ends, what its weights are and where its
jumps lead. -/
theorem reads_of_randomHeader {tag : Tag} {h : RandomHeader} (htag : b.tagAt pos = .ok tag)
    (ht : tag.isRandomHeader) (hh : b.randomHeader pos = .ok h) :
    b.tokenEnd pos = .ok (some h.finish) ∧
      ∃ jumps, b.tokenAt pos = .ok (.random h.tag h.weights jumps) ∧ h.tag = tag ∧
        h.targets.length = h.weights.length ∧ jumps.length = h.weights.length ∧
        ∀ (i t : Nat) (d : Int32), h.targets[i]? = some t → jumps[i]? = some d →
          (t : Int) = slot pos h.weights.length i + 4 + d.toInt := by
  obtain ⟨count, htag', hc, he, hw, hl, hall⟩ := exists_parts_of_randomHeader hh
  obtain rfl : tag = h.tag := Except.ok.inj (htag.symm.trans htag')
  have hwl := (getElem?_of_mapM_range hw).1
  have hend : b.tokenEnd pos = .ok (some h.finish) := by
    simp only [tokenEnd, htag, ok_bind, Tag.weighted_iff.mpr ht, hc, he, pure_eq_ok]
  refine ⟨hend, ?_⟩
  obtain ⟨t, hat⟩ := exists_tokenAt_of_tokenEnd hend
  have hjumps : ∃ jumps, t = .random h.tag h.weights jumps ∧
      (List.range count.toNat).mapM (fun i => b.int32At (slot pos count.toNat i)) = .ok jumps := by
    have hat' := hat
    simp only [tokenAt, hend, htag, ok_bind] at hat'
    generalize h.tag = tag at ht hat' ⊢
    cases tag <;> first
      | exact absurd ht (by decide)
      | (simp only [hc, ok_bind, hw, bind_eq_ok_iff, pure_eq_ok, Except.ok.injEq] at hat'
         obtain ⟨jumps, hj, rfl⟩ := hat'
         exact ⟨jumps, rfl, hj⟩)
  obtain ⟨jumps, rfl, hj⟩ := hjumps
  obtain ⟨hjl, hjall⟩ := getElem?_of_mapM_range hj
  refine ⟨jumps, hat, rfl, by omega, by omega, fun i t d hti hdi => ?_⟩
  obtain ⟨d', hd', hdt, -⟩ := longAddress_eq_ok_iff.mp (hall i t hti)
  obtain rfl : d' = d := Except.ok.inj (hd'.symm.trans (hjall i d hdi))
  rw [hwl]
  exact hdt

/-- The branches of a random head lie in the stream. -/
theorem le_size_of_mem_targets {h : RandomHeader} {t : Nat} (hh : b.randomHeader pos = .ok h)
    (ht : t ∈ h.targets) : t ≤ b.size := by
  obtain ⟨count, -, -, -, -, -, hall⟩ := exists_parts_of_randomHeader hh
  obtain ⟨i, hi⟩ := List.getElem?_of_mem ht
  obtain ⟨d, -, -, hle⟩ := longAddress_eq_ok_iff.mp (hall i t hi)
  exact hle

end Bytecode

end QbScript
