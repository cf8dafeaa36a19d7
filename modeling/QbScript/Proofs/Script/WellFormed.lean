import QbScript.Proofs.Bytecode.Scan
import QbScript.Proofs.Listing.Findings

/-!
# Compiled streams are well formed

A compiled stream is read to its end mark and can be listed if no name has a zero character in it.
A name with one is not read back: the zero closes its entry of the table.
-/

set_option autoImplicit false

namespace QbScript

open Bytecode Assembly

namespace Utf8

theorem zero_notMem_decodeLossy {bytes : List UInt8} (h : 0 ∉ bytes) :
    '\x00' ∉ (decodeLossy bytes).toList := by
  rw [decodeLossy, String.toList_ofList]
  intro hm
  obtain ⟨s, hs, hc⟩ := List.mem_map.mp hm
  cases s with
  | char c =>
    obtain rfl : c = '\x00' := hc
    apply h
    rw [← flatMap_bytes_segments bytes]
    exact List.mem_flatMap.mpr ⟨_, hs, (zero_mem_utf8EncodeChar_iff _).mpr rfl⟩
  | invalid => exact absurd hc (show '\uFFFD' ≠ '\x00' by decide)

end Utf8

theorem Checksum.zero_mem_normalize_iff (name : String) :
    0 ∈ Checksum.normalize name ↔ '\x00' ∈ name.toList := by
  have hz : ∀ b : UInt8, Checksum.normalizeByte b = 0 ↔ b = 0 := by
    have h : ∀ n : Fin 256, Checksum.normalizeByte (UInt8.ofNat n) = 0 ↔ UInt8.ofNat n = 0 := by
      decide +kernel
    intro b
    simpa using h ⟨b.toNat, b.toNat_lt⟩
  rw [← Utf8.zero_mem_ofString_iff, Checksum.normalize, List.mem_map]
  constructor
  · rintro ⟨b, hb, h0⟩
    rwa [(hz b).mp h0] at hb
  · intro h
    exact ⟨0, h, (hz 0).mpr rfl⟩

namespace Bytecode

variable {b : Bytecode} {pos : Nat}

theorem ne_zero_of_zeroFrom?_eq_some {mark : Nat} (h : b.zeroFrom? pos = some mark) :
    ∀ i, pos ≤ i → i < mark → b[i]? ≠ some 0 := by
  fun_induction zeroFrom? b pos with
  | case1 pos hlt hz =>
    obtain rfl := Option.some.inj h
    intro i h1 h2
    omega
  | case2 pos hlt hz ih =>
    intro i h1 h2
    by_cases hi : i = pos
    · subst hi
      rw [Array.getElem?_eq_getElem hlt]
      exact fun h0 => hz (Option.some.inj h0)
    · exact ih h i (by omega) h2
  | case3 => simp at h

theorem tokenAt_of_mem_scanFrom {p : Nat × Token} (h : p ∈ (b.scanFrom pos).tokens) :
    b.tokenAt p.1 = .ok p.2 := by
  rcases exists_record_of_mem_scanFrom h with ⟨ht, hb⟩ | ⟨bs, ht, hb⟩
  · rw [ht]
    exact tokenAt_of_final hb
  · exact (reads_of_record ht hb).2

/-- An entry of a table is read up to its first zero. -/
theorem zero_notMem_of_tokenAt {c : Checksum} {name : String}
    (h : b.tokenAt pos = .ok (.checksumName c name)) : '\x00' ∉ name.toList := by
  unfold tokenAt at h
  obtain ⟨next, hnext, h⟩ := bind_eq_ok_iff.mp h
  obtain ⟨tag, htag, h⟩ := bind_eq_ok_iff.mp h
  have hname : tag = .checksumName := by
    by_contra hne
    split at h <;> simp [bind_eq_ok_iff] at h hne
  subst hname
  simp only [bind_eq_ok_iff, pure_eq_ok, Except.ok.injEq, Token.checksumName.injEq] at h
  obtain ⟨c', -, bytes, hf, -, rfl⟩ := h
  simp only [tokenEnd, htag, ok_bind, Tag.layout, bind_eq_ok_iff, pure_eq_ok, Except.ok.injEq] at hnext
  obtain ⟨start, hstart, stop, hstop, rfl⟩ := hnext
  obtain ⟨-, rfl⟩ := extent_eq_ok_iff.mp hstart
  unfold terminatedEnd at hstop
  split at hstop
  · rename_i mark hz
    obtain rfl := Except.ok.inj hstop
    have hle := le_of_zeroFrom?_eq_some hz
    apply Utf8.zero_notMem_decodeLossy
    intro hm
    obtain ⟨i, hi, h0⟩ := List.mem_iff_getElem.mp hm
    have hat := (holdsAt_of_field hf).getElem? i hi
    have hlen := length_of_field_eq_ok hf
    simp only [Option.getD_some] at hlen
    rw [List.getElem?_eq_getElem hi, h0] at hat
    exact ne_zero_of_zeroFrom?_eq_some hz _ (by omega) (by omega) hat
  · cases hstop

end Bytecode

theorem Phrase.Composes.spellings_eq {us ts : List Token} (h : Phrase.Composes us ts) :
    spellings us = spellings ts := by
  have hreal : ∀ {u x}, Phrase.real? u = some x → u.spelling? = none := by
    intro u x hu
    cases u <;> first | rfl | cases hu
  have hweight : ∀ {u w}, Phrase.weight? u = some w → u.spelling? = none := by
    intro u w hu
    cases u <;> first | rfl | cases hu
  have hlist : ∀ {us ws}, Phrase.WeightList us ws → spellings us = [] := by
    intro us ws hw
    induction hw with
    | close => rfl
    | last hu =>
      rw [spellings_cons_of_none (hweight hu)]
      rfl
    | more hu _ ih => rw [spellings_cons_of_none (hweight hu), spellings_cons_of_none rfl, ih]
  induction h with
  | nil => rfl
  | pair hx hy _ ih =>
    rw [spellings_cons_of_none rfl, spellings_cons_of_none rfl, spellings_cons_of_none (hreal hx),
      spellings_cons_of_none rfl, spellings_cons_of_none (hreal hy), spellings_cons_of_none rfl,
      spellings_cons_of_none rfl, ih]
  | vector hx hy hz _ ih =>
    rw [spellings_cons_of_none rfl, spellings_cons_of_none rfl, spellings_cons_of_none (hreal hx),
      spellings_cons_of_none rfl, spellings_cons_of_none (hreal hy), spellings_cons_of_none rfl,
      spellings_cons_of_none (hreal hz), spellings_cons_of_none rfl, spellings_cons_of_none rfl, ih]
  | random _ hw _ ih =>
    rw [List.cons_append, List.cons_append, spellings_cons_of_none rfl, spellings_cons_of_none rfl,
      spellings_append, hlist hw, List.nil_append, spellings_cons_of_none rfl, ih]
  | @other t us ts _ _ ih => rw [← List.singleton_append, spellings_append, ih, ← spellings_append,
      List.singleton_append]

/-- The source has no identifier with a zero character. -/
def NoZeroNames (ls : List Lexeme) : Prop :=
  ∀ l ∈ ls, ∀ text ∈ l.token.spelling?, '\x00' ∉ text.toList

instance (ls : List Lexeme) : Decidable (NoZeroNames ls) :=
  inferInstanceAs (Decidable (∀ l ∈ ls, ∀ text ∈ l.token.spelling?, '\x00' ∉ text.toList))

/-- The stream is read without a fault, and the last byte is its end mark. -/
def ReadsToEnd (b : Bytecode) : Prop :=
  b.scan.fault = none ∧ b.scan.tokens.getLast? = some (b.size - 1, .simple .endOfFile)

instance (b : Bytecode) : Decidable (ReadsToEnd b) :=
  inferInstanceAs (Decidable (_ ∧ _))

namespace Compiled

variable {options : CompileOptions} {source : String} {b : Bytecode} {ls : List Lexeme}
  {ps : List Phrase} {ts us : List Token} {a : Assembly}

theorem mem_spellings_iff (h : Compiled options source b ls ps ts us a) {text : String} :
    text ∈ spellings (ps.map Phrase.token) ↔ ∃ l ∈ ls, l.token.spelling? = some text := by
  rw [← h.composes.spellings_eq]
  simp [spellings]

theorem stands_entries (h : Compiled options source b ls ps ts us a) (hn : NoZeroNames ls) :
    ∀ t ∈ a.names.entries, t.Stands := by
  intro t ht
  obtain ⟨text, hm, rfl⟩ := h.run.mem_entries ht
  obtain ⟨l, hl, hs⟩ := h.mem_spellings_iff.mp hm
  exact hn l hl text hs

theorem readsToEnd (h : Compiled options source b ls ps ts us a) (hs : b.size < 0x80000000)
    (hn : NoZeroNames ls) : ReadsToEnd b := by
  have hsize := h.size
  have hout := h.size_out
  unfold ReadsToEnd
  rw [h.scan hs (h.stands_entries hn)]
  refine ⟨rfl, ?_⟩
  simp only [placed_append, placed, List.getLast?_append, List.getLast?_singleton, Option.some_or,
    wires_append, List.length_append]
  congr 2
  omega

/-- What was written is read up to its addresses. -/
theorem exists_mem_scan_of_mem_placed (h : Compiled options source b ls ps ts us a)
    (hs : b.size < 0x80000000) (hn : NoZeroNames ls) {pos : Nat} {t : Token}
    (hp : (pos, t) ∈ placed 0 ts) : ∃ u, (pos, u) ∈ b.scan.tokens ∧ u.blank = t.blank := by
  obtain ⟨u, hu, hb⟩ := exists_mem_placed_of_blank h.blank hp
  refine ⟨u, ?_, hb⟩
  rw [h.scan hs (h.stands_entries hn)]
  exact mem_placed_append (mem_placed_append hu _) _

/-- What is read up to the table was written up to its addresses. -/
theorem exists_mem_placed_of_mem_scan (h : Compiled options source b ls ps ts us a)
    (hs : b.size < 0x80000000) (hn : NoZeroNames ls) {pos : Nat} {t : Token}
    (hp : (pos, t) ∈ b.scan.tokens) (hentry : t.tag ≠ .checksumName) (hfinish : t ≠ .simple .endOfFile) :
    ∃ u, (pos, u) ∈ placed 0 ts ∧ u.blank = t.blank := by
  rw [h.scan hs (h.stands_entries hn)] at hp
  dsimp only at hp
  rw [List.append_assoc, Bytecode.placed_append] at hp
  rcases List.mem_append.mp hp with hp | hp
  · exact exists_mem_placed_of_blank h.blank.symm hp
  rcases List.mem_append.mp (mem_of_mem_placed hp) with hm | hm
  · obtain ⟨entry, -, rfl⟩ := List.mem_map.mp hm
    exact absurd rfl hentry
  · exact absurd (List.mem_singleton.mp hm) hfinish

theorem exists_entry (h : Compiled options source b ls ps ts us a) (hs : b.size < 0x80000000)
    (hn : NoZeroNames ls) {l : Lexeme} (hl : l ∈ ls) {text : String}
    (ht : l.token.spelling? = some text) :
    ∃ pos name, (pos, .checksumName (Checksum.ofName text) name) ∈ b.scan.tokens ∧
      Checksum.normalize name = Checksum.normalize text := by
  obtain ⟨name, hg, hname⟩ := h.run.normalize_eq (h.mem_spellings_iff.mpr ⟨l, hl, ht⟩)
  have he : .checksumName (Checksum.ofName text) name ∈ a.names.entries :=
    List.mem_map.mpr ⟨_, (NameTable.mem_toList_iff _ _ _).mpr hg, rfl⟩
  rw [← map_snd_placed a.out.size a.names.entries] at he
  obtain ⟨⟨pos, t⟩, hp, rfl⟩ := List.mem_map.mp he
  refine ⟨pos, name, ?_, hname⟩
  rw [h.scan hs (h.stands_entries hn), placed_append, placed_append, Nat.zero_add, ← h.size_out]
  exact List.mem_append_left _ (List.mem_append_right _ hp)

end Compiled

/-- A compiled stream whose names have no zeros is read to its end mark, which is its last byte, and
is listed under all options. A source has such names exactly if its stream is read to the end and
every name of the source is read from the table. -/
theorem readsToEnd_of_compile {options : CompileOptions} {source : String} {b : Bytecode}
    (h : compile options source = .ok b) (hs : b.size < 0x80000000) :
    ∃ ls, Lexeme.ofText source.toList = .ok ls ∧
      (NoZeroNames ls → ReadsToEnd b ∧
        ∀ listingOptions, ∃ l, (disassemble listingOptions b).result = .ok l) ∧
      (NoZeroNames ls ↔ ReadsToEnd b ∧ ∀ l ∈ ls, ∀ text ∈ l.token.spelling?,
        ∃ pos name, (pos, .checksumName (Checksum.ofName text) name) ∈ b.scan.tokens ∧
          Checksum.normalize name = Checksum.normalize text) := by
  obtain ⟨ls, ps, ts, us, a, hc⟩ := exists_compiled h
  refine ⟨ls, hc.ofText, fun hn => ⟨hc.readsToEnd hs hn, ?_⟩, ?_⟩
  · intro listingOptions
    have hf := congrArg Findings.fault (hc.findings hs (hc.stands_entries hn))
    refine ⟨listing listingOptions (Survey.ofFindings b.findings.found) b.scan.tokens, ?_⟩
    simp only [disassemble, resolve, hf]
  · constructor
    · intro hn
      exact ⟨hc.readsToEnd hs hn, fun l hl text ht => hc.exists_entry hs hn hl ht⟩
    · rintro ⟨-, hall⟩ l hl text ht h0
      obtain ⟨pos, name, hm, hname⟩ := hall l hl text ht
      have hz := zero_notMem_of_tokenAt (tokenAt_of_mem_scanFrom hm)
      rw [← Checksum.zero_mem_normalize_iff, hname, Checksum.zero_mem_normalize_iff] at hz
      exact hz h0

theorem readsToEnd_of_compile_random :
    ∃ b, compile ⟨.fast, false⟩ "RANDOM(1,2)RANDOMCASE a RANDOMCASE 1 RANDOMEND" = .ok b ∧
      b.size < 0x80000000 ∧ ReadsToEnd b ∧
      ∀ options, ∃ l, (disassemble options b).result = .ok l := by
  have hb : compile ⟨.fast, false⟩ "RANDOM(1,2)RANDOMCASE a RANDOMCASE 1 RANDOMEND" =
      .ok #[47, 2, 0, 0, 0, 1, 0, 2, 0, 4, 0, 0, 0, 10, 0, 0, 0, 22, 188, 65, 72, 23,
        46, 5, 0, 0, 0, 23, 1, 0, 0, 0, 43, 188, 65, 72, 23, 97, 0, 0] := by decide +kernel
  have hs : Array.size #[(47 : UInt8), 2, 0, 0, 0, 1, 0, 2, 0, 4, 0, 0, 0, 10, 0, 0, 0, 22, 188, 65,
      72, 23, 46, 5, 0, 0, 0, 23, 1, 0, 0, 0, 43, 188, 65, 72, 23, 97, 0, 0] < 0x80000000 := by
    decide
  obtain ⟨ls, hl, hread, -⟩ := readsToEnd_of_compile hb hs
  have hn : (Lexeme.ofText "RANDOM(1,2)RANDOMCASE a RANDOMCASE 1 RANDOMEND".toList).toOption.any
      (fun ls => decide (NoZeroNames ls)) = true := by decide +kernel
  rw [hl] at hn
  exact ⟨_, hb, hs, hread (by simpa [Except.toOption] using hn)⟩

/-- A name that has a zero makes a stream that is not read to its end. -/
theorem not_readsToEnd_of_zero_name :
    ∃ b, compile ⟨.plain, false⟩ "%\"a\x00b\"" = .ok b ∧ b.size < 0x80000000 ∧ ¬ ReadsToEnd b ∧
      ∀ options, (disassemble options b).result = .error (.unknownTag 98 12) := by
  refine ⟨#[22, 142, 135, 23, 234, 43, 142, 135, 23, 234, 97, 0, 98, 0, 0], by decide +kernel,
    by decide, by decide +kernel, fun options => ?_⟩
  have hf : Bytecode.findings #[22, 142, 135, 23, 234, 43, 142, 135, 23, 234, 97, 0, 98, 0, 0] =
      ⟨[.entry 3927410574 "a"], some (.unknownTag 98 12)⟩ := by decide +kernel
  simp only [disassemble, resolve, hf]

end QbScript
