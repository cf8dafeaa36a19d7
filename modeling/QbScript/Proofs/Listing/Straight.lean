import QbScript.Proofs.Listing.RoundTrip

/-!
# Scripts without random blocks

The stream of a script without random blocks has short addresses only, and no marks are listed for
it. So it has a listing however long it is: that of its phrases one after the other, as long as no
line end follows another.
-/

set_option autoImplicit false

namespace QbScript

open Bytecode Assembly

/-- The phrase is no part of a random block, and how long it is can be told in four bytes. -/
structure Token.IsStraight (t : Token) : Prop where
  role : Construct.random.role? t = none
  fits : t.wire.length < 0x100000000

namespace Token.IsStraight

variable {t : Token}

theorem ne_random (h : t.IsStraight) (tag : Tag) (ws : List UInt16) (js : List Int32) :
    t ≠ .random tag ws js := by
  rintro rfl
  cases h.role

theorem ne_randomCase (h : t.IsStraight) : t ≠ .simple .randomCase := by
  rintro rfl
  cases h.role

theorem ne_randomEnd (h : t.IsStraight) : t ≠ .simple .randomEnd := by
  rintro rfl
  cases h.role

end Token.IsStraight

namespace Assembly

variable {options : CompileOptions} {line : Nat} {lines : LineMap} {a a' : Assembly} {t u : Token}
  {ts us : List Token} {links : List Link} {ps : List Phrase}

/-- What a step writes is a part of its phrase, or no longer than an address. -/
theorem Step.length_wire_le (h : Step options line a t us links a') (hu : u ∈ us) :
    u.wire.length ≤ t.wire.length ∨ u.wire.length ≤ 5 := by
  have hparts : u ∈ t.parts → u.wire.length ≤ t.wire.length ∨ u.wire.length ≤ 5 := by
    intro hp
    rw [← t.wires_parts]
    exact Or.inl (length_wire_le_of_mem hp)
  cases h with
  | plain => exact hparts hu
  | named => exact hparts hu
  | openRandom => exact hparts hu
  | lineEndKept =>
    obtain rfl := List.mem_singleton.mp hu
    right
    unfold lineMark
    split <;> exact Nat.le_of_ble_eq_true rfl
  | firstBranch =>
    right
    simp only [List.mem_cons, List.not_mem_nil, or_false] at hu
    rcases hu with rfl | rfl <;> exact Nat.le_of_ble_eq_true rfl
  | nextBranch =>
    right
    simp only [List.mem_cons, List.not_mem_nil, or_false] at hu
    rcases hu with rfl | rfl | rfl <;> exact Nat.le_of_ble_eq_true rfl
  | lineEndDropped | firstCase | closeRandom => cases hu
  | _ =>
    obtain rfl := List.mem_singleton.mp hu
    exact Or.inr (Nat.le_of_ble_eq_true rfl)

theorem Step.ne_random (h : Step options line a t us links a') (ht : t.IsStraight) (hu : u ∈ us)
    (tag : Tag) (ws : List UInt16) (js : List Int32) : u ≠ .random tag ws js := by
  have hparts : u ∈ t.parts → u ≠ .random tag ws js := by
    rintro hp rfl
    cases t with
    | random => exact ht.ne_random _ _ _ rfl
    | _ => simp [Token.parts] at hp
  cases h with
  | plain => exact hparts hu
  | named => exact hparts hu
  | openRandom => exact hparts hu
  | lineEndKept =>
    obtain rfl := List.mem_singleton.mp hu
    unfold lineMark
    split <;> simp
  | firstBranch =>
    simp only [List.mem_cons, List.not_mem_nil, or_false] at hu
    rcases hu with rfl | rfl <;> simp
  | nextBranch =>
    simp only [List.mem_cons, List.not_mem_nil, or_false] at hu
    rcases hu with rfl | rfl | rfl <;> simp
  | lineEndDropped | firstCase | closeRandom => cases hu
  | _ =>
    obtain rfl := List.mem_singleton.mp hu
    simp

/-- The tokens of a script without random blocks. -/
theorem Run.of_isStraight (h : Run options lines ps ts a)
    (hp : ∀ p ∈ ps, p.token.IsStraight) (hu : u ∈ ts) :
    u.wire.length < 0x100000000 ∧ ∀ tag ws js, u ≠ .random tag ws js := by
  induction h with
  | start => cases hu
  | @step ps ts us a a' p links _ _ hs ih =>
    rcases List.mem_append.mp hu with hu | hu
    · exact ih (fun q hq => hp q (List.mem_append_left _ hq)) hu
    · have hstraight := hp p (List.mem_append_right _ List.mem_cons_self)
      refine ⟨?_, hs.ne_random hstraight hu⟩
      have hle := hs.length_wire_le hu
      have hfits := hstraight.fits
      omega

theorem Run.markersOf_eq_nil (h : Run options lines ps ts a)
    (hp : ∀ p ∈ ps, p.token.IsStraight) :
    Nesting.markersOf (trace options lines Assembly.start ps) = [] := by
  induction h with
  | start => rfl
  | @step ps ts us a a' p links hr ha _ ih =>
    have hstraight := hp p (List.mem_append_right _ List.mem_cons_self)
    rw [(hr.markersOf_concat ha).1, ih fun q hq => hp q (List.mem_append_left _ hq),
      List.nil_append]
    exact Nesting.markers_of_ne hstraight.ne_random hstraight.ne_randomCase
      hstraight.ne_randomEnd

theorem afterLineEnd_ofTokens (hq : ∀ t ∈ ts, t.IsStraight) :
    (Content.ofTokens ts).afterLineEnd = decide (ts.getLast? = some (.simple .endOfLine)) := by
  induction ts using List.reverseRecOn with
  | nil => rfl
  | append_singleton ts t _ =>
    have ht := hq t (List.mem_append_right _ List.mem_cons_self)
    rw [Content.ofTokens_concat, List.getLast?_concat]
    by_cases he : t = .simple .endOfLine
    · subst he
      simp [Content.add]
    · have hadd : ((Content.ofTokens ts).add t).afterLineEnd = false := by
        unfold Content.add
        split
        · exact absurd rfl he
        · exact absurd rfl ht.ne_randomEnd
        · exact absurd rfl ht.ne_randomCase
        · exact absurd rfl (ht.ne_random _ _ _)
        · rfl
      simp [hadd, he]

theorem mem_tokens_ofTokens (hu : u ∈ (Content.ofTokens ts).tokens) : ∃ t ∈ ts, u ∈ t.parts := by
  induction ts using List.reverseRecOn with
  | nil => cases hu
  | append_singleton ts t ih =>
    have hold : u ∈ (Content.ofTokens ts).tokens → ∃ t' ∈ ts ++ [t], u ∈ t'.parts := fun hm =>
      (ih hm).imp fun _ ⟨ht, hp⟩ => ⟨List.mem_append_left _ ht, hp⟩
    have hnew : u ∈ t.parts → ∃ t' ∈ ts ++ [t], u ∈ t'.parts := fun hp =>
      ⟨t, List.mem_append_right _ List.mem_cons_self, hp⟩
    have hboth : u ∈ (Content.ofTokens ts).tokens ++ t.parts → ∃ t' ∈ ts ++ [t], u ∈ t'.parts :=
      fun hm => (List.mem_append.mp hm).elim hold hnew
    rw [Content.ofTokens_concat] at hu
    unfold Content.add at hu
    split at hu
    · dsimp only at hu
      split at hu
      · exact hold hu
      · exact hboth hu
    · exact hold hu
    · split at hu <;> exact hold hu
    · exact hboth hu
    · exact hboth hu

/-- A script with no random blocks, and with no line end after a line end, is listed as it is. -/
theorem Run.listedFrom_eq_map (h : Run options lines ps ts a) (hp : ∀ p ∈ ps, p.token.IsPhrase)
    (hs : ∀ p ∈ ps, p.token.IsStraight)
    (hl : (ps.map Phrase.token).IsChain fun t u => t = .simple .endOfLine → u ≠ t) :
    listedFrom options lines Assembly.start ps = ps.map Phrase.token := by
  induction h with
  | start => rfl
  | @step ps ts us a a' p links hr _ _ ih =>
    have hps : ∀ q ∈ ps, q.token.IsPhrase := fun q hq => hp q (List.mem_append_left _ hq)
    have hss : ∀ q ∈ ps, q.token.IsStraight := fun q hq => hs q (List.mem_append_left _ hq)
    have hstraight := hs p (List.mem_append_right _ List.mem_cons_self)
    rw [List.map_append, List.map_singleton] at hl ⊢
    obtain ⟨hfront, -, hlast⟩ := List.isChain_append.mp hl
    have hlisted : a.listed p.token = [p.token] := by
      unfold listed
      split
      · rename_i he
        -- A line end is listed unless it follows one.
        rw [if_neg]
        intro hend
        have hafter := (hr.tells hps).afterLineEnd
        rw [decide_eq_true hend, afterLineEnd_ofTokens (by simpa using hss),
          decide_eq_true_eq] at hafter
        exact hlast _ hafter _ (by rw [he]; rfl) rfl rfl
      · rename_i he
        exact absurd he (hstraight.ne_random _ _ _)
      · rename_i he _
        exact absurd he hstraight.ne_randomCase
      · rename_i he _
        exact absurd he hstraight.ne_randomEnd
      · rfl
    rw [hr.listedFrom_concat, ih hps hss hfront, hlisted]

end Assembly

namespace Compiled

variable {options : CompileOptions} {source : String} {b : Bytecode} {ls : List Lexeme}
  {ps : List Phrase} {ts us : List Token} {a : Assembly}

theorem stands_of_isStraight (h : Compiled options source b ls ps ts us a)
    (hp : ∀ p ∈ ps, p.token.IsStraight) : ∀ u ∈ us, u.Stands := by
  intro u hu
  have hm : u.blank ∈ ts.map Token.blank := h.blank ▸ List.mem_map_of_mem hu
  obtain ⟨t, ht, hb⟩ := List.mem_map.mp hm
  rw [← u.stands_blank_iff, ← hb, t.stands_blank_iff]
  exact h.run.stands h.isPhrase ht (h.run.of_isStraight hp ht).1

/-- Nothing is found at a token but where a branch leads. -/
theorem exists_findingsAt_of_isStraight (h : Compiled options source b ls ps ts us a)
    (hp : ∀ p ∈ ps, p.token.IsStraight) {q : Nat × Token} (hq : q ∈ placed 0 us) :
    ∃ found, b.findingsAt q.1 q.2 = .all found ∧
      ∀ f ∈ found, ∃ target, f = .label target ⟨.branch, 0⟩ := by
  obtain ⟨pos, u⟩ := q
  cases u with
  | shortBranch tag d =>
    obtain ⟨target, hr⟩ := h.exists_read (f := .short (pos + 1)) <| by
      rw [← addressesOf_eq_of_blank h.blank]
      exact mem_addressesOf_of_mem_placed hq List.mem_cons_self
    have hr : b.shortAddress (pos + 1) = .ok target := hr
    refine ⟨[.label target ⟨.branch, 0⟩], by simp only [findingsAt, hr], fun f hf => ?_⟩
    exact ⟨target, List.mem_singleton.mp hf⟩
  | random tag ws js =>
    obtain ⟨t, ht, hb⟩ := exists_mem_placed_of_blank h.blank.symm hq
    obtain ⟨js', rfl⟩ : ∃ js', t = .random tag ws js' := by cases t <;> simp_all [Token.blank]
    exact absurd rfl ((h.run.of_isStraight hp (mem_of_mem_placed ht)).2 tag ws js')
  | checksumName => exact absurd rfl (h.ne_checksumName _ (mem_of_mem_placed hq))
  | _ => exact ⟨[], rfl, fun f hf => absurd hf List.not_mem_nil⟩

/-- All labels of the stream are places to which branches lead. -/
theorem eq_branch_of_mem_found (h : Compiled options source b ls ps ts us a)
    (hp : ∀ p ∈ ps, p.token.IsStraight) {f : Finding}
    (hf : f ∈ (placed 0 us).flatMap fun q => (b.findingsAt q.1 q.2).found) :
    ∃ target, f = .label target ⟨.branch, 0⟩ := by
  obtain ⟨q, hq, hf⟩ := List.mem_flatMap.mp hf
  obtain ⟨found, he, hall⟩ := h.exists_findingsAt_of_isStraight hp hq
  rw [he] at hf
  exact hall f hf

/-- The listing of a script without random blocks has its phrases, and all their names. -/
theorem disassemble_of_isStraight (h : Compiled options source b ls ps ts us a)
    (hp : ∀ p ∈ ps, p.token.IsStraight) (hn : NoZeroNames ls)
    (hl : (ps.map Phrase.token).IsChain fun t u => t = .simple .endOfLine → u ≠ t)
    (hk : ∀ p ∈ ps, ∀ c, p.token ≠ .nameChecksum c ∧ p.token ≠ .argChecksum c)
    {lo : ListingOptions} (hlo : lo.branchLabels = false) :
    (disassemble lo b).result = .ok {
      text := (Sheet.ofElements ((ps.map Phrase.token).flatMap (Token.listing a.names))).text
        lo.indent
      unresolved := [] } := by
  have hentries := h.stands_entries hn
  have hscan := h.scan_of_stands (h.stands_of_isStraight hp) hentries
  have hfindings := h.findings_of_stands (h.stands_of_isStraight hp)
    (fun q hq => by
      obtain ⟨found, he, -⟩ := h.exists_findingsAt_of_isStraight hp hq
      rw [he]
      rfl) hentries
  have hnames := (h.survey_of_isLabel (fun f hf => by
    obtain ⟨target, rfl⟩ := h.eq_branch_of_mem_found hp hf
    trivial) hfindings).2
  have hmarks : ∀ pos, ((Survey.ofFindings b.findings.found).labelsAt pos).flatMap
      (Label.elements lo pos) = marksAt (markers options source ps) pos := by
    intro pos
    rw [markers, h.run.markersOf_eq_nil hp, List.flatMap_eq_nil_iff.mpr]
    · rfl
    · intro l hlabel
      have hm := ((Survey.labelsAt_ofFindings _ pos).1 l).mp hlabel
      rw [hfindings] at hm
      rcases List.mem_append.mp hm with hm | hm
      · obtain ⟨target, he⟩ := h.eq_branch_of_mem_found hp hm
        obtain ⟨-, rfl⟩ := Finding.label.inj he
        exact Label.elements_eq_mark hlo pos _
      · simp at hm
  have hunknown : (Content.ofTokens (ps.map Phrase.token)).tokens.filterMap
      (Token.unknown? a.names) = [] := by
    rw [List.filterMap_eq_nil_iff]
    intro u hu
    obtain ⟨t, ht, hu⟩ := mem_tokens_ofTokens hu
    obtain ⟨p, hm, rfl⟩ := List.mem_map.mp ht
    have hknown : ∀ text, p.token.spelling? = some text →
        (Token.nameChecksum (Checksum.ofName text)).unknown? a.names = none := by
      intro text hsp
      obtain ⟨first, hg⟩ := Option.isSome_iff_exists.mp (h.isSome_get?_of_spelling? hm hsp)
      simp [Token.unknown?, hg]
    have hchecksum := hk p hm
    generalize p.token = t at hu hknown hchecksum
    cases t with
    | name text =>
      obtain rfl := List.mem_singleton.mp hu
      exact hknown text rfl
    | arg text =>
      rcases List.mem_pair.mp hu with rfl | rfl
      · rfl
      · exact hknown text rfl
    | nameChecksum c => exact absurd rfl (hchecksum c).1
    | argChecksum c => exact absurd rfl (hchecksum c).2
    | _ =>
      obtain rfl := List.mem_singleton.mp hu
      rfl
  have hall := h.disassemble_of_elements hscan (congrArg Findings.fault hfindings) hnames
    (h.elements_of_marks hscan hnames hmarks)
  rw [hall, hunknown, h.run.listedFrom_eq_map h.isPhrase hp hl]
  rfl

end Compiled

end QbScript
