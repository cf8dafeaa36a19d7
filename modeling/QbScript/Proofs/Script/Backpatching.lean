import QbScript.Proofs.Script.Acceptance

/-!
# Backpatching

While a stream is put together its open addresses stand apart from each other and are zero. From one
assembly of a run to a later one each of them is linked once or is still open, and no other byte
changes. So no write and no link of a script goes wrong.
-/

set_option autoImplicit false

namespace QbScript

open LittleEndian Bytecode Assembly

namespace Bytecode

def Address.Misses (f : Address) (i : Nat) : Prop := i < f.pos ∨ f.stop ≤ i

def Address.IsZeroIn (b : Bytecode) (f : Address) : Prop :=
  b.HoldsAt f.pos (List.replicate f.size 0)

variable {b b' : Bytecode} {f g : Address} {i : Nat} {links : List Link} {xs : List UInt8}
  {ts : List Token}

theorem Address.Apart.symm (h : f.Apart g) : g.Apart f := Or.symm h

theorem nodup_of_apart {fs : List Address} (h : fs.Pairwise Address.Apart) : fs.Nodup :=
  h.imp fun {f g} hfg => by
    rintro rfl
    have := f.pos_lt_stop
    rcases hfg with hfg | hfg <;> omega

theorem Address.Apart.misses (h : f.Apart g) (hl : f.pos ≤ i) (hr : i < f.stop) : g.Misses i := by
  rcases h with h | h
  · exact Or.inl (by omega)
  · exact Or.inr (by omega)

theorem getElem?_linkAll (h : linkAll b links = .ok b') (hi : ∀ l ∈ links, l.field.Misses i) :
    b'[i]? = b[i]? := by
  induction links generalizing b with
  | nil =>
    obtain rfl : b = b' := by simpa [linkAll] using h
    rfl
  | cons l links ih =>
    rw [linkAll, List.foldlM_cons] at h
    obtain ⟨d, hl, hlinks⟩ := bind_eq_ok_iff.mp h
    rw [ih hlinks fun k hk => hi k (List.mem_cons_of_mem l hk)]
    obtain ⟨-, -, rfl⟩ := Address.link_eq_ok_iff.mp hl
    apply getElem?_go_outside
    rw [Address.length_bytes]
    exact hi l List.mem_cons_self

/-- Bytes that stand in an address stay while only other positions change. -/
theorem HoldsAt.of_getElem? (h : b.HoldsAt f.pos xs) (hx : xs.length = f.size)
    (hs : b.size ≤ b'.size) (hc : ∀ i, f.pos ≤ i → i < f.stop → b'[i]? = b[i]?) :
    b'.HoldsAt f.pos xs := by
  have hle := h.size_le
  refine ⟨by omega, fun i hi => ?_⟩
  rw [hc _ (Nat.le_add_right ..) (by rw [Address.stop]; omega), h.getElem? i hi]

/-- Addresses that stand apart hold where they lead after all of them are linked. -/
theorem holdsAt_of_linkAll (h : linkAll b links = .ok b')
    (hp : (links.map Link.field).Pairwise Address.Apart) {l : Link} (hl : l ∈ links) :
    b'.HoldsAt l.field.pos (l.field.bytes l.target) := by
  induction links generalizing b with
  | nil => cases hl
  | cons k links ih =>
    rw [linkAll, List.foldlM_cons] at h
    obtain ⟨d, hk, hlinks⟩ := bind_eq_ok_iff.mp h
    obtain ⟨hfirst, hrest⟩ := List.pairwise_cons.mp hp
    rcases List.mem_cons.mp hl with rfl | hl
    · have hsize := size_linkAll hlinks
      obtain ⟨-, hstop, rfl⟩ := Address.link_eq_ok_iff.mp hk
      refine HoldsAt.of_getElem? (holdsAt_go ?_) (Address.length_bytes ..) hsize.ge fun i hl hr => ?_
      · rwa [Address.length_bytes]
      · exact getElem?_linkAll hlinks fun m hm =>
          (hfirst _ (List.mem_map_of_mem hm)).misses hl hr
    · exact ih hlinks hrest hl

end Bytecode

namespace Token

variable {t : Token} {f : Address} {pos : Nat}

/-- The addresses of a blank token are written as zeros. -/
theorem exists_zeros_of_mem_addresses (ht : t.blank = t) (hf : f ∈ t.addresses pos) :
    ∃ xs ys, t.wire = xs ++ List.replicate f.size 0 ++ ys ∧ pos + xs.length = f.pos := by
  cases t with
  | jump d =>
    obtain rfl := List.mem_singleton.mp hf
    obtain rfl : 0 = d := Token.jump.inj ht
    exact ⟨[Tag.jump.byte], [], rfl, rfl⟩
  | shortBranch tag d =>
    obtain rfl := List.mem_singleton.mp hf
    obtain rfl : 0 = d := (Token.shortBranch.inj ht).2
    exact ⟨[tag.byte], [], rfl, rfl⟩
  | random tag weights jumps =>
    obtain ⟨i, hi, rfl⟩ := List.mem_map.mp hf
    have hi := List.mem_range.mp hi
    have hzero : ∀ n, (List.replicate n (0 : Int32)).flatMap int32 = List.replicate (4 * n) 0 := by
      intro n
      induction n with
      | zero => rfl
      | succ n ih =>
        rw [List.replicate_succ, List.flatMap_cons, ih, Nat.mul_succ, Nat.add_comm,
          List.replicate_add]
        rfl
    have hjumps : jumps.flatMap int32 = List.replicate (4 * i) 0 ++ List.replicate 4 0
        ++ List.replicate (4 * (jumps.length - (i + 1))) 0 := by
      rw [← (Token.random.inj ht).2.2, hzero, List.length_replicate, List.replicate_append_replicate,
        List.replicate_append_replicate]
      congr 1
      omega
    refine ⟨tag.byte :: (word32 (UInt32.ofNat weights.length) ++ weights.flatMap word16
      ++ List.replicate (4 * i) 0), List.replicate (4 * (jumps.length - (i + 1))) 0, ?_, ?_⟩
    · simp only [wire, leadTag, Token.tag, payload, hjumps, Address.size, List.cons_append,
        List.append_assoc]
    · simp only [List.length_cons, List.length_append, length_word32, length_flatMap length_word16,
        List.length_replicate, Address.pos, slot]
      omega
  | _ => cases hf

end Token

namespace Bytecode

variable {b : Bytecode} {f : Address} {ts : List Token}

theorem exists_zeros_of_mem_addressesOf {pos : Nat} (ht : ∀ t ∈ ts, t.blank = t)
    (hf : f ∈ addressesOf pos ts) :
    ∃ xs ys, wires ts = xs ++ List.replicate f.size 0 ++ ys ∧ pos + xs.length = f.pos := by
  induction ts generalizing pos with
  | nil => cases hf
  | cons t ts ih =>
    rcases List.mem_append.mp hf with hf | hf
    · obtain ⟨xs, ys, hw, hp⟩ :=
        Token.exists_zeros_of_mem_addresses (ht t List.mem_cons_self) hf
      exact ⟨xs, ys ++ wires ts, by simp [hw], hp⟩
    · obtain ⟨xs, ys, hw, hp⟩ := ih (fun u hu => ht u (List.mem_cons_of_mem t hu)) hf
      exact ⟨t.wire ++ xs, ys, by simp [hw], by simp; omega⟩

theorem isZeroIn_extend (ht : ∀ t ∈ ts, t.blank = t) (hf : f ∈ addressesOf b.size ts) :
    f.IsZeroIn (b.extend ts) := by
  obtain ⟨xs, ys, hw, hp⟩ := exists_zeros_of_mem_addressesOf ht hf
  have hb : (b.extend ts).toList = (b.toList ++ xs) ++ List.replicate f.size 0 ++ ys := by
    rw [extend, Array.toList_append, hw]
    simp
  refine holdsAt_of_eq_append hb ?_
  rw [List.length_append, Array.length_toList, hp]

end Bytecode

namespace Assembly

variable {options : CompileOptions} {line : Nat} {lines : LineMap} {a a' a'' : Assembly} {t : Token}
  {ts us vs : List Token} {links : List Link} {ps : List Phrase}

/-- The open addresses of an assembly stand apart in its stream and are zero. -/
structure Pending (a : Assembly) : Prop where
  apart : a.openAddresses.Pairwise Address.Apart
  stop_le : ∀ f ∈ a.openAddresses, f.stop ≤ a.out.size
  zero : ∀ f ∈ a.openAddresses, f.IsZeroIn a.out

/-- From `a` the assembly `a'` comes later, with the links on the way. Addresses that are open in
`a` are linked once or still open, those opened since are new, and all that are linked lead where
they are to lead. The links are what `a'` has linked since, and no other byte of `a` is changed. -/
structure Later (a : Assembly) (links : List Link) (a' : Assembly) : Prop where
  log : a'.linked = (links.map Link.field).reverse ++ a.linked
  size_le : a.out.size ≤ a'.out.size
  apart : (a'.openAddresses ++ links.map Link.field).Pairwise Address.Apart
  mem : ∀ f ∈ a.openAddresses, f ∈ a'.openAddresses ++ links.map Link.field
  new : ∀ f ∈ a'.openAddresses ++ links.map Link.field,
    f ∈ a.openAddresses ∨ a.out.size ≤ f.pos ∧ f.stop ≤ a'.out.size
  linked : ∀ l ∈ links, a'.out.HoldsAt l.field.pos (l.field.bytes l.target)
  kept : ∀ i < a.out.size, (∀ f ∈ a.openAddresses, f.Misses i) → a'.out[i]? = a.out[i]?

inductive Adds (options : CompileOptions) (lines : LineMap) (a : Assembly) :
    List Phrase → List Token → List Link → Assembly → Prop
  | refl : Adds options lines a [] [] [] a
  | step {ps : List Phrase} {ts us : List Token} {ks ls : List Link} {a' a'' : Assembly}
      {p : Phrase} (h : Adds options lines a ps ts ks a')
      (ha : a'.add options (lines.position p.start) p.token = .ok a'')
      (hs : Step options (lines.position p.start).line a' p.token us ls a'') :
      Adds options lines a (ps ++ [p]) (ts ++ us) (ks ++ ls) a''

theorem Adds.ofPhrases {qs : List Phrase} (h : Adds options lines a ps us links a')
    (ha : ofPhrases options lines qs = .ok a) : ofPhrases options lines (qs ++ ps) = .ok a' := by
  induction h with
  | refl => rwa [List.append_nil]
  | step _ hadd _ ih =>
    rw [← List.append_assoc, ofPhrases_append, ih, ok_bind]
    simp [hadd]

theorem exists_adds {qs : List Phrase} (ha : ofPhrases options lines qs = .ok a)
    (ha' : ofPhrases options lines (qs ++ ps) = .ok a') :
    ∃ us links, Adds options lines a ps us links a' := by
  induction ps using List.reverseRecOn generalizing a' with
  | nil =>
    rw [List.append_nil] at ha'
    obtain rfl := Except.ok.inj (ha.symm.trans ha')
    exact ⟨[], [], .refl⟩
  | append_singleton ps p ih =>
    rw [← List.append_assoc, ofPhrases_append] at ha'
    obtain ⟨b, hb, h⟩ := bind_eq_ok_iff.mp ha'
    obtain ⟨us, links, hadds⟩ := ih hb
    have hadd : b.add options (lines.position p.start) p.token = .ok a' := by simpa using h
    obtain ⟨vs, ks, hs⟩ := step_of_add hadd
    exact ⟨us ++ vs, links ++ ks, .step hadds hadd hs⟩

theorem blank_parts (ht : t.IsPhrase) : ∀ u ∈ t.parts, u.blank = u := by
  intro u hu
  cases t with
  | random tag ws js =>
    obtain ⟨-, rfl⟩ := ht
    obtain rfl := List.mem_singleton.mp hu
    simp [Token.blank]
  | endOfLineNumber | jump | shortBranch | checksumName => exact ht.elim
  | arg | argChecksum =>
    simp only [Token.parts, List.mem_cons, List.not_mem_nil, or_false] at hu
    rcases hu with rfl | rfl <;> rfl
  | _ =>
    obtain rfl := List.mem_singleton.mp hu
    rfl

/-- Tokens are written with their addresses left open. -/
theorem Step.blank (h : Step options line a t us links a') (ht : t.IsPhrase) :
    ∀ u ∈ us, u.blank = u := by
  cases h with
  | plain | named | openRandom => exact blank_parts ht
  | lineEndKept =>
    intro u hu
    obtain rfl := List.mem_singleton.mp hu
    unfold lineMark
    split <;> rfl
  | _ => simp [Token.blank]

theorem Sound.apart_append (hs : a.Sound ts) (us : List Token) :
    (a.openAddresses ++ addressesOf a.out.size us).Pairwise Address.Apart :=
  hs.nodup_append.imp_of_mem fun hf hg hne =>
    apart_of_mem_addressesOf (hs.mem_append _ hf) (hs.mem_append _ hg) hne

theorem Step.linked_eq (h : Step options line a t us links a') :
    a'.linked = (links.map Link.field).reverse ++ a.linked := by
  cases h with
  | closeRandom => simp [Function.comp_def]
  | _ => rfl

theorem Step.later (h : Step options line a t us links a') (hs : a.Sound ts) (ht : t.IsPhrase) :
    a.Later links a' := by
  have hperm := h.perm ht
  have hsize := h.size_out
  have hapart : (a'.openAddresses ++ links.map Link.field).Pairwise Address.Apart :=
    (hperm.pairwise_iff Address.Apart.symm).mpr (hs.apart_append us)
  have hnew : ∀ f ∈ a'.openAddresses ++ links.map Link.field,
      f ∈ a.openAddresses ∨ a.out.size ≤ f.pos ∧ f.stop ≤ a'.out.size := by
    intro f hf
    refine (List.mem_append.mp (hperm.mem_iff.mp hf)).imp_right fun hf => ?_
    rw [hsize]
    exact (pairwise_addressesOf _ us).2 f hf
  refine ⟨h.linked_eq, by omega, hapart, fun f hf => ?_, hnew, fun l hl => ?_, fun i hi hf => ?_⟩
  · exact hperm.mem_iff.mpr (List.mem_append_left _ hf)
  · exact holdsAt_of_linkAll h.linkAll (List.pairwise_append.mp hapart).2.1 hl
  · rw [getElem?_linkAll h.linkAll fun l hl => ?_, extend, Array.getElem?_append_left hi]
    rcases hnew _ (List.mem_append_right _ (List.mem_map_of_mem hl)) with hm | ⟨hle, -⟩
    · exact hf _ hm
    · exact Or.inl (by omega)

theorem Step.pending (h : Step options line a t us links a') (hs : a.Sound ts) (ht : t.IsPhrase)
    (hp : a.Pending) : a'.Pending := by
  have hsound := hs.step h ht
  have hlater := h.later hs ht
  obtain ⟨hapart, -, hcross⟩ := List.pairwise_append.mp hlater.apart
  refine ⟨hapart, fun f hf => (hsound.bounds hf).2, fun f hf => ?_⟩
  have hzero : f.IsZeroIn (a.out.extend us) := by
    rcases List.mem_append.mp ((h.perm ht).mem_iff.mp (List.mem_append_left _ hf)) with hm | hm
    · exact (hp.zero f hm).append_right _
    · exact isZeroIn_extend (h.blank ht) hm
  refine hzero.of_getElem? List.length_replicate (size_linkAll h.linkAll).ge fun i hl hr => ?_
  exact getElem?_linkAll h.linkAll fun l hm =>
    (hcross f hf _ (List.mem_map_of_mem hm)).misses hl hr

theorem pending_start : start.Pending where
  apart := .nil
  stop_le := nofun
  zero := nofun

theorem Later.refl (hp : a.Pending) : a.Later [] a where
  log := rfl
  size_le := le_rfl
  apart := by simpa using hp.apart
  mem := by simp
  new := fun f hf => Or.inl (by simpa using hf)
  linked := nofun
  kept := fun _ _ _ => rfl

theorem Later.trans {ks ls : List Link} (h : a.Later ks a') (h' : a'.Later ls a'') :
    a.Later (ks ++ ls) a'' := by
  obtain ⟨-, hks, hcross⟩ := List.pairwise_append.mp h.apart
  have hperm : ((a''.openAddresses ++ ls.map Link.field) ++ ks.map Link.field).Perm
      (a''.openAddresses ++ (ks ++ ls).map Link.field) := by
    rw [List.map_append, List.append_assoc]
    exact List.perm_append_comm.append_left _
  have hle := h.size_le
  have hle' := h'.size_le
  refine ⟨by simp [h'.log, h.log], by omega, ?_, ?_, ?_, ?_, ?_⟩
  · refine (hperm.pairwise_iff Address.Apart.symm).mp
      (List.pairwise_append.mpr ⟨h'.apart, hks, fun g hg f hf => ?_⟩)
    rcases h'.new g hg with hg | ⟨hg, -⟩
    · exact hcross g hg f hf
    · obtain ⟨l, hl, rfl⟩ := List.mem_map.mp hf
      have hstop := (h.linked l hl).size_le
      rw [Address.length_bytes] at hstop
      exact Or.inr (hstop.trans hg)
  · intro f hf
    rw [← hperm.mem_iff]
    rcases List.mem_append.mp (h.mem f hf) with hf | hf
    · exact List.mem_append_left _ (h'.mem f hf)
    · exact List.mem_append_right _ hf
  · intro f hf
    rcases List.mem_append.mp (hperm.mem_iff.mpr hf) with hf | hf
    · rcases h'.new f hf with hf | ⟨hf, hstop⟩
      · exact (h.new f (List.mem_append_left _ hf)).imp_right fun ⟨hf, hstop⟩ =>
          ⟨hf, hstop.trans hle'⟩
      · exact Or.inr ⟨hle.trans hf, hstop⟩
    · exact (h.new f (List.mem_append_right _ hf)).imp_right fun ⟨hf, hstop⟩ =>
        ⟨hf, hstop.trans hle'⟩
  · intro l hl
    rcases List.mem_append.mp hl with hl | hl
    · have hholds := h.linked l hl
      have hstop := hholds.size_le
      rw [Address.length_bytes] at hstop
      refine hholds.of_getElem? (Address.length_bytes ..) hle' fun i hi hr => ?_
      exact h'.kept i (hr.trans_le hstop) fun f hf =>
        (hcross f hf _ (List.mem_map_of_mem hl)).symm.misses hi hr
    · exact h'.linked l hl
  · intro i hi hf
    rw [h'.kept i (by omega) fun f hm => ?_, h.kept i hi hf]
    rcases h.new f (List.mem_append_left _ hm) with hm | ⟨hpos, -⟩
    · exact hf f hm
    · exact Or.inl (by omega)

theorem Run.pending (h : Run options lines ps ts a) (hp : ∀ p ∈ ps, p.token.IsPhrase) :
    a.Pending := by
  induction h with
  | start => exact pending_start
  | @step ps ts us a a' p links hr _ hs ih =>
    have hps : ∀ q ∈ ps, q.token.IsPhrase := fun q hq => hp q (List.mem_append_left _ hq)
    exact hs.pending (hr.sound hps) (hp p (List.mem_append_right _ List.mem_cons_self)) (ih hps)

theorem Adds.later (h : Adds options lines a ps us links a') (hs : a.Sound ts)
    (hpending : a.Pending) (hp : ∀ p ∈ ps, p.token.IsPhrase) :
    a'.Sound (ts ++ us) ∧ a.Later links a' := by
  induction h with
  | refl => exact ⟨by rwa [List.append_nil], .refl hpending⟩
  | @step ps us vs ks ls a' a'' p _ _ hstep ih =>
    obtain ⟨hsound, hlater⟩ := ih fun q hq => hp q (List.mem_append_left _ hq)
    have hphrase := hp p (List.mem_append_right _ List.mem_cons_self)
    rw [← List.append_assoc]
    exact ⟨hsound.step hstep hphrase, hlater.trans (hstep.later hsound hphrase)⟩

/-- No address is linked twice, and none that is open was linked before. -/
theorem apart_linked (ha : ofPhrases options lines ps = .ok a)
    (hp : ∀ p ∈ ps, p.token.IsPhrase) :
    (a.openAddresses ++ a.linked).Pairwise Address.Apart := by
  have hstart : ofPhrases options lines [] = .ok start := rfl
  obtain ⟨us, links, hadds⟩ := exists_adds hstart ha
  obtain ⟨-, hlater⟩ := hadds.later sound_start pending_start hp
  have hlog : a.linked = (links.map Link.field).reverse := by
    rw [hlater.log]
    exact List.append_nil _
  rw [hlog]
  exact (((List.reverse_perm _).append_left _).pairwise_iff Address.Apart.symm).mpr hlater.apart

end Assembly

/-- The error says what is wrong with a source, not with the writing of its stream. -/
def CompileError.IsOfSource : CompileError → Prop
  | .stream _ => False
  | _ => True

theorem Completes.failsWith {β : Type} {P : β → Prop} {x : Except CompileError β}
    (h : Completes True P x) : FailsWith CompileError.IsOfSource x := by
  intro e he
  rw [he] at h
  cases e with
  | stream => exact h
  | _ => trivial

namespace Assembly

variable {options : CompileOptions} {line : Nat} {lines : LineMap} {place : Position}
  {a : Assembly} {t : Token} {ts : List Token} {ps : List Phrase}

theorem isOfSource_writeName (text : String) (asToken : Checksum → Token)
    (h : ∀ c, (asToken c).leadTag.isInternal = false) :
    FailsWith CompileError.IsOfSource (a.writeName text asToken) := by
  unfold writeName
  split
  · exact (completes_lastWrite _ (h _)).failsWith
  · exact .error trivial

theorem isOfSource_addFast {tag : Tag} (hs : a.Sound ts) (hi : tag.isInternal = false) :
    FailsWith CompileError.IsOfSource (a.addFast line place tag) := by
  have hwrite : ∀ (a : Assembly) (t : Token), t.leadTag.isInternal = false →
      FailsWith CompileError.IsOfSource (a.write t) := fun a t ht =>
    (completes_lastWrite t ht).failsWith
  unfold addFast
  split
  · exact hwrite _ (.shortBranch .fastIf 0) rfl
  · unfold startElse
    split
    · exact .error trivial
    · rename_i f outer hc
      split
      · exact .error trivial
      · rename_i he
        have h : Completes True (fun _ => True) (a.startElse line) :=
          completes_startElse trivial hs hc (by simpa using he)
        simpa [startElse, hc, he] using h.failsWith
  · cases hc : a.conditionals with
    | nil =>
      simp only [closeConditional, hc]
      exact .error trivial
    | cons f outer => exact (completes_closeConditional trivial hs hc).failsWith
  · exact .error trivial
  · exact hwrite _ _ rfl
  · cases hw : a.switches with
    | nil =>
      simp only [startCase, hw]
      exact .error trivial
    | cons f outer => exact (completes_startCase (Or.inl rfl) hw).failsWith
  · cases hw : a.switches with
    | nil =>
      simp only [startCase, hw]
      exact .error trivial
    | cons f outer => exact (completes_startCase (Or.inr rfl) hw).failsWith
  · cases hw : a.switches with
    | nil =>
      simp only [closeSwitch, hw]
      exact .error trivial
    | cons f outer => exact (completes_closeSwitch trivial hs hw).failsWith
  · exact hwrite _ _ hi

/-- Where a phrase is not added, the source is at fault. -/
theorem isOfSource_add (hs : a.Sound ts) (ht : t.IsPhrase) :
    FailsWith CompileError.IsOfSource (a.add options place t) := by
  unfold Assembly.add
  split
  · exact isOfSource_writeName _ _ fun _ => rfl
  · exact isOfSource_writeName _ _ fun _ => rfl
  · exact (completes_lastWrite (.random ..) (Tag.isInternal_of_isRandomHeader ht.1)).failsWith
  · exact completes_writeLineEnd.failsWith
  · cases hr : a.randoms with
    | nil =>
      simp only [startRandomCase, hr]
      exact .error trivial
    | cons f outer =>
      by_cases hf : f.filled < f.count
      · exact (completes_startRandomCase hs (Or.inl trivial) hr hf).failsWith
      · simp only [startRandomCase, hr, if_pos (Nat.not_lt.mp hf)]
        exact .error trivial
  · cases hr : a.randoms with
    | nil =>
      simp only [closeRandom, hr]
      exact .error trivial
    | cons f outer =>
      by_cases hf : f.filled = f.count
      · exact (completes_closeRandom hs (Or.inl trivial) hr hf).failsWith
      · simp only [closeRandom, hr, if_pos hf]
        exact .error trivial
  · rename_i tag _ hc he
    have hi : tag.isInternal = false :=
      isInternal_leadTag ht (fun h => hc (Token.simple.inj h)) fun h => he (Token.simple.inj h)
    split
    · exact (completes_lastWrite (.simple tag) hi).failsWith
    · exact isOfSource_addFast hs hi
  · rename_i hsimple
    exact (completes_lastWrite t (isInternal_leadTag ht (hsimple _) (hsimple _))).failsWith

theorem isOfSource_ofPhrases (hp : ∀ p ∈ ps, p.token.IsPhrase) :
    FailsWith CompileError.IsOfSource (ofPhrases options lines ps) := by
  induction ps using List.reverseRecOn with
  | nil => exact .ok _
  | append_singleton ps p ih =>
    have hps : ∀ q ∈ ps, q.token.IsPhrase := fun q hq => hp q (List.mem_append_left _ hq)
    intro e he
    rw [ofPhrases_append] at he
    cases ha : ofPhrases options lines ps with
    | error e' =>
      rw [ha] at he
      obtain rfl := Except.error.inj he
      exact ih hps _ ha
    | ok a =>
      obtain ⟨ts, hrun⟩ := exists_run_of_ofPhrases ha
      rw [ha, ok_bind, List.foldlM_cons] at he
      simp only [List.foldlM_nil, pure_eq_ok, bind_ok] at he
      exact isOfSource_add (hrun.sound hps)
        (hp p (List.mem_append_right _ List.mem_cons_self)) e he

theorem isOfSource_finish (a : Assembly) :
    FailsWith CompileError.IsOfSource a.finish := by
  cases hu : a.unclosed? with
  | none =>
    rw [finish_eq_ok_iff.mpr ⟨hu, rfl⟩]
    exact .ok _
  | some e =>
    simp only [finish, hu]
    refine .error ?_
    unfold unclosed? at hu
    split at hu <;> first | cases hu; done | (obtain rfl := Option.some.inj hu; trivial)

end Assembly

namespace Phrase

theorem isPhrase_of_gather {l : Lexeme} {ls rest : List Lexeme} {t : Token}
    (h : gather l ls = .ok (t, rest)) (hl : l.token.IsLexeme) : t.IsPhrase := by
  unfold gather at h
  split at h
  · obtain ⟨⟨xs, rest'⟩, -, he⟩ := map_eq_ok_iff.mp h
    obtain ⟨rfl, -⟩ := Prod.mk.inj he
    trivial
  · obtain ⟨⟨xs, rest'⟩, -, he⟩ := map_eq_ok_iff.mp h
    obtain ⟨rfl, -⟩ := Prod.mk.inj he
    trivial
  · rename_i tag hpair hvector htag
    rw [htag] at hl
    split at h
    · rename_i hr
      obtain ⟨⟨ws, rest'⟩, -, he⟩ := map_eq_ok_iff.mp h
      obtain ⟨rfl, -⟩ := Prod.mk.inj he
      exact ⟨hr, rfl⟩
    · rename_i hr
      obtain ⟨rfl, -⟩ := Prod.mk.inj (Except.ok.inj h)
      obtain ⟨ha, hl | hl | hl | hl | hl | hl⟩ := hl
      · exact ⟨ha, Or.inl hl⟩
      · exact ⟨ha, Or.inr (Or.inl hl)⟩
      · exact ⟨ha, Or.inr (Or.inr hl)⟩
      · exact absurd hl hr
      · exact absurd hl hpair
      · exact absurd hl hvector
  · rename_i hsimple
    obtain ⟨rfl, -⟩ := Prod.mk.inj (Except.ok.inj h)
    revert hl hsimple
    cases l.token with
    | simple tag => exact fun _ h => absurd rfl (h tag)
    | random => exact fun h _ => h.elim
    | name | arg => exact fun h _ => h
    | endOfLineNumber | jump | shortBranch | checksumName => exact fun h _ => h
    | _ => exact fun _ _ => trivial

/-- The phrases of a script are such also where a list after them is not well formed. -/
theorem isPhrase_of_mem_gatherFrom {done : List Phrase} {ls : List Lexeme}
    (hl : ∀ l ∈ ls, l.token.IsLexeme) (hd : ∀ p ∈ done, p.token.IsPhrase) :
    ∀ p ∈ (gatherFrom done ls).phrases, p.token.IsPhrase := by
  fun_induction gatherFrom done ls with
  | case1 done => simpa using hd
  | case2 done l ls e he => simpa using hd
  | case3 done l ls t rest hg _ ih =>
    refine ih (fun m hm => hl m (List.mem_cons_of_mem l ((suffix_of_gather hg).mem hm))) ?_
    intro p hp
    rcases List.mem_cons.mp hp with rfl | hp
    · exact isPhrase_of_gather hg (hl l List.mem_cons_self)
    · exact hd p hp

end Phrase

section

variable {options : CompileOptions} {source : String} {ls : List Lexeme}

theorem isPhrase_of_ofText (hl : Lexeme.ofText source.toList = .ok ls) :
    ∀ p ∈ (Phrase.ofLexemes ls).phrases, p.token.IsPhrase :=
  Phrase.isPhrase_of_mem_gatherFrom (Lexeme.ofText_eq_ok_iff.mp hl).isLexeme nofun

theorem isOfSource_compile (options : CompileOptions) (source : String) :
    FailsWith CompileError.IsOfSource (compile options source) := by
  unfold compile
  dsimp only
  cases hl : Lexeme.ofText source.toList with
  | error e => exact .error trivial
  | ok ls =>
    refine FailsWith.bind ((isOfSource_ofPhrases (isPhrase_of_ofText hl)).bind fun a => ?_)
      isOfSource_finish
    split
    · exact .error trivial
    · exact .ok _

end

/-- Backpatching is safe. At every phrase of a script the open addresses stand apart in the stream
and are zero. Up to any later phrase each of them is linked once or is still open, and when the
script has compiled each stands once among all that was ever linked; no other byte that was written
is changed. The phrases of a compiled script are its tokens, with lists taken together. No script
fails for a write or a link outside of its stream. -/
theorem backpatching (options : CompileOptions) (source : String) :
    (∀ e, compile options source ≠ .error (.stream e)) ∧
      ∀ ls, Lexeme.ofText source.toList = .ok ls →
        ∀ front rest a, (Phrase.ofLexemes ls).phrases = front ++ rest →
          ofPhrases options (LineMap.ofText source.toList) front = .ok a →
          a.Pending ∧ (a.openAddresses ++ a.linked).Pairwise Address.Apart ∧
            (∀ mid tail a', rest = mid ++ tail →
              ofPhrases options (LineMap.ofText source.toList) (front ++ mid) = .ok a' →
              ∃ us links, Adds options (LineMap.ofText source.toList) a mid us links a' ∧
                a.Later links a') ∧
            ∀ b, compile options source = .ok b →
              Phrase.Composes (ls.map Lexeme.token) ((front ++ rest).map Phrase.token) ∧
              ∃ us links a', Adds options (LineMap.ofText source.toList) a rest us links a' ∧
                (links.map Link.field).Pairwise Address.Apart ∧
                (∀ f ∈ a.openAddresses, (links.map Link.field).count f = 1) ∧
                a'.linked = (links.map Link.field).reverse ++ a.linked ∧
                (∀ f ∈ a.openAddresses, a'.linked.count f = 1) ∧
                a'.linked.Pairwise Address.Apart ∧
                (∀ l ∈ links, b.HoldsAt l.field.pos (l.field.bytes l.target)) ∧
                ∀ i < a.out.size, (∀ f ∈ a.openAddresses, f.Misses i) → b[i]? = a.out[i]? := by
  refine ⟨fun e he => isOfSource_compile options source _ he, ?_⟩
  intro ls hl front rest a hps ha
  have hphrase := isPhrase_of_ofText hl
  rw [hps] at hphrase
  have hfront : ∀ p ∈ front, p.token.IsPhrase := fun p hp => hphrase p (List.mem_append_left _ hp)
  have hrest : ∀ p ∈ rest, p.token.IsPhrase := fun p hp => hphrase p (List.mem_append_right _ hp)
  obtain ⟨ts, hrun⟩ := exists_run_of_ofPhrases ha
  have hsound := hrun.sound hfront
  have hpending := hrun.pending hfront
  refine ⟨hpending, apart_linked ha hfront, fun mid tail a' hmid ha' => ?_, fun b hb => ?_⟩
  · obtain ⟨us, links, hadds⟩ := exists_adds ha ha'
    refine ⟨us, links, hadds, (hadds.later hsound hpending fun p hp => hrest p ?_).2⟩
    rw [hmid]
    exact List.mem_append_left _ hp
  · obtain ⟨ls', a', hl', hfault, ha', hu, rfl⟩ := compile_eq_ok_iff.mp hb
    obtain rfl := Except.ok.inj (hl.symm.trans hl')
    have hcomposes := Phrase.composes_of_ofLexemes hfault
    rw [hps] at ha' hcomposes
    obtain ⟨us, links, hadds⟩ := exists_adds ha ha'
    have hlater := (hadds.later hsound hpending hrest).2
    obtain ⟨hlog, hsize, hapart, hmem, -, hlinked, hkept⟩ := hlater
    have hall := apart_linked ha' hphrase
    rw [openAddresses_of_unclosed? hu, List.nil_append] at hapart hmem hall
    refine ⟨hcomposes, us, links, a', hadds, hapart, fun f hf => ?_, hlog, fun f hf => ?_, hall,
      fun l hl => ?_, fun i hi hf => ?_⟩
    · exact List.count_eq_one_of_mem (nodup_of_apart hapart) (hmem f hf)
    · refine List.count_eq_one_of_mem (nodup_of_apart hall) ?_
      rw [hlog]
      exact List.mem_append_left _ (List.mem_reverse.mpr (hmem f hf))
    · exact (hlinked l hl).append_right _
    · rw [extend, Array.getElem?_append_left (by omega), hkept i hi hf]

theorem backpatching_else :
    ∃ ls a b, ∃ (links : List Link) (a' : Assembly),
      Lexeme.ofText "IF a ELSE ENDIF".toList = .ok ls ∧
      Phrase.Composes (ls.map Lexeme.token) ((Phrase.ofLexemes ls).phrases.map Phrase.token) ∧
      ofPhrases ⟨.fast, false⟩ (LineMap.ofText "IF a ELSE ENDIF".toList)
        ((Phrase.ofLexemes ls).phrases.take 2) = .ok a ∧
      a.openAddresses = [.short 1] ∧ a.Pending ∧
      compile ⟨.fast, false⟩ "IF a ELSE ENDIF" = .ok b ∧
      (links.map Link.field).count (.short 1) = 1 ∧
      a'.linked = [.short 9, .short 1] ∧
      a'.linked = (links.map Link.field).reverse ++ a.linked ∧
      a'.linked.count (.short 1) = 1 ∧
      ∀ l ∈ links, b.HoldsAt l.field.pos (l.field.bytes l.target) := by
  have hb : compile ⟨.fast, false⟩ "IF a ELSE ENDIF" =
      .ok #[71, 10, 0, 22, 188, 65, 72, 23, 72, 3, 0, 40, 43, 188, 65, 72, 23, 97, 0, 0] := by
    decide +kernel
  have ha : (Lexeme.ofText "IF a ELSE ENDIF".toList).toOption.any (fun ls =>
      (ofPhrases ⟨.fast, false⟩ (LineMap.ofText "IF a ELSE ENDIF".toList)
        ((Phrase.ofLexemes ls).phrases.take 2)).toOption.any
          (fun a => decide (a.openAddresses = [.short 1])) &&
      (ofPhrases ⟨.fast, false⟩ (LineMap.ofText "IF a ELSE ENDIF".toList)
        (Phrase.ofLexemes ls).phrases).toOption.any
          fun a => decide (a.linked = [.short 9, .short 1])) = true := by decide +kernel
  obtain ⟨ls, -, hl, -⟩ := compile_eq_ok_iff.mp hb
  simp only [hl, Except.toOption, Option.any_some, Bool.and_eq_true] at ha
  obtain ⟨ha, hlast⟩ := ha
  cases hfront : ofPhrases ⟨.fast, false⟩ (LineMap.ofText "IF a ELSE ENDIF".toList)
      ((Phrase.ofLexemes ls).phrases.take 2) with
  | error e =>
    rw [hfront] at ha
    cases ha
  | ok a =>
    rw [hfront] at ha
    have hopen : a.openAddresses = [.short 1] := of_decide_eq_true ha
    obtain ⟨hpending, -, -, hall⟩ := (backpatching ⟨.fast, false⟩ "IF a ELSE ENDIF").2 ls hl _ _ a
      (List.take_append_drop 2 _).symm hfront
    obtain ⟨hcomposes, us, links, a', hadds, -, hcount, hlog, honce, -, hlinked, -⟩ := hall _ hb
    rw [List.take_append_drop] at hcomposes
    have hend := hadds.ofPhrases hfront
    rw [List.take_append_drop] at hend
    rw [hend] at hlast
    exact ⟨ls, a, _, links, a', hl, hcomposes, hfront, hopen, hpending, hb, hcount _ (by simp [hopen]),
      of_decide_eq_true hlast, hlog, honce _ (by simp [hopen]), hlinked⟩

end QbScript
