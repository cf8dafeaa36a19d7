import QbScript.Proofs.Script.Balance

/-!
# Which scripts compile

A script whose constructs are balanced compiles, unless a branch leads too far. On the plain target
no branch does as long as the stream is not too long.
-/

set_option autoImplicit false

namespace QbScript

open Bytecode Assembly

/-- The outcome is a value with the property or, if `far`, a branch that leads too far. -/
def Completes {β : Type} (far : Prop) (P : β → Prop) : Except CompileError β → Prop
  | .ok x => P x
  | .error (.branchTooFar ..) => far
  | .error _ => False

section

variable {β γ : Type} {far : Prop} {P Q : β → Prop} {R : γ → Prop} {x : Except CompileError β}
  {f : β → Except CompileError γ}

theorem Completes.bind (h : Completes far P x) (hf : ∀ b, P b → Completes far R (f b)) :
    Completes far R (x >>= f) := by
  cases x with
  | ok b => exact hf b h
  | error e =>
    cases e with
    | branchTooFar => exact h
    | _ => exact h.elim

theorem Completes.imp (h : Completes far P x) (hPQ : ∀ b, P b → Q b) : Completes far Q x := by
  cases x with
  | ok b => exact hPQ b h
  | error e => cases e <;> exact h

theorem Completes.of_ok (h : Completes far P x) (hQ : ∀ b, x = .ok b → Q b) :
    Completes far Q x := by
  cases x with
  | ok b => exact hQ b rfl
  | error e => cases e <;> exact h

theorem completes_true_iff :
    Completes True P x ↔ (∃ b, x = .ok b ∧ P b) ∨ ∃ line d, x = .error (.branchTooFar line d) := by
  cases x with
  | ok b => simp [Completes]
  | error e => cases e <;> simp [Completes]

theorem completes_false_iff : Completes False P x ↔ ∃ b, x = .ok b ∧ P b := by
  cases x with
  | ok b => simp [Completes]
  | error e => cases e <;> simp [Completes]

end

/-- Names with one checksum differ in letter case and slashes only. -/
def NoCollisions (names : List String) : Prop :=
  ∀ x ∈ names, ∀ y ∈ names, Checksum.ofName x = Checksum.ofName y →
    Checksum.normalize x = Checksum.normalize y

instance (names : List String) : Decidable (NoCollisions names) :=
  inferInstanceAs (Decidable (∀ x ∈ names, ∀ y ∈ names, _ → _))

structure BalancedOnFast (qs : List Token) : Prop where
  elseIf_notMem : .simple .elseIf ∉ qs
  random : Construct.random.Balanced (Construct.random.part qs)
  conditional : Construct.conditional.Balanced (Construct.conditional.part qs)
  switch : Construct.switch.Balanced (Construct.switch.part qs)

namespace Bytecode

theorem lt_pos_of_mem_addressesOf {f : Address} {pos : Nat} {ts : List Token}
    (h : f ∈ addressesOf pos ts) : pos < f.pos := by
  induction ts generalizing pos with
  | nil => cases h
  | cons t ts ih =>
    rcases List.mem_append.mp h with h | h
    · cases t with
      | jump | shortBranch =>
        obtain rfl := List.mem_singleton.mp h
        exact Nat.lt_succ_self pos
      | random =>
        obtain ⟨i, -, rfl⟩ := List.mem_map.mp h
        simp only [Address.pos, slot]
        omega
      | _ => cases h
    · exact (Nat.le_add_right ..).trans_lt (ih h)

theorem link_total {b : Bytecode} {f : Address} (h : f.stop ≤ b.size) (target : Nat) :
    (∃ c, f.link b target = .ok c ∧ c.size = b.size) ∨
      ¬ f.Reaches target ∧ ∃ d, f.link b target = .error (.tooFar d) := by
  by_cases hr : f.Reaches target
  · have hl := Address.link_eq_ok_iff.mpr ⟨hr, h, rfl⟩
    exact Or.inl ⟨_, hl, size_of_link hl⟩
  · refine Or.inr ⟨hr, ?_⟩
    cases f with
    | long pos => exact ⟨_, if_neg hr⟩
    | short pos => exact ⟨_, if_neg hr⟩

end Bytecode

namespace Assembly

variable {options : CompileOptions} {line pos target : Nat} {lines : LineMap} {a a' : Assembly}
  {t : Token} {ts us : List Token} {links : List Link} {ps : List Phrase} {far : Prop}

theorem Sound.bounds (hs : a.Sound ts) {f : Address} (hf : f ∈ a.openAddresses) :
    0 < f.pos ∧ f.stop ≤ a.out.size := by
  have hm := hs.mem f hf
  have hstop := ((pairwise_addressesOf 0 ts).2 f hm).2
  rw [Nat.zero_add, ← hs.size] at hstop
  exact ⟨lt_pos_of_mem_addressesOf hm, hstop⟩

theorem completes_write (h : t.leadTag.isInternal = false) :
    Completes far (fun a' => a' = { a with out := a.out.extend t.parts }) (a.write t) := by
  rw [write_eq_ok_iff.mpr ⟨h, rfl⟩]
  rfl

theorem completes_lastWrite (t : Token) (h : t.leadTag.isInternal = false) :
    Completes far (fun _ => True) (a.write t) :=
  (completes_write h).imp fun _ _ => trivial

theorem completes_linkShort (hfar : far) (h : pos + 2 ≤ a.out.size) :
    Completes far (fun a' => a'.out.size = a.out.size) (a.linkShort line pos target) := by
  unfold Assembly.linkShort
  rcases link_total (f := .short pos) h target with ⟨c, hc, hsize⟩ | ⟨-, d, hd⟩
  · rw [show a.out.linkShort pos target = .ok c from hc]
    exact hsize
  · rw [show a.out.linkShort pos target = .error (.tooFar d) from hd]
    exact hfar

theorem completes_linkLong (hfar : far ∨ (Address.long pos).Reaches target)
    (h : pos + 4 ≤ a.out.size) :
    Completes far (fun a' => a'.out.size = a.out.size) (a.linkLong line pos target) := by
  unfold Assembly.linkLong
  rcases link_total (f := .long pos) h target with ⟨c, hc, hsize⟩ | ⟨hr, d, hd⟩
  · rw [show a.out.linkLong pos target = .ok c from hc]
    exact hsize
  · rw [show a.out.linkLong pos target = .error (.tooFar d) from hd]
    exact hfar.resolve_right hr

theorem completes_foldlM_linkLong {ends : List Nat}
    (hfar : ∀ field ∈ ends, far ∨ (Address.long field).Reaches a.out.size)
    (h : ∀ field ∈ ends, field + 4 ≤ a.out.size) :
    Completes far (fun _ => True)
      (ends.foldlM (fun a field => a.linkLong line field a.out.size) a) := by
  induction ends generalizing a with
  | nil => trivial
  | cons field ends ih =>
    rw [List.foldlM_cons]
    refine (completes_linkLong (hfar field List.mem_cons_self)
      (h field List.mem_cons_self)).bind fun b hb => ih ?_ ?_
    · rw [hb]
      exact fun f hf => hfar f (List.mem_cons_of_mem _ hf)
    · rw [hb]
      exact fun f hf => h f (List.mem_cons_of_mem _ hf)

theorem completes_linkCases {finish : Nat} (hfar : far) {cases : List SwitchCase}
    (h : ∀ f ∈ cases.flatMap SwitchCase.openAddresses, f.stop ≤ a.out.size) :
    Completes far (fun _ => True) (linkCases line finish a cases) := by
  induction cases generalizing a with
  | nil => trivial
  | cons c rest ih =>
    rw [linkCases]
    have hc : ∀ f ∈ c.openAddresses, f.stop ≤ a.out.size := fun f hf =>
      h f (List.mem_append_left _ hf)
    have hrest : ∀ b : Assembly, b.out.size = a.out.size →
        Completes far (fun _ => True) (linkCases line finish b rest) := fun b hb =>
      ih fun f hf => hb ▸ h f (List.mem_append_right _ hf)
    refine (completes_linkShort hfar (hc _ List.mem_cons_self)).bind fun b hb => ?_
    cases hs : c.skip with
    | none => exact hrest b hb
    | some field =>
      have hfield : field + 2 ≤ b.out.size :=
        hb ▸ hc (.short field) (by simp [SwitchCase.openAddresses, hs])
      exact (completes_linkShort hfar hfield).bind fun b' hb' => hrest b' (hb'.trans hb)

theorem reaches_long (hs : a.Sound ts) (hsize : a.out.size < 0x80000000)
    (hp : .long pos ∈ a.openAddresses) (ht : target ≤ a.out.size + 5) :
    (Address.long pos).Reaches target := by
  obtain ⟨h0, hstop⟩ := hs.bounds hp
  simp only [Address.stop, Address.pos, Address.size, Address.Reaches] at h0 hstop ⊢
  omega

theorem completes_startRandomCase {f : RandomFrame} {outer : List RandomFrame} (hs : a.Sound ts)
    (hsize : far ∨ a.out.size < 0x80000000) (hr : a.randoms = f :: outer)
    (hf : f.filled < f.count) : Completes far (fun _ => True) (a.startRandomCase line) := by
  have hslot : .long (slot f.header f.count f.filled) ∈ a.openAddresses := by
    refine List.mem_append_right _ (List.mem_flatMap.mpr ⟨f, hr ▸ List.mem_cons_self, ?_⟩)
    rw [openAddresses_filled hf]
    exact List.mem_cons_self
  have hstop : slot f.header f.count f.filled + 4 ≤ a.out.size := (hs.bounds hslot).2
  have hreach : ∀ target, target ≤ a.out.size + 5 →
      far ∨ (Address.long (slot f.header f.count f.filled)).Reaches target := fun target ht =>
    hsize.imp_right fun hsize => reaches_long hs hsize hslot ht
  simp only [startRandomCase, hr, if_neg (Nat.not_le.mpr hf)]
  by_cases h0 : f.filled = 0
  · simp only [if_pos h0, pure_eq_ok, ok_bind]
    let b : Assembly := { a with randoms := { f with filled := f.filled + 1 } :: outer }
    have hlink := @completes_linkLong line _ a.out.size b far (hreach _ (Nat.le_add_right ..)) hstop
    exact hlink.imp fun _ _ => trivial
  · simp only [if_neg h0]
    refine (completes_write rfl).bind fun b hb => ?_
    have hb : b.out.size = a.out.size + 5 := by
      rw [hb, size_extend]
      rfl
    refine (completes_linkLong (hreach _ (Nat.le_of_eq hb)) ?_).imp fun _ _ => trivial
    show _ ≤ b.out.size
    omega

theorem completes_closeRandom {f : RandomFrame} {outer : List RandomFrame} (hs : a.Sound ts)
    (hsize : far ∨ a.out.size < 0x80000000) (hr : a.randoms = f :: outer)
    (hf : f.filled = f.count) : Completes far (fun _ => True) (a.closeRandom line) := by
  have hends : ∀ field ∈ f.ends.reverse, .long field ∈ a.openAddresses := fun field hm =>
    List.mem_append_right _ (List.mem_flatMap.mpr ⟨f, hr ▸ List.mem_cons_self,
      List.mem_append_right _ (List.mem_map_of_mem (List.mem_reverse.mp hm))⟩)
  simp only [Assembly.closeRandom, hr, if_neg (not_not.mpr hf)]
  refine completes_foldlM_linkLong (a := { a with randoms := outer }) (fun field hm => ?_)
    fun field hm => (hs.bounds (hends field hm)).2
  exact hsize.imp_right fun hsize => reaches_long hs hsize (hends field hm) (Nat.le_add_right ..)

theorem mem_openAddresses_of_conditional {f : ConditionalFrame} (hf : f ∈ a.conditionals) :
    .short f.field ∈ a.openAddresses :=
  List.mem_append_left _ (List.mem_append_left _ (List.mem_map.mpr ⟨f, hf, rfl⟩))

theorem completes_startElse {f : ConditionalFrame} {outer : List ConditionalFrame} (hfar : far)
    (hs : a.Sound ts) (hc : a.conditionals = f :: outer) (he : f.hasElse = false) :
    Completes far (fun _ => True) (a.startElse line) := by
  have hfield := mem_openAddresses_of_conditional (a := a) (hc ▸ List.mem_cons_self)
  simp only [Assembly.startElse, hc, he, Bool.false_eq_true, if_false]
  refine (completes_linkShort hfar (hs.bounds hfield).2).bind fun b _ => ?_
  exact completes_lastWrite _ rfl

theorem completes_closeConditional {f : ConditionalFrame} {outer : List ConditionalFrame}
    (hfar : far) (hs : a.Sound ts) (hc : a.conditionals = f :: outer) :
    Completes far (fun _ => True) (a.closeConditional line) := by
  have hfield := mem_openAddresses_of_conditional (a := a) (hc ▸ List.mem_cons_self)
  simp only [Assembly.closeConditional, hc]
  refine (completes_linkShort (a := { a with conditionals := outer }) hfar
    (hs.bounds hfield).2).bind fun b _ => ?_
  exact completes_lastWrite _ rfl

theorem completes_startCase {tag : Tag} (htag : tag = .case ∨ tag = .default) {f : SwitchFrame}
    {outer : List SwitchFrame} (hw : a.switches = f :: outer) :
    Completes far (fun _ => True) (a.startCase line tag) := by
  have hi : (Token.simple tag).leadTag.isInternal = false := by rcases htag with rfl | rfl <;> rfl
  have hend : ∀ b : Assembly, Completes far (fun _ => True) (do
      let b ← b.write (.simple tag)
      b.write (.shortBranch .shortJump 0)) := fun b =>
    (completes_write hi).bind fun _ _ => completes_lastWrite _ rfl
  simp only [startCase, hw]
  by_cases hc : f.cases.isEmpty
  · simp only [hc, if_true, pure_eq_ok, ok_bind]
    exact hend _
  · simp only [hc, Bool.false_eq_true, if_false]
    exact (completes_write rfl).bind fun b _ => hend b

theorem completes_closeSwitch (hfar : far) (hs : a.Sound ts) {f : SwitchFrame}
    {outer : List SwitchFrame} (hw : a.switches = f :: outer) :
    Completes far (fun _ => True) (a.closeSwitch line) := by
  simp only [Assembly.closeSwitch, hw]
  refine (completes_linkCases (a := { a with switches := outer }) hfar fun g hg => ?_).bind
    fun b _ => completes_lastWrite _ rfl
  refine (hs.bounds ?_).2
  refine List.mem_append_left _ (List.mem_append_right _
    (List.mem_flatMap.mpr ⟨f, hw ▸ List.mem_cons_self, ?_⟩))
  exact ((List.reverse_perm f.cases).flatMap_right SwitchCase.openAddresses).mem_iff.mp hg

theorem isInternal_leadTag (ht : t.IsPhrase) (hc : t ≠ .simple .randomCase)
    (he : t ≠ .simple .randomEnd) : t.leadTag.isInternal = false := by
  have hfixed : ∀ tag : Tag, tag.layout = .fixed 1 → tag.isInternal = false := by
    intro tag
    cases tag <;> decide
  cases t with
  | simple tag =>
    rcases ht.2 with hl | rfl | rfl
    · exact hfixed tag hl
    · exact absurd rfl hc
    · exact absurd rfl he
  | random tag => exact Tag.isInternal_of_isRandomHeader ht.1
  | shortBranch => exact ht.elim
  | _ => rfl

theorem completes_writeLineEnd :
    Completes far (fun _ => True) (writeLineEnd options a line) := by
  unfold writeLineEnd
  by_cases hl : a.lineEnd = some a.out.size
  · simp [hl, Completes]
  · simp only [hl, if_false, pure_eq_ok]
    refine (completes_write ?_).bind fun _ _ => trivial
    split <;> rfl

/-- What an assembly asks of a phrase on the fast target: no other branch has a condition, and the
phrase is in its place among those of the conditionals and of the switches. -/
structure IsPlaced (a : Assembly) (t : Token) : Prop where
  ne_elseIf : t ≠ .simple .elseIf
  conditional : ∃ gs, Construct.conditional.Moves t a.conditionalDepths gs ∧
    Construct.conditional.CanClose gs
  switch : ∃ gs, Construct.switch.Moves t a.switchDepths gs

theorem exists_randoms {count filled : Nat} {outer : List (Nat × Nat)}
    (h : a.randomDepths = (count, filled) :: outer) :
    ∃ f fs, a.randoms = f :: fs ∧ f.count = count ∧ f.filled = filled := by
  obtain ⟨f, fs, hr, he, -⟩ := List.map_eq_cons_iff.mp h
  exact ⟨f, fs, hr, Prod.mk.inj he⟩

theorem exists_conditionals {others : Nat} {outer : List (Unit × Nat)}
    (h : a.conditionalDepths = ((), others) :: outer) :
    ∃ f fs, a.conditionals = f :: fs ∧ others = if f.hasElse then 1 else 0 := by
  obtain ⟨f, fs, hc, he, -⟩ := List.map_eq_cons_iff.mp h
  exact ⟨f, fs, hc, (Prod.mk.inj he).2.symm⟩

theorem exists_switches {branches : Nat} {outer : List (Unit × Nat)}
    (h : a.switchDepths = ((), branches) :: outer) : ∃ f fs, a.switches = f :: fs := by
  obtain ⟨f, fs, hw, -, -⟩ := List.map_eq_cons_iff.mp h
  exact ⟨f, fs, hw⟩

theorem completes_addFast {place : Position} {tag : Tag} (hfar : far) (hs : a.Sound ts)
    (hi : tag.isInternal = false) (hp : a.IsPlaced (.simple tag)) :
    Completes far (fun _ => True) (a.addFast line place tag) := by
  obtain ⟨hne, ⟨gs, hm, hclose⟩, ⟨gs', hm'⟩⟩ := hp
  unfold addFast
  split
  · exact completes_lastWrite (.shortBranch .fastIf 0) rfl
  · obtain ⟨_, others, outer, hd, rfl⟩ := hm.of_divides rfl
    obtain ⟨f, fs, hc, ho⟩ := exists_conditionals hd
    -- A second other branch would keep the conditional from being closed.
    obtain ⟨c, hle, ha⟩ := hclose _ List.mem_cons_self
    have hc1 : c ≤ 1 := by simpa [Construct.conditional] using ha
    refine completes_startElse hfar hs hc ?_
    cases he : f.hasElse with
    | false => rfl
    | true =>
      rw [he] at ho
      simp only [if_true] at ho
      omega
  · obtain ⟨_, others, hd, -⟩ := hm.of_closes rfl
    obtain ⟨f, fs, hc, -⟩ := exists_conditionals hd
    exact completes_closeConditional hfar hs hc
  · exact absurd rfl hne
  · exact completes_lastWrite _ rfl
  · obtain ⟨_, n, outer, hd, -⟩ := hm'.of_divides rfl
    obtain ⟨f, fs, hw⟩ := exists_switches hd
    exact completes_startCase (Or.inl rfl) hw
  · obtain ⟨_, n, outer, hd, -⟩ := hm'.of_divides rfl
    obtain ⟨f, fs, hw⟩ := exists_switches hd
    exact completes_startCase (Or.inr rfl) hw
  · obtain ⟨_, n, hd, -⟩ := hm'.of_closes rfl
    obtain ⟨f, fs, hw⟩ := exists_switches hd
    exact completes_closeSwitch hfar hs hw
  · exact completes_lastWrite (.simple tag) hi

/-- A phrase in its place is added, unless a branch leads too far. -/
theorem completes_add {place : Position} (hs : a.Sound ts) (ht : t.IsPhrase)
    (hn : ∀ text ∈ t.spelling?, ∃ names, a.names.insert text = .ok names)
    (hr : ∃ gs, Construct.random.Moves t a.randomDepths gs ∧ Construct.random.CanClose gs)
    (hsize : far ∨ a.out.size < 0x80000000)
    (hfast : options.target = .fast → far ∧ a.IsPlaced t) :
    Completes far (fun _ => True) (a.add options place t) := by
  obtain ⟨gs, hm, hclose⟩ := hr
  unfold Assembly.add
  split
  · rename_i text
    obtain ⟨names, hn⟩ := hn text rfl
    simp only [writeName, hn]
    exact completes_lastWrite _ rfl
  · rename_i text
    obtain ⟨names, hn⟩ := hn text rfl
    simp only [writeName, hn]
    exact completes_lastWrite _ rfl
  · exact completes_lastWrite (.random ..) (Tag.isInternal_of_isRandomHeader ht.1)
  · exact completes_writeLineEnd
  · obtain ⟨count, filled, outer, hd, rfl⟩ := hm.of_divides rfl
    obtain ⟨f, fs, hr, rfl, rfl⟩ := exists_randoms hd
    -- With all its branches begun, one more would keep the block from being closed.
    obtain ⟨c, hle, ha⟩ := hclose _ List.mem_cons_self
    have hc : c = f.count := by simpa [Construct.random] using ha
    exact completes_startRandomCase hs hsize hr (by simp only at hle; omega)
  · obtain ⟨count, filled, hd, ha⟩ := hm.of_closes rfl
    obtain ⟨f, fs, hr, rfl, rfl⟩ := exists_randoms hd
    exact completes_closeRandom hs hsize hr (by simpa [Construct.random] using ha)
  · rename_i tag _ hc he
    have hi : tag.isInternal = false :=
      isInternal_leadTag ht (fun h => hc (Token.simple.inj h)) fun h => he (Token.simple.inj h)
    split
    · exact completes_lastWrite (.simple tag) hi
    · rename_i htarget
      obtain ⟨hfar, hp⟩ := hfast htarget
      exact completes_addFast hfar hs hi hp
  · rename_i hsimple
    exact completes_lastWrite t (isInternal_leadTag ht (hsimple _) (hsimple _))

theorem Run.exists_insert (h : Run options lines ps ts a) {text : String}
    (hn : ∀ x ∈ spellings (ps.map Phrase.token), Checksum.ofName x = Checksum.ofName text →
      Checksum.normalize x = Checksum.normalize text) :
    ∃ names, a.names.insert text = .ok names := by
  unfold NameTable.insert NameTable.insertAt
  cases hg : a.names.get? (Checksum.ofName text) with
  | none => exact ⟨_, rfl⟩
  | some existing =>
    rw [h.get?_names, firstSpelling] at hg
    have hc : Checksum.ofName existing = Checksum.ofName text := by simpa using List.find?_some hg
    exact ⟨_, if_pos (hn existing (List.mem_of_find?_eq_some hg) hc)⟩

theorem Run.exists_moves {α : Type} {kind : Construct α} {depths : Assembly → List (α × Nat)}
    {p : Phrase} {qs : List Phrase} (h : Run options lines ps ts a)
    (h0 : depths Assembly.start = [])
    (hm : ∀ {line a t us links a'}, Step options line a t us links a' →
      kind.Moves t (depths a) (depths a'))
    (hb : kind.Balanced (kind.part ((ps ++ p :: qs).map Phrase.token))) :
    ∃ gs, kind.Moves p.token (depths a) gs ∧ kind.CanClose gs := by
  obtain ⟨m, hall, hm'⟩ := Phrase.exists_bracketing?_places_iff.mpr hb
  rw [Phrase.places, List.map_append, List.map_cons] at hall
  obtain ⟨n, gs, hn, hmoves, hclose⟩ := Construct.exists_moves hall hm'
  obtain ⟨n', hn', hd⟩ := h.exists_bracketing? h0 hm
  obtain rfl := Option.some.inj (hn.symm.trans hn')
  exact ⟨gs, hd ▸ hmoves, hclose⟩

/-- The phrases of a balanced script are added, unless a branch leads too far. -/
theorem completes_ofPhrases (hp : ∀ p ∈ ps, p.token.IsPhrase)
    (hn : NoCollisions (spellings (ps.map Phrase.token)))
    (hr : Construct.random.Balanced (Construct.random.part (ps.map Phrase.token)))
    (hsize : ∀ front a, front <+: ps → ofPhrases options lines front = .ok a →
      far ∨ a.out.size < 0x80000000)
    (hfast : options.target = .fast → far ∧ BalancedOnFast (ps.map Phrase.token))
    {front rest : List Phrase} (hps : ps = front ++ rest) :
    Completes far (fun a => ∃ ts, Run options lines front ts a)
      (ofPhrases options lines front) := by
  -- On the front parts of the script: each of them leaves the frames that the grammar says.
  induction front using List.reverseRecOn generalizing rest with
  | nil => exact ⟨[], .start⟩
  | append_singleton front p ih =>
    rw [List.append_assoc, List.singleton_append] at hps
    have hfront : ∀ q ∈ front, q.token.IsPhrase := fun q hq =>
      hp q (hps ▸ List.mem_append_left _ hq)
    have hpm : p ∈ ps := hps ▸ List.mem_append_right _ List.mem_cons_self
    have hsp : ∀ x ∈ spellings (front.map Phrase.token), x ∈ spellings (ps.map Phrase.token) := by
      intro x hx
      rw [hps, List.map_append, spellings_append]
      exact List.mem_append_left _ hx
    rw [ofPhrases_append]
    refine (ih hps).bind fun a ⟨ts, hrun⟩ => ?_
    have hadd : Completes far (fun _ => True)
        (a.add options (lines.position p.start) p.token) := by
      refine completes_add (hrun.sound hfront) (hp p hpm) (fun text ht => hrun.exists_insert ?_)
        (hrun.exists_moves rfl Step.moves_random (hps ▸ hr))
        (hsize front a ⟨_, hps.symm⟩ hrun.ofPhrases) (fun ht => ?_)
      · intro x hx
        exact hn x (hsp x hx) text (List.mem_filterMap.mpr ⟨p.token, List.mem_map_of_mem hpm, ht⟩)
      · obtain ⟨hfar, hb⟩ := hfast ht
        obtain ⟨gs, hm, -⟩ := hrun.exists_moves rfl (Step.moves_switch ht) (hps ▸ hb.switch)
        exact ⟨hfar, fun he => hb.elseIf_notMem (he ▸ List.mem_map_of_mem hpm),
          hrun.exists_moves rfl (Step.moves_conditional ht) (hps ▸ hb.conditional), gs, hm⟩
    rw [List.foldlM_cons]
    simp only [List.foldlM_nil, pure_eq_ok, bind_ok]
    refine hadd.of_ok fun b hb => ?_
    obtain ⟨us, links, hs⟩ := step_of_add hb
    exact ⟨ts ++ us, .step hrun hb hs⟩

theorem Run.unclosed? (h : Run options lines ps ts a)
    (hr : Construct.random.Balanced (Construct.random.part (ps.map Phrase.token)))
    (hfast : options.target = .fast → BalancedOnFast (ps.map Phrase.token)) :
    a.unclosed? = none := by
  have hrandoms : a.randoms = [] :=
    List.map_eq_nil_iff.mp ((h.balanced_iff rfl Step.moves_random).mp hr)
  obtain ⟨hc, hs⟩ : a.conditionals = [] ∧ a.switches = [] := by
    cases ht : options.target with
    | plain => exact h.frames_of_plain ht
    | fast =>
      obtain ⟨-, -, hbc, hbs⟩ := hfast ht
      exact ⟨List.map_eq_nil_iff.mp ((h.balanced_iff rfl (Step.moves_conditional ht)).mp hbc),
        List.map_eq_nil_iff.mp ((h.balanced_iff rfl (Step.moves_switch ht)).mp hbs)⟩
  simp only [Assembly.unclosed?, hc, hs, hrandoms]

end Assembly

section

variable {options : CompileOptions} {source : String} {ls : List Lexeme} {qs : List Token}
  {far : Prop}

/-- A balanced script compiles, unless a branch leads too far. -/
theorem completes_compile (hl : Lexeme.ofText source.toList = .ok ls)
    (hq : Phrase.Composes (ls.map Lexeme.token) qs) (hn : NoCollisions (spellings qs))
    (hr : Construct.random.Balanced (Construct.random.part qs))
    (hsize : ∀ front a, front <+: (Phrase.ofLexemes ls).phrases →
      ofPhrases options (LineMap.ofText source.toList) front = .ok a →
      far ∨ a.out.size < 0x80000000)
    (hfast : options.target = .fast → far ∧ BalancedOnFast qs) :
    Completes far (fun _ => True) (compile options source) := by
  obtain ⟨hf, rfl⟩ := Phrase.ofLexemes_of_composes hq
  have hp := (Lexeme.ofText_eq_ok_iff.mp hl).isPhrase hf
  unfold compile
  simp only [hl, Phrase.Gathered.assemble, hf, bind_ok]
  apply (completes_ofPhrases hp hn hr hsize hfast (List.append_nil _).symm).bind
  rintro a ⟨ts, hrun⟩
  rw [finish_eq_ok_iff.mpr ⟨hrun.unclosed? hr fun ht => (hfast ht).2, rfl⟩]
  trivial

/-- Which scripts compile. Of a source whose lists are well formed and whose names do not collide
the random blocks, the conditionals and the switches are looked at each on their own. On the plain
target, as long as no front part of it makes a stream that is too long, it compiles exactly if its
random blocks are complete. On the fast target it compiles only if all three are, and no other
branch has a condition; if so, it compiles unless a branch leads too far. -/
theorem compiles_iff_balanced (hl : Lexeme.ofText source.toList = .ok ls)
    (hq : Phrase.Composes (ls.map Lexeme.token) qs) (hn : NoCollisions (spellings qs)) :
    (∀ lineNumbers,
      (∀ front a, front <+: (Phrase.ofLexemes ls).phrases →
        ofPhrases ⟨.plain, lineNumbers⟩ (LineMap.ofText source.toList) front = .ok a →
        a.out.size < 0x80000000) →
      ((∃ b, compile ⟨.plain, lineNumbers⟩ source = .ok b) ↔
        Construct.random.Balanced (Construct.random.part qs))) ∧
    ∀ lineNumbers,
      ((∃ b, compile ⟨.fast, lineNumbers⟩ source = .ok b) → BalancedOnFast qs) ∧
      (BalancedOnFast qs → (∃ b, compile ⟨.fast, lineNumbers⟩ source = .ok b) ∨
        ∃ line distance,
          compile ⟨.fast, lineNumbers⟩ source = .error (.branchTooFar line distance)) := by
  have hphrases : ∀ {options b}, compile options source = .ok b →
      ∃ ps ts us a, Compiled options source b ls ps ts us a ∧ ps.map Phrase.token = qs := by
    intro options b h
    obtain ⟨ls', ps, ts, us, a, hc⟩ := exists_compiled h
    obtain rfl := Except.ok.inj (hl.symm.trans hc.ofText)
    exact ⟨ps, ts, us, a, hc, by rw [hc.phrases, (Phrase.ofLexemes_of_composes hq).2]⟩
  refine ⟨fun lineNumbers hsize => ⟨?_, fun hr => ?_⟩, fun lineNumbers => ⟨?_, fun hb => ?_⟩⟩
  · rintro ⟨b, h⟩
    obtain ⟨ps, ts, us, a, hc, rfl⟩ := hphrases h
    exact hc.balanced_random
  · have hcompile := @completes_compile ⟨.plain, lineNumbers⟩ source ls qs False hl hq hn hr
      (fun front a hf ha => Or.inr (hsize front a hf ha)) nofun
    exact (completes_false_iff.mp hcompile).imp fun _ h => h.1
  · rintro ⟨b, h⟩
    obtain ⟨ps, ts, us, a, hc, rfl⟩ := hphrases h
    obtain ⟨he, hconditional, hswitch⟩ := hc.balanced_fast rfl
    exact ⟨he, hc.balanced_random, hconditional, hswitch⟩
  · have hcompile := @completes_compile ⟨.fast, lineNumbers⟩ source ls qs True hl hq hn
      hb.random (fun _ _ _ _ => Or.inl trivial) fun _ => ⟨trivial, hb⟩
    exact (completes_true_iff.mp hcompile).imp_left fun ⟨b, h, _⟩ => ⟨b, h⟩

end

theorem compiles_iff_balanced_interleaved :
    ∃ ls qs, Lexeme.ofText "RANDOM(1)RANDOMCASE IF RANDOMEND ENDIF".toList = .ok ls ∧
      Phrase.Composes (ls.map Lexeme.token) qs ∧ NoCollisions (spellings qs) ∧
      Construct.random.Balanced (Construct.random.part qs) ∧ BalancedOnFast qs := by
  have hfast : compile ⟨.fast, true⟩ "RANDOM(1)RANDOMCASE IF RANDOMEND ENDIF" =
      .ok #[47, 1, 0, 0, 0, 1, 0, 0, 0, 0, 0, 71, 3, 0, 40, 0] := by decide +kernel
  have hplain : compile ⟨.plain, true⟩ "RANDOM(1)RANDOMCASE IF RANDOMEND ENDIF" =
      .ok #[47, 1, 0, 0, 0, 1, 0, 0, 0, 0, 0, 37, 40, 0] := by decide +kernel
  have hn : (Lexeme.ofText "RANDOM(1)RANDOMCASE IF RANDOMEND ENDIF".toList).toOption.any
      (fun ls => decide (NoCollisions (spellings
        ((Phrase.ofLexemes ls).phrases.map Phrase.token)))) = true := by decide +kernel
  have hsize : (Lexeme.ofText "RANDOM(1)RANDOMCASE IF RANDOMEND ENDIF".toList).toOption.any
      (fun ls => (Phrase.ofLexemes ls).phrases.inits.all fun front =>
        (ofPhrases ⟨.plain, true⟩ (LineMap.ofText
          "RANDOM(1)RANDOMCASE IF RANDOMEND ENDIF".toList) front).toOption.all
            fun a => decide (a.out.size < 0x80000000)) = true := by decide +kernel
  obtain ⟨ls, ps, ts, us, a, hc⟩ := exists_compiled hfast
  rw [hc.ofText] at hn hsize
  have hn : NoCollisions (spellings (ps.map Phrase.token)) := by
    rw [hc.phrases]
    simpa [Except.toOption] using hn
  obtain ⟨hbalanced, hboth⟩ := compiles_iff_balanced hc.ofText hc.composes hn
  refine ⟨ls, _, hc.ofText, hc.composes, hn, (hbalanced true ?_).mp ⟨_, hplain⟩,
    (hboth true).1 ⟨_, hfast⟩⟩
  intro front a hf ha
  have hall := List.all_eq_true.mp hsize front (List.mem_inits _ _ |>.mpr hf)
  rw [ha] at hall
  simpa [Except.toOption] using hall

end QbScript
