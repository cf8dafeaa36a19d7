import QbScript.Proofs.Script.Brackets

/-!
# Switches with addresses

On the fast target a jump stands after the tag of every branch of a switch and leads to the next
branch, the last one to the end. Before every branch but the first a jump leads behind the end.
There are no other jumps of this kind.
-/

set_option autoImplicit false

namespace QbScript

open Bytecode Assembly

theorem Construct.isStreamed_switch : switch.IsStreamed where
  blank t := by cases t <;> rfl
  entry _ _ := rfl
  finish := rfl

def SwitchCase.ofStarts : List Nat → List SwitchCase
  | [] => []
  | first :: rest => ⟨none, first, first + 2⟩ :: rest.map fun c => ⟨some (c - 2), c, c + 2⟩

/-- A jump that belongs to a switch stands after the tag of a branch, or before that of one that is
not the first. -/
def Enclosure.HasJump (k : Enclosure Unit) (pos : Nat) : Prop :=
  (∃ c ∈ k.dividers, pos = c + 1) ∨ ∃ c ∈ k.dividers.tail, pos + 3 = c

namespace Assembly

structure HoldsSwitch (ts : List Token) (k : Enclosure Unit) : Prop where
  after : ∀ c ∈ k.dividers, (c + 1, .shortBranch .shortJump 0) ∈ placed 0 ts
  before : ∀ c ∈ k.dividers.tail, 3 ≤ c ∧ (c - 3, .shortBranch .shortJump 0) ∈ placed 0 ts

structure MatchesSwitch (ts : List Token) (k : Enclosure Unit) (f : SwitchFrame) : Prop
    extends HoldsSwitch ts k where
  cases : f.cases = (SwitchCase.ofStarts k.dividers).reverse

structure ClosesSwitch (a : Assembly) (ts : List Token) (k : ClosedEnclosure Unit) : Prop
    extends HoldsSwitch ts k.toEnclosure where
  next : ∀ i c, k.dividers[i]? = some c →
    a.Settled ts (.short (c + 2)) (k.dividers[i + 1]?.getD k.finish)
  skip : ∀ c ∈ k.dividers.tail, a.Settled ts (.short (c - 2)) (k.finish + 1)

structure AgreesOnSwitches (a : Assembly) (ts : List Token) (n : Bracketing Unit) : Prop where
  opened : List.Forall₂ (MatchesSwitch ts) n.opened a.switches
  closed : ∀ k ∈ n.closed, a.ClosesSwitch ts k
  complete : ∀ pos d, (pos, .shortBranch .shortJump d) ∈ placed 0 ts →
    n.Has fun k => k.HasJump pos

variable {options : CompileOptions} {line finish : Nat} {lines : LineMap} {a a' : Assembly}
  {t : Token} {ts us : List Token} {links : List Link} {n : Bracketing Unit}

theorem map_start_ofStarts (starts : List Nat) :
    (SwitchCase.ofStarts starts).map SwitchCase.start = starts := by
  cases starts with
  | nil => rfl
  | cons first rest => simp [SwitchCase.ofStarts, Function.comp_def]

theorem next_of_mem_ofStarts {starts : List Nat} {c : SwitchCase}
    (h : c ∈ SwitchCase.ofStarts starts) : c.next = c.start + 2 := by
  cases starts with
  | nil => cases h
  | cons first rest =>
    rcases List.mem_cons.mp h with rfl | h
    · rfl
    · obtain ⟨s, -, rfl⟩ := List.mem_map.mp h
      rfl

theorem mem_ofStarts_of_mem_tail {starts : List Nat} {c : Nat} (h : c ∈ starts.tail) :
    ⟨some (c - 2), c, c + 2⟩ ∈ SwitchCase.ofStarts starts := by
  cases starts with
  | nil => cases h
  | cons first rest =>
    exact List.mem_cons_of_mem _
      (List.mem_map_of_mem (f := fun c => SwitchCase.mk (some (c - 2)) c (c + 2)) h)

theorem ofStarts_concat {starts : List Nat} (h : starts ≠ []) (c : Nat) :
    SwitchCase.ofStarts (starts ++ [c]) =
      SwitchCase.ofStarts starts ++ [⟨some (c - 2), c, c + 2⟩] := by
  cases starts with
  | nil => exact absurd rfl h
  | cons first rest => simp [SwitchCase.ofStarts]

theorem MatchesSwitch.cases_eq_nil_iff {k : Enclosure Unit} {f : SwitchFrame}
    (hk : MatchesSwitch ts k f) : f.cases = [] ↔ k.dividers = [] := by
  rw [hk.cases, List.reverse_eq_nil_iff]
  cases k.dividers <;> simp [SwitchCase.ofStarts]

theorem mem_caseLinks_next {cases : List SwitchCase} {i : Nat} {c : SwitchCase}
    (h : cases[i]? = some c) :
    ⟨.short c.next, ((cases.map SwitchCase.start)[i + 1]?).getD finish⟩ ∈
      caseLinks finish cases := by
  induction cases generalizing i with
  | nil => cases h
  | cons d rest ih =>
    rw [caseLinks, List.append_assoc]
    cases i with
    | zero =>
      obtain rfl := Option.some.inj h
      refine List.mem_append_left _ ?_
      cases rest <;> simp
    | succ i => exact List.mem_append_right _ (List.mem_append_right _ (ih h))

theorem mem_caseLinks_skip {cases : List SwitchCase} {c : SwitchCase} {field : Nat}
    (h : c ∈ cases) (hf : c.skip = some field) :
    ⟨.short field, finish + 1⟩ ∈ caseLinks finish cases := by
  induction cases with
  | nil => cases h
  | cons d rest ih =>
    rw [caseLinks]
    rcases List.mem_cons.mp h with rfl | h
    · simp [hf]
    · exact List.mem_append_right _ (ih h)

theorem HoldsSwitch.append {k : Enclosure Unit} (hk : HoldsSwitch ts k) (us : List Token) :
    HoldsSwitch (ts ++ us) k :=
  ⟨fun c hc => mem_placed_append (hk.after c hc) us,
    fun c hc => ⟨(hk.before c hc).1, mem_placed_append (hk.before c hc).2 us⟩⟩

theorem ClosesSwitch.step (hs : a.Sound ts) (h : Step options line a t us links a')
    (ht : t.IsPhrase) {k : ClosedEnclosure Unit} (hk : a.ClosesSwitch ts k) :
    a'.ClosesSwitch (ts ++ us) k :=
  ⟨hk.toHoldsSwitch.append us, fun i c hi => (hk.next i c hi).step hs h ht,
    fun c hc => (hk.skip c hc).step hs h ht⟩

theorem part_parts_switch (ht : t.IsPhrase) (hp : t.IsPlain .fast ∨ t.spelling?.isSome) :
    Construct.switch.part t.parts = [] := by
  cases t with
  | simple tag =>
    cases tag <;> first | rfl | exact absurd hp (by simp [Token.IsPlain, Token.spelling?])
  | shortBranch => exact ht.elim
  | _ => rfl

theorem matchesSwitch_firstBranch {tag : Tag} {k : Enclosure Unit} {f : SwitchFrame}
    (hs : a.Sound ts) (hk : MatchesSwitch ts k f) (hc : f.cases = []) :
    MatchesSwitch (ts ++ [.simple tag, .shortBranch .shortJump 0])
      { k with dividers := k.dividers ++ [a.out.size] }
      { f with cases := [⟨none, a.out.size, a.out.size + 2⟩] } := by
  have hd : k.dividers = [] := hk.cases_eq_nil_iff.mp hc
  refine ⟨⟨fun c hm => ?_, fun c hm => ?_⟩, ?_⟩
  · obtain rfl : c = a.out.size := by simpa [hd] using hm
    rw [hs.placed_append]
    exact List.mem_append_right _ (by simp [placed, Token.wire, Token.payload])
  · simp [hd] at hm
  · simp [hd, SwitchCase.ofStarts]

theorem matchesSwitch_nextBranch {tag : Tag} {k : Enclosure Unit} {f : SwitchFrame}
    (hs : a.Sound ts) (hk : MatchesSwitch ts k f) (hc : f.cases ≠ []) :
    MatchesSwitch (ts ++ [.shortBranch .shortJump 0, .simple tag, .shortBranch .shortJump 0])
      { k with dividers := k.dividers ++ [a.out.size + 3] }
      { f with cases := ⟨some (a.out.size + 1), a.out.size + 3, a.out.size + 5⟩ :: f.cases } := by
  have hd : k.dividers ≠ [] := fun h => hc (hk.cases_eq_nil_iff.mpr h)
  have hold := hk.append [.shortBranch .shortJump 0, .simple tag, .shortBranch .shortJump 0]
  refine ⟨⟨fun c hm => ?_, fun c hm => ?_⟩, ?_⟩
  · rcases List.mem_append.mp hm with hm | hm
    · exact hold.after c hm
    · obtain rfl := List.mem_singleton.mp hm
      rw [hs.placed_append]
      exact List.mem_append_right _ (by simp [placed, Token.wire, Token.payload])
  · rw [show (k.dividers ++ [a.out.size + 3]).tail = k.dividers.tail ++ [a.out.size + 3] from
      List.tail_append_of_ne_nil hd] at hm
    rcases List.mem_append.mp hm with hm | hm
    · exact hold.before c hm
    · obtain rfl := List.mem_singleton.mp hm
      refine ⟨Nat.le_add_left .., ?_⟩
      rw [hs.placed_append]
      exact List.mem_append_right _ (by simp [placed])
  · show _ :: f.cases = (SwitchCase.ofStarts (k.dividers ++ [a.out.size + 3])).reverse
    rw [ofStarts_concat hd, List.reverse_append, ← hk.cases]
    simp

theorem closesSwitch_close {k : Enclosure Unit} {f : SwitchFrame} (hs : a.Sound ts)
    (h : Step options line a t [.simple .endSwitch] (caseLinks a.out.size f.cases.reverse) a')
    (ht : t.IsPhrase) (hk : MatchesSwitch ts k f) :
    a'.ClosesSwitch (ts ++ [.simple .endSwitch]) ⟨k, a.out.size⟩ := by
  have hcases : f.cases.reverse = SwitchCase.ofStarts k.dividers := by
    rw [hk.cases, List.reverse_reverse]
  rw [hcases] at h
  refine ⟨hk.append _, fun i s hi => ?_, fun s hm => ?_⟩
  · rw [← map_start_ofStarts k.dividers, List.getElem?_map] at hi
    obtain ⟨c, hc, rfl⟩ := Option.map_eq_some_iff.mp hi
    have hl := hs.settled_of_link h ht (mem_caseLinks_next hc)
    rwa [map_start_ofStarts, next_of_mem_ofStarts (List.mem_of_getElem? hc)] at hl
  · exact hs.settled_of_link h ht (mem_caseLinks_skip (mem_ofStarts_of_mem_tail hm) rfl)

theorem hasJump_concat {k : Enclosure Unit} {pos : Nat} (h : k.HasJump pos) (c : Nat) :
    { k with dividers := k.dividers ++ [c] }.HasJump pos := by
  rcases h with ⟨d, hd, hp⟩ | ⟨d, hd, hp⟩
  · exact Or.inl ⟨d, List.mem_append_left _ hd, hp⟩
  · refine Or.inr ⟨d, ?_, hp⟩
    have hne : k.dividers ≠ [] := by
      rintro he
      simp [he] at hd
    show d ∈ (k.dividers ++ [c]).tail
    rw [List.tail_append_of_ne_nil hne]
    exact List.mem_append_left _ hd

/-- The jumps that are there after a step belong to switches if those do that it writes. -/
theorem AgreesOnSwitches.complete_append {m : Bracketing Unit} (hs : a.Sound ts)
    (hn : a.AgreesOnSwitches ts n)
    (hm : (placed a.out.size us).foldlM (Bracketing.add .switch) n = some m)
    (hu : ∀ pos d, (pos, .shortBranch .shortJump d) ∈ placed a.out.size us →
      m.Has fun k => k.HasJump pos) :
    ∀ pos d, (pos, .shortBranch .shortJump d) ∈ placed 0 (ts ++ us) →
      m.Has fun k => k.HasJump pos := by
  intro pos d hp
  rw [hs.placed_append] at hp
  rcases List.mem_append.mp hp with hp | hp
  · exact (hn.complete pos d hp).foldlM hm fun k c h => hasJump_concat h c
  · exact hu pos d hp

theorem foldlM_placed_branch (tag : Tag) (pos : Nat) :
    (placed pos [.simple tag, .shortBranch .shortJump 0]).foldlM (Bracketing.add .switch) n =
      n.add .switch (pos, .simple tag) := by
  have hstay : ∀ (m : Bracketing Unit) q, m.add .switch (q, .shortBranch .shortJump 0) = some m :=
    fun m q => Bracketing.add_stays rfl
  simp [placed, hstay]

theorem foldlM_placed_nextBranch (tag : Tag) (pos : Nat) :
    (placed pos [.shortBranch .shortJump 0, .simple tag, .shortBranch .shortJump 0]).foldlM
      (Bracketing.add .switch) n = n.add .switch (pos + 3, .simple tag) := by
  rw [placed, List.foldlM_cons, Bracketing.add_stays rfl]
  exact foldlM_placed_branch tag (pos + 3)

theorem shortJump_notMem_parts (ht : t.IsPhrase) (d : Int16) :
    .shortBranch .shortJump d ∉ t.parts := by
  cases t with
  | shortBranch => exact ht.elim
  | _ => simp [Token.parts]

theorem AgreesOnSwitches.step (hfast : options.target = .fast) (hs : a.Sound ts)
    (h : Step options line a t us links a') (ht : t.IsPhrase) (hn : a.AgreesOnSwitches ts n) :
    ∃ m, (placed a.out.size us).foldlM (Bracketing.add .switch) n = some m ∧
      a'.AgreesOnSwitches (ts ++ us) m := by
  have hopened : ∀ ks fs, List.Forall₂ (MatchesSwitch ts) ks fs →
      List.Forall₂ (MatchesSwitch (ts ++ us)) ks fs :=
    fun ks fs hf => hf.imp fun k f hk => ⟨hk.append us, hk.cases⟩
  have hclosed : ∀ k ∈ n.closed, a'.ClosesSwitch (ts ++ us) k :=
    fun k hk => (hn.closed k hk).step hs h ht
  have hcomplete := fun m => @AgreesOnSwitches.complete_append a ts us n m hs hn
  -- All steps but four write nothing that belongs to a switch.
  have hkeep : a'.switches = a.switches → Construct.switch.part us = [] →
      (∀ d, .shortBranch .shortJump d ∉ us) →
      ∃ m, (placed a.out.size us).foldlM (Bracketing.add .switch) n = some m ∧
        a'.AgreesOnSwitches (ts ++ us) m := fun hc hu hj =>
    ⟨n, Construct.foldlM_placed_of_part hu, hc ▸ hopened _ _ hn.opened, hclosed,
      hcomplete n (Construct.foldlM_placed_of_part hu) fun _ d hp =>
        absurd (mem_of_mem_placed hp) (hj d)⟩
  have hstep := h
  cases h with
  | plain hp =>
    exact hkeep rfl (part_parts_switch ht (.inl (hfast ▸ hp))) (shortJump_notMem_parts ht)
  | named hp =>
    exact hkeep rfl (part_parts_switch ht (.inr (by rw [hp]; rfl))) (shortJump_notMem_parts ht)
  | lineEndKept =>
    refine hkeep rfl ?_ ?_
    · unfold lineMark
      split <;> rfl
    · unfold lineMark
      split <;> simp
  | openSwitch =>
    have hm := @Construct.foldlM_placed_singleton _ Construct.switch n _ a.out.size
      (.simple .switch) (Bracketing.add_opens rfl)
    refine ⟨_, hm, ?_, hclosed, hcomplete _ hm fun pos d hp => by simp [placed] at hp⟩
    exact .cons ⟨⟨by simp, by simp⟩, rfl⟩ (hopened _ _ hn.opened)
  | @firstBranch tag f outer _ htag hsw hc =>
    obtain ⟨k, ks, hk, hrest, hks⟩ := List.forall₂_cons_right_iff.mp (hsw ▸ hn.opened)
    have hr : Construct.switch.role? (.simple tag) = some .divides := by
      rcases htag with rfl | rfl <;> rfl
    have hm := (foldlM_placed_branch tag a.out.size).trans (Bracketing.add_divides hr hks)
    refine ⟨_, hm, .cons (matchesSwitch_firstBranch hs hk hc) (hopened _ _ hrest), hclosed,
      hcomplete _ hm fun pos d hp => ?_⟩
    obtain ⟨rfl, -⟩ : pos = a.out.size + 1 ∧ d = 0 := by
      simpa [placed, Token.wire, Token.payload] using hp
    exact Or.inl ⟨_, List.mem_cons_self, Or.inl ⟨a.out.size, by simp, rfl⟩⟩
  | @nextBranch tag f outer _ htag hsw hc =>
    obtain ⟨k, ks, hk, hrest, hks⟩ := List.forall₂_cons_right_iff.mp (hsw ▸ hn.opened)
    have hr : Construct.switch.role? (.simple tag) = some .divides := by
      rcases htag with rfl | rfl <;> rfl
    have hm := (foldlM_placed_nextBranch tag a.out.size).trans (Bracketing.add_divides hr hks)
    refine ⟨_, hm, .cons (matchesSwitch_nextBranch hs hk hc) (hopened _ _ hrest), hclosed,
      hcomplete _ hm fun pos d hp => Or.inl ⟨_, List.mem_cons_self, ?_⟩⟩
    have hd : k.dividers ≠ [] := fun h => hc (hk.cases_eq_nil_iff.mpr h)
    obtain ⟨rfl, -⟩ | ⟨rfl, -⟩ : (pos = a.out.size ∧ d = 0) ∨ (pos = a.out.size + 4 ∧ d = 0) := by
      simpa [placed, Token.wire, Token.payload] using hp
    · -- the jump before the tag of the branch
      exact Or.inr ⟨a.out.size + 3, by simp [List.tail_append_of_ne_nil hd], rfl⟩
    · -- the jump after it
      exact Or.inl ⟨a.out.size + 3, by simp, rfl⟩
  | @closeSwitch f outer out _ hsw =>
    obtain ⟨k, ks, hk, hrest, hks⟩ := List.forall₂_cons_right_iff.mp (hsw ▸ hn.opened)
    have hm := @Construct.foldlM_placed_singleton _ Construct.switch n _ a.out.size
      (.simple .endSwitch) (Bracketing.add_closes rfl hks rfl)
    refine ⟨_, hm, hopened _ _ hrest, fun c hc => ?_,
      hcomplete _ hm fun pos d hp => by simp [placed] at hp⟩
    rcases List.mem_append.mp hc with hc | hc
    · exact hclosed c hc
    · obtain rfl := List.mem_singleton.mp hc
      exact closesSwitch_close hs hstep ht hk
  | openRandom => exact hkeep rfl rfl (by simp)
  | _ => exact hkeep rfl rfl (by simp)

theorem Run.agreesOnSwitches {ps : List Phrase} (hfast : options.target = .fast)
    (h : Run options lines ps ts a) (hp : ∀ p ∈ ps, p.token.IsPhrase) :
    ∃ n, Construct.switch.bracketing? (placed 0 ts) = some n ∧ a.AgreesOnSwitches ts n := by
  apply h.exists_bracketing?_placed hp
  · exact ⟨.nil, fun _ hk => (nomatch hk), fun _ _ hp => (nomatch hp)⟩
  · intro line a t ts us links a' n hs h ht hn
    exact hn.step hfast hs h ht

end Assembly

namespace Compiled

variable {options : CompileOptions} {source : String} {b : Bytecode} {ls : List Lexeme}
  {ps : List Phrase} {ts us : List Token} {a : Assembly}

theorem exists_shortJump_mem_scan (h : Compiled options source b ls ps ts us a)
    (hs : b.size < 0x80000000) (hn : NoZeroNames ls) {pos : Nat}
    (hp : (pos, .shortBranch .shortJump 0) ∈ placed 0 ts) :
    ∃ d, (pos, .shortBranch .shortJump d) ∈ b.scan.tokens := by
  obtain ⟨u, hu, hb⟩ := h.exists_mem_scan_of_mem_placed hs hn hp
  obtain ⟨d, rfl⟩ : ∃ d, u = .shortBranch .shortJump d := by cases u <;> simp_all [Token.blank]
  exact ⟨d, hu⟩

end Compiled

/-- The addresses of the switches of a compiled stream on the fast target. Its switches are matched
like brackets. After the tag of every branch stands a jump to the next branch, the last one to the
end; before every branch but the first stands a jump to the place after the end. There are no other
jumps of this kind. -/
theorem shortAddress_switch_of_compile {options : CompileOptions} {source : String} {b : Bytecode}
    (hfast : options.target = .fast) (h : compile options source = .ok b)
    (hs : b.size < 0x80000000) :
    ∃ ls, Lexeme.ofText source.toList = .ok ls ∧ (NoZeroNames ls →
      ∃ n, Construct.switch.bracketing? b.scan.tokens = some n ∧ n.opened = [] ∧
        (∀ pos, (pos, .simple .switch) ∈ b.scan.tokens → ∃ k ∈ n.closed, k.start = pos) ∧
        (∀ pos tag, tag = .case ∨ tag = .default → (pos, .simple tag) ∈ b.scan.tokens →
          ∃ k ∈ n.closed, pos ∈ k.dividers) ∧
        (∀ k ∈ n.closed, (k.start :: k.dividers ++ [k.finish]).Pairwise (· < ·) ∧
          (∀ i c, k.dividers[i]? = some c →
            (∃ d, (c + 1, .shortBranch .shortJump d) ∈ b.scan.tokens) ∧
            b.shortAddress (c + 2) = .ok (k.dividers[i + 1]?.getD k.finish)) ∧
          ∀ c ∈ k.dividers.tail, 3 ≤ c ∧
            (∃ d, (c - 3, .shortBranch .shortJump d) ∈ b.scan.tokens) ∧
            b.shortAddress (c - 2) = .ok (k.finish + 1)) ∧
        ∀ pos d, (pos, .shortBranch .shortJump d) ∈ b.scan.tokens →
          ∃ k ∈ n.closed, (∃ c ∈ k.dividers, pos = c + 1) ∨ ∃ c ∈ k.dividers.tail, pos + 3 = c) := by
  obtain ⟨ls, ps, ts, us, a, hc⟩ := exists_compiled h
  refine ⟨ls, hc.ofText, fun hn => ?_⟩
  obtain ⟨n, hb, ho, hk, hcomplete⟩ := hc.run.agreesOnSwitches hfast hc.isPhrase
  have hascends := Bracketing.ascends_of_bracketing? hb
  rw [← hc.bracketing?_scan hs hn Construct.isStreamed_switch] at hb
  rw [(frames_of_unclosed? hc.unclosed).2.1] at ho
  have ho : n.opened = [] := List.forall₂_nil_right_iff.mp ho
  refine ⟨n, hb, ho, ?_, ?_, ?_, ?_⟩
  · intro pos hp
    exact (Construct.has_start_of_mem hb hp rfl).exists_closed ho
  · intro pos tag htag hp
    have hr : Construct.switch.role? (.simple tag) = some .divides := by
      rcases htag with rfl | rfl <;> rfl
    exact (Construct.has_divider_of_mem hb hp hr).exists_closed ho
  · intro k hm
    have hclosed := hk k hm
    refine ⟨hascends.closed k hm, fun i c hi => ⟨?_, ?_⟩, fun c hc' => ?_⟩
    · exact hc.exists_shortJump_mem_scan hs hn (hclosed.after c (List.mem_of_getElem? hi))
    · exact hc.read_of_settled (hclosed.next i c hi)
    · obtain ⟨hle, hj⟩ := hclosed.before c hc'
      exact ⟨hle, hc.exists_shortJump_mem_scan hs hn hj, hc.read_of_settled (hclosed.skip c hc')⟩
  · intro pos d hp
    obtain ⟨u, hu, hblank⟩ := hc.exists_mem_placed_of_mem_scan hs hn hp
      (by simp [Token.tag]) (by simp)
    obtain ⟨e, rfl⟩ : ∃ e, u = .shortBranch .shortJump e := by cases u <;> simp_all [Token.blank]
    exact (hcomplete pos e hu).exists_closed ho

theorem shortAddress_switch_of_compile_nested :
    ∃ b n, compile ⟨.fast, false⟩
        "SWITCH 1 CASE 1 SWITCH 2 DEFAULT 3 ENDSWITCH CASE 2 4 ENDSWITCH" = .ok b ∧
      Construct.switch.bracketing? b.scan.tokens = some n ∧
      ∀ k ∈ n.closed, ∀ i c, k.dividers[i]? = some c →
        b.shortAddress (c + 2) = .ok (k.dividers[i + 1]?.getD k.finish) := by
  have hb : compile ⟨.fast, false⟩
      "SWITCH 1 CASE 1 SWITCH 2 DEFAULT 3 ENDSWITCH CASE 2 4 ENDSWITCH" =
      .ok #[60, 23, 1, 0, 0, 0, 62, 73, 26, 0, 23, 1, 0, 0, 0, 60, 23, 2, 0, 0, 0, 63, 73, 7, 0, 23,
        3, 0, 0, 0, 61, 73, 17, 0, 62, 73, 12, 0, 23, 2, 0, 0, 0, 23, 4, 0, 0, 0, 61, 0] := by
    decide +kernel
  have hs : Array.size #[(60 : UInt8), 23, 1, 0, 0, 0, 62, 73, 26, 0, 23, 1, 0, 0, 0, 60, 23, 2, 0,
      0, 0, 63, 73, 7, 0, 23, 3, 0, 0, 0, 61, 73, 17, 0, 62, 73, 12, 0, 23, 2, 0, 0, 0, 23, 4, 0, 0,
      0, 61, 0] < 0x80000000 := by decide
  obtain ⟨ls, hl, hall⟩ := shortAddress_switch_of_compile rfl hb hs
  have hn : (Lexeme.ofText
      "SWITCH 1 CASE 1 SWITCH 2 DEFAULT 3 ENDSWITCH CASE 2 4 ENDSWITCH".toList).toOption.any
      (fun ls => decide (NoZeroNames ls)) = true := by decide +kernel
  rw [hl] at hn
  obtain ⟨n, hbr, -, -, -, hk, -⟩ := hall (by simpa [Except.toOption] using hn)
  exact ⟨_, n, hb, hbr, fun k hm i c hi => ((hk k hm).2.1 i c hi).2⟩

end QbScript
