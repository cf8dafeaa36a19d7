import QbScript.Proofs.Script.Brackets

/-!
# Conditionals with addresses

On the fast target the address of a conditional leads behind the token that starts its other branch,
and where it has none behind its end. The address of the other branch leads behind the end.
-/

set_option autoImplicit false

namespace QbScript

open Bytecode Assembly

theorem Construct.isStreamed_fastConditional : fastConditional.IsStreamed where
  blank t := by
    cases t with
    | shortBranch tag d => cases tag <;> rfl
    | _ => rfl
  entry _ _ := rfl
  finish := rfl

namespace Assembly

/-- The frame of an open conditional, and what the stream holds for it. The address of its other
branch, once that has begun, is the one that is open. -/
inductive HoldsConditional (a : Assembly) (ts : List Token) :
    Enclosure Unit → ConditionalFrame → Prop
  | first (start line : Nat) : HoldsConditional a ts ⟨(), start, []⟩ ⟨false, start + 1, line⟩
  | other {start middle : Nat} (line : Nat)
      (h : a.Settled ts (.short (start + 1)) (middle + 3)) (hb : Boundary ts (middle + 3)) :
      HoldsConditional a ts ⟨(), start, [middle]⟩ ⟨true, middle + 1, line⟩

structure ClosesConditional (a : Assembly) (ts : List Token) (k : ClosedEnclosure Unit) : Prop where
  last : ∃ f, a.HoldsConditional ts k.toEnclosure f ∧ a.Settled ts (.short f.field) (k.finish + 1)
  finish : Boundary ts (k.finish + 1)

structure AgreesOnConditionals (a : Assembly) (ts : List Token) (n : Bracketing Unit) : Prop where
  opened : List.Forall₂ (a.HoldsConditional ts) n.opened a.conditionals
  closed : ∀ k ∈ n.closed, a.ClosesConditional ts k

variable {options : CompileOptions} {line : Nat} {lines : LineMap} {a a' : Assembly} {t : Token}
  {ts us : List Token} {links : List Link} {n : Bracketing Unit}

theorem HoldsConditional.step (hs : a.Sound ts) (h : Step options line a t us links a')
    (ht : t.IsPhrase) {k : Enclosure Unit} {f : ConditionalFrame} (hk : a.HoldsConditional ts k f) :
    a'.HoldsConditional (ts ++ us) k f := by
  cases hk with
  | first start line => exact .first start line
  | other line hset hb => exact .other line (hset.step hs h ht) (hb.append us)

theorem ClosesConditional.step (hs : a.Sound ts) (h : Step options line a t us links a')
    (ht : t.IsPhrase) {k : ClosedEnclosure Unit} (hk : a.ClosesConditional ts k) :
    a'.ClosesConditional (ts ++ us) k :=
  ⟨hk.last.imp fun _ hf => ⟨hf.1.step hs h ht, hf.2.step hs h ht⟩, hk.finish.append us⟩

theorem part_parts_fastConditional (ht : t.IsPhrase) (hp : t.IsPlain .fast ∨ t.spelling?.isSome) :
    Construct.fastConditional.part t.parts = [] := by
  cases t with
  | simple tag =>
    cases tag <;> first | rfl | exact absurd hp (by simp [Token.IsPlain, Token.spelling?])
  | shortBranch => exact ht.elim
  | _ => rfl

theorem HoldsConditional.admits {k : Enclosure Unit} {f : ConditionalFrame}
    (hk : a.HoldsConditional ts k f) :
    Construct.fastConditional.admits k.head k.dividers.length = true := by
  cases hk <;> rfl

theorem holdsConditional_startElse {k : Enclosure Unit} {f : ConditionalFrame} (hs : a.Sound ts)
    (h : Step options line a t [.shortBranch .fastElse 0] [⟨.short f.field, a.out.size + 3⟩] a')
    (ht : t.IsPhrase) (hk : a.HoldsConditional ts k f) (he : f.hasElse = false) :
    a'.HoldsConditional (ts ++ [.shortBranch .fastElse 0])
      { k with dividers := k.dividers ++ [a.out.size] } ⟨true, a.out.size + 1, line⟩ := by
  cases hk with
  | other => cases he
  | first start _ =>
    have hbound := (hs.step h ht).boundary
    rw [show a'.out.size = a.out.size + 3 from h.size_out] at hbound
    exact .other line (hs.settled_of_link h ht List.mem_cons_self) hbound

theorem closesConditional_close {k : Enclosure Unit} {f : ConditionalFrame} (hs : a.Sound ts)
    (h : Step options line a t [.simple .endIf] [⟨.short f.field, a.out.size + 1⟩] a')
    (ht : t.IsPhrase) (hk : a.HoldsConditional ts k f) :
    a'.ClosesConditional (ts ++ [.simple .endIf]) ⟨k, a.out.size⟩ := by
  have hbound := (hs.step h ht).boundary
  rw [show a'.out.size = a.out.size + 1 from h.size_out] at hbound
  exact ⟨⟨f, hk.step hs h ht, hs.settled_of_link h ht List.mem_cons_self⟩, hbound⟩

theorem AgreesOnConditionals.step (hfast : options.target = .fast) (hs : a.Sound ts)
    (h : Step options line a t us links a') (ht : t.IsPhrase)
    (hn : a.AgreesOnConditionals ts n) :
    ∃ m, (placed a.out.size us).foldlM (Bracketing.add .fastConditional) n = some m ∧
      a'.AgreesOnConditionals (ts ++ us) m := by
  have hopened : ∀ ks fs, List.Forall₂ (a.HoldsConditional ts) ks fs →
      List.Forall₂ (a'.HoldsConditional (ts ++ us)) ks fs :=
    fun ks fs hf => hf.imp fun k f hk => hk.step hs h ht
  have hclosed : ∀ k ∈ n.closed, a'.ClosesConditional (ts ++ us) k :=
    fun k hk => (hn.closed k hk).step hs h ht
  have hkeep : a'.conditionals = a.conditionals → Construct.fastConditional.part us = [] →
      ∃ m, (placed a.out.size us).foldlM (Bracketing.add .fastConditional) n = some m ∧
        a'.AgreesOnConditionals (ts ++ us) m := fun hc hu =>
    ⟨n, Construct.foldlM_placed_of_part hu, hc ▸ hopened _ _ hn.opened, hclosed⟩
  have hstep := h
  cases h with
  | plain hp => exact hkeep rfl (part_parts_fastConditional ht (.inl (hfast ▸ hp)))
  | named hp => exact hkeep rfl (part_parts_fastConditional ht (.inr (by rw [hp]; rfl)))
  | lineEndKept =>
    refine hkeep rfl ?_
    unfold lineMark
    split <;> rfl
  | openConditional =>
    refine ⟨_, Construct.foldlM_placed_singleton (Bracketing.add_opens rfl), ?_, hclosed⟩
    exact .cons (.first _ _) (hopened _ _ hn.opened)
  | startElse _ hc he =>
    obtain ⟨k, ks, hk, hrest, hks⟩ := List.forall₂_cons_right_iff.mp (hc ▸ hn.opened)
    refine ⟨_, Construct.foldlM_placed_singleton (Bracketing.add_divides rfl hks), ?_, hclosed⟩
    exact .cons (holdsConditional_startElse hs hstep ht hk he) (hopened _ _ hrest)
  | closeConditional _ hc =>
    obtain ⟨k, ks, hk, hrest, hks⟩ := List.forall₂_cons_right_iff.mp (hc ▸ hn.opened)
    refine ⟨_, Construct.foldlM_placed_singleton (Bracketing.add_closes rfl hks hk.admits),
      hopened _ _ hrest, fun c hc => ?_⟩
    rcases List.mem_append.mp hc with hc | hc
    · exact hclosed c hc
    · obtain rfl := List.mem_singleton.mp hc
      exact closesConditional_close hs hstep ht hk
  | firstBranch _ htag | nextBranch _ htag => rcases htag with rfl | rfl <;> exact hkeep rfl rfl
  | _ => exact hkeep rfl rfl

theorem Run.agreesOnConditionals {ps : List Phrase} (hfast : options.target = .fast)
    (h : Run options lines ps ts a) (hp : ∀ p ∈ ps, p.token.IsPhrase) :
    ∃ n, Construct.fastConditional.bracketing? (placed 0 ts) = some n ∧
      a.AgreesOnConditionals ts n := by
  apply h.exists_bracketing?_placed hp
  · exact ⟨.nil, fun _ hk => (nomatch hk)⟩
  · intro line a t ts us links a' n hs h ht hn
    exact hn.step hfast hs h ht

end Assembly

/-- The addresses of the conditionals of a compiled stream on the fast target. Its conditionals are
matched like brackets. The address of one leads to the token after the one that starts its other
branch, and the address of that to the token after its end; without another branch the first
address leads there. -/
theorem shortAddress_conditional_of_compile {options : CompileOptions} {source : String}
    {b : Bytecode} (hfast : options.target = .fast) (h : compile options source = .ok b)
    (hs : b.size < 0x80000000) :
    ∃ ls, Lexeme.ofText source.toList = .ok ls ∧ (NoZeroNames ls →
      ∃ n, Construct.fastConditional.bracketing? b.scan.tokens = some n ∧ n.opened = [] ∧
        (∀ pos d, (pos, .shortBranch .fastIf d) ∈ b.scan.tokens →
          ∃ k ∈ n.closed, k.start = pos) ∧
        (∀ pos d, (pos, .shortBranch .fastElse d) ∈ b.scan.tokens →
          ∃ k ∈ n.closed, pos ∈ k.dividers) ∧
        ∀ k ∈ n.closed,
          (k.dividers = [] ∧ b.shortAddress (k.start + 1) = .ok (k.finish + 1) ∨
            ∃ middle, k.dividers = [middle] ∧ b.shortAddress (k.start + 1) = .ok (middle + 3) ∧
              (∃ t, (middle + 3, t) ∈ b.scan.tokens) ∧
              b.shortAddress (middle + 1) = .ok (k.finish + 1)) ∧
          ∃ t, (k.finish + 1, t) ∈ b.scan.tokens) := by
  obtain ⟨ls, ps, ts, us, a, hc⟩ := exists_compiled h
  refine ⟨ls, hc.ofText, fun hn => ?_⟩
  obtain ⟨n, hb, ho, hk⟩ := hc.run.agreesOnConditionals hfast hc.isPhrase
  rw [← hc.bracketing?_scan hs hn Construct.isStreamed_fastConditional] at hb
  rw [(frames_of_unclosed? hc.unclosed).1] at ho
  have ho : n.opened = [] := List.forall₂_nil_right_iff.mp ho
  refine ⟨n, hb, ho, ?_, ?_, ?_⟩
  · intro pos d hp
    exact (Construct.has_start_of_mem hb hp rfl).exists_closed ho
  · intro pos d hp
    exact (Construct.has_divider_of_mem hb hp rfl).exists_closed ho
  · rintro ⟨k, finish⟩ hm
    obtain ⟨⟨f, hf, hlast⟩, hbound⟩ := hk _ hm
    have hread : b.shortAddress f.field = .ok (finish + 1) := hc.read_of_settled hlast
    refine ⟨?_, hc.exists_mem_scan hs hn hbound⟩
    cases hf with
    | first => exact Or.inl ⟨rfl, hread⟩
    | @other start middle _ hset hmid =>
      exact Or.inr ⟨middle, rfl, hc.read_of_settled hset, hc.exists_mem_scan hs hn hmid, hread⟩

theorem shortAddress_conditional_of_compile_nested :
    ∃ b n, compile ⟨.fast, false⟩ "IF a IF 1 ELSE 2 ENDIF ENDIF" = .ok b ∧
      Construct.fastConditional.bracketing? b.scan.tokens = some n ∧
      ∀ k ∈ n.closed, b.shortAddress (k.start + 1) = .ok (k.finish + 1) ∨
        ∃ middle, k.dividers = [middle] ∧ b.shortAddress (k.start + 1) = .ok (middle + 3) ∧
          b.shortAddress (middle + 1) = .ok (k.finish + 1) := by
  have hb : compile ⟨.fast, false⟩ "IF a IF 1 ELSE 2 ENDIF ENDIF" =
      .ok #[71, 25, 0, 22, 188, 65, 72, 23, 71, 10, 0, 23, 1, 0, 0, 0, 72, 8, 0, 23, 2, 0, 0, 0,
        40, 40, 43, 188, 65, 72, 23, 97, 0, 0] := by decide +kernel
  have hs : Array.size #[(71 : UInt8), 25, 0, 22, 188, 65, 72, 23, 71, 10, 0, 23, 1, 0, 0, 0, 72, 8,
      0, 23, 2, 0, 0, 0, 40, 40, 43, 188, 65, 72, 23, 97, 0, 0] < 0x80000000 := by decide
  obtain ⟨ls, hl, hall⟩ := shortAddress_conditional_of_compile rfl hb hs
  have hn : (Lexeme.ofText "IF a IF 1 ELSE 2 ENDIF ENDIF".toList).toOption.any
      (fun ls => decide (NoZeroNames ls)) = true := by decide +kernel
  rw [hl] at hn
  obtain ⟨n, hbr, -, -, -, hk⟩ := hall (by simpa [Except.toOption] using hn)
  refine ⟨_, n, hb, hbr, fun k hm => ?_⟩
  rcases (hk k hm).1 with ⟨-, hread⟩ | ⟨middle, hd, hread, -, hend⟩
  · exact Or.inl hread
  · exact Or.inr ⟨middle, hd, hread, hend⟩

end QbScript
