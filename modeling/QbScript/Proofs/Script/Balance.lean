import QbScript.Proofs.Script.Construct
import QbScript.Proofs.Script.Stream

/-!
# Scripts that compile are balanced

The frames of an assembly are the open constructs of the phrases so far: each kind keeps its own
stack, and a phrase does to the frames of a kind what it does to the constructs of that kind.
-/

set_option autoImplicit false

namespace QbScript

open Bytecode Assembly

def Phrase.places (ps : List Phrase) : List (Nat × Token) := ps.map fun p => (p.start, p.token)

theorem Phrase.exists_bracketing?_places_iff {α : Type} {kind : Construct α} {ps : List Phrase} :
    (∃ n, kind.bracketing? (Phrase.places ps) = some n ∧ n.opened = []) ↔
      kind.Balanced (kind.part (ps.map Phrase.token)) := by
  rw [Construct.exists_bracketing?_iff, Phrase.places, List.map_map]
  rfl

namespace Assembly

/-- The random blocks that are open: how many branches each is to have and how many it has. -/
def randomDepths (a : Assembly) : List (Nat × Nat) := a.randoms.map fun f => (f.count, f.filled)

def conditionalDepths (a : Assembly) : List (Unit × Nat) :=
  a.conditionals.map fun f => ((), if f.hasElse then 1 else 0)

def switchDepths (a : Assembly) : List (Unit × Nat) := a.switches.map fun f => ((), f.cases.length)

variable {options : CompileOptions} {line : Nat} {lines : LineMap} {a a' : Assembly} {t : Token}
  {ts us : List Token} {links : List Link} {ps : List Phrase}

theorem Step.moves_random (h : Step options line a t us links a') :
    Construct.random.Moves t a.randomDepths a'.randomDepths := by
  cases h with
  | plain ht =>
    refine .stays ?_
    cases t with
    | simple tag => cases tag <;> first | rfl | exact ht.elim
    | random => exact ht.elim
    | _ => rfl
  | named ht =>
    refine .stays ?_
    cases t <;> first | rfl | cases ht
  | openRandom => exact .opens rfl
  | firstCase hr =>
    simp only [randomDepths, hr]
    exact .divides rfl
  | nextCase hr =>
    simp only [randomDepths, hr]
    exact .divides rfl
  | closeRandom hr hf =>
    simp only [randomDepths, hr]
    exact .closes rfl (by simpa [Construct.random] using hf)
  | firstBranch _ htag | nextBranch _ htag => rcases htag with rfl | rfl <;> exact .stays rfl
  | _ => exact .stays rfl

theorem Step.moves_conditional (hfast : options.target = .fast)
    (h : Step options line a t us links a') :
    Construct.conditional.Moves t a.conditionalDepths a'.conditionalDepths := by
  cases h with
  | plain ht =>
    refine .stays ?_
    rw [hfast] at ht
    cases t with
    | simple tag => cases tag <;> first | rfl | cases ht
    | _ => rfl
  | named ht =>
    refine .stays ?_
    cases t <;> first | rfl | cases ht
  | openConditional => exact .opens rfl
  | startElse _ hc he =>
    simp only [conditionalDepths, hc, List.map_cons, he]
    exact .divides rfl
  | @closeConditional f outer _ _ hc =>
    simp only [conditionalDepths, hc]
    exact .closes rfl (by cases f.hasElse <;> rfl)
  | firstBranch _ htag | nextBranch _ htag => rcases htag with rfl | rfl <;> exact .stays rfl
  | _ => exact .stays rfl

theorem Step.moves_switch (hfast : options.target = .fast)
    (h : Step options line a t us links a') :
    Construct.switch.Moves t a.switchDepths a'.switchDepths := by
  cases h with
  | plain ht =>
    refine .stays ?_
    rw [hfast] at ht
    cases t with
    | simple tag => cases tag <;> first | rfl | cases ht
    | _ => rfl
  | named ht =>
    refine .stays ?_
    cases t <;> first | rfl | cases ht
  | openSwitch => exact .opens rfl
  | firstBranch _ htag hs hc =>
    simp only [switchDepths, hs, List.map_cons, hc]
    refine .divides ?_
    rcases htag with rfl | rfl <;> rfl
  | nextBranch _ htag hs =>
    simp only [switchDepths, hs]
    refine .divides ?_
    rcases htag with rfl | rfl <;> rfl
  | closeSwitch _ hs =>
    simp only [switchDepths, hs]
    exact .closes rfl rfl
  | _ => exact .stays rfl

theorem Step.frames_of_plain (hplain : options.target = .plain)
    (h : Step options line a t us links a') :
    a'.conditionals = a.conditionals ∧ a'.switches = a.switches := by
  cases h with
  | openConditional ht | startElse ht | closeConditional ht | openSwitch ht | firstBranch ht
  | nextBranch ht | closeSwitch ht => cases hplain.symm.trans ht
  | _ => exact ⟨rfl, rfl⟩

theorem Step.ne_elseIf (hfast : options.target = .fast) (h : Step options line a t us links a') :
    t ≠ .simple .elseIf := by
  rintro rfl
  generalize ht : Token.simple .elseIf = t at h
  cases h with
  | plain hp =>
    subst ht
    cases hfast.symm.trans hp
  | named hn =>
    subst ht
    cases hn
  | firstBranch _ htag | nextBranch _ htag => rcases htag with rfl | rfl <;> cases ht
  | _ => cases ht

/-- Frames that are moved as the constructs of a kind are those of the constructs of the kind. -/
theorem Run.exists_bracketing? {α : Type} {kind : Construct α} {depths : Assembly → List (α × Nat)}
    (h : Run options lines ps ts a) (h0 : depths Assembly.start = [])
    (hm : ∀ {line a t us links a'}, Step options line a t us links a' →
      kind.Moves t (depths a) (depths a')) :
    ∃ n, kind.bracketing? (Phrase.places ps) = some n ∧ n.depths = depths a := by
  induction h with
  | start => exact ⟨.start, rfl, h0.symm⟩
  | @step ps ts us a a' p links _ _ hs ih =>
    obtain ⟨n, hn, hd⟩ := ih
    have hmoves := hm hs
    rw [← hd] at hmoves
    obtain ⟨m, hadd, hdm⟩ := @Bracketing.exists_add_of_moves _ _ n p.start _ _ hmoves
    refine ⟨m, ?_, hdm⟩
    rw [Phrase.places, List.map_append, List.map_singleton, Construct.bracketing?_concat]
    rw [Phrase.places] at hn
    rw [hn]
    exact hadd

/-- The frames of a kind are all closed exactly if its constructs are balanced. -/
theorem Run.balanced_iff {α : Type} {kind : Construct α} {depths : Assembly → List (α × Nat)}
    (h : Run options lines ps ts a) (h0 : depths Assembly.start = [])
    (hm : ∀ {line a t us links a'}, Step options line a t us links a' →
      kind.Moves t (depths a) (depths a')) :
    kind.Balanced (kind.part (ps.map Phrase.token)) ↔ depths a = [] := by
  obtain ⟨n, hn, hd⟩ := h.exists_bracketing? h0 hm
  rw [← Phrase.exists_bracketing?_places_iff, ← hd, Bracketing.depths_eq_nil_iff]
  constructor
  · rintro ⟨m, hm, ho⟩
    obtain rfl := Option.some.inj (hn.symm.trans hm)
    exact ho
  · exact fun ho => ⟨n, hn, ho⟩

theorem Run.ne_elseIf (hfast : options.target = .fast) (h : Run options lines ps ts a) :
    ∀ p ∈ ps, p.token ≠ .simple .elseIf := by
  induction h with
  | start => simp
  | step _ _ hs ih =>
    intro p hp
    rcases List.mem_append.mp hp with hp | hp
    · exact ih p hp
    · obtain rfl := List.mem_singleton.mp hp
      exact hs.ne_elseIf hfast

theorem Run.frames_of_plain (hplain : options.target = .plain) (h : Run options lines ps ts a) :
    a.conditionals = [] ∧ a.switches = [] := by
  induction h with
  | start => exact ⟨rfl, rfl⟩
  | step _ _ hs ih =>
    obtain ⟨hc, hw⟩ := hs.frames_of_plain hplain
    exact ⟨hc.trans ih.1, hw.trans ih.2⟩

end Assembly

namespace Compiled

variable {options : CompileOptions} {source : String} {b : Bytecode} {ls : List Lexeme}
  {ps : List Phrase} {ts us : List Token} {a : Assembly}

/-- The random blocks of a script that compiles are complete. -/
theorem balanced_random (h : Compiled options source b ls ps ts us a) :
    Construct.random.Balanced (Construct.random.part (ps.map Phrase.token)) :=
  (h.run.balanced_iff rfl Step.moves_random).mpr (by
    rw [randomDepths, (frames_of_unclosed? h.unclosed).2.2]
    rfl)

/-- On the fast target so are the conditionals, which have no conditions on their other branches,
and the switches. -/
theorem balanced_fast (hfast : options.target = .fast)
    (h : Compiled options source b ls ps ts us a) :
    .simple .elseIf ∉ ps.map Phrase.token ∧
      Construct.conditional.Balanced (Construct.conditional.part (ps.map Phrase.token)) ∧
      Construct.switch.Balanced (Construct.switch.part (ps.map Phrase.token)) := by
  obtain ⟨hc, hw, -⟩ := frames_of_unclosed? h.unclosed
  refine ⟨fun hm => ?_, ?_, ?_⟩
  · obtain ⟨p, hp, he⟩ := List.mem_map.mp hm
    exact h.run.ne_elseIf hfast p hp he
  · refine (h.run.balanced_iff rfl (Step.moves_conditional hfast)).mpr ?_
    rw [conditionalDepths, hc]
    rfl
  · refine (h.run.balanced_iff rfl (Step.moves_switch hfast)).mpr ?_
    rw [switchDepths, hw]
    rfl

end Compiled

end QbScript
