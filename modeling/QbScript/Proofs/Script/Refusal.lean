import QbScript.Proofs.Script.Acceptance

/-!
# Why scripts are refused

A name is refused for one that was entered before, and a branch only if it leads farther than its
address can tell. Without random blocks there are no branches on the plain target.
-/

set_option autoImplicit false

namespace QbScript

open Bytecode Assembly

/-- The error has nothing to do with the names of a script, and a branch that it calls too far leads
farther than a short address can. -/
def CompileError.IsJustified : CompileError → Prop
  | .collision _ => False
  | .branchTooFar _ distance => distance < -0x8000 ∨ 0x8000 ≤ distance
  | _ => True

namespace Assembly

variable {options : CompileOptions} {line : Nat} {lines : LineMap} {a : Assembly} {t : Token}
  {ps : List Phrase} {c : Collision}

theorem failsWith_write : FailsWith CompileError.IsJustified (a.write t) := by
  unfold write
  split
  · exact .ok _
  · exact .error trivial

theorem failsWith_linkShort {pos target : Nat} :
    FailsWith CompileError.IsJustified (a.linkShort line pos target) := by
  unfold Assembly.linkShort Bytecode.linkShort
  by_cases hr : -0x8000 ≤ (target - pos : Int) ∧ (target - pos : Int) < 0x8000
  · simp only [if_pos hr]
    cases a.out.overwrite pos (LittleEndian.int16 (Int16.ofInt (target - pos))) with
    | ok out => exact .ok _
    | error e => exact .error trivial
  · simp only [if_neg hr]
    apply FailsWith.error
    show (target - pos : Int) < -0x8000 ∨ 0x8000 ≤ (target - pos : Int)
    omega

theorem failsWith_linkLong {pos target : Nat} :
    FailsWith CompileError.IsJustified (a.linkLong line pos target) := by
  unfold Assembly.linkLong Bytecode.linkLong
  by_cases hr : -0x80000000 ≤ (target - (pos + 4 : Nat) : Int) ∧
      (target - (pos + 4 : Nat) : Int) < 0x80000000
  · simp only [if_pos hr]
    cases a.out.overwrite pos (LittleEndian.int32 (Int32.ofInt (target - (pos + 4 : Nat)))) with
    | ok out => exact .ok _
    | error e => exact .error trivial
  · simp only [if_neg hr]
    apply FailsWith.error
    show (target - (pos + 4 : Nat) : Int) < -0x8000 ∨ 0x8000 ≤ (target - (pos + 4 : Nat) : Int)
    omega

theorem failsWith_writeLineEnd :
    FailsWith CompileError.IsJustified (writeLineEnd options a line) := by
  unfold writeLineEnd
  split
  · exact .ok _
  · exact failsWith_write.bind fun _ => .ok _

theorem failsWith_startRandomCase :
    FailsWith CompileError.IsJustified (a.startRandomCase line) := by
  unfold startRandomCase
  split
  · exact .error trivial
  split
  · exact .error trivial
  dsimp only
  split
  · exact failsWith_linkLong
  · exact failsWith_write.bind fun _ => failsWith_linkLong

theorem failsWith_closeRandom : FailsWith CompileError.IsJustified (a.closeRandom line) := by
  unfold closeRandom
  split
  · exact .error trivial
  split
  · exact .error trivial
  · exact .foldlM (fun _ _ => failsWith_linkLong) _ _

theorem failsWith_startElse : FailsWith CompileError.IsJustified (a.startElse line) := by
  unfold startElse
  split
  · exact .error trivial
  split
  · exact .error trivial
  · exact failsWith_linkShort.bind fun _ => failsWith_write

theorem failsWith_closeConditional :
    FailsWith CompileError.IsJustified (a.closeConditional line) := by
  unfold closeConditional
  split
  · exact .error trivial
  · exact failsWith_linkShort.bind fun _ => failsWith_write

theorem failsWith_startCase {tag : Tag} :
    FailsWith CompileError.IsJustified (a.startCase line tag) := by
  unfold startCase
  split
  · exact .error trivial
  dsimp only
  split
  · exact failsWith_write.bind fun _ => failsWith_write
  · exact failsWith_write.bind fun _ => failsWith_write.bind fun _ => failsWith_write

theorem failsWith_linkCases {finish : Nat} (cases : List SwitchCase) :
    FailsWith CompileError.IsJustified (linkCases line finish a cases) := by
  induction cases generalizing a with
  | nil => exact .ok _
  | cons c rest ih =>
    unfold linkCases
    refine failsWith_linkShort.bind fun _ => ?_
    dsimp only
    split
    · exact failsWith_linkShort.bind fun _ => ih
    · exact ih

theorem failsWith_closeSwitch : FailsWith CompileError.IsJustified (a.closeSwitch line) := by
  unfold closeSwitch
  split
  · exact .error trivial
  · exact (failsWith_linkCases _).bind fun _ => failsWith_write

theorem failsWith_addFast {place : Position} {tag : Tag} :
    FailsWith CompileError.IsJustified (a.addFast line place tag) := by
  unfold addFast
  split
  · exact failsWith_write (t := .shortBranch .fastIf 0)
  · exact failsWith_startElse
  · exact failsWith_closeConditional
  · exact .error trivial
  · exact failsWith_write
  · exact failsWith_startCase
  · exact failsWith_startCase
  · exact failsWith_closeSwitch
  · exact failsWith_write

theorem failsWith_finish (a : Assembly) : FailsWith CompileError.IsJustified a.finish := by
  unfold finish
  cases hu : a.unclosed? with
  | some e =>
    refine .error ?_
    unfold unclosed? at hu
    split at hu <;> cases hu <;> trivial
  | none =>
    simp only [foldlM_write_checksumName, pure_eq_ok, ok_bind]
    exact failsWith_write.bind fun _ => .ok _

def Refuses (a : Assembly) (t : Token) (c : Collision) : Prop :=
  ∃ text, t.spelling? = some text ∧ a.names.insert text = .error c

theorem failsWith_writeName {text : String} {asToken : Checksum → Token}
    (ht : t.spelling? = some text) :
    FailsWith (fun e => e.IsJustified ∨ ∃ c, e = .collision c ∧ a.Refuses t c)
      (a.writeName text asToken) := by
  unfold writeName
  split
  · exact failsWith_write.imp fun _ he => Or.inl he
  · rename_i c hc
    exact .error (Or.inr ⟨c, rfl, text, ht, hc⟩)

/-- A phrase collides only by its name. -/
theorem failsWith_add {place : Position} :
    FailsWith (fun e => e.IsJustified ∨ ∃ c, e = .collision c ∧ a.Refuses t c)
      (a.add options place t) := by
  have hother : ∀ {x : Except CompileError Assembly}, FailsWith CompileError.IsJustified x →
      FailsWith (fun e => e.IsJustified ∨ ∃ c, e = .collision c ∧ a.Refuses t c) x :=
    fun hx => hx.imp fun _ he => Or.inl he
  unfold Assembly.add
  split
  · exact failsWith_writeName rfl
  · exact failsWith_writeName rfl
  · exact hother failsWith_write
  · exact hother failsWith_writeLineEnd
  · exact hother failsWith_startRandomCase
  · exact hother failsWith_closeRandom
  · split
    · exact hother failsWith_write
    · exact hother failsWith_addFast
  · exact hother failsWith_write

/-- No branch leads too far in what is written as it is. -/
theorem failsWith_add_of_plain {place : Position} (hplain : options.target = .plain)
    (ht : Construct.random.role? t = none) :
    FailsWith (fun e => ∀ line d, e ≠ .branchTooFar line d) (a.add options place t) := by
  have hwrite : ∀ (a : Assembly) (t : Token),
      FailsWith (fun e => ∀ line d, e ≠ .branchTooFar line d) (a.write t) := by
    intro a t
    unfold write
    split
    · exact .ok _
    · exact .error (by simp)
  have hname : ∀ (text : String) (asToken : Checksum → Token),
      FailsWith (fun e => ∀ line d, e ≠ .branchTooFar line d) (a.writeName text asToken) := by
    intro text asToken
    unfold writeName
    split
    · exact hwrite _ _
    · exact .error (by simp)
  unfold Assembly.add
  split
  · exact hname _ _
  · exact hname _ _
  · cases ht
  · unfold writeLineEnd
    split
    · exact .ok _
    · exact (hwrite _ _).bind fun _ => .ok _
  · cases ht
  · cases ht
  · rw [hplain]
    exact hwrite _ _
  · exact hwrite _ _

theorem failsWith_ofPhrases_of_plain (hplain : options.target = .plain)
    (hp : ∀ p ∈ ps, Construct.random.role? p.token = none) :
    FailsWith (fun e => ∀ line d, e ≠ .branchTooFar line d) (ofPhrases options lines ps) := by
  unfold ofPhrases
  generalize start = a
  induction ps generalizing a with
  | nil => exact .ok a
  | cons p ps ih =>
    rw [List.foldlM_cons]
    apply (failsWith_add_of_plain hplain (hp p List.mem_cons_self)).bind
    exact ih fun q hq => hp q (List.mem_cons_of_mem p hq)

end Assembly

section

variable {options : CompileOptions} {source : String} {E : CompileError → Prop}

/-- What every error of the phrases is, and every other error of a script, are all its errors. -/
theorem failsWith_compile (hlexical : ∀ place e, E (.lexical place e))
    (hmalformed : ∀ place cause, E (.malformed place cause))
    (hphrases : ∀ ls, Lexeme.ofText source.toList = .ok ls →
      FailsWith E (ofPhrases options (LineMap.ofText source.toList) (Phrase.ofLexemes ls).phrases))
    (hfinish : ∀ a : Assembly, FailsWith E a.finish) : FailsWith E (compile options source) := by
  unfold compile
  dsimp only
  cases hl : Lexeme.ofText source.toList with
  | error e => exact .error (hlexical _ e)
  | ok ls =>
    refine FailsWith.bind ((hphrases ls hl).bind fun a => ?_) hfinish
    split
    · exact .error (hmalformed _ _)
    · exact .ok a

/-- A branch that is refused leads farther than its address can tell. -/
theorem distance_of_compile {line : Nat} {distance : Int}
    (h : compile options source = .error (.branchTooFar line distance)) :
    distance < -0x8000 ∨ 0x8000 ≤ distance := by
  have hall : FailsWith (fun e => e.IsJustified ∨ ∃ c, e = .collision c)
      (compile options source) := by
    apply failsWith_compile
    · exact fun _ _ => Or.inl trivial
    · exact fun _ _ => Or.inl trivial
    · intro ls _
      apply FailsWith.foldlM
      intro a p
      exact failsWith_add.imp fun _ he => he.imp_right fun ⟨c, hc, _⟩ => ⟨c, hc⟩
    · exact fun a => (failsWith_finish a).imp fun _ he => Or.inl he
  rcases hall _ h with he | ⟨c, hc⟩
  · exact he
  · cases hc

/-- On the plain target a script without random blocks has no branches. -/
theorem ne_branchTooFar_of_plain {ls : List Lexeme} (hplain : options.target = .plain)
    (hl : Lexeme.ofText source.toList = .ok ls)
    (hp : ∀ p ∈ (Phrase.ofLexemes ls).phrases, Construct.random.role? p.token = none) :
    FailsWith (fun e => ∀ line d, e ≠ .branchTooFar line d) (compile options source) := by
  apply failsWith_compile
  · simp
  · simp
  · intro ls' hl'
    obtain rfl := Except.ok.inj (hl.symm.trans hl')
    exact failsWith_ofPhrases_of_plain hplain hp
  · intro a e he line d hd
    subst hd
    unfold finish at he
    cases hu : a.unclosed? with
    | some e =>
      simp only [hu] at he
      unfold unclosed? at hu
      split at hu <;> first | cases hu; done | (obtain rfl := Option.some.inj hu; cases he)
    | none =>
      have hok := finish_eq_ok_iff.mpr ⟨hu, rfl⟩
      rw [finish, he] at hok
      cases hok

end

end QbScript
