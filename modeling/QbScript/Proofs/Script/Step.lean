import QbScript.Proofs.Bytecode.Linking
import QbScript.Script.Assembly

/-!
# Steps of an assembly

What adding one phrase does: the tokens it writes, the addresses it links, and the frames it leaves.
A phrase can be added exactly if it makes a step.
-/

set_option autoImplicit false

namespace QbScript

open Bytecode

namespace Token

/-- The tokens that are read where a token was written. -/
def parts : Token → List Token
  | .name text => [.nameChecksum (Checksum.ofName text)]
  | .arg text => [.simple .arg, .nameChecksum (Checksum.ofName text)]
  | .argChecksum c => [.simple .arg, .nameChecksum c]
  | t => [t]

def spelling? : Token → Option String
  | .name text | .arg text => some text
  | _ => none

/-- A token that is written as it is and changes no frame. -/
def IsPlain (target : Target) : Token → Prop
  | .name _ | .arg _ | .random .. => False
  | .simple .endOfLine | .simple .randomCase | .simple .randomEnd => False
  | .simple .if | .simple .else | .simple .elseIf | .simple .endIf | .simple .switch
  | .simple .case | .simple .default | .simple .endSwitch => target = .plain
  | _ => True

theorem wires_parts (t : Token) : wires t.parts = t.wire := by
  cases t <;> simp [parts, wire, payload, leadTag, tag]

end Token

namespace Bytecode

def extend (b : Bytecode) (ts : List Token) : Bytecode := b ++ (wires ts).toArray

@[simp] theorem size_extend (b : Bytecode) (ts : List Token) :
    (b.extend ts).size = b.size + (wires ts).length := by
  simp [extend]

@[simp] theorem extend_nil (b : Bytecode) : b.extend [] = b := by
  simp [extend]

theorem extend_extend (b : Bytecode) (ts us : List Token) :
    (b.extend ts).extend us = b.extend (ts ++ us) := by
  simp [extend, Array.append_assoc]

theorem go_append {b : Bytecode} {pos : Nat} {bs : List UInt8} (h : pos + bs.length ≤ b.size)
    (c : Bytecode) : overwrite.go (b ++ c) pos bs = overwrite.go b pos bs ++ c := by
  induction bs generalizing b pos with
  | nil => rfl
  | cons x bs ih =>
    simp only [List.length_cons] at h
    rw [overwrite.go, overwrite.go, Array.setIfInBounds_append_left (by omega),
      ih (by rw [Array.size_setIfInBounds]; omega)]

theorem link_extend {b c : Bytecode} {f : Address} {target : Nat} (h : f.link b target = .ok c)
    (ts : List Token) : f.link (b.extend ts) target = .ok (c.extend ts) := by
  obtain ⟨hr, hs, rfl⟩ := Address.link_eq_ok_iff.mp h
  refine Address.link_eq_ok_iff.mpr ⟨hr, by rw [size_extend]; omega, ?_⟩
  rw [extend, extend, go_append]
  rw [Address.length_bytes]
  exact hs

theorem linkAll_extend {b c : Bytecode} {links : List Link} (h : linkAll b links = .ok c)
    (ts : List Token) : linkAll (b.extend ts) links = .ok (c.extend ts) := by
  induction links generalizing b with
  | nil =>
    obtain rfl : b = c := by simpa [linkAll] using h
    rfl
  | cons l links ih =>
    rw [linkAll, List.foldlM_cons] at h ⊢
    obtain ⟨d, hl, hlinks⟩ := bind_eq_ok_iff.mp h
    rw [link_extend hl, ok_bind]
    exact ih hlinks

@[simp] theorem linkAll_nil (b : Bytecode) : linkAll b [] = .ok b := rfl

theorem linkAll_singleton (b : Bytecode) (f : Address) (target : Nat) :
    linkAll b [⟨f, target⟩] = f.link b target := by
  simp [linkAll]

theorem linkAll_append_eq_ok_iff {b d : Bytecode} {ks ls : List Link} :
    linkAll b (ks ++ ls) = .ok d ↔ ∃ c, linkAll b ks = .ok c ∧ linkAll c ls = .ok d := by
  rw [linkAll, List.foldlM_append]
  exact bind_eq_ok_iff

end Bytecode

namespace Assembly

variable {a a' : Assembly}

theorem write_eq_ok_iff {t : Token} :
    a.write t = .ok a' ↔
      t.leadTag.isInternal = false ∧ a' = { a with out := a.out.extend t.parts } := by
  unfold write
  cases he : t.encode with
  | error e =>
    refine ⟨fun h => (nomatch h), fun h => ?_⟩
    rw [Token.encode_eq_ok_iff.mpr ⟨h.1, rfl⟩] at he
    cases he
  | ok bytes =>
    obtain ⟨hi, rfl⟩ := Token.encode_eq_ok_iff.mp he
    rw [extend, t.wires_parts]
    exact ⟨fun h => ⟨hi, (Except.ok.inj h).symm⟩, fun h => by rw [h.2]; rfl⟩

theorem linkShort_eq_ok_iff {line pos target : Nat} :
    a.linkShort line pos target = .ok a' ↔
      ∃ out, linkAll a.out [⟨.short pos, target⟩] = .ok out ∧
        a' = { a with out, linked := .short pos :: a.linked } := by
  unfold Assembly.linkShort
  rw [linkAll_singleton, Address.link]
  cases a.out.linkShort pos target <;> simp [eq_comm]

theorem linkLong_eq_ok_iff {line pos target : Nat} :
    a.linkLong line pos target = .ok a' ↔
      ∃ out, linkAll a.out [⟨.long pos, target⟩] = .ok out ∧
        a' = { a with out, linked := .long pos :: a.linked } := by
  unfold Assembly.linkLong
  rw [linkAll_singleton, Address.link]
  cases a.out.linkLong pos target <;> simp [eq_comm]

theorem size_linkAll {b c : Bytecode} {links : List Link} (h : linkAll b links = .ok c) :
    c.size = b.size := by
  induction links generalizing b with
  | nil =>
    obtain rfl : b = c := by simpa [linkAll] using h
    rfl
  | cons l links ih =>
    rw [linkAll, List.foldlM_cons] at h
    obtain ⟨d, hl, hlinks⟩ := bind_eq_ok_iff.mp h
    rw [ih hlinks, size_of_link hl]

theorem foldlM_linkLong_eq_ok_iff {line : Nat} {ends : List Nat} :
    ends.foldlM (fun a field => a.linkLong line field a.out.size) a = .ok a' ↔
      ∃ out, linkAll a.out (ends.map fun field => ⟨.long field, a.out.size⟩) = .ok out ∧
        a' = { a with out, linked := ends.reverse.map .long ++ a.linked } := by
  induction ends generalizing a with
  | nil => simp [eq_comm]
  | cons field ends ih =>
    rw [List.foldlM_cons, bind_eq_ok_iff, List.map_cons, ← List.singleton_append]
    simp only [ih, linkLong_eq_ok_iff, linkAll_append_eq_ok_iff]
    constructor
    · rintro ⟨b, ⟨out, hl, rfl⟩, out', hl', rfl⟩
      rw [size_linkAll hl] at hl'
      exact ⟨out', ⟨out, hl, hl'⟩, by simp⟩
    · rintro ⟨out', ⟨out, hl, hl'⟩, rfl⟩
      rw [← size_linkAll hl] at hl'
      exact ⟨_, ⟨out, hl, rfl⟩, out', hl', by simp⟩

def caseLinks (finish : Nat) : List SwitchCase → List Link
  | [] => []
  | c :: rest =>
    [⟨.short c.next, (rest.head?.map (·.start)).getD finish⟩]
      ++ (c.skip.map fun field => ⟨.short field, finish + 1⟩).toList ++ caseLinks finish rest

theorem linkCases_eq_ok_iff {line finish : Nat} {cases : List SwitchCase} :
    linkCases line finish a cases = .ok a' ↔
      ∃ out, linkAll a.out (caseLinks finish cases) = .ok out ∧
        a' = { a with
          out, linked := ((caseLinks finish cases).map Link.field).reverse ++ a.linked } := by
  induction cases generalizing a with
  | nil => simp [linkCases, caseLinks, eq_comm]
  | cons c rest ih =>
    rw [linkCases, caseLinks, bind_eq_ok_iff]
    cases hs : c.skip with
    | none =>
      simp only [pure_eq_ok, ok_bind, ih, linkShort_eq_ok_iff, Option.map_none, Option.toList_none,
        List.append_nil, linkAll_append_eq_ok_iff]
      constructor
      · rintro ⟨b, ⟨out, hl, rfl⟩, out', hl', rfl⟩
        exact ⟨out', ⟨out, hl, hl'⟩, by simp⟩
      · rintro ⟨out', ⟨out, hl, hl'⟩, rfl⟩
        exact ⟨_, ⟨out, hl, rfl⟩, out', hl', by simp⟩
    | some field =>
      simp only [bind_eq_ok_iff, ih, linkShort_eq_ok_iff, Option.map_some, Option.toList_some,
        linkAll_append_eq_ok_iff]
      constructor
      · rintro ⟨b, ⟨out, hl, rfl⟩, b', ⟨out', hl', rfl⟩, out'', hl'', rfl⟩
        exact ⟨out'', ⟨out', ⟨out, hl, hl'⟩, hl''⟩, by simp⟩
      · rintro ⟨out'', ⟨out', ⟨out, hl, hl'⟩, hl''⟩, rfl⟩
        exact ⟨_, ⟨out, hl, rfl⟩, _, ⟨out', hl', rfl⟩, out'', hl'', by simp⟩

def lineMark (options : CompileOptions) (line : Nat) : Token :=
  if options.lineNumbers then .endOfLineNumber (UInt32.ofNat line) else .simple .endOfLine

/-- Adding a phrase on a line: the tokens that are written and the addresses that are linked. -/
inductive Step (options : CompileOptions) (line : Nat) :
    Assembly → Token → List Token → List Link → Assembly → Prop
  | plain {a : Assembly} {t : Token} (ht : t.IsPlain options.target)
      (hi : t.leadTag.isInternal = false) :
      Step options line a t t.parts [] { a with out := a.out.extend t.parts }
  | named {a : Assembly} {t : Token} {text : String} {names : NameTable}
      (ht : t.spelling? = some text) (hn : a.names.insert text = .ok names) :
      Step options line a t t.parts [] { a with out := a.out.extend t.parts, names }
  | lineEndKept {a : Assembly} (hl : a.lineEnd ≠ some a.out.size) :
      Step options line a (.simple .endOfLine) [lineMark options line] []
        { a with
          out := a.out.extend [lineMark options line]
          lineEnd := some (a.out.extend [lineMark options line]).size }
  | lineEndDropped {a : Assembly} (hl : a.lineEnd = some a.out.size) :
      Step options line a (.simple .endOfLine) [] [] a
  | openRandom {a : Assembly} {tag : Tag} {weights : List UInt16} {jumps : List Int32}
      (hi : tag.isInternal = false) :
      Step options line a (.random tag weights jumps) [.random tag weights jumps] []
        { a with
          out := a.out.extend [.random tag weights jumps]
          randoms := ⟨a.out.size, weights.length, 0, [], line⟩ :: a.randoms }
  | firstCase {a : Assembly} {f : RandomFrame} {outer : List RandomFrame} {out : Bytecode}
      (hr : a.randoms = f :: outer) (hf : f.filled = 0) (hc : 0 < f.count)
      (ho : linkAll a.out [⟨.long (slot f.header f.count f.filled), a.out.size⟩] = .ok out) :
      Step options line a (.simple .randomCase) []
        [⟨.long (slot f.header f.count f.filled), a.out.size⟩]
        { a with
          out
          randoms := { f with filled := f.filled + 1 } :: outer
          linked := .long (slot f.header f.count f.filled) :: a.linked }
  | nextCase {a : Assembly} {f : RandomFrame} {outer : List RandomFrame} {out : Bytecode}
      (hr : a.randoms = f :: outer) (hf : f.filled ≠ 0) (hc : f.filled < f.count)
      (ho : linkAll (a.out.extend [.jump 0])
        [⟨.long (slot f.header f.count f.filled), a.out.size + 5⟩] = .ok out) :
      Step options line a (.simple .randomCase) [.jump 0]
        [⟨.long (slot f.header f.count f.filled), a.out.size + 5⟩]
        { a with
          out
          randoms :=
            { f with filled := f.filled + 1, ends := (a.out.size + 1) :: f.ends } :: outer
          linked := .long (slot f.header f.count f.filled) :: a.linked }
  | closeRandom {a : Assembly} {f : RandomFrame} {outer : List RandomFrame} {out : Bytecode}
      (hr : a.randoms = f :: outer) (hf : f.filled = f.count)
      (ho : linkAll a.out (f.ends.reverse.map fun field => ⟨.long field, a.out.size⟩) = .ok out) :
      Step options line a (.simple .randomEnd) []
        (f.ends.reverse.map fun field => ⟨.long field, a.out.size⟩)
        { a with out, randoms := outer, linked := f.ends.map .long ++ a.linked }
  | openConditional {a : Assembly} (ht : options.target = .fast) :
      Step options line a (.simple .if) [.shortBranch .fastIf 0] []
        { a with
          out := a.out.extend [.shortBranch .fastIf 0]
          conditionals := ⟨false, a.out.size + 1, line⟩ :: a.conditionals }
  | startElse {a : Assembly} {f : ConditionalFrame} {outer : List ConditionalFrame}
      {out : Bytecode} (ht : options.target = .fast) (hc : a.conditionals = f :: outer)
      (he : f.hasElse = false)
      (ho : linkAll a.out [⟨.short f.field, a.out.size + 3⟩] = .ok out) :
      Step options line a (.simple .else) [.shortBranch .fastElse 0]
        [⟨.short f.field, a.out.size + 3⟩]
        { a with
          out := out.extend [.shortBranch .fastElse 0]
          conditionals := ⟨true, a.out.size + 1, line⟩ :: outer
          linked := .short f.field :: a.linked }
  | closeConditional {a : Assembly} {f : ConditionalFrame} {outer : List ConditionalFrame}
      {out : Bytecode} (ht : options.target = .fast) (hc : a.conditionals = f :: outer)
      (ho : linkAll a.out [⟨.short f.field, a.out.size + 1⟩] = .ok out) :
      Step options line a (.simple .endIf) [.simple .endIf] [⟨.short f.field, a.out.size + 1⟩]
        { a with
          out := out.extend [.simple .endIf]
          conditionals := outer
          linked := .short f.field :: a.linked }
  | openSwitch {a : Assembly} (ht : options.target = .fast) :
      Step options line a (.simple .switch) [.simple .switch] []
        { a with out := a.out.extend [.simple .switch], switches := ⟨[], line⟩ :: a.switches }
  | firstBranch {a : Assembly} {tag : Tag} {f : SwitchFrame} {outer : List SwitchFrame}
      (ht : options.target = .fast) (htag : tag = .case ∨ tag = .default)
      (hs : a.switches = f :: outer) (hc : f.cases = []) :
      Step options line a (.simple tag) [.simple tag, .shortBranch .shortJump 0] []
        { a with
          out := a.out.extend [.simple tag, .shortBranch .shortJump 0]
          switches := { f with cases := [⟨none, a.out.size, a.out.size + 2⟩] } :: outer }
  | nextBranch {a : Assembly} {tag : Tag} {f : SwitchFrame} {outer : List SwitchFrame}
      (ht : options.target = .fast) (htag : tag = .case ∨ tag = .default)
      (hs : a.switches = f :: outer) (hc : f.cases ≠ []) :
      Step options line a (.simple tag)
        [.shortBranch .shortJump 0, .simple tag, .shortBranch .shortJump 0] []
        { a with
          out := a.out.extend [.shortBranch .shortJump 0, .simple tag, .shortBranch .shortJump 0]
          switches :=
            { f with
              cases := ⟨some (a.out.size + 1), a.out.size + 3, a.out.size + 5⟩ :: f.cases }
              :: outer }
  | closeSwitch {a : Assembly} {f : SwitchFrame} {outer : List SwitchFrame} {out : Bytecode}
      (ht : options.target = .fast) (hs : a.switches = f :: outer)
      (ho : linkAll a.out (caseLinks a.out.size f.cases.reverse) = .ok out) :
      Step options line a (.simple .endSwitch) [.simple .endSwitch]
        (caseLinks a.out.size f.cases.reverse)
        { a with
          out := out.extend [.simple .endSwitch]
          switches := outer
          linked := ((caseLinks a.out.size f.cases.reverse).map Link.field).reverse ++ a.linked }

variable {options : CompileOptions} {line : Nat}

theorem step_of_writeName {t : Token} {text : String} {asToken : Checksum → Token}
    (h : a.writeName text asToken = .ok a') (ht : t.spelling? = some text)
    (hp : (asToken (Checksum.ofName text)).parts = t.parts) :
    Step options line a t t.parts [] a' := by
  unfold writeName at h
  split at h
  · rename_i names hn
    obtain ⟨-, rfl⟩ := write_eq_ok_iff.mp h
    rw [hp]
    exact .named ht hn
  · cases h

theorem step_of_write {t : Token} (h : a.write t = .ok a') (ht : t.IsPlain options.target) :
    Step options line a t t.parts [] a' := by
  obtain ⟨hi, rfl⟩ := write_eq_ok_iff.mp h
  exact .plain ht hi

theorem step_of_writeLineEnd (h : writeLineEnd options a line = .ok a') :
    ∃ ts, Step options line a (.simple .endOfLine) ts [] a' := by
  unfold writeLineEnd at h
  by_cases hl : a.lineEnd = some a.out.size
  · obtain rfl : a = a' := by simpa [hl] using h
    exact ⟨_, .lineEndDropped hl⟩
  · simp only [hl, if_false, pure_eq_ok] at h
    obtain ⟨b, hb, h⟩ := bind_eq_ok_iff.mp h
    obtain ⟨-, rfl⟩ := write_eq_ok_iff.mp hb
    obtain rfl := Except.ok.inj h
    have hp : (lineMark options line).parts = [lineMark options line] := by
      unfold lineMark
      split <;> rfl
    refine ⟨[lineMark options line], ?_⟩
    have hs := @Step.lineEndKept options line a hl
    rwa [← hp] at hs ⊢

theorem step_of_openRandom {tag : Tag} {weights : List UInt16} {jumps : List Int32}
    (h : a.openRandom line tag weights jumps = .ok a') :
    ∃ ts, Step options line a (.random tag weights jumps) ts [] a' := by
  obtain ⟨hi, rfl⟩ := write_eq_ok_iff.mp h
  exact ⟨_, .openRandom hi⟩

theorem step_of_startRandomCase (h : a.startRandomCase line = .ok a') :
    ∃ ts links, Step options line a (.simple .randomCase) ts links a' := by
  unfold startRandomCase at h
  split at h
  · cases h
  rename_i f outer hr
  by_cases hc : f.count ≤ f.filled
  · simp [hc] at h
  by_cases hf : f.filled = 0
  · simp only [if_neg hc, if_pos hf, pure_eq_ok, ok_bind] at h
    obtain ⟨out, ho, rfl⟩ := linkLong_eq_ok_iff.mp h
    exact ⟨_, _, .firstCase hr hf (by omega) ho⟩
  · simp only [if_neg hc, if_neg hf] at h
    obtain ⟨b, hb, h⟩ := bind_eq_ok_iff.mp h
    obtain ⟨-, rfl⟩ := write_eq_ok_iff.mp hb
    obtain ⟨out, ho, rfl⟩ := linkLong_eq_ok_iff.mp h
    have hs : (a.out.extend [.jump 0]).size = a.out.size + 5 := size_extend ..
    simp only [Token.parts, hs] at ho
    exact ⟨_, _, .nextCase hr hf (by omega) ho⟩

theorem step_of_closeRandom (h : a.closeRandom line = .ok a') :
    ∃ links, Step options line a (.simple .randomEnd) [] links a' := by
  unfold closeRandom at h
  split at h
  · cases h
  rename_i f outer hr
  split at h
  · cases h
  rename_i hf
  obtain ⟨out, ho, rfl⟩ := foldlM_linkLong_eq_ok_iff.mp h
  rw [List.reverse_reverse]
  exact ⟨_, .closeRandom hr (not_not.mp hf) ho⟩

theorem step_of_startElse (ht : options.target = .fast) (h : a.startElse line = .ok a') :
    ∃ ts links, Step options line a (.simple .else) ts links a' := by
  unfold startElse at h
  split at h
  · cases h
  rename_i f outer hc
  split at h
  · cases h
  rename_i he
  obtain ⟨b, hb, h⟩ := bind_eq_ok_iff.mp h
  obtain ⟨out, ho, rfl⟩ := linkShort_eq_ok_iff.mp hb
  obtain ⟨-, rfl⟩ := write_eq_ok_iff.mp h
  simp only [size_linkAll ho]
  exact ⟨_, _, .startElse ht hc (by simpa using he) ho⟩

theorem step_of_closeConditional (ht : options.target = .fast)
    (h : a.closeConditional line = .ok a') :
    ∃ ts links, Step options line a (.simple .endIf) ts links a' := by
  unfold closeConditional at h
  split at h
  · cases h
  rename_i f outer hc
  obtain ⟨b, hb, h⟩ := bind_eq_ok_iff.mp h
  obtain ⟨out, ho, rfl⟩ := linkShort_eq_ok_iff.mp hb
  obtain ⟨-, rfl⟩ := write_eq_ok_iff.mp h
  exact ⟨_, _, .closeConditional ht hc ho⟩

theorem step_of_startCase {tag : Tag} (ht : options.target = .fast)
    (htag : tag = .case ∨ tag = .default) (h : a.startCase line tag = .ok a') :
    ∃ ts, Step options line a (.simple tag) ts [] a' := by
  unfold startCase at h
  split at h
  · cases h
  rename_i f outer hs
  by_cases hc : f.cases = []
  · simp only [hc, List.isEmpty_nil, if_true, pure_eq_ok, ok_bind] at h
    obtain ⟨b, hb, h⟩ := bind_eq_ok_iff.mp h
    obtain ⟨-, rfl⟩ := write_eq_ok_iff.mp hb
    obtain ⟨-, rfl⟩ := write_eq_ok_iff.mp h
    have := @Step.firstBranch _ line _ _ _ _ ht htag hs hc
    simp only [extend_extend, Token.parts, List.cons_append, List.nil_append]
    exact ⟨_, this⟩
  · have he : f.cases.isEmpty = false := by simpa using hc
    simp only [he, Bool.false_eq_true, if_false] at h
    obtain ⟨b, hb, h⟩ := bind_eq_ok_iff.mp h
    obtain ⟨-, rfl⟩ := write_eq_ok_iff.mp hb
    obtain ⟨b, hb, h⟩ := bind_eq_ok_iff.mp h
    obtain ⟨-, rfl⟩ := write_eq_ok_iff.mp hb
    obtain ⟨-, rfl⟩ := write_eq_ok_iff.mp h
    have := @Step.nextBranch _ line _ _ _ _ ht htag hs hc
    simp only [extend_extend, Token.parts, List.cons_append, List.nil_append]
    exact ⟨_, this⟩

theorem step_of_closeSwitch (ht : options.target = .fast) (h : a.closeSwitch line = .ok a') :
    ∃ ts links, Step options line a (.simple .endSwitch) ts links a' := by
  unfold closeSwitch at h
  split at h
  · cases h
  rename_i f outer hs
  obtain ⟨b, hb, h⟩ := bind_eq_ok_iff.mp h
  obtain ⟨out, ho, rfl⟩ := linkCases_eq_ok_iff.mp hb
  obtain ⟨-, rfl⟩ := write_eq_ok_iff.mp h
  exact ⟨_, _, .closeSwitch ht hs ho⟩

theorem step_of_addFast {place : Position} {tag : Tag} (ht : options.target = .fast)
    (hl : tag ≠ .endOfLine ∧ tag ≠ .randomCase ∧ tag ≠ .randomEnd)
    (h : a.addFast line place tag = .ok a') :
    ∃ ts links, Step options line a (.simple tag) ts links a' := by
  unfold addFast at h
  split at h
  · unfold Assembly.openConditional at h
    obtain ⟨-, rfl⟩ := write_eq_ok_iff.mp h
    exact ⟨_, _, .openConditional ht⟩
  · exact step_of_startElse ht h
  · exact step_of_closeConditional ht h
  · cases h
  · obtain ⟨-, rfl⟩ := write_eq_ok_iff.mp h
    exact ⟨_, _, .openSwitch ht⟩
  · exact (step_of_startCase ht (Or.inl rfl) h).imp fun _ hs => ⟨_, hs⟩
  · exact (step_of_startCase ht (Or.inr rfl) h).imp fun _ hs => ⟨_, hs⟩
  · exact step_of_closeSwitch ht h
  · refine ⟨_, _, step_of_write h ?_⟩
    unfold Token.IsPlain
    split <;> simp_all

/-- Every phrase that is added makes a step. -/
theorem step_of_add {place : Position} {t : Token} (h : a.add options place t = .ok a') :
    ∃ ts links, Step options place.line a t ts links a' := by
  unfold add at h
  split at h
  · exact ⟨_, _, step_of_writeName h rfl rfl⟩
  · exact ⟨_, _, step_of_writeName h rfl rfl⟩
  · exact (step_of_openRandom h).imp fun _ hs => ⟨_, hs⟩
  · exact (step_of_writeLineEnd h).imp fun _ hs => ⟨_, hs⟩
  · exact step_of_startRandomCase h
  · exact ⟨_, step_of_closeRandom h⟩
  · rename_i tag h1 h2 h3
    split at h
    · rename_i ht
      refine ⟨_, _, step_of_write h ?_⟩
      unfold Token.IsPlain
      split <;> simp_all
    · rename_i ht
      exact step_of_addFast ht ⟨by simpa using h1, by simpa using h2, by simpa using h3⟩ h
  · refine ⟨_, _, step_of_write h ?_⟩
    unfold Token.IsPlain
    split <;> simp_all

/-- Every step is made by adding its phrase. -/
theorem Step.add {place : Position} {t : Token} {us : List Token} {links : List Link}
    (h : Step options place.line a t us links a') : a.add options place t = .ok a' := by
  cases h with
  | plain ht hi =>
    have hw := (write_eq_ok_iff (a := a)).mpr ⟨hi, rfl⟩
    cases t with
    | name | arg | random => exact ht.elim
    | simple tag =>
      cases hf : options.target with
      | plain => cases tag <;> first | exact ht.elim | simp [Assembly.add, hf, hw]
      | fast =>
        rw [hf] at ht
        cases tag <;> first | cases ht; done | exact ht.elim | simp [Assembly.add, addFast, hf, hw]
    | _ => exact hw
  | named ht hn =>
    cases t with
    | name text | arg text =>
      obtain rfl := Option.some.inj ht
      simp only [Assembly.add, writeName, hn]
      exact write_eq_ok_iff.mpr ⟨rfl, rfl⟩
    | _ => cases ht
  | lineEndKept hl =>
    have hi : (lineMark options place.line).leadTag.isInternal = false := by
      unfold lineMark
      split <;> rfl
    have hp : (lineMark options place.line).parts = [lineMark options place.line] := by
      unfold lineMark
      split <;> rfl
    have hw := (write_eq_ok_iff (a := a)).mpr ⟨hi, rfl⟩
    simp only [Assembly.add, writeLineEnd, if_neg hl, pure_eq_ok]
    rw [← lineMark, hw, hp]
    rfl
  | lineEndDropped hl => simp [Assembly.add, writeLineEnd, hl]
  | openRandom hi => exact write_eq_ok_iff.mpr ⟨hi, rfl⟩
  | firstCase hr hf hc ho =>
    simp only [Assembly.add, startRandomCase, hr, if_neg (Nat.not_le.mpr (hf ▸ hc)), if_pos hf,
      pure_eq_ok, ok_bind]
    exact linkLong_eq_ok_iff.mpr ⟨_, ho, rfl⟩
  | nextCase hr hf hc ho =>
    have hw := (write_eq_ok_iff (a := a) (t := .jump 0)).mpr ⟨rfl, rfl⟩
    simp only [Assembly.add, startRandomCase, hr, if_neg (Nat.not_le.mpr hc), if_neg hf, hw,
      ok_bind]
    refine linkLong_eq_ok_iff.mpr ⟨_, ?_, rfl⟩
    simpa [Token.parts, Token.wire, Token.payload] using ho
  | @closeRandom f outer out hr hf ho =>
    simp only [Assembly.add, Assembly.closeRandom, hr, if_neg (not_not.mpr hf)]
    refine (foldlM_linkLong_eq_ok_iff (a := { a with randoms := outer })).mpr ⟨_, ho, ?_⟩
    rw [List.reverse_reverse]
  | openConditional ht =>
    simp only [Assembly.add, ht, addFast, Assembly.openConditional]
    exact write_eq_ok_iff.mpr ⟨rfl, rfl⟩
  | @startElse f outer out ht hc he ho =>
    have hl : a.linkShort place.line f.field _ = _ := linkShort_eq_ok_iff.mpr ⟨_, ho, rfl⟩
    simp only [Assembly.add, ht, addFast, Assembly.startElse, hc, he, Bool.false_eq_true, if_false,
      hl, ok_bind]
    exact write_eq_ok_iff.mpr ⟨rfl, by simp [size_linkAll ho, Token.parts]⟩
  | @closeConditional f outer out ht hc ho =>
    have hl : linkShort { a with conditionals := outer } place.line f.field _ = _ :=
      linkShort_eq_ok_iff.mpr ⟨_, ho, rfl⟩
    simp only [Assembly.add, ht, addFast, Assembly.closeConditional, hc, hl, ok_bind]
    exact write_eq_ok_iff.mpr ⟨rfl, rfl⟩
  | openSwitch ht =>
    simp only [Assembly.add, ht, addFast, Assembly.openSwitch]
    exact write_eq_ok_iff.mpr ⟨rfl, rfl⟩
  | @firstBranch tag f outer ht htag hs hc =>
    have hi : (Token.simple tag).leadTag.isInternal = false := by rcases htag with rfl | rfl <;> rfl
    have hadd : a.add options place (.simple tag) = a.startCase place.line tag := by
      rcases htag with rfl | rfl <;> simp only [Assembly.add, ht, addFast]
    rw [hadd]
    simp only [startCase, hs, hc, List.isEmpty_nil, if_true, pure_eq_ok, ok_bind,
      write_eq_ok_iff.mpr ⟨hi, rfl⟩]
    exact write_eq_ok_iff.mpr ⟨rfl, by simp [extend_extend, Token.parts]⟩
  | @nextBranch tag f outer ht htag hs hc =>
    have hi : (Token.simple tag).leadTag.isInternal = false := by rcases htag with rfl | rfl <;> rfl
    have hj : (Token.shortBranch .shortJump 0).leadTag.isInternal = false := rfl
    have he : f.cases.isEmpty = false := by simpa using hc
    have hadd : a.add options place (.simple tag) = a.startCase place.line tag := by
      rcases htag with rfl | rfl <;> simp only [Assembly.add, ht, addFast]
    rw [hadd]
    simp only [startCase, hs, he, Bool.false_eq_true, if_false, ok_bind,
      write_eq_ok_iff.mpr ⟨hj, rfl⟩, write_eq_ok_iff.mpr ⟨hi, rfl⟩]
    simp [extend_extend, Token.parts]
  | @closeSwitch f outer out ht hs ho =>
    have hl : linkCases place.line a.out.size { a with switches := outer } f.cases.reverse = _ :=
      linkCases_eq_ok_iff.mpr ⟨_, ho, rfl⟩
    simp only [Assembly.add, ht, addFast, Assembly.closeSwitch, hs, hl, ok_bind]
    exact write_eq_ok_iff.mpr ⟨rfl, rfl⟩

end Assembly

end QbScript
