import QbScript.Source.Lexeme

/-!
# Phrases

The tokens of a source with each pair, vector and list of weights gathered into one token. Gathering
stops at the first list that is not well formed; the phrases before it stand.
-/

set_option autoImplicit false

namespace QbScript

inductive Malformation where
  | unexpectedEnd
  | expectedSign (tag : Tag)
  | expectedNumber
  | expectedCommaOrClose
  | elseIfOnFastTarget
  deriving DecidableEq

def Malformation.message : Malformation → String
  | .unexpectedEnd => "unexpected end of script"
  | .expectedSign tag => "expected '" ++ tag.display ++ "'"
  | .expectedNumber => "expected integer or float"
  | .expectedCommaOrClose => "expected ',' or ')'"
  | .elseIfOnFastTarget => "ELSEIF is not available on the fast-branch target"

/-- A token, or several that make up one, and the offset at which it starts. -/
structure Phrase where
  token : Token
  start : Nat
  deriving DecidableEq

namespace Phrase

structure Fault where
  start : Nat
  cause : Malformation
  deriving DecidableEq

/-- A place in the form of a list: a sign or a number. -/
inductive Slot where
  | sign (tag : Tag)
  | number

def pairForm : List Slot :=
  [.sign .openParenth, .number, .sign .comma, .number, .sign .closeParenth]

def vectorForm : List Slot :=
  [.sign .openParenth, .number, .sign .comma, .number, .sign .comma, .number, .sign .closeParenth]

def real? : Token → Option Binary32
  | .float x => some x
  | .integer v => some (Binary32.ofInt v.toInt)
  | .hexInteger v => some (Binary32.ofInt v.toNat)
  | _ => none

/-- The weight that a number stands for: its low 16 bits, those of a float rounded down. -/
def weight? : Token → Option UInt16
  | .integer v => some v.toUInt32.toUInt16
  | .hexInteger v => some v.toUInt16
  | .float x => some (Int16.ofInt x.floor).toUInt16
  | _ => none

/-- Reads a list of the given form; `last` is the offset of the token before it. The numbers of the
list, and what follows it. -/
def fill (last : Nat) : List Slot → List Lexeme → Except Fault (List Binary32 × List Lexeme)
  | [], ls => .ok ([], ls)
  | _ :: _, [] => .error ⟨last, .unexpectedEnd⟩
  | .sign tag :: slots, l :: ls =>
    if l.token = .simple tag then fill l.span.start slots ls
    else .error ⟨l.span.start, .expectedSign tag⟩
  | .number :: slots, l :: ls =>
    match real? l.token with
    | some x => (fill l.span.start slots ls).map fun (xs, rest) => (x :: xs, rest)
    | none => .error ⟨l.span.start, .expectedNumber⟩

/-- Reads weights up to the closing parenthesis, before which a comma may stand. -/
def weightsUpToClose (last : Nat) : List Lexeme → Except Fault (List UInt16 × List Lexeme)
  | [] => .error ⟨last, .unexpectedEnd⟩
  | l :: ls =>
    if l.token = .simple .closeParenth then .ok ([], ls)
    else
      match weight? l.token, ls with
      | none, _ => .error ⟨l.span.start, .expectedNumber⟩
      | some _, [] => .error ⟨l.span.start, .unexpectedEnd⟩
      | some w, m :: rest =>
        if m.token = .simple .closeParenth then .ok ([w], rest)
        else if m.token = .simple .comma then
          (weightsUpToClose m.span.start rest).map fun (ws, rest) => (w :: ws, rest)
        else .error ⟨m.span.start, .expectedCommaOrClose⟩

def weights (last : Nat) (ls : List Lexeme) : Except Fault (List UInt16 × List Lexeme) := do
  let (_, ls') ← fill last [.sign .openParenth] ls
  weightsUpToClose ((ls.head?.map (·.span.start)).getD last) ls'

/-- The token that `l` begins and the lexemes after it. The jumps of a random head are left open. -/
def gather (l : Lexeme) (ls : List Lexeme) : Except Fault (Token × List Lexeme) :=
  match l.token with
  | .simple .pair =>
    (fill l.span.start pairForm ls).map fun (xs, rest) =>
      (.pair (xs.getD 0 ⟨0⟩) (xs.getD 1 ⟨0⟩), rest)
  | .simple .vector =>
    (fill l.span.start vectorForm ls).map fun (xs, rest) =>
      (.vector (xs.getD 0 ⟨0⟩) (xs.getD 1 ⟨0⟩) (xs.getD 2 ⟨0⟩), rest)
  | .simple tag =>
    if tag.isRandomHeader then
      (weights l.span.start ls).map fun (ws, rest) =>
        (.random tag ws (List.replicate ws.length 0), rest)
    else .ok (.simple tag, ls)
  | t => .ok (t, ls)

theorem suffix_of_fill {last : Nat} {slots : List Slot} {ls rest : List Lexeme}
    {xs : List Binary32} (h : fill last slots ls = .ok (xs, rest)) : rest <:+ ls := by
  fun_induction fill last slots ls generalizing xs rest with
  | case1 => simp_all
  | case2 => simp at h
  | case3 last tag slots l ls heq ih => exact (ih h).trans (List.suffix_cons ..)
  | case4 => simp at h
  | case5 last slots l ls x hx ih =>
    cases hf : fill l.span.start slots ls with
    | error e => simp [hf, Except.map] at h
    | ok p =>
      obtain ⟨ys, rest'⟩ := p
      simp only [hf, Except.map, Except.ok.injEq, Prod.mk.injEq] at h
      obtain ⟨-, rfl⟩ := h
      exact (ih hf).trans (List.suffix_cons ..)
  | case6 => simp at h

theorem suffix_of_weightsUpToClose {last : Nat} {ls rest : List Lexeme} {ws : List UInt16}
    (h : weightsUpToClose last ls = .ok (ws, rest)) : rest <:+ ls := by
  fun_induction weightsUpToClose last ls generalizing ws rest with
  | case1 => simp at h
  | case2 last l ls hl =>
    simp only [Except.ok.injEq, Prod.mk.injEq] at h
    exact h.2 ▸ List.suffix_cons ..
  | case3 => simp at h
  | case4 => simp at h
  | case5 last l hl w m tail hw hm =>
    simp only [Except.ok.injEq, Prod.mk.injEq] at h
    exact h.2 ▸ (List.suffix_cons ..).trans (List.suffix_cons ..)
  | case6 last l hl w m tail hw hm hc ih =>
    cases hf : weightsUpToClose m.span.start tail with
    | error e => simp [hf, Except.map] at h
    | ok p =>
      obtain ⟨ys, rest'⟩ := p
      simp only [hf, Except.map, Except.ok.injEq, Prod.mk.injEq] at h
      obtain ⟨-, rfl⟩ := h
      exact (ih hf).trans ((List.suffix_cons ..).trans (List.suffix_cons ..))
  | case7 => simp at h

theorem suffix_of_gather {l : Lexeme} {ls rest : List Lexeme} {t : Token}
    (h : gather l ls = .ok (t, rest)) : rest <:+ ls := by
  unfold gather at h
  split at h
  · cases hf : fill l.span.start pairForm ls with
    | error e => simp [hf, Except.map] at h
    | ok p =>
      simp only [hf, Except.map, Except.ok.injEq, Prod.mk.injEq] at h
      exact h.2 ▸ suffix_of_fill hf
  · cases hf : fill l.span.start vectorForm ls with
    | error e => simp [hf, Except.map] at h
    | ok p =>
      simp only [hf, Except.map, Except.ok.injEq, Prod.mk.injEq] at h
      exact h.2 ▸ suffix_of_fill hf
  · split at h
    · cases hw : weights l.span.start ls with
      | error e => simp [hw, Except.map] at h
      | ok p =>
        simp only [hw, Except.map, Except.ok.injEq, Prod.mk.injEq] at h
        obtain ⟨-, rfl⟩ := h
        unfold weights at hw
        cases hf : fill l.span.start [.sign .openParenth] ls with
        | error e => simp [hf, bind, Except.bind] at hw
        | ok q =>
          simp only [hf, bind, Except.bind] at hw
          exact (suffix_of_weightsUpToClose hw).trans (suffix_of_fill hf)
    · simp_all
  · simp_all

/-- The phrases of a script, and what is wrong with the list after them. -/
structure Gathered where
  phrases : List Phrase
  fault : Option Fault
  deriving DecidableEq

def gatherFrom (done : List Phrase) (ls : List Lexeme) : Gathered :=
  match ls with
  | [] => ⟨done.reverse, none⟩
  | l :: ls =>
    match h : gather l ls with
    | .error e => ⟨done.reverse, some e⟩
    | .ok (t, rest) =>
      have := (suffix_of_gather h).length_le
      gatherFrom (⟨t, l.span.start⟩ :: done) rest
  termination_by ls.length

def ofLexemes (ls : List Lexeme) : Gathered := gatherFrom [] ls

end Phrase

end QbScript
