/-!
# Paths

Paths as they are written: components between slashes, where an empty component and a dot stand for
nothing, except a slash or a dot at the very start. The extension of a file name is what follows its
last dot, unless that dot is its first character.
-/

set_option autoImplicit false

namespace QbScript

namespace Path

/-- The start of a path that is kept whatever follows. -/
def lead : List Char → List Char
  | '/' :: _ => ['/']
  | ['.'] => ['.']
  | '.' :: '/' :: _ => ['.']
  | _ => []

/-- A path, written backwards, without the components at its end that stand for nothing. -/
def trimReversed (r : List Char) : List Char :=
  let name := r.takeWhile (· ≠ '/')
  if name = [] ∨ name = ['.'] then
    match h : r.drop name.length with
    | [] => []
    | _ :: rest =>
      have : rest.length < r.length := by
        have := congrArg List.length h
        simp only [List.length_drop, List.length_cons] at this
        omega
      trimReversed rest
  else r
  termination_by r.length

structure Parts where
  /-- The path of the directory that the component is in. -/
  parent : List Char
  /-- All that is written before the component. -/
  before : List Char
  name : List Char

def parts? (p : List Char) : Option Parts :=
  match trimReversed (p.drop (lead p).length).reverse with
  | [] => none
  | r =>
    let name := r.takeWhile (· ≠ '/')
    some
      { parent := lead p ++ (trimReversed (r.drop (name.length + 1))).reverse
        before := lead p ++ (r.drop name.length).reverse
        name := name.reverse }

/-- The path of the directory that a path leads into; the start of a path has none, but a lone dot
is in the empty one. -/
def parent? (p : String) : Option String :=
  match parts? p.toList with
  | some parts => some (String.ofList parts.parent)
  | none => if lead p.toList = ['.'] then some "" else none

/-- The last component and what is written before it, unless that component leads upwards. -/
def file? (p : List Char) : Option Parts :=
  (parts? p).filter fun parts => parts.name ≠ ['.', '.']

def fileName? (p : String) : Option String :=
  (file? p.toList).map fun parts => String.ofList parts.name

def stem (name : List Char) : List Char :=
  let extension := name.reverse.takeWhile (· ≠ '.')
  match name.reverse.drop (extension.length + 1) with
  | [] => name
  | before => before.reverse

def join (dir name : List Char) : List Char :=
  if dir = [] ∨ dir.getLast? = some '/' then dir ++ name else dir ++ '/' :: name

/-- The path of `name` in the directory of `p`, or in `p` if that leads to a directory. -/
def withFileName (p name : List Char) : List Char :=
  match file? p with
  | some parts => join parts.parent name
  | none => join p name

/-- A path with another extension; an empty one takes the dot away. -/
def withExtension (p extension : List Char) : List Char :=
  match file? p with
  | some parts =>
    parts.before ++ stem parts.name ++ (if extension = [] then [] else '.' :: extension)
  | none => p

theorem length_trimReversed_le (r : List Char) : (trimReversed r).length ≤ r.length := by
  fun_induction trimReversed r with
  | case1 => simp
  | case2 r name h c rest hr hlt ih => omega
  | case3 => simp

theorem length_parent?_lt {p q : String} (h : parent? p = some q) :
    q.toList.length < p.toList.length := by
  unfold parent? at h
  split at h
  · rename_i parts hp
    obtain rfl := Option.some.inj h
    have hl : (lead p.toList).length ≤ p.toList.length := by
      unfold lead
      split <;> simp_all
    unfold parts? at hp
    split at hp
    · simp at hp
    · rename_i hr
      obtain rfl := Option.some.inj hp
      have h1 := length_trimReversed_le (p.toList.drop (lead p.toList).length).reverse
      have h2 := length_trimReversed_le
        ((trimReversed (p.toList.drop (lead p.toList).length).reverse).drop
          (((trimReversed (p.toList.drop (lead p.toList).length).reverse).takeWhile
            (· ≠ '/')).length + 1))
      have h3 : 0 < (trimReversed (p.toList.drop (lead p.toList).length).reverse).length :=
        List.length_pos_iff.mpr hr
      simp only [List.length_reverse, List.length_drop] at h1 h2
      simp only [String.toList_ofList, List.length_append, List.length_reverse]
      omega
  · split at h
    · rename_i hl
      obtain rfl := Option.some.inj h
      cases hp : p.toList with
      | nil => simp [hp, lead] at hl
      | cons c cs => simp
    · simp at h

def ancestors (p : String) : List String :=
  match h : parent? p with
  | some q =>
    have := length_parent?_lt h
    p :: ancestors q
  | none => [p]
  termination_by p.toList.length

/-- Where the result for the file `p` goes: beside it, with the given extension. -/
def outputFor (p extension : String) : String :=
  let name := ((file? p.toList).map (stem ·.name)).getD "out".toList
  String.ofList (withExtension (withFileName p.toList name) extension.toList)

end Path

end QbScript
