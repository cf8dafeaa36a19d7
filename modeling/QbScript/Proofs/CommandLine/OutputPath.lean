import QbScript.CommandLine.Execute
import QbScript.Proofs.Path

/-!
# Outputs beside their inputs

The output beside an input is named after it. Its name is the stem of the input with the other
extension, in the same directory, if the stem has no extension itself; of a stem that has one this
extension is taken away as well.
-/

set_option autoImplicit false

namespace QbScript

namespace Path

variable {name s e : List Char}

/-- The stem of a name that has a dot: what is before the last one, if that is anything. -/
theorem stem_append (he : '.' ∉ e) (s : List Char) :
    stem (s ++ '.' :: e) = if s = [] then '.' :: e else s := by
  have hrev : (s ++ '.' :: e).reverse = e.reverse ++ '.' :: s.reverse := by simp
  have hext : (e.reverse ++ '.' :: s.reverse).takeWhile (· ≠ '.') = e.reverse := by
    rw [List.takeWhile_append_of_pos]
    · simp
    · intro c hc
      have hne : c ≠ '.' := by
        rintro rfl
        exact he (List.mem_reverse.mp hc)
      simpa using hne
  have hrest : (e.reverse ++ '.' :: s.reverse).drop (e.reverse.length + 1) = s.reverse := by
    rw [← List.drop_drop, List.drop_left]
    rfl
  unfold stem
  simp only [hrev, hext, hrest]
  cases s with
  | nil => rfl
  | cons c cs =>
    split
    · rename_i hnil
      simp at hnil
    · rw [if_neg (List.cons_ne_nil c cs), List.reverse_reverse]

theorem stem_of_dot_notMem (h : '.' ∉ name) : stem name = name := by
  have hext : name.reverse.takeWhile (· ≠ '.') = name.reverse := by
    apply List.takeWhile_eq_self_iff.mpr
    intro c hc
    have hne : c ≠ '.' := by
      rintro rfl
      exact h (List.mem_reverse.mp hc)
    simpa using hne
  have hrest : name.reverse.drop (name.reverse.length + 1) = [] :=
    List.drop_eq_nil_of_le (Nat.le_succ _)
  unfold stem
  simp only [hext, hrest]

theorem exists_last_dot (h : '.' ∈ name) : ∃ s e, name = s ++ '.' :: e ∧ '.' ∉ e := by
  obtain ⟨u, v, huv, hu⟩ := List.eq_append_cons_of_mem (List.mem_reverse.mpr h)
  refine ⟨v.reverse, u.reverse, ?_, by simpa using hu⟩
  simpa using congrArg List.reverse huv

/-- A stem is the whole name if no dot is in it, but for one that it starts with. -/
theorem stem_eq_self_iff : stem name = name ↔ '.' ∉ name.tail := by
  by_cases h : '.' ∈ name
  · obtain ⟨s, e, rfl, he⟩ := exists_last_dot h
    rw [stem_append he]
    cases s with
    | nil => exact iff_of_true rfl he
    | cons c cs =>
      rw [if_neg (List.cons_ne_nil c cs)]
      refine iff_of_false ?_ fun h => h (by simp)
      intro heq
      have hlen := congrArg List.length heq
      simp at hlen
  · exact iff_of_true (stem_of_dot_notMem h) fun hc => h (List.mem_of_mem_tail hc)

theorem isPrefix_stem (name : List Char) : stem name <+: name := by
  by_cases h : '.' ∈ name
  · obtain ⟨s, e, rfl, he⟩ := exists_last_dot h
    rw [stem_append he]
    split
    · simp_all
    · exact List.prefix_append _ _
  · rw [stem_of_dot_notMem h]

structure IsExtension (e : List Char) : Prop where
  ne_nil : e ≠ []
  dot_notMem : '.' ∉ e
  slash_notMem : '/' ∉ e

theorem IsExtension.isName (he : IsExtension e) (hs : '/' ∉ s) : IsName (s ++ '.' :: e) := by
  have hpos := List.length_pos_iff.mpr he.ne_nil
  refine ⟨by simp, ?_, ?_⟩
  · intro h
    have hlen := congrArg List.length h
    simp at hlen
    omega
  · simp [hs, he.slash_notMem]

theorem IsExtension.ne_dots (he : IsExtension e) (s : List Char) : s ++ '.' :: e ≠ ['.', '.'] := by
  intro h
  obtain ⟨c, hc⟩ := List.exists_mem_of_ne_nil e he.ne_nil
  have hmem : c ∈ ['.', '.'] := h ▸ List.mem_append_right s (List.mem_cons_of_mem '.' hc)
  obtain rfl : c = '.' := by simpa using hmem
  exact he.dot_notMem hc

variable {p : List Char} {parts : Parts} {ext : List Char}

/-- The text of the output beside a path, as characters. -/
theorem toList_outputFor (p ext : String) :
    (outputFor p ext).toList = withExtension (withFileName p.toList
      (((file? p.toList).map (stem ·.name)).getD ['o', 'u', 't'])) ext.toList := by
  simp [outputFor]

/-- The extension of the stem goes before the other one comes. -/
theorem withExtension_join (hp : parts? p = some parts) (hs : IsName s) (hdots : s ≠ ['.', '.'])
    (he : IsExtension ext) :
    withExtension (join parts.parent s) ext = join parts.parent (stem s ++ '.' :: ext) := by
  have hfile : file? (join parts.parent s) = some ⟨parts.parent, join parts.parent [], s⟩ :=
    file?_eq_some_iff.mpr ⟨parts?_join hp hs, hdots⟩
  unfold withExtension
  rw [hfile, join_eq_append _ (stem s ++ '.' :: ext)]
  simp only [if_neg he.ne_nil, List.append_assoc]

theorem length_before_le (h : parts? p = some parts) :
    parts.before.length + parts.name.length ≤ p.length ∧
      parts.parent.length + parts.name.length ≤ p.length := by
  obtain ⟨b, sep, rest, hp, hparent, hbefore, -⟩ := exists_of_parts? h
  have hlen := congrArg List.length hp
  simp only [hparent, hbefore, List.length_append] at hlen ⊢
  omega

theorem join_nil (dir : List Char) :
    (join dir []).length ≤ dir.length + 1 ∧ ∀ c ∈ (join dir []).reverse.head?, c = '/' := by
  unfold join
  split
  · rename_i hd
    rw [List.append_nil, List.head?_reverse]
    refine ⟨Nat.le_succ _, fun c hc => ?_⟩
    rcases hd with rfl | hd
    · cases hc
    · rw [hd] at hc
      exact (Option.some.inj hc).symm
  · simp

/-- A dot in a directory stands for nothing: the last name is one of the directory. -/
theorem length_before_le_of_dot {dir : List Char} (h : parts? (join dir ['.']) = some parts) :
    parts.before.length + parts.name.length ≤ dir.length := by
  obtain ⟨b, sep, rest, hp, -, hbefore, hn, -⟩ := exists_of_parts? h
  have hp : join dir ['.'] = parts.before ++ (parts.name ++ rest) := by
    rw [hp, hbefore]
    simp
  obtain ⟨hle, hslash⟩ := join_nil dir
  have hrev := congrArg List.reverse hp
  rw [join_eq_append] at hrev
  simp only [List.reverse_append, List.reverse_singleton, List.singleton_append] at hrev
  -- Read backwards, the path is a dot, a slash if anything more, and the directory.
  have hlen : parts.before.length + parts.name.length + rest.length = (join dir []).length + 1 := by
    have hlen := congrArg List.length hrev
    simp only [List.length_append, List.length_reverse, List.length_cons] at hlen
    omega
  have hname : ∀ c ∈ parts.name.reverse, c ≠ '/' := by
    rintro c hc rfl
    exact hn.slash_notMem (List.mem_reverse.mp hc)
  have hne : parts.name.reverse ≠ [] := by simpa using hn.ne_nil
  have hdot : parts.name.reverse ≠ ['.'] := by
    intro hdot
    exact hn.ne_dot (by simpa using congrArg List.reverse hdot)
  obtain ⟨d, ds, hds⟩ := List.exists_cons_of_ne_nil hne
  rw [hds] at hname hdot hrev
  cases hrest : rest.reverse with
  | nil =>
    rw [hrest] at hrev
    obtain ⟨rfl, htail⟩ := List.cons.inj hrev
    cases ds with
    | nil => exact absurd rfl hdot
    | cons e ds =>
      rw [htail] at hslash
      exact absurd (hslash e rfl) (hname e (by simp))
  | cons c cs =>
    rw [hrest] at hrev
    obtain ⟨-, htail⟩ := List.cons.inj hrev
    cases cs with
    | nil =>
      rw [htail] at hslash
      exact absurd (hslash d rfl) (hname d (by simp))
    | cons e cs =>
      have hlong := congrArg List.length hrest
      simp only [List.length_reverse, List.length_cons] at hlong
      omega

/-- The file name of the path is a stem, which is not empty, and after the last dot an extension. -/
def HasStem (p s : String) : Prop :=
  s ≠ "" ∧ ∃ e : String, '.' ∉ e.toList ∧ fileName? p = some (s ++ "." ++ e)

/-- The output beside the path is in the same directory, and its name is the stem with the other
extension. -/
def KeepsStem (p s ext : String) : Prop :=
  parent? (outputFor p ext) = parent? p ∧ fileName? (outputFor p ext) = some (s ++ "." ++ ext)

/-- No dot is in the stem, but for one that it may start with, and it is no dot alone. -/
def IsPlainStem (s : String) : Prop := s ≠ "." ∧ '.' ∉ s.toList.tail

theorem fileName?_eq_some_iff {p name : String} :
    fileName? p = some name ↔
      ∃ parts, parts? p.toList = some parts ∧ parts.name = name.toList ∧ name ≠ ".." := by
  rw [fileName?, Option.map_eq_some_iff]
  constructor
  · rintro ⟨parts, hfile, rfl⟩
    obtain ⟨hparts, hdots⟩ := file?_eq_some_iff.mp hfile
    refine ⟨parts, hparts, by simp, fun h => hdots ?_⟩
    simpa using congrArg String.toList h
  · rintro ⟨parts, hparts, hname, hdots⟩
    refine ⟨parts, file?_eq_some_iff.mpr ⟨hparts, fun h => hdots ?_⟩, by simp [hname]⟩
    rw [← String.toList_inj, ← hname, h]
    rfl

theorem parent?_eq_of_parts? {p : String} {parts : Parts} (h : parts? p.toList = some parts) :
    parent? p = some (String.ofList parts.parent) := by
  rw [parent?, h]

/-- What becomes of a path whose file name has a stem. -/
theorem outputFor_eq {p s : String} {parts : Parts} (ext : String) (hp : parts? p.toList = some parts)
    (hdots : parts.name ≠ ['.', '.']) (hs : stem parts.name = s.toList) :
    (outputFor p ext).toList = withExtension (join parts.parent s.toList) ext.toList := by
  have hfile : file? p.toList = some parts := file?_eq_some_iff.mpr ⟨hp, hdots⟩
  rw [toList_outputFor, hfile, Option.map_some, Option.getD_some, hs, withFileName, hfile]

section
variable {p s ext : String}

theorem HasStem.exists_parts? (h : HasStem p s) :
    ∃ parts, parts? p.toList = some parts ∧ parts.name ≠ ['.', '.'] ∧
      stem parts.name = s.toList ∧ s.toList ≠ [] ∧ '/' ∉ s.toList := by
  obtain ⟨hs, e, he, hname⟩ := h
  obtain ⟨parts, hp, hn, hdots⟩ := fileName?_eq_some_iff.mp hname
  obtain ⟨-, -, -, -, -, -, hisName, -⟩ := exists_of_parts? hp
  have hne : s.toList ≠ [] := by simpa using hs
  have hname : parts.name = s.toList ++ '.' :: e.toList := by simp [hn]
  refine ⟨parts, hp, fun h => hdots ?_, ?_, hne, fun h => hisName.slash_notMem ?_⟩
  · rw [← String.toList_inj, ← hn, h]
    rfl
  · rw [hname, stem_append he, if_neg hne]
  · rw [hname]
    exact List.mem_append_left _ h

/-- The last dot of the stem and what comes after it are lost. -/
theorem HasStem.parts?_outputFor (h : HasStem p s) (he : IsExtension ext.toList) (hs : s ≠ ".")
    (hs' : s ≠ "..") :
    ∃ parent, parent? p = some parent ∧ parent? (outputFor p ext) = some parent ∧
      fileName? (outputFor p ext) = some (String.ofList (stem s.toList) ++ "." ++ ext) := by
  obtain ⟨parts, hp, hdots, hstem, hne, hslash⟩ := h.exists_parts?
  have hname : IsName s.toList := by
    refine ⟨hne, fun h => hs ?_, hslash⟩
    rw [← String.toList_inj, h]
    rfl
  have hsdots : s.toList ≠ ['.', '.'] := by
    intro h
    apply hs'
    rw [← String.toList_inj, h]
    rfl
  have hnew : IsName (stem s.toList ++ '.' :: ext.toList) :=
    he.isName fun h => hslash ((isPrefix_stem _).subset h)
  have hout := outputFor_eq ext hp hdots hstem
  rw [withExtension_join hp hname hsdots he] at hout
  have hparts := parts?_join hp hnew
  rw [← hout] at hparts
  refine ⟨_, parent?_eq_of_parts? hp, by rw [parent?_eq_of_parts? hparts], ?_⟩
  refine fileName?_eq_some_iff.mpr ⟨_, hparts, by simp, fun h => ?_⟩
  have hdots := congrArg String.toList h
  simp only [String.toList_append, String.toList_ofList, List.append_assoc] at hdots
  exact he.ne_dots _ hdots

/-- A dot alone is no file name, so the directory gets the extension, or nothing does. -/
theorem HasStem.not_keepsStem_dot (h : HasStem p ".") (he : IsExtension ext.toList) :
    ¬ KeepsStem p "." ext := by
  rintro ⟨hparent, hname⟩
  obtain ⟨parts, hp, hdots, hstem, -⟩ := h.exists_parts?
  obtain ⟨new, hnew, hnewName, -⟩ := fileName?_eq_some_iff.mp hname
  have hpos := List.length_pos_iff.mpr he.ne_nil
  have hlong := (length_before_le hnew).2
  rw [parent?_eq_of_parts? hp, parent?_eq_of_parts? hnew] at hparent
  have hsame : new.parent = parts.parent := by
    simpa using congrArg String.toList (Option.some.inj hparent)
  rw [hsame, hnewName] at hlong
  have hout := outputFor_eq ext hp hdots hstem
  have hshort : (outputFor p ext).toList.length ≤
      parts.parent.length + (1 + ext.toList.length) := by
    rw [hout]
    unfold withExtension
    split
    · rename_i inner hfile
      have hinner := length_before_le_of_dot (file?_eq_some_iff.mp hfile).1
      have hprefix := (isPrefix_stem inner.name).length_le
      simp only [if_neg he.ne_nil, List.length_append, List.length_cons]
      omega
    · have hle := (join_nil parts.parent).1
      rw [join_eq_append]
      simp only [String.reduceToList, List.length_append, List.length_singleton]
      omega
  simp only [String.toList_append, String.reduceToList, List.length_append, List.length_cons,
    List.length_nil] at hlong
  omega

/-- The stem is kept if it is plain, and only then. -/
theorem HasStem.keepsStem_iff (h : HasStem p s) (he : IsExtension ext.toList) :
    KeepsStem p s ext ↔ IsPlainStem s := by
  by_cases hs : s = "."
  · subst hs
    exact iff_of_false (h.not_keepsStem_dot he) fun h => h.1 rfl
  by_cases hs' : s = ".."
  · subst hs'
    refine iff_of_false ?_ fun h => absurd h.2 (by simp)
    rintro ⟨-, hname⟩
    obtain ⟨parts, hp, hdots, hstem, -⟩ := h.exists_parts?
    have hnameDots : IsName ['.', '.'] := ⟨by simp, by simp, by simp⟩
    have hout := outputFor_eq ext hp hdots hstem
    have hparts : parts? (join parts.parent ['.', '.']) = _ := parts?_join hp hnameDots
    have hfile : file? (join parts.parent ['.', '.']) = none := by
      simp [file?, hparts]
    rw [show ("..").toList = ['.', '.'] from rfl, withExtension, hfile] at hout
    rw [fileName?, hout, hfile] at hname
    cases hname
  · obtain ⟨parent, hp, hparent, hname⟩ := h.parts?_outputFor he hs hs'
    rw [KeepsStem, IsPlainStem, hparent, hp, hname, ← stem_eq_self_iff]
    simp only [true_and, Option.some.injEq, hs, ne_eq, not_false_eq_true]
    constructor
    · intro h
      have hlist := congrArg String.toList h
      simp only [String.toList_append, String.toList_ofList] at hlist
      exact List.append_cancel_right (List.append_cancel_right hlist)
    · intro h
      rw [h, String.ofList_toList]

theorem eq_of_append_extension {r ext' : String} (hs : s ≠ "") (hr : r ≠ "")
    (he : IsExtension ext.toList) (he' : IsExtension ext'.toList)
    (h : s ++ "." ++ ext = r ++ "." ++ ext') : s = r := by
  have hstem := congrArg (fun name => stem name.toList) h
  simp only [String.toList_append, String.reduceToList, List.append_assoc, List.singleton_append,
    stem_append he.dot_notMem, stem_append he'.dot_notMem] at hstem
  rw [if_neg (by simpa using hs), if_neg (by simpa using hr)] at hstem
  exact String.toList_inj.mp hstem

end

end Path

namespace CommandLine

open QbScript.Path

theorem isExtension_extension (a : Action) : IsExtension a.extension.toList := by
  have hbytecode : IsExtension "qb".toList := ⟨by decide, by decide, by decide⟩
  have hsource : IsExtension "q".toList := ⟨by decide, by decide, by decide⟩
  cases a with
  | compile options => exact hbytecode
  | decompile options => exact hsource

/-- An output that is not named stands beside the input and keeps its stem, if the stem is plain and
only then. So the outputs of two inputs with different plain stems are different. -/
theorem output_keeps_stem (p s : String) (h : HasStem p s) :
    (∀ ext : String, IsExtension ext.toList → (KeepsStem p s ext ↔ IsPlainStem s)) ∧
    ∀ (t u : Task) (q r : String), t.output = .beside → t.input = .file p → u.output = .beside →
      u.input = .file q → HasStem q r → IsPlainStem s → IsPlainStem r → s ≠ r →
        ∃ a b, t.destination = .ok (some a) ∧ u.destination = .ok (some b) ∧ a ≠ b := by
  refine ⟨fun ext he => h.keepsStem_iff he, ?_⟩
  intro t u q r ht hp hu hq hr hs hr' hne
  have hext := isExtension_extension t.action
  have hext' := isExtension_extension u.action
  refine ⟨outputFor p t.action.extension, outputFor q u.action.extension, ?_, ?_, fun heq => ?_⟩
  · rw [Task.destination, ht, hp]
  · rw [Task.destination, hu, hq]
  · have hname := ((h.keepsStem_iff hext).mpr hs).2
    have hname' := ((hr.keepsStem_iff hext').mpr hr').2
    rw [heq, hname'] at hname
    exact hne (eq_of_append_extension h.1 hr.1 hext hext' (Option.some.inj hname.symm))

/-- A stem that starts with a dot, in a directory. -/
theorem output_keeps_stem_hidden :
    HasStem "scripts//.main.q" ".main" ∧ parent? (outputFor "scripts//.main.q" "qb") = some "scripts" ∧
      fileName? (outputFor "scripts//.main.q" "qb") = some ".main.qb" := by
  have hstem : HasStem "scripts//.main.q" ".main" :=
    ⟨by decide, "q", by decide, by decide +kernel⟩
  obtain ⟨hkeeps, -⟩ := output_keeps_stem "scripts//.main.q" ".main" hstem
  have hext : IsExtension "qb".toList := ⟨by decide, by decide, by decide⟩
  obtain ⟨hparent, hname⟩ := (hkeeps "qb" hext).mpr ⟨by decide, by decide⟩
  exact ⟨hstem, hparent.trans (by decide +kernel), hname⟩

/-- The output of `x.tar.gz` is not `x.tar.q`, but the output of `x.gz`. -/
theorem not_keepsStem_of_dotted_stem :
    HasStem "x.tar.gz" "x.tar" ∧ IsExtension "q".toList ∧ outputFor "x.tar.gz" "q" = "x.q" ∧
      ¬ KeepsStem "x.tar.gz" "x.tar" "q" ∧ HasStem "x.gz" "x" ∧ outputFor "x.gz" "q" = "x.q" := by
  have hstem : HasStem "x.tar.gz" "x.tar" := ⟨by decide, "gz", by decide, by decide +kernel⟩
  have hext : IsExtension "q".toList := ⟨by decide, by decide, by decide⟩
  refine ⟨hstem, hext, by decide +kernel, ?_, ⟨by decide, "gz", by decide, by decide +kernel⟩,
    by decide +kernel⟩
  rw [hstem.keepsStem_iff hext]
  exact fun h => h.2 (by decide)

end CommandLine

end QbScript
