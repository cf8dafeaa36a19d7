import QbScript.NameTable
import QbScript.Proofs.Outcome

/-!
# The table of names over any run

A table that is changed in place is asked to enter names, under their own checksums or under given
ones. Whatever the requests, each checksum goes on to stand for the first name that was entered
under it, and whether a request is refused does not depend on the order of the requests.
-/

set_option autoImplicit false

namespace QbScript

namespace NameTable

/-- What changes a table in place. The table is still there where a name is refused. -/
abbrev Entering (α : Type) := EStateM Collision NameTable α

def enterAt (c : Checksum) (name : String) : Entering Unit := do
  match (← get).get? c with
  | none => modify fun t => ⟨t.names.insert c name⟩
  | some existing =>
    if Checksum.normalize existing = Checksum.normalize name then pure ()
    else throw ⟨c, existing, name⟩

def enter (name : String) : Entering Checksum := do
  let c := Checksum.ofName name
  enterAt c name
  return c

inductive Request where
  /-- Under its own checksum. -/
  | own (name : String)
  | under (c : Checksum) (name : String)
  deriving DecidableEq

namespace Request

def checksum : Request → Checksum
  | .own name => Checksum.ofName name
  | .under c _ => c

def name : Request → String
  | .own name => name
  | .under _ name => name

def apply : Request → Entering Unit
  | .own name => do
    let _ ← NameTable.enter name
  | .under c name => enterAt c name

/-- The two names are not the same name, although they have one checksum. -/
def Collides (r s : Request) : Prop :=
  r.checksum = s.checksum ∧ Checksum.normalize r.name ≠ Checksum.normalize s.name

end Request

/-- What is left of a table by a request. -/
def after (t : NameTable) (r : Request) : NameTable :=
  match r.apply t with
  | .ok () u => u
  | .error _ u => u

def run (rs : List Request) : NameTable := rs.foldl after empty

def Refuses (t : NameTable) (r : Request) : Prop := ∃ k u, r.apply t = .error k u

def RefusesOne (rs : List Request) : Prop :=
  ∃ front r rest, rs = front ++ r :: rest ∧ (run front).Refuses r

variable {t : NameTable} {r : Request} {rs ss : List Request} {c : Checksum}

@[simp] theorem run_nil : run [] = empty := rfl

@[simp] theorem run_concat (rs : List Request) (r : Request) :
    run (rs ++ [r]) = (run rs).after r := by
  simp [run]

/-- A table that is changed in place becomes the table with the name in it. Where the name is
refused, nothing was written yet. -/
theorem enterAt_eq (t : NameTable) (c : Checksum) (name : String) :
    enterAt c name t = match t.insertAt c name with
      | .ok u => .ok () u
      | .error k => .error k t := by
  simp only [enterAt, insertAt, bind, EStateM.bind, get, getThe, MonadStateOf.get, EStateM.get]
  cases t.get? c with
  | none => rfl
  | some existing =>
    by_cases hn : Checksum.normalize existing = Checksum.normalize name
    · simp only [if_pos hn]
      rfl
    · simp only [if_neg hn]
      rfl

theorem apply_eq (t : NameTable) (r : Request) :
    r.apply t = match t.insertAt r.checksum r.name with
      | .ok u => .ok () u
      | .error k => .error k t := by
  cases r with
  | under c name => exact enterAt_eq t c name
  | own name =>
    simp only [Request.apply, enter, bind, EStateM.bind, enterAt_eq, Request.checksum,
      Request.name]
    cases t.insertAt (Checksum.ofName name) name <;> rfl

theorem apply_eq_error_iff {k : Collision} {u : NameTable} :
    r.apply t = .error k u ↔ (∃ first, t.get? r.checksum = some first ∧
      Checksum.normalize first ≠ Checksum.normalize r.name ∧
      k = ⟨r.checksum, first, r.name⟩) ∧ u = t := by
  rw [apply_eq, insertAt]
  cases hf : t.get? r.checksum with
  | none => simp
  | some first =>
    by_cases hn : Checksum.normalize first = Checksum.normalize r.name
    · simp [hn]
    · simp [hn, eq_comm]

theorem refuses_iff :
    t.Refuses r ↔ ∃ first, t.get? r.checksum = some first ∧
      Checksum.normalize first ≠ Checksum.normalize r.name := by
  simp only [Refuses, apply_eq_error_iff]
  constructor
  · rintro ⟨k, u, ⟨first, hf, hn, -⟩, -⟩
    exact ⟨first, hf, hn⟩
  · rintro ⟨first, hf, hn⟩
    exact ⟨_, t, ⟨first, hf, hn, rfl⟩, rfl⟩

theorem after_of_error {k : Collision} {u : NameTable} (h : r.apply t = .error k u) :
    t.after r = t := by
  simp only [after, h]
  exact (apply_eq_error_iff.mp h).2

/-- A request binds its checksum, if it is not bound yet, and does nothing else. -/
theorem get?_after (t : NameTable) (r : Request) (c : Checksum) :
    (t.after r).get? c =
      if r.checksum = c then some ((t.get? c).getD r.name) else t.get? c := by
  cases hr : t.insertAt r.checksum r.name with
  | ok u =>
    have ht : t.after r = u := by simp only [after, apply_eq, hr]
    rw [ht, get?_insertAt hr c]
    split
    · rename_i hc
      rw [hc]
    · rfl
  | error k =>
    have ha : r.apply t = .error k t := by rw [apply_eq, hr]
    obtain ⟨⟨first, hf, -, -⟩, -⟩ := apply_eq_error_iff.mp ha
    rw [after_of_error ha]
    split
    · rename_i hc
      rw [← hc, hf]
      rfl
    · rfl

/-- A checksum stands for the first name that is asked to be entered under it. -/
theorem get?_run (rs : List Request) (c : Checksum) :
    (run rs).get? c = (rs.find? fun r => r.checksum = c).map Request.name := by
  induction rs using List.reverseRecOn with
  | nil => simp
  | append_singleton rs r ih =>
    rw [run_concat, get?_after, ih, List.find?_append]
    by_cases hc : r.checksum = c
    · cases rs.find? fun r => r.checksum = c <;> simp [hc]
    · cases rs.find? fun r => r.checksum = c <;> simp [hc]

theorem isSome_get?_run_iff : ((run rs).get? c).isSome ↔ ∃ r ∈ rs, r.checksum = c := by
  rw [get?_run, Option.isSome_map, List.find?_isSome]
  simp

theorem exists_of_get?_run {name : String} (h : (run rs).get? c = some name) :
    ∃ r ∈ rs, r.checksum = c ∧ r.name = name := by
  rw [get?_run, Option.map_eq_some_iff] at h
  obtain ⟨r, hr, rfl⟩ := h
  exact ⟨r, List.mem_of_find?_eq_some hr, by simpa using List.find?_some hr, rfl⟩

theorem get?_run_append {first : String} (h : (run rs).get? c = some first) (ss : List Request) :
    (run (rs ++ ss)).get? c = some first := by
  rw [get?_run] at h ⊢
  rw [List.find?_append]
  cases hf : rs.find? fun r => r.checksum = c with
  | none => simp [hf] at h
  | some r => simpa [hf] using h

theorem RefusesOne.append (h : RefusesOne rs) (ss : List Request) : RefusesOne (rs ++ ss) := by
  obtain ⟨front, r, rest, rfl, hr⟩ := h
  exact ⟨front, r, rest ++ ss, by simp, hr⟩

/-- Where no request is refused, every one finds its name in the table, in some spelling. -/
theorem exists_spelling (h : ¬ RefusesOne rs) (hr : r ∈ rs) :
    ∃ first, (run rs).get? r.checksum = some first ∧
      Checksum.normalize first = Checksum.normalize r.name := by
  induction rs using List.reverseRecOn with
  | nil => cases hr
  | append_singleton rs s ih =>
    rcases List.mem_append.mp hr with hr | hr
    · obtain ⟨first, hf, hn⟩ := ih (fun hrs => h (hrs.append [s])) hr
      exact ⟨first, get?_run_append hf [s], hn⟩
    · obtain rfl := List.mem_singleton.mp hr
      have hkept : ¬ (run rs).Refuses r := fun hs => h ⟨rs, r, [], rfl, hs⟩
      rw [run_concat, get?_after, if_pos rfl]
      refine ⟨_, rfl, ?_⟩
      cases hf : (run rs).get? r.checksum with
      | none => rfl
      | some first =>
        by_contra hne
        exact hkept (refuses_iff.mpr ⟨first, hf, hne⟩)

/-- A request is refused exactly if two of the requests collide. -/
theorem refusesOne_iff : RefusesOne rs ↔ ∃ r ∈ rs, ∃ s ∈ rs, r.Collides s := by
  constructor
  · rintro ⟨front, s, rest, rfl, hs⟩
    obtain ⟨first, hf, hn⟩ := refuses_iff.mp hs
    obtain ⟨r, hr, hc, rfl⟩ := exists_of_get?_run hf
    exact ⟨r, List.mem_append_left _ hr, s, List.mem_append_right _ List.mem_cons_self, hc, hn⟩
  · rintro ⟨r, hr, s, hs, hc, hn⟩
    by_contra h
    obtain ⟨first, hf, hfr⟩ := exists_spelling h hr
    obtain ⟨first', hf', hfs⟩ := exists_spelling h hs
    rw [← hc, hf] at hf'
    obtain rfl := Option.some.inj hf'
    exact hn (hfr.symm.trans hfs)

theorem refusesOne_perm (h : rs.Perm ss) : RefusesOne rs ↔ RefusesOne ss := by
  simp only [refusesOne_iff, h.mem_iff]

theorem isSome_get?_run_perm (h : rs.Perm ss) (c : Checksum) :
    ((run rs).get? c).isSome ↔ ((run ss).get? c).isSome := by
  simp only [isSome_get?_run_iff, h.mem_iff]

/-- What becomes of a table in the course of requests. -/
structure Course (rs : List Request) : Prop where
  /-- A request is refused, with both names, exactly if its checksum stands for another name. -/
  refused_iff : ∀ front r rest, rs = front ++ r :: rest → ∀ k,
    (∃ u, r.apply (run front) = .error k u) ↔ ∃ first, (run front).get? r.checksum = some first ∧
      Checksum.normalize first ≠ Checksum.normalize r.name ∧ k = ⟨r.checksum, first, r.name⟩
  /-- The table that a refused request leaves behind is the one that it found. -/
  unchanged : ∀ front r rest, rs = front ++ r :: rest → ∀ k u,
    r.apply (run front) = .error k u → u = run front ∧ run (front ++ [r]) = run front
  /-- Every checksum that is bound at some time stands for its first name in the end. -/
  lasting : ∀ front rest, rs = front ++ rest → ∀ c first, (run front).get? c = some first →
    (run rs).get? c = some first
  first : ∀ c, (run rs).get? c = (rs.find? fun r => r.checksum = c).map Request.name
  ascending : (run rs).toList.Pairwise fun x y => x.1 < y.1
  mem_toList : ∀ c name, (c, name) ∈ (run rs).toList ↔ (run rs).get? c = some name
  size : (run rs).size = (run rs).toList.length
  isEmpty : (run rs).isEmpty ↔ (run rs).size = 0
  /-- Requests that give no checksums bind names under their own only, and bind every one. -/
  own : (∀ r ∈ rs, ∃ name, r = .own name) →
    (∀ c name, (run rs).get? c = some name → Checksum.ofName name = c) ∧
      ∀ r ∈ rs, ((run rs).get? (Checksum.ofName r.name)).isSome
  refused_perm : ∀ ss, rs.Perm ss → (RefusesOne rs ↔ RefusesOne ss)
  bound_perm : ∀ ss, rs.Perm ss → ¬ RefusesOne rs →
    ∀ c, ((run rs).get? c).isSome ↔ ((run ss).get? c).isSome

theorem course_run (rs : List Request) : Course rs where
  refused_iff := by
    intro front r rest _ k
    simp [apply_eq_error_iff]
  unchanged := by
    intro front r rest _ k u hr
    rw [run_concat, after_of_error hr]
    exact ⟨(apply_eq_error_iff.mp hr).2, rfl⟩
  lasting := by
    rintro front rest rfl c first hf
    exact get?_run_append hf rest
  first := get?_run rs
  ascending := pairwise_toList (run rs)
  mem_toList := mem_toList_iff (run rs)
  size := Std.TreeMap.length_toList.symm
  isEmpty := by
    rw [NameTable.isEmpty, Std.TreeMap.isEmpty_eq_size_eq_zero, beq_iff_eq]
    rfl
  own := by
    intro ho
    have hsum : ∀ r ∈ rs, r.checksum = Checksum.ofName r.name := by
      intro r hr
      obtain ⟨name, rfl⟩ := ho r hr
      rfl
    constructor
    · intro c name hn
      obtain ⟨r, hr, rfl, rfl⟩ := exists_of_get?_run hn
      exact (hsum r hr).symm
    · intro r hr
      exact isSome_get?_run_iff.mpr ⟨r, hr, hsum r hr⟩
  refused_perm := fun _ => refusesOne_perm
  bound_perm := fun _ hp _ => isSome_get?_run_perm hp

/-- Two names with one checksum: whichever comes second is refused, and the first one stays. -/
theorem course_run_collision :
    RefusesOne [.own "plumless", .own "Plumless", .under 7 "a", .own "buckeroo"] ∧
      RefusesOne [.own "buckeroo", .own "Plumless", .own "plumless", .under 7 "a"] ∧
      (run [.own "plumless", .own "Plumless", .under 7 "a", .own "buckeroo"]).get?
        (Checksum.ofName "buckeroo") = some "plumless" := by
  have hcourse := course_run [.own "plumless", .own "Plumless", .under 7 "a", .own "buckeroo"]
  have hrefused : RefusesOne [.own "plumless", .own "Plumless", .under 7 "a", .own "buckeroo"] := by
    refine ⟨[.own "plumless", .own "Plumless", .under 7 "a"], .own "buckeroo", [], rfl, _,
      (hcourse.refused_iff _ _ _ rfl _).mpr ⟨"plumless", ?_, by decide +kernel, rfl⟩⟩
    rw [get?_run]
    decide +kernel
  refine ⟨hrefused, (hcourse.refused_perm _ ?_).mp hrefused, ?_⟩
  · decide
  · rw [hcourse.first]
    decide +kernel

end NameTable

end QbScript
