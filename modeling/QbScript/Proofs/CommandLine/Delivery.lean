import QbScript.CommandLine.Execute
import QbScript.Proofs.FileTree

/-!
# The delivery of a file

A file is written beside its place and then moved there. Where the move is refused the draft stays;
that happens only where the path does not receive a file.
-/

set_option autoImplicit false

namespace QbScript

open FileTree

namespace CommandLine

variable {s : Machine} {path source target : String} {p q : Place} {bytes content : List UInt8}

theorem replace_of_takes (hs : Takes s.files s.cwd source p)
    (hbytes : s.files.get? p = some (.file bytes)) (ht : Takes s.files s.cwd target q) :
    s.run (replace source target) =
      (.ok (), { s with files := (s.files.erase p).set q (.file bytes) }) := by
  unfold replace
  simp [rename_of_takes hs hbytes ht]

/-- Where there is no file to move, or none can be put, nothing changes. -/
theorem replace_of_refused (s : Machine) (source target : String)
    (h : ¬ ((∃ bytes, s.files.look s.cwd source = .ok (.file bytes)) ∧
      Receives s.files s.cwd target)) :
    ∃ e, s.run (replace source target) = (.error e, s) := by
  obtain ⟨e, he⟩ : ∃ e, s.files.rename s.cwd source target = .error e := by
    cases hr : s.files.rename s.cwd source target with
    | error e => exact ⟨e, rfl⟩
    | ok u => exact absurd (of_rename_eq_ok hr) h
  have hcopy : ∃ e, s.run (copy source target) = (.error e, s) := by
    unfold copy
    cases hread : s.files.readFile s.cwd source with
    | error e => exact ⟨e, by simp [hread]⟩
    | ok bytes =>
      cases hwrite : s.files.writeFile s.cwd target bytes with
      | error e => exact ⟨e, by simp [hread, hwrite]⟩
      | ok u =>
        obtain ⟨q, hq, -⟩ := writeFile_eq_ok_iff.mp hwrite
        exact absurd ⟨⟨bytes, readFile_eq_ok_iff.mp hread⟩, q, hq⟩ h
  obtain ⟨e', he'⟩ := hcopy
  unfold replace
  exact ⟨e', by simp [he, he']⟩

theorem settle_of_takes (hs : Takes s.files s.cwd source p)
    (hbytes : s.files.get? p = some (.file bytes)) (ht : Takes s.files s.cwd target q)
    (hne : q ≠ p) :
    ∃ t, s.run (settle source target) = (.ok (), { s with files := t }) ∧
      ∀ r, t.get? r =
        if r = q then some (.file bytes) else if r = p then none else s.files.get? r := by
  have hp := ne_nil_of_get?_ne hs.ne_directory
  have hq := ne_nil_of_get?_ne ht.ne_directory
  unfold settle
  cases hn : s.files.get? q with
  | none =>
    refine ⟨(s.files.erase p).set q (.file bytes), ?_, ?_⟩
    · simp [ht.look_eq, hn, Except.isOk, Except.toBool, replace_of_takes hs hbytes ht]
    · intro r
      rw [get?_set _ _ _ _ hq, get?_erase _ _ _ hp]
  | some n =>
    obtain ⟨old, rfl⟩ : ∃ old, n = .file old := by
      cases n with
      | directory => exact absurd hn ht.ne_directory
      | file old => exact ⟨old, rfl⟩
    have hremove : s.files.removeFile s.cwd target = .ok (s.files.erase q) :=
      removeFile_eq_ok_iff.mpr ⟨q, old, ht, hn, rfl⟩
    have hkeep := directoriesIn_erase ht.ne_directory
    have hget (r : Place) := s.files.get?_erase q r hq
    have hp' : (s.files.erase q).get? p = some (.file bytes) := by
      rw [hget, if_neg hne.symm, hbytes]
    have hmove := replace_of_takes (s := { s with files := s.files.erase q })
      (hs.mono hkeep (by simp [hp'])) hp' (ht.mono hkeep (by simp [hget]))
    refine ⟨((s.files.erase q).erase p).set q (.file bytes), ?_, ?_⟩
    · simp [ht.look_eq, hn, Except.isOk, Except.toBool, hremove, hmove]
    · intro r
      rw [get?_set _ _ _ _ hq, get?_erase _ _ _ hp, hget]
      by_cases hr : r = q <;> simp [hr]

theorem settle_of_not_receives (s : Machine) (source target : String)
    (h : ¬ Receives s.files s.cwd target) :
    ∃ e, s.run (settle source target) = (.error e, s) := by
  obtain ⟨e, he⟩ := replace_of_refused s source target fun hno => h hno.2
  refine ⟨e, ?_⟩
  unfold settle
  cases hlook : (s.files.look s.cwd target).isOk with
  | false => simp [hlook, he]
  | true =>
    cases hremove : s.files.removeFile s.cwd target with
    | error e' => simp [hlook, hremove, he]
    | ok u =>
      obtain ⟨q, _, hq, -, -⟩ := removeFile_eq_ok_iff.mp hremove
      exact absurd ⟨q, hq⟩ h

/-- A file that is moved to its own place is lost. -/
theorem settle_self (hs : Takes s.files s.cwd source p)
    (hbytes : s.files.get? p = some (.file bytes)) (ht : Takes s.files s.cwd target p) :
    ∃ e, s.run (settle source target) = (.error e, { s with files := s.files.erase p }) := by
  have hremove : s.files.removeFile s.cwd target = .ok (s.files.erase p) :=
    removeFile_eq_ok_iff.mpr ⟨p, bytes, ht, hbytes, rfl⟩
  have hnone : (s.files.erase p).get? p = none := by
    rw [get?_erase _ _ _ (ne_nil_of_get?_ne hs.ne_directory), if_pos rfl]
  have hlost : (s.files.erase p).look s.cwd source = .error .notFound := by
    have hs' := hs.mono (directoriesIn_erase hs.ne_directory) (by simp [hnone])
    rw [hs'.look_eq, hnone]
  obtain ⟨e, he⟩ := replace_of_refused { s with files := s.files.erase p } source target
    (by simp [hlost])
  refine ⟨e, ?_⟩
  unfold settle
  simp [ht.look_eq, hbytes, Except.isOk, Except.toBool, hremove, he]

/-- The first of the names that is not taken, or none of them is free. -/
theorem freshName_run (dir base : String) (i n : Nat) (s : Machine) :
    (s.run (freshName dir base i n) = (none, s) ∧
      ∀ j, j < n → (s.files.look s.cwd (freshName.numbered dir base (i + j))).isOk = true) ∨
    ∃ j, j < n ∧ s.run (freshName dir base i n) = (some (freshName.numbered dir base (i + j)), s) ∧
      (∀ k, k < j → (s.files.look s.cwd (freshName.numbered dir base (i + k))).isOk = true) ∧
      (s.files.look s.cwd (freshName.numbered dir base (i + j))).isOk = false := by
  induction n generalizing i with
  | zero => exact Or.inl ⟨rfl, nofun⟩
  | succ n ih =>
    unfold freshName
    rw [Machine.run_bind, Machine.run_exists]
    cases hlook : (s.files.look s.cwd (freshName.numbered dir base i)).isOk with
    | false => exact Or.inr ⟨0, Nat.succ_pos n, rfl, nofun, hlook⟩
    | true =>
      -- What comes after `i` is counted from `i + 1`.
      have htaken {m : Nat} (h : ∀ j, j < m →
          (s.files.look s.cwd (freshName.numbered dir base (i + 1 + j))).isOk = true) (j : Nat)
          (hj : j < m + 1) :
          (s.files.look s.cwd (freshName.numbered dir base (i + j))).isOk = true := by
        cases j with
        | zero => exact hlook
        | succ j =>
          rw [show i + (j + 1) = i + 1 + j by omega]
          exact h j (by omega)
      rcases ih (i + 1) with ⟨hrun, hall⟩ | ⟨j, hj, hrun, hbefore, hfree⟩
      · exact Or.inl ⟨hrun, htaken hall⟩
      · rw [show i + 1 + j = i + (j + 1) by omega] at hrun hfree
        exact Or.inr ⟨j + 1, by omega, hrun, htaken hbefore, hfree⟩

def draftName (path : String) (i : Nat) : String :=
  freshName.numbered (directoryOf path) ((Path.fileName? path).getD "") i

def IsFirstFree (t : FileTree) (cwd : Place) (path : String) (i : Nat) : Prop :=
  (∀ j, j < i → (t.look cwd (draftName path j)).isOk = true) ∧
    (t.look cwd (draftName path i)).isOk = false

theorem IsFirstFree.eq {t : FileTree} {cwd : Place} {i j : Nat} (hi : IsFirstFree t cwd path i)
    (hj : IsFirstFree t cwd path j) : i = j := by
  rcases Nat.lt_trichotomy i j with hlt | heq | hlt
  · simpa [hi.2] using hj.1 i hlt
  · exact heq
  · simpa [hj.2] using hi.1 j hlt

/-- The path leads to a place that takes a file, and its first free draft to another one. -/
def Delivers (t : FileTree) (cwd : Place) (path : String) : Prop :=
  ∃ q i p, Takes t cwd path q ∧ i < 0x100000000 ∧ IsFirstFree t cwd path i ∧
    Takes t cwd (draftName path i) p ∧ q ≠ p

theorem Delivers.receives {t : FileTree} {cwd : Place} (h : Delivers t cwd path) :
    Receives t cwd path := by
  obtain ⟨q, -, -, hq, -⟩ := h
  exact ⟨q, hq⟩

inductive Written (s : Machine) (path : String) (content : List UInt8) :
    Except OsError Unit → FileTree → Prop
  | delivered {q : Place} {t : FileTree} : Takes s.files s.cwd path q →
      Puts s.files t q (.file content) → Written s path content (.ok ()) t
  | unchanged {e : OsError} {t : FileTree} : ¬ Delivers s.files s.cwd path → Same s.files t →
      Written s path content (.error e) t
  /-- The draft is left at a place that was free. -/
  | stranded {e : OsError} {i : Nat} {p : Place} {t : FileTree} : ¬ Receives s.files s.cwd path →
      s.files.locate s.cwd (draftName path i) = .ok p → s.files.get? p = none →
      Puts s.files t p (.file content) → Written s path content (.error e) t

/-- Every end of what is done with a draft once it is written. -/
theorem settle_run {u : FileTree} {i : Nat} (hi : IsFirstFree s.files s.cwd path i)
    (hp : Takes s.files s.cwd (draftName path i) p) (hfree : s.files.get? p = none)
    (hputs : Puts s.files u p (.file content)) :
    ∃ result t, ({ s with files := u } : Machine).run (settle (draftName path i) path) =
      (result, { s with files := t }) ∧ Written s path content result t := by
  have hin := hputs.directoriesIn hp.ne_directory
  have hdraft : Takes u s.cwd (draftName path i) p := hp.mono hin (by simp [hputs.get?_self])
  by_cases hreceives : Receives s.files s.cwd path
  · obtain ⟨q, hq⟩ := hreceives
    by_cases hqp : q = p
    · subst hqp
      obtain ⟨e, he⟩ := settle_self (s := { s with files := u }) hdraft hputs.get?_self
        (hq.mono hin (by simp [hputs.get?_self]))
      refine ⟨.error e, u.erase q, he, .unchanged ?_ fun r => ?_⟩
      · rintro ⟨q', i', p', hq', -, hi', hp', hne⟩
        obtain rfl := hi.eq hi'
        exact hne (hq'.place_eq hq ▸ hp.place_eq hp')
      rw [get?_erase _ _ _ (ne_nil_of_get?_ne hq.ne_directory), hputs r]
      by_cases hr : r = q
      · simp [hr, hfree]
      · simp [hr]
    · have hq' : Takes u s.cwd path q :=
        hq.mono hin (by rw [hputs.get?_of_ne hqp]; exact hq.ne_directory)
      obtain ⟨t, hrun, hget⟩ := settle_of_takes (s := { s with files := u }) hdraft
        hputs.get?_self hq' hqp
      refine ⟨.ok (), t, hrun, .delivered hq fun r => ?_⟩
      rw [hget r]
      by_cases hr : r = p
      · simp [hr, hfree]
      · simp [hr, hputs.get?_of_ne]
  · -- The draft is no directory, so that the path leads where it led before.
    have hback : DirectoriesIn u s.files := by
      intro r hr
      rwa [hputs.get?_of_ne] at hr
      rintro rfl
      simp [hputs.get?_self] at hr
    obtain ⟨e, he⟩ := settle_of_not_receives { s with files := u } (draftName path i) path
      fun h => hreceives (h.of_directories hback hin)
    exact ⟨.error e, u, he, .stranded hreceives hp.locate hfree hputs⟩

theorem writeBeside_run (s : Machine) (path : String) (content : List UInt8) :
    ∃ result t, s.run (writeBeside path content) = (result, { s with files := t }) ∧
      Written s path content result t := by
  unfold writeBeside
  rw [Machine.run_bind]
  rcases freshName_run (directoryOf path) ((Path.fileName? path).getD "") 0 0x100000000 s with
    ⟨hrun, hall⟩ | ⟨i, -, hrun, hbefore, hlook⟩
  · rw [hrun]
    refine ⟨.error .alreadyExists, s.files, rfl, .unchanged ?_ fun _ => rfl⟩
    rintro ⟨-, i, -, -, hi, hfirst, -⟩
    have htaken := hall i hi
    rw [Nat.zero_add] at htaken
    simpa [draftName, htaken] using hfirst.2
  · simp only [Nat.zero_add] at hrun hbefore hlook
    have hi : IsFirstFree s.files s.cwd path i := ⟨hbefore, hlook⟩
    rw [hrun]
    dsimp only
    rw [Machine.run_bind, Machine.run_writeFile, ← draftName]
    cases hwrite : s.files.writeFile s.cwd (draftName path i) content with
    | error e =>
      refine ⟨.error e, s.files, rfl, .unchanged ?_ fun _ => rfl⟩
      rintro ⟨-, i', p, -, -, hi', hp, -⟩
      obtain rfl := hi.eq hi'
      rw [writeFile_eq_ok_iff.mpr ⟨p, hp, rfl⟩] at hwrite
      cases hwrite
    | ok u =>
      obtain ⟨p, hp, rfl⟩ := writeFile_eq_ok_iff.mp hwrite
      exact settle_run hi hp (hp.get?_eq_none hi.2) (puts_set hp.ne_directory)

/-! ### The directories on the way -/

/-- At the place `p` nothing has changed, or there was nothing and is a directory now, to which one
of `paths` leads. -/
def MadeAt (cwd : Place) (paths : List String) (t u : FileTree) (p : Place) : Prop :=
  u.get? p = t.get? p ∨
    (t.get? p = none ∧ u.get? p = some .directory ∧ ∃ path ∈ paths, u.locate cwd path = .ok p)

/-- Nothing has changed but for new directories that `paths` lead to. -/
def MakesWay (cwd : Place) (paths : List String) (t u : FileTree) : Prop :=
  ∀ p, MadeAt cwd paths t u p

variable {cwd : Place} {paths : List String} {t u v : FileTree}

theorem makesWay_of_same (h : Same t u) : MakesWay cwd paths t u := fun p => Or.inl (h p).symm

theorem MadeAt.kept (h : MadeAt cwd paths t u p) {n : Node} (hp : t.get? p = some n) :
    u.get? p = some n := by
  rcases h with hsame | ⟨hnone, -, -⟩
  · exact hsame.trans hp
  · rw [hnone] at hp
    cases hp

/-- Where nothing changes again and no directory is lost. -/
theorem MadeAt.mono {more : List String} (h : MadeAt cwd paths t u p) (hmore : paths ⊆ more)
    (hin : DirectoriesIn u v) (hp : v.get? p = u.get? p) : MadeAt cwd more t v p := by
  rcases h with hsame | ⟨hnone, hdir, a, ha, hlead⟩
  · exact Or.inl (hp.trans hsame)
  · exact Or.inr ⟨hnone, hp.trans hdir, a, hmore ha, locate_mono hin hlead⟩

theorem MakesWay.makeDirectory (h : MakesWay cwd paths t u)
    (hmake : u.makeDirectory cwd path = .ok v) : MakesWay cwd (path :: paths) t v := by
  obtain ⟨q, hlocate, hfree, rfl⟩ := makeDirectory_eq_ok_iff.mp hmake
  have hno : u.get? q ≠ some .directory := by simp [hfree]
  have hputs : Puts u (u.set q .directory) q .directory := puts_set hno
  have hin := hputs.directoriesIn hno
  intro p
  by_cases hp : p = q
  · subst hp
    rcases h p with hsame | ⟨-, hdir, -⟩
    · exact Or.inr ⟨hsame.symm.trans hfree, hputs.get?_self, path, List.mem_cons_self,
        locate_mono hin hlocate⟩
    · exact absurd hdir hno
  · exact (h p).mono (List.subset_cons_self _ _) hin (hputs.get?_of_ne hp)

theorem MakesWay.cons (h : MakesWay cwd paths t u) : MakesWay cwd (path :: paths) t u :=
  fun p => (h p).mono (List.subset_cons_self _ _) (fun _ hdir => hdir) rfl

theorem orDirectory_run (s : Machine) (path : String) (made : Except OsError Unit) :
    ∃ result, s.run (orDirectory path made) = (result, s) := by
  unfold orDirectory
  cases made with
  | ok => exact ⟨.ok (), rfl⟩
  | error e =>
    rw [Machine.run_bind, Machine.run_isDirectory]
    dsimp only
    split
    · exact ⟨.ok (), rfl⟩
    · exact ⟨.error e, rfl⟩

theorem makeDirectories_run (paths : List String) (s : Machine) :
    ∃ result t, s.run (makeDirectories paths) = (result, { s with files := t }) ∧
      MakesWay s.cwd paths s.files t := by
  have hsame (paths : List String) : MakesWay s.cwd paths s.files s.files :=
    makesWay_of_same fun _ => rfl
  induction paths with
  | nil => exact ⟨.error .notFound, s.files, rfl, hsame _⟩
  | cons path above ih =>
    unfold makeDirectories
    split
    · exact ⟨.ok (), s.files, rfl, hsame _⟩
    rw [Machine.run_bind, Machine.run_makeDirectory]
    cases hmake : s.files.makeDirectory s.cwd path with
    | ok u => exact ⟨.ok (), u, rfl, (hsame above).makeDirectory hmake⟩
    | error e =>
      rw [Machine.changed_error]
      dsimp only
      split
      · exact ⟨.ok (), s.files, rfl, hsame _⟩
      · obtain ⟨result, t, hrun, hway⟩ := ih
        rw [Machine.run_bind, hrun]
        dsimp only
        cases result with
        | error e => exact ⟨.error e, t, rfl, hway.cons⟩
        | ok =>
          dsimp only
          rw [Machine.run_bind, Machine.run_makeDirectory]
          cases hagain : t.makeDirectory s.cwd path with
          | error e =>
            obtain ⟨result, hlast⟩ := orDirectory_run { s with files := t } path (.error e)
            exact ⟨result, t, by simpa [hagain] using hlast, hway.cons⟩
          | ok u =>
            obtain ⟨result, hlast⟩ := orDirectory_run { s with files := u } path (.ok ())
            exact ⟨result, u, by simpa [hagain] using hlast, hway.makeDirectory hagain⟩
      · rename_i other _ _
        obtain ⟨result, hlast⟩ := orDirectory_run s path (.error other)
        exact ⟨result, s.files, hlast, hsame _⟩

/-- Nothing is made where the first directory is there. -/
theorem makeDirectories_of_directory (s : Machine) (dir : String) (above : List String)
    (h : dir = "" ∨ s.files.look s.cwd dir = .ok .directory) :
    s.run (makeDirectories (dir :: above)) = (.ok (), s) := by
  unfold makeDirectories
  by_cases hempty : dir = ""
  · rw [if_pos hempty]
    rfl
  · rw [if_neg hempty, Machine.run_bind, Machine.run_makeDirectory]
    have hlook := h.resolve_left hempty
    obtain ⟨p, hp, hdir⟩ := look_eq_directory_iff.mp hlook
    have hmake : s.files.makeDirectory s.cwd dir = .error .alreadyExists := by
      unfold makeDirectory
      simp [hp, hdir]
    rw [hmake]
    unfold orDirectory
    simp [hlook, Except.toOption]

/-! ### The delivery -/

def Task.wayTo (t : Task) (path : String) : List String :=
  if t.mkdir then ((Path.parent? path).map Path.ancestors).getD [] else []

theorem Task.makeWay_run (t : Task) (path : String) (s : Machine) :
    ∃ result way, s.run (t.makeWay path).run = (result, { s with files := way }) ∧
      MakesWay s.cwd (t.wayTo path) s.files way := by
  have hsame (paths : List String) : MakesWay s.cwd paths s.files s.files :=
    makesWay_of_same fun _ => rfl
  unfold makeWay wayTo
  split
  · cases hdir : Path.parent? path with
    | none => exact ⟨.ok (), s.files, rfl, hsame _⟩
    | some dir =>
      obtain ⟨result, way, hrun, hway⟩ := makeDirectories_run (Path.ancestors dir) s
      dsimp only
      rw [Machine.run_bind_of_ok _ (Machine.run_lift hrun)]
      cases result with
      | error e => exact ⟨.error (.directoryNotMade e), way, rfl, hway⟩
      | ok => exact ⟨.ok (), way, rfl, hway⟩
  · exact ⟨.ok (), s.files, rfl, hsame _⟩

/-- The directories on the way to a path that receives a file are there. -/
theorem Task.makeWay_of_receives (t : Task) (h : Receives s.files s.cwd path) :
    s.run (t.makeWay path).run = (.ok (), s) := by
  unfold makeWay
  split
  · cases hdir : Path.parent? path with
    | none => rfl
    | some dir =>
      obtain ⟨above, habove⟩ : ∃ above, Path.ancestors dir = dir :: above := by
        unfold Path.ancestors
        split
        · exact ⟨_, rfl⟩
        · exact ⟨[], rfl⟩
      have hrun := makeDirectories_of_directory s dir above (h.parent hdir)
      dsimp only
      rw [habove, Machine.run_bind_of_ok _ (Machine.run_lift hrun)]
      rfl
  · rfl

/-- What the files are when `path` is made with `content`, at the place `q`. -/
structure Task.Makes (t : Task) (s : Machine) (path : String) (content : List UInt8)
    (u : FileTree) (q : Place) : Prop where
  locate : u.locate s.cwd path = .ok q
  readFile : u.readFile s.cwd path = .ok content
  ne_directory : s.files.get? q ≠ some .directory
  free : t.overwrite = false → s.files.get? q = none
  others : ∀ p, p ≠ q → MadeAt s.cwd (t.wayTo path) s.files u p

def Task.MayWrite (t : Task) (s : Machine) (path : String) : Prop :=
  Delivers s.files s.cwd path ∧ (t.overwrite = true ∨ (s.files.look s.cwd path).isOk = false)

/-- What the files are when `path` cannot be made: where it receives no file, the directories on the
way that were made stay, and so may the draft. -/
structure Task.Leaves (t : Task) (s : Machine) (path : String) (content : List UInt8)
    (u : FileTree) : Prop where
  refused : ¬ t.MayWrite s path
  same : Receives s.files s.cwd path → Same s.files u
  left : ∃ way, MakesWay s.cwd (t.wayTo path) s.files way ∧
    (Same way u ∨ ∃ i p, way.locate s.cwd (draftName path i) = .ok p ∧ way.get? p = none ∧
      Puts way u p (.file content))

theorem Task.makes_of_written {t : Task} {way : FileTree}
    (hway : MakesWay s.cwd (t.wayTo path) s.files way) (hq : Takes way s.cwd path q)
    (hputs : Puts way u q (.file content))
    (hfree : t.overwrite = false → (way.look s.cwd path).isOk = false) :
    t.Makes s path content u q := by
  have hin := hputs.directoriesIn hq.ne_directory
  refine ⟨locate_mono hin hq.locate, ?_, ?_, ?_, ?_⟩
  · have hq' := hq.mono hin (by simp [hputs.get?_self])
    exact readFile_eq_ok_iff.mpr (look_eq_file_iff.mpr ⟨q, hq', hputs.get?_self⟩)
  · exact fun hdir => hq.ne_directory ((hway q).kept hdir)
  · intro hover
    have hnone := hq.get?_eq_none (hfree hover)
    rcases hway q with hsame | ⟨hfree, -, -⟩
    · exact hsame.symm.trans hnone
    · exact hfree
  · exact fun p hp => (hway p).mono (List.Subset.refl _) hin (hputs.get?_of_ne hp)

theorem Task.leaves_of_written {t : Task} {way : FileTree} {e : OsError}
    (hway : MakesWay s.cwd (t.wayTo path) s.files way)
    (hsame : Receives s.files s.cwd path → way = s.files)
    (h : Written { s with files := way } path content (.error e) u) :
    t.Leaves s path content u := by
  cases h with
  | unchanged hrefused hunchanged =>
    refine ⟨fun hmay => ?_, fun hreceives => ?_, way, hway, Or.inl hunchanged⟩
    · have hdelivers := hmay.1
      rw [← hsame hdelivers.receives] at hdelivers
      exact hrefused hdelivers
    · rwa [← hsame hreceives]
  | @stranded _ i p _ hrefuses hplace hfree hputs =>
    have hno : ¬ Receives s.files s.cwd path := by
      intro hreceives
      have hreceives' := hreceives
      rw [← hsame hreceives] at hreceives'
      exact hrefuses hreceives'
    exact ⟨fun hmay => hno hmay.1.receives, fun hreceives => absurd hreceives hno, way, hway,
      Or.inr ⟨i, p, hplace, hfree, hputs⟩⟩

theorem Task.deliver_run (t : Task) (path : String) (content : List UInt8) (s : Machine) :
    ∃ result u, s.run (t.deliver path content).run = (result, { s with files := u }) ∧
      ((result = .ok () ∧ ∃ q, t.Makes s path content u q) ∨
        (∃ f, result = .error f) ∧ t.Leaves s path content u) := by
  obtain ⟨result, way, hrun, hway⟩ := t.makeWay_run path s
  have hgoes (h : Receives s.files s.cwd path) : result = .ok () ∧ way = s.files := by
    have heq := hrun.symm.trans (t.makeWay_of_receives h)
    exact ⟨congrArg Prod.fst heq, congrArg (fun r => r.2.files) heq⟩
  have hstays (hrefused : ¬ t.MayWrite s path) : t.Leaves s path content way := by
    refine ⟨hrefused, fun h p => ?_, way, hway, Or.inl fun _ => rfl⟩
    rw [(hgoes h).2]
  unfold deliver
  cases result with
  | error f =>
    have hrefused : ¬ t.MayWrite s path := by
      intro hmay
      cases (hgoes hmay.1.receives).1
    exact ⟨.error f, way, Machine.run_bind_of_error _ hrun, Or.inr ⟨⟨f, rfl⟩, hstays hrefused⟩⟩
  | ok =>
    have hexists : ({ s with files := way } : Machine).run
        (Host.exists? path : ExceptT Failure (StateM Machine) Bool).run =
          (.ok (way.look s.cwd path).isOk, { s with files := way }) := rfl
    rw [Machine.run_bind_of_ok _ hrun, Machine.run_bind_of_ok _ hexists]
    split
    · rename_i hstands
      have hrefused : ¬ t.MayWrite s path := by
        rintro ⟨hdelivers, hmay⟩
        rw [← (hgoes hdelivers.receives).2] at hmay
        rcases hmay with hmay | hmay <;> simp [hmay] at hstands
      exact ⟨.error (.outputExists path), way, rfl, Or.inr ⟨⟨_, rfl⟩, hstays hrefused⟩⟩
    · rename_i hgo
      obtain ⟨written, u, hwrite, hwritten⟩ :=
        writeBeside_run { s with files := way } path content
      dsimp only
      rw [Machine.run_bind_of_ok _ (Machine.run_lift hwrite)]
      cases written with
      | error e =>
        exact ⟨.error (.unwritable path e), u, rfl,
          Or.inr ⟨⟨_, rfl⟩, leaves_of_written hway (fun h => (hgoes h).2) hwritten⟩⟩
      | ok =>
        cases hwritten with
        | delivered hq hputs =>
          refine ⟨.ok (), u, rfl, Or.inl ⟨rfl, _, makes_of_written hway hq hputs fun hover => ?_⟩⟩
          simpa [hover] using hgo

end CommandLine

end QbScript
