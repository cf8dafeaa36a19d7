import QbScript.FileTree
import QbScript.Proofs.Outcome
import QbScript.Proofs.Path

/-!
# What is at the places of a tree

A tree is known by what is at each place. Where a path leads depends on the directories alone, so a
path goes on to lead to the same place while no directory is lost.
-/

set_option autoImplicit false

namespace QbScript

namespace FileTree

variable {t u v : FileTree} {p q : Place} {cwd : Place} {path : String}

theorem ne_nil_of_get?_ne (h : t.get? p ≠ some .directory) : p ≠ [] := by
  rintro rfl
  exact h rfl

theorem lookup_filter_ne (entries : List (Place × Node)) (p q : Place) :
    (entries.filter fun e => e.1 ≠ p).lookup q = if q = p then none else entries.lookup q := by
  induction entries with
  | nil => simp
  | cons e entries ih =>
    obtain ⟨k, n⟩ := e
    by_cases hk : k = p
    · subst hk
      rw [List.filter_cons_of_neg (by simp), ih, List.lookup_cons]
      by_cases hq : q = k
      · simp [hq]
      · simp only [if_neg hq, beq_false_of_ne hq]
    · rw [List.filter_cons_of_pos (by simpa using hk), List.lookup_cons, List.lookup_cons, ih]
      by_cases hq : q = k
      · subst hq
        simp [hk]
      · simp only [beq_false_of_ne hq]

theorem get?_erase (t : FileTree) (p q : Place) (hp : p ≠ []) :
    (t.erase p).get? q = if q = p then none else t.get? q := by
  unfold get? erase
  by_cases hq : q = []
  · rw [if_pos hq, if_pos hq, if_neg (fun h : q = p => hp (h.symm.trans hq))]
  · rw [if_neg hq, if_neg hq]
    exact lookup_filter_ne t.entries p q

theorem get?_set (t : FileTree) (p q : Place) (n : Node) (hp : p ≠ []) :
    (t.set p n).get? q = if q = p then some n else t.get? q := by
  have herase := t.get?_erase p q hp
  unfold get? set at *
  by_cases hq : q = []
  · rw [if_pos hq, if_pos hq, if_neg (fun h : q = p => hp (h.symm.trans hq))]
  · rw [if_neg hq, if_neg hq, List.lookup_cons]
    rw [if_neg hq, if_neg hq] at herase
    by_cases h : q = p
    · simp [h]
    · rw [beq_false_of_ne h, if_neg h]
      rwa [if_neg h] at herase

def Same (t u : FileTree) : Prop := ∀ p, t.get? p = u.get? p

/-- The second tree has `n` at the place `p`, and otherwise what the first has. -/
def Puts (t u : FileTree) (p : Place) (n : Node) : Prop :=
  ∀ q, u.get? q = if q = p then some n else t.get? q

theorem puts_set {n : Node} (hp : t.get? p ≠ some .directory) : Puts t (t.set p n) p n :=
  fun q => t.get?_set p q n (ne_nil_of_get?_ne hp)

theorem Puts.get?_self {n : Node} (h : Puts t u p n) : u.get? p = some n := by
  rw [h, if_pos rfl]

theorem Puts.get?_of_ne {n : Node} (h : Puts t u p n) (hq : q ≠ p) : u.get? q = t.get? q := by
  rw [h, if_neg hq]

def DirectoriesIn (t u : FileTree) : Prop :=
  ∀ p, t.get? p = some .directory → u.get? p = some .directory

theorem Puts.directoriesIn {n : Node} (h : Puts t u p n) (hp : t.get? p ≠ some .directory) :
    DirectoriesIn t u := by
  intro q hq
  rwa [h.get?_of_ne]
  rintro rfl
  exact hp hq

theorem directoriesIn_erase (hp : t.get? p ≠ some .directory) : DirectoriesIn t (t.erase p) := by
  intro q hq
  rw [get?_erase t p q (ne_nil_of_get?_ne hp), if_neg]
  · exact hq
  · rintro rfl
    exact hp hq

theorem walk_mono (h : DirectoriesIn t u) {names : List String} (hw : t.walk p names = .ok q) :
    u.walk p names = .ok q := by
  induction names generalizing p with
  | nil => exact hw
  | cons c names ih =>
    unfold walk at hw ⊢
    cases hp : t.get? p with
    | none =>
      rw [hp] at hw
      cases hw
    | some n =>
      rw [hp] at hw
      cases n with
      | file bytes => cases hw
      | directory =>
        rw [h p hp]
        dsimp only at hw ⊢
        split_ifs at hw ⊢
        · exact ih hw
        · exact ih hw
        · exact ih hw

theorem locate_mono (h : DirectoriesIn t u) (hl : t.locate cwd path = .ok q) :
    u.locate cwd path = .ok q := by
  unfold locate at hl ⊢
  split at hl
  · cases hl
  · rename_i hne
    rw [if_neg hne]
    split at hl
    · cases hl
    · rename_i hlen
      rw [if_neg hlen]
      exact walk_mono h hl

/-! ### Where a file can be put -/

/-- The path leads to the place `q`, where a file can be put. -/
structure Takes (t : FileTree) (cwd : Place) (path : String) (q : Place) : Prop where
  locate : t.locate cwd path = .ok q
  ne_directory : t.get? q ≠ some .directory
  not_asksDirectory : asksDirectory path = false

def Receives (t : FileTree) (cwd : Place) (path : String) : Prop := ∃ q, Takes t cwd path q

theorem Takes.mono (h : Takes t cwd path q) (hd : DirectoriesIn t u)
    (hq : u.get? q ≠ some .directory) : Takes u cwd path q :=
  ⟨locate_mono hd h.locate, hq, h.not_asksDirectory⟩

theorem Receives.of_directories (h : Receives u cwd path) (hd : DirectoriesIn u t)
    (hd' : DirectoriesIn t u) : Receives t cwd path := by
  obtain ⟨q, hq⟩ := h
  exact ⟨q, hq.mono hd fun hdir => hq.ne_directory (hd' q hdir)⟩

theorem Takes.place_eq (hp : Takes t cwd path p) (hq : Takes t cwd path q) : p = q :=
  Except.ok.inj (hp.locate.symm.trans hq.locate)

theorem Takes.look_eq (h : Takes t cwd path q) :
    t.look cwd path = match t.get? q with
      | none => .error .notFound
      | some n => .ok n := by
  have hdir := h.ne_directory
  unfold look
  rw [h.locate, ok_bind]
  cases hq : t.get? q with
  | none => rfl
  | some n =>
    cases n with
    | directory => exact absurd hq hdir
    | file bytes => simp [h.not_asksDirectory]

theorem Takes.get?_eq_none (h : Takes t cwd path q) (hlook : (t.look cwd path).isOk = false) :
    t.get? q = none := by
  rw [h.look_eq] at hlook
  cases hq : t.get? q with
  | none => rfl
  | some n =>
    rw [hq] at hlook
    cases hlook

theorem look_eq_file_iff {bytes : List UInt8} :
    t.look cwd path = .ok (.file bytes) ↔
      ∃ q, Takes t cwd path q ∧ t.get? q = some (.file bytes) := by
  constructor
  · intro h
    unfold look at h
    obtain ⟨q, hq, h⟩ := bind_eq_ok_iff.mp h
    cases hn : t.get? q with
    | none =>
      rw [hn] at h
      cases h
    | some n =>
      rw [hn] at h
      cases n with
      | directory => cases h
      | file bytes' =>
        dsimp only at h
        split at h
        · cases h
        · rename_i hasks
          obtain rfl : bytes' = bytes := by simpa using h
          refine ⟨q, ⟨hq, by simp [hn], by simpa using hasks⟩, hn⟩
  · rintro ⟨q, hq, hn⟩
    rw [hq.look_eq, hn]

theorem look_eq_directory_iff :
    t.look cwd path = .ok .directory ↔
      ∃ q, t.locate cwd path = .ok q ∧ t.get? q = some .directory := by
  unfold look
  rw [bind_eq_ok_iff]
  refine exists_congr fun q => and_congr_right fun _ => ?_
  cases t.get? q with
  | none => simp
  | some n =>
    cases n with
    | directory => simp
    | file bytes =>
      dsimp only
      split <;> simp

theorem writeFile_eq_ok_iff {bytes : List UInt8} :
    t.writeFile cwd path bytes = .ok u ↔
      ∃ q, Takes t cwd path q ∧ u = t.set q (.file bytes) := by
  unfold writeFile
  rw [bind_eq_ok_iff]
  refine exists_congr fun q => ?_
  constructor
  · rintro ⟨hq, h⟩
    split at h
    · cases h
    · rename_i hno
      obtain ⟨hasks, hdir⟩ := not_or.mp hno
      exact ⟨⟨hq, hdir, by simpa using hasks⟩, (Except.ok.inj h).symm⟩
  · rintro ⟨⟨hq, hdir, hasks⟩, rfl⟩
    exact ⟨hq, by simp [hasks, hdir]⟩

theorem removeFile_eq_ok_iff :
    t.removeFile cwd path = .ok u ↔
      ∃ q bytes, Takes t cwd path q ∧ t.get? q = some (.file bytes) ∧ u = t.erase q := by
  unfold removeFile
  rw [bind_eq_ok_iff]
  refine exists_congr fun q => ?_
  rw [bind_eq_ok_iff]
  constructor
  · rintro ⟨hq, n, hn, h⟩
    cases n with
    | directory => cases h
    | file bytes =>
      obtain ⟨q', hq', hbytes⟩ := look_eq_file_iff.mp hn
      obtain rfl := Except.ok.inj (hq.symm.trans hq'.locate)
      exact ⟨bytes, hq', hbytes, (Except.ok.inj h).symm⟩
  · rintro ⟨bytes, hq, hbytes, rfl⟩
    exact ⟨hq.locate, .file bytes, look_eq_file_iff.mpr ⟨q, hq, hbytes⟩, rfl⟩

theorem makeDirectory_eq_ok_iff :
    t.makeDirectory cwd path = .ok u ↔
      ∃ q, t.locate cwd path = .ok q ∧ t.get? q = none ∧ u = t.set q .directory := by
  unfold makeDirectory
  rw [bind_eq_ok_iff]
  refine exists_congr fun q => and_congr_right fun hq => ?_
  cases hn : t.get? q with
  | none => simp [eq_comm]
  | some n => simp

theorem rename_of_takes {source target : String} {bytes : List UInt8}
    (hs : Takes t cwd source p) (hbytes : t.get? p = some (.file bytes))
    (ht : Takes t cwd target q) :
    t.rename cwd source target = .ok ((t.erase p).set q (.file bytes)) := by
  unfold rename
  rw [hs.locate, ok_bind, look_eq_file_iff.mpr ⟨p, hs, hbytes⟩, ok_bind]
  dsimp only
  rw [ht.locate, ok_bind, if_neg ht.ne_directory, if_neg (by simp [ht.not_asksDirectory])]

/-- Only a file is moved, and only where a file can be put. -/
theorem of_rename_eq_ok {source target : String} (h : t.rename cwd source target = .ok u) :
    (∃ bytes, t.look cwd source = .ok (.file bytes)) ∧ Receives t cwd target := by
  unfold rename at h
  obtain ⟨p, -, h⟩ := bind_eq_ok_iff.mp h
  obtain ⟨n, hn, h⟩ := bind_eq_ok_iff.mp h
  cases n with
  | directory => cases h
  | file bytes =>
    obtain ⟨q, hq, h⟩ := bind_eq_ok_iff.mp h
    split at h
    · cases h
    · rename_i hdir
      split at h
      · cases h
      · rename_i hasks
        exact ⟨⟨bytes, hn⟩, q, hq, hdir, by simpa using hasks⟩

theorem readFile_eq_ok_iff {bytes : List UInt8} :
    t.readFile cwd path = .ok bytes ↔ t.look cwd path = .ok (.file bytes) := by
  unfold readFile
  rw [bind_eq_ok_iff]
  constructor
  · rintro ⟨n, hn, h⟩
    cases n with
    | directory => cases h
    | file bytes' =>
      obtain rfl := Except.ok.inj h
      exact hn
  · intro h
    exact ⟨.file bytes, h, rfl⟩

/-! ### The directory of a path -/

theorem components_append (d r : List Char) :
    components (String.ofList (d ++ '/' :: r)) =
      components (String.ofList d) ++ components (String.ofList r) := by
  unfold components
  simp only [String.toList_ofList]
  rw [List.splitOnP_append_cons d r (by simp), List.filter_append, List.map_append]

theorem components_ne_nil {r : List Char} {d : Char} (hd : d ∈ r) (hne : d ≠ '/') :
    components (String.ofList r) ≠ [] := by
  unfold components
  rw [String.toList_ofList, Ne, List.map_eq_nil_iff]
  induction r with
  | nil => cases hd
  | cons x r ih =>
    rw [List.splitOnP_cons_eq_if_modifyHead]
    by_cases hx : x = '/'
    · rw [if_pos (by simpa using hx), List.filter_cons_of_neg (by simp)]
      exact ih ((List.mem_cons.mp hd).resolve_left fun h => hne (h.trans hx))
    · rw [if_neg (by simpa using hx)]
      cases hsplit : r.splitOnP (· = '/') with
      | nil => exact absurd hsplit (List.splitOnP_ne_nil _ _)
      | cons first rest =>
        rw [List.modifyHead_cons, List.filter_cons_of_pos (by simp)]
        exact List.cons_ne_nil _ _

theorem walk_append (t : FileTree) (p : Place) (xs ys : List String) :
    t.walk p (xs ++ ys) = t.walk p xs >>= fun q => t.walk q ys := by
  induction xs generalizing p with
  | nil => rfl
  | cons c xs ih =>
    simp only [List.cons_append, walk]
    cases t.get? p with
    | none => rfl
    | some n =>
      cases n with
      | file bytes => rfl
      | directory =>
        dsimp only
        split_ifs
        · exact ih p
        · exact ih p.dropLast
        · rfl
        · exact ih (p ++ [c])

theorem directory_of_walk {names : List String} (hne : names ≠ []) (h : t.walk p names = .ok q) :
    t.get? p = some .directory := by
  cases names with
  | nil => exact absurd rfl hne
  | cons c names =>
    unfold walk at h
    cases hp : t.get? p with
    | none =>
      rw [hp] at h
      cases h
    | some n =>
      cases n with
      | directory => rfl
      | file bytes =>
        rw [hp] at h
        cases h

/-- Where a path leads on below a directory, that directory is there. -/
theorem look_of_locate_append {d r : List Char} {c : Char} (hd : d ≠ []) (hc : c ∈ r)
    (hne : c ≠ '/') (h : t.locate cwd (String.ofList (d ++ '/' :: r)) = .ok q) :
    t.look cwd (String.ofList d) = .ok .directory := by
  unfold locate at h
  have hstart : (String.ofList (d ++ '/' :: r)).toList.head? = (String.ofList d).toList.head? := by
    rw [String.toList_ofList, String.toList_ofList, List.head?_append_of_ne_nil _ hd]
  rw [hstart, components_append, walk_append] at h
  split at h
  · cases h
  · split at h
    · cases h
    · rename_i hlen
      obtain ⟨m, hm, hrest⟩ := bind_eq_ok_iff.mp h
      have hdir := directory_of_walk (components_ne_nil hc hne) hrest
      have hshort : ¬ maxPath < (Utf8.ofString (String.ofList d)).length := by
        simp only [Utf8.ofString, Utf8.encode, String.toList_ofList, List.flatMap_append,
          List.length_append] at hlen ⊢
        omega
      have hempty : String.ofList d ≠ "" := by
        intro he
        exact hd (by simpa using congrArg String.toList he)
      unfold look locate
      rw [if_neg hempty, if_neg hshort, hm, ok_bind, hdir]

/-- The directory of a path that receives a file is there. -/
theorem Receives.parent {dir : String} (h : Receives t cwd path)
    (hdir : Path.parent? path = some dir) : dir = "" ∨ t.look cwd dir = .ok .directory := by
  obtain ⟨q, hlocate, -, -⟩ := h
  unfold Path.parent? at hdir
  split at hdir
  · rename_i parts hparts
    obtain rfl := Option.some.inj hdir
    obtain ⟨b, sep, rest, hpath, hparent, -, hname, -, hsep⟩ := Path.exists_of_parts? hparts
    obtain ⟨body, hpath', hlead⟩ := Path.exists_lead path.toList
    have hbody : body = b ++ (sep ++ (parts.name ++ rest)) :=
      List.append_cancel_left (hpath'.symm.trans hpath)
    rw [hparent]
    -- Below the root alone nothing separates the name from the directory.
    by_cases hroot : Path.lead path.toList = ['/'] ∧ b = []
    · obtain ⟨hl, rfl⟩ := hroot
      rw [hl]
      exact Or.inr rfl
    by_cases hempty : Path.lead path.toList ++ b = []
    · rw [hempty]
      exact Or.inl rfl
    have hstart : (sep ++ (parts.name ++ rest)).head? = some '/' := by
      rcases hsep with rfl | hsep
      · rcases hlead with hlead | ⟨-, hnil | hslash⟩ | ⟨hlead, -⟩
        · exact absurd ⟨hlead, rfl⟩ hroot
        · rw [hnil] at hbody
          simp [hname.ne_nil] at hbody
        · rwa [hbody] at hslash
        · exact absurd (by rw [hlead]; rfl) hempty
      · rw [List.head?_append, hsep]
        rfl
    obtain ⟨r, hr⟩ := List.head?_eq_some_iff.mp hstart
    obtain ⟨c, hc⟩ := List.exists_mem_of_ne_nil parts.name hname.ne_nil
    have hslash : c ≠ '/' := fun h => hname.slash_notMem (h ▸ hc)
    have hmem : c ∈ r := by
      have hin : c ∈ sep ++ (parts.name ++ rest) := by simp [hc]
      rw [hr] at hin
      exact (List.mem_cons.mp hin).resolve_left hslash
    rw [hr, ← List.append_assoc] at hpath
    rw [← String.ofList_toList (s := path), hpath] at hlocate
    exact Or.inr (look_of_locate_append hempty hmem hslash hlocate)
  · split at hdir
    · exact Or.inl (Option.some.inj hdir).symm
    · cases hdir

end FileTree

namespace Machine

variable {α β : Type}

def run (s : Machine) (x : StateM Machine α) : α × Machine := x s

def changed (s : Machine) : Except OsError FileTree → Except OsError Unit × Machine
  | .ok files => (.ok (), { s with files })
  | .error e => (.error e, s)

variable (s : Machine)

@[simp] theorem run_pure (a : α) : s.run (pure a) = (a, s) := rfl

@[simp] theorem run_bind (x : StateM Machine α) (f : α → StateM Machine β) :
    s.run (x >>= f) = (s.run x).2.run (f (s.run x).1) := rfl

@[simp] theorem changed_ok (files : FileTree) :
    s.changed (.ok files) = (.ok (), { s with files }) := rfl

@[simp] theorem changed_error (e : OsError) : s.changed (.error e) = (.error e, s) := rfl

theorem run_change (f : FileTree → Place → Except OsError FileTree) :
    s.run (change f) = s.changed (f s.files s.cwd) := by
  unfold run change
  cases f s.files s.cwd <;> rfl

@[simp] theorem run_readFile (path : String) :
    s.run (Host.readFile path) = (s.files.readFile s.cwd path, s) := rfl

@[simp] theorem run_exists (path : String) :
    s.run (Host.exists? path) = ((s.files.look s.cwd path).isOk, s) := rfl

@[simp] theorem run_isDirectory (path : String) :
    s.run (Host.isDirectory path) =
      (decide ((s.files.look s.cwd path).toOption = some .directory), s) := rfl

@[simp] theorem run_writeFile (path : String) (bytes : List UInt8) :
    s.run (Host.writeFile path bytes) = s.changed (s.files.writeFile s.cwd path bytes) :=
  s.run_change _

@[simp] theorem run_makeDirectory (path : String) :
    s.run (Host.makeDirectory path) = s.changed (s.files.makeDirectory s.cwd path) :=
  s.run_change _

@[simp] theorem run_removeFile (path : String) :
    s.run (Host.removeFile path) = s.changed (s.files.removeFile s.cwd path) :=
  s.run_change _

@[simp] theorem run_rename (source target : String) :
    s.run (Host.rename source target) = s.changed (s.files.rename s.cwd source target) :=
  s.run_change _

variable {ε : Type} {x : ExceptT ε (StateM Machine) α} {s} {s' : Machine}

theorem run_bind_of_ok {a : α} (f : α → ExceptT ε (StateM Machine) β)
    (h : s.run x.run = (.ok a, s')) : s.run (x >>= f).run = s'.run (f a).run := by
  rw [ExceptT.run_bind, run_bind, h]

theorem run_bind_of_error {e : ε} (f : α → ExceptT ε (StateM Machine) β)
    (h : s.run x.run = (.error e, s')) : s.run (x >>= f).run = (.error e, s') := by
  rw [ExceptT.run_bind, run_bind, h]
  rfl

/-- What leaves the machine as it is only decides what is run after it. -/
theorem run_bind_of_same {y : Except ε α} (f : α → ExceptT ε (StateM Machine) β) :
    s.run x.run = (y, s) → s.run (x >>= f).run = match y with
      | .ok a => s.run (f a).run
      | .error e => (.error e, s) := by
  intro h
  cases y with
  | ok a => exact run_bind_of_ok f h
  | error e => exact run_bind_of_error f h

theorem run_lift {y : StateM Machine α} {a : α} (h : s.run y = (a, s')) :
    s.run (liftM y : ExceptT ε (StateM Machine) α).run = (.ok a, s') :=
  congrArg (Prod.map Except.ok id) h

theorem run_outcome (y : Except ε α) (s : Machine) :
    s.run (liftM y : ExceptT ε (StateM Machine) α).run = (y, s) := by
  cases y <;> rfl

end Machine

end QbScript
