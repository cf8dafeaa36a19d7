import QbScript.CommandLine.Run
import QbScript.Proofs.CommandLine.Delivery

/-!
# What a run does to the files

A run that ends well has made its product, at the place that its path leads to, and nothing else but
directories on the way there; so ends every run that has a product and can write it. A run that fails
leaves all files as they were, except where the path that it would write receives no file: there the
draft may stay, and what it made of the way.
-/

set_option autoImplicit false

namespace QbScript

open FileTree

namespace CommandLine

variable {t : Task} {s : Machine} {o : Outcome} {u : FileTree}

def Task.source (t : Task) (s : Machine) : Except Failure (List UInt8) :=
  match t.input with
  | .standard => .ok s.input
  | .file path => (s.files.readFile s.cwd path).mapError (.unreadable t.action path)

def Task.product (t : Task) (s : Machine) : Except Failure Product := t.source s >>= t.convert

inductive Task.Succeeds (t : Task) (s : Machine) (o : Outcome) (u : FileTree) : Prop
  | printed {product : Product} : t.product s = .ok product → t.destination = .ok none →
      o.output = product.content → Same s.files u → Succeeds t s o u
  | written {product : Product} {path : String} {q : Place} : t.product s = .ok product →
      t.destination = .ok (some path) → o.output = [] → t.Makes s path product.content u q →
      Succeeds t s o u

inductive Task.Fails (t : Task) (s : Machine) (u : FileTree) : Prop
  | before : (∀ product destination, t.product s = .ok product → t.destination ≠ .ok destination) →
      Same s.files u → Fails t s u
  | writing {product : Product} {path : String} : t.product s = .ok product →
      t.destination = .ok (some path) → t.Leaves s path product.content u → Fails t s u

theorem Task.read_run (t : Task) (s : Machine) : s.run t.read.run = (t.source s, s) := by
  unfold read source
  cases t.input with
  | standard => rfl
  | file path =>
    have hread : s.run (Host.readFile path : ExceptT Failure (StateM Machine) _).run =
        (.ok (s.files.readFile s.cwd path), s) := rfl
    dsimp only
    rw [Machine.run_bind_of_ok _ hread]
    cases s.files.readFile s.cwd path <;> rfl

def Task.Ends (t : Task) (s : Machine) : Except Failure Outcome → FileTree → Prop
  | .ok o, u => o.status = 0 ∧ t.Succeeds s o u
  | .error _, u => t.Fails s u

theorem Task.execute_run (t : Task) (s : Machine) :
    ∃ result u, s.run t.execute.run = (result, { s with files := u }) ∧ t.Ends s result u := by
  have hnow : s.run (Host.now : ExceptT Failure (StateM Machine) Nat).run = (.ok 0, s) := rfl
  unfold execute
  rw [Machine.run_bind_of_same _ (t.read_run s)]
  cases hsource : t.source s with
  | error f =>
    refine ⟨.error f, s.files, rfl, .before (fun product _ hmade => ?_) fun _ => rfl⟩
    rw [Task.product, hsource] at hmade
    cases hmade
  | ok bytes =>
    have hconvert : t.product s = t.convert bytes := by rw [Task.product, hsource, ok_bind]
    dsimp only
    rw [Machine.run_bind_of_ok _ hnow,
      Machine.run_bind_of_same _ (Machine.run_outcome (t.convert bytes) s)]
    cases hproduct : t.convert bytes with
    | error f =>
      refine ⟨.error f, s.files, rfl, .before (fun product _ hmade => ?_) fun _ => rfl⟩
      rw [hconvert, hproduct] at hmade
      cases hmade
    | ok product =>
      have hmade := hconvert.trans hproduct
      dsimp only
      rw [Machine.run_bind_of_ok _ hnow,
        Machine.run_bind_of_same _ (Machine.run_outcome t.destination s)]
      cases hdest : t.destination with
      | error f =>
        refine ⟨.error f, s.files, rfl, .before (fun _ _ _ hdest' => ?_) fun _ => rfl⟩
        rw [hdest] at hdest'
        cases hdest'
      | ok destination =>
        cases destination with
        | none =>
          exact ⟨.ok _, s.files, rfl, rfl, .printed hmade hdest rfl fun _ => rfl⟩
        | some path =>
          obtain ⟨result, u, hdeliver, hend⟩ := t.deliver_run path product.content s
          dsimp only
          rcases hend with ⟨rfl, q, hmakes⟩ | ⟨⟨f, rfl⟩, hleaves⟩
          · rw [Machine.run_bind_of_ok _ hdeliver]
            exact ⟨.ok _, u, rfl, rfl, .written hmade hdest rfl hmakes⟩
          · rw [Machine.run_bind_of_error _ hdeliver]
            exact ⟨.error f, u, rfl, .writing hmade hdest hleaves⟩

theorem Task.Succeeds.kept (h : t.Succeeds s o u) (hover : t.overwrite = false) {p : Place}
    {n : Node} (hp : s.files.get? p = some n) : u.get? p = some n := by
  cases h with
  | printed _ _ _ hsame => exact (hsame p).symm.trans hp
  | @written _ path q _ _ _ hmakes =>
    have hne : p ≠ q := by
      rintro rfl
      rw [hmakes.free hover] at hp
      cases hp
    exact (hmakes.others p hne).kept hp

theorem Task.Fails.kept (h : t.Fails s u) {p : Place} {n : Node}
    (hp : s.files.get? p = some n) : u.get? p = some n := by
  cases h with
  | before _ hsame => exact (hsame p).symm.trans hp
  | writing _ _ hleaves =>
    obtain ⟨way, hway, hend⟩ := hleaves.left
    have hwayp := (hway p).kept hp
    rcases hend with hsame | ⟨-, d, -, hfree, hputs⟩
    · exact (hsame p).symm.trans hwayp
    · rw [hputs.get?_of_ne]
      · exact hwayp
      · rintro rfl
        rw [hfree] at hwayp
        cases hwayp

theorem Task.Fails.same (h : t.Fails s u)
    (hreceives : ∀ product path, t.product s = .ok product → t.destination = .ok (some path) →
      Receives s.files s.cwd path) : Same s.files u := by
  cases h with
  | before _ hsame => exact hsame
  | writing hproduct hdest hleaves => exact hleaves.same (hreceives _ _ hproduct hdest)

theorem Task.Fails.not_mayWrite (h : t.Fails s u) {product : Product} {destination : Option String}
    (hproduct : t.product s = .ok product) (hdest : t.destination = .ok destination) :
    ∃ path, destination = some path ∧ ¬ t.MayWrite s path := by
  cases h with
  | before hnone _ => exact absurd hdest (hnone _ _ hproduct)
  | @writing _ path _ hdest' hleaves =>
    obtain rfl := Except.ok.inj (hdest.symm.trans hdest')
    exact ⟨path, rfl, hleaves.refused⟩

/-- What becomes of the files when a task is run. -/
structure Task.Accounts (t : Task) (s : Machine) (o : Outcome) (u : FileTree) : Prop where
  status : o.status = 0 ∨ o.status = 1
  /-- A run that has a product does not fail, unless it cannot write. -/
  progress : ∀ product destination, t.product s = .ok product → t.destination = .ok destination →
    (∀ path, destination = some path → t.MayWrite s path) → o.status = 0
  succeeds : o.status = 0 → t.Succeeds s o u
  fails : o.status = 1 → t.Fails s u
  /-- A run that fails leaves all as it was, if what it would write goes to a path that receives
  a file. -/
  same : o.status = 1 →
    (∀ product path, t.product s = .ok product → t.destination = .ok (some path) →
      Receives s.files s.cwd path) → Same s.files u
  /-- What there was stays, unless a file is overwritten on request. -/
  kept : o.status = 1 ∨ t.overwrite = false → ∀ p n, s.files.get? p = some n → u.get? p = some n

theorem Task.accounts_of_succeeds (h : t.Succeeds s o u) (ho : o.status = 0) :
    t.Accounts s o u where
  status := Or.inl ho
  progress _ _ _ _ _ := ho
  succeeds _ := h
  fails hfail := by simp [ho] at hfail
  same hfail := by simp [ho] at hfail
  kept hover p n hp := h.kept (hover.resolve_left (by simp [ho])) hp

theorem Task.accounts_of_fails (h : t.Fails s u) (ho : o.status = 1) : t.Accounts s o u where
  status := Or.inr ho
  progress product destination hproduct hdest hmay := by
    obtain ⟨path, hpath, hno⟩ := h.not_mayWrite hproduct hdest
    exact absurd (hmay path hpath) hno
  succeeds hdone := by simp [ho] at hdone
  fails _ := h
  same _ hreceives := h.same hreceives
  kept _ p n hp := h.kept hp

theorem Command.run_eq {c : Command} (ht : c.task? = none) (s : Machine) :
    s.run c.run = (⟨101, [], "capacity overflow\n"⟩, s) := by
  unfold Command.run
  rw [ht]
  rfl

theorem Command.run_accounts_of_task {c : Command} (ht : c.task? = some t) (s : Machine) :
    (s.run c.run).2.cwd = s.cwd ∧ (s.run c.run).2.input = s.input ∧
      t.Accounts s (s.run c.run).1 (s.run c.run).2.files := by
  obtain ⟨result, u, hrun, hend⟩ := t.execute_run s
  unfold Command.run
  rw [ht]
  dsimp only
  rw [Machine.run_bind, hrun]
  cases result with
  | ok o => exact ⟨rfl, rfl, Task.accounts_of_succeeds hend.2 hend.1⟩
  | error f => exact ⟨rfl, rfl, Task.accounts_of_fails hend rfl⟩

/-- However a command line is read, its run makes the file that it is asked for and nothing else, or
fails and leaves all as it was, except that a path which receives no file may be left with a draft
beside it. A command line that is refused, or breaks the program off, touches nothing. -/
theorem run_accounts {ω : Type} (parse : List ω → Except Refusal Command) (words : List ω)
    (s : Machine) :
    (s.run (runWith parse words)).2.cwd = s.cwd ∧ (s.run (runWith parse words)).2.input = s.input ∧
      match parse words with
      | .error _ =>
        (s.run (runWith parse words)).1.status ≠ 1 ∧ (s.run (runWith parse words)).2 = s
      | .ok c =>
        match c.task? with
        | none =>
          (s.run (runWith parse words)).1.status = 101 ∧ (s.run (runWith parse words)).2 = s
        | some t =>
          t.Accounts s (s.run (runWith parse words)).1 (s.run (runWith parse words)).2.files := by
  unfold runWith
  cases parse words with
  | error r => cases r <;> exact ⟨rfl, rfl, nofun, rfl⟩
  | ok c =>
    dsimp only
    cases ht : c.task? with
    | none =>
      rw [Command.run_eq ht]
      exact ⟨rfl, rfl, rfl, rfl⟩
    | some t => exact Command.run_accounts_of_task ht s

def sourceAndDirectory : Machine where
  files := ⟨[(["a.q"], .file [0x61, 0x0a]), (["d"], .directory)]⟩
  cwd := []
  input := []

def compileTo (output : String) (overwrite : Bool) : Command :=
  .compile ⟨some "a.q", some output, false, overwrite, false, false⟩ .plain false

def compileIntoDirectory : Task where
  action := .compile ⟨.plain, false⟩
  input := .file "a.q"
  output := .file "d/b.qb"
  mkdir := false
  overwrite := false
  time := false

/-- A file that stands is not written over, and a new one is made. No row of spaces is as long as
the one that the last command asks for. -/
theorem run_accounts_existing_and_new :
    Command.ofWords ["compile", "a.q", "-o", "a.q"] = .ok (compileTo "a.q" false) ∧
      Same sourceAndDirectory.files
        (sourceAndDirectory.run (run ["compile", "a.q", "-o", "a.q"])).2.files ∧
      Command.ofWords ["compile", "a.q", "-o", "d/b.qb"] = .ok (compileTo "d/b.qb" false) ∧
      (∃ content, (sourceAndDirectory.run
        (run ["compile", "a.q", "-o", "d/b.qb"])).2.files.readFile [] "d/b.qb" = .ok content) ∧
      (sourceAndDirectory.run
        (run ["decompile", "a.q", "--indent-spaces", "18446744073709551615"])).1.status = 101 := by
  have hstands : Command.ofWords ["compile", "a.q", "-o", "a.q"] = .ok (compileTo "a.q" false) := by
    decide +kernel
  have hnew : Command.ofWords ["compile", "a.q", "-o", "d/b.qb"] =
      .ok (compileTo "d/b.qb" false) := by
    decide +kernel
  have hwide : Command.ofWords ["decompile", "a.q", "--indent-spaces", "18446744073709551615"] =
      .ok (.decompile ⟨some "a.q", none, false, false, false, false⟩ false
        (some 0xffffffffffffffff)) := by
    decide +kernel
  refine ⟨hstands, ?_, hnew, ?_, ?_⟩
  · obtain ⟨-, -, hrun⟩ :=
      run_accounts Command.ofWords ["compile", "a.q", "-o", "a.q"] sourceAndDirectory
    rw [hstands] at hrun
    refine hrun.same (by decide +kernel) fun product path _ hdest => ?_
    have hpath : some "a.q" = some path := Except.ok.inj hdest
    obtain rfl := Option.some.inj hpath
    exact ⟨["a.q"], by decide, by decide, by decide⟩
  · obtain ⟨-, -, hrun⟩ :=
      run_accounts Command.ofWords ["compile", "a.q", "-o", "d/b.qb"] sourceAndDirectory
    have ht : (compileTo "d/b.qb" false).task? = some compileIntoDirectory := rfl
    rw [hnew] at hrun
    dsimp only at hrun
    rw [ht] at hrun
    dsimp only at hrun
    have hdest : compileIntoDirectory.destination = .ok (some "d/b.qb") := rfl
    have hmay : compileIntoDirectory.MayWrite sourceAndDirectory "d/b.qb" :=
      ⟨⟨["d", "b.qb"], 0, ["d", "b.qb.tmp0"], ⟨by decide, by decide, by decide⟩, by decide,
        ⟨nofun, by decide +kernel⟩, ⟨by decide +kernel, by decide, by decide +kernel⟩, by decide⟩,
        Or.inr (by decide)⟩
    have hmade : (compileIntoDirectory.product sourceAndDirectory).isOk = true := by
      decide +kernel
    cases hproduct : compileIntoDirectory.product sourceAndDirectory with
    | error f =>
      rw [hproduct] at hmade
      cases hmade
    | ok product =>
      have hstatus := hrun.progress product _ hproduct hdest fun path hpath => by
        obtain rfl := Option.some.inj hpath
        exact hmay
      cases hrun.succeeds hstatus with
      | printed _ hdest' =>
        cases hdest.symm.trans hdest'
      | written _ hdest' _ hmakes =>
        obtain rfl := Option.some.inj (Except.ok.inj (hdest.symm.trans hdest'))
        exact ⟨_, hmakes.readFile⟩
  · obtain ⟨-, -, hrun⟩ := run_accounts Command.ofWords
      ["decompile", "a.q", "--indent-spaces", "18446744073709551615"] sourceAndDirectory
    rw [hwide] at hrun
    exact hrun.1

/-- The file cannot take the place of the directory, and its draft stays. -/
theorem draft_stays_beside_directory :
    Command.ofWords ["compile", "a.q", "-o", "d", "--overwrite"] = .ok (compileTo "d" true) ∧
      (sourceAndDirectory.run (compileTo "d" true).run).1.status = 1 ∧
      ¬ Same sourceAndDirectory.files
        (sourceAndDirectory.run (compileTo "d" true).run).2.files := by
  refine ⟨by decide +kernel, by decide +kernel, fun hsame => ?_⟩
  have hdraft := hsame ["d.tmp0"]
  revert hdraft
  decide +kernel

end CommandLine

end QbScript
