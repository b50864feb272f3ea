import Rucbase.Storage.Equiv.DiskManager

/-!
# The table of open files

`FilesOk` is the invariant of the disk manager's tables: descriptors that are open are listed under
the path they were opened by, and no two descriptors are open on one file.  It is kept by creating,
destroying and closing files, and by opening a file that is open nowhere.  (`open_file` refuses a
path that is listed already, but not a second path that names the same file.)
-/

namespace Rucbase

/-- An operating system without files. -/
def noFiles : Os := ⟨⟨id, fun _ => none⟩, fun _ => .empty, fun _ => none, 0⟩

namespace DiskManager

/-- The tables of the disk manager agree with the operating system. -/
structure FilesOk (dm : DiskManager) : Prop where
  dir_lt : ∀ {path i}, dm.os.dir.find path = some i → i < dm.os.nextInode
  open_lt : ∀ {fd o}, dm.os.fds fd = some o → o.inode < dm.os.nextInode
  open_path : ∀ {fd o}, dm.os.fds fd = some o → ∃ path, dm.fd2path fd = some path ∧
    dm.path2fd path = some fd
  listed_open : ∀ {fd path}, dm.fd2path fd = some path → ∃ o, dm.os.fds fd = some o
  distinct : dm.DistinctFiles

/-- No descriptor is open on the file. -/
def Unopened (dm : DiskManager) (i : Nat) : Prop :=
  ∀ fd o, dm.os.fds fd = some o → o.inode ≠ i

/-- The same descriptors are open on the same files. -/
def SameInodes (dm dm' : DiskManager) : Prop :=
  ∀ fd, (dm'.os.fds fd).map OpenFile.inode = (dm.os.fds fd).map OpenFile.inode

variable {dm dm' : DiskManager}

theorem SameInodes.exists_open (h : SameInodes dm dm') {fd : Int} {o : OpenFile}
    (ho : dm'.os.fds fd = some o) : ∃ o', dm.os.fds fd = some o' ∧ o'.inode = o.inode := by
  have := h fd
  rw [ho] at this
  exact Option.map_eq_some_iff.mp this.symm

theorem SameInodes.symm (h : SameInodes dm dm') : SameInodes dm' dm := fun fd => (h fd).symm

theorem SameInodes.unopened (h : SameInodes dm dm') {i : Nat} (hi : dm.Unopened i) :
    dm'.Unopened i := by
  intro fd o ho
  obtain ⟨o', ho', he⟩ := h.exists_open ho
  rw [← he]
  exact hi fd o' ho'

/-- The number the next file gets is the number of no open file. -/
theorem FilesOk.unopened_next (h : FilesOk dm) : dm.Unopened dm.os.nextInode :=
  fun _ _ ho => ne_of_lt (h.open_lt ho)

theorem FilesOk.new (os : Os) (hlt : ∀ {path i}, os.dir.find path = some i → i < os.nextInode)
    (hfds : ∀ fd, os.fds fd = none) : FilesOk (.new os) where
  dir_lt := hlt
  open_lt h := by simp [DiskManager.new, hfds] at h
  open_path h := by simp [DiskManager.new, hfds] at h
  listed_open h := by simp [DiskManager.new] at h
  distinct fd fd' o o' h := by simp [DiskManager.new, hfds] at h

/-- Positions, bytes and page counters do not matter. -/
theorem FilesOk.congr (h : FilesOk dm) (hi : SameInodes dm dm') (hdir : dm'.os.dir = dm.os.dir)
    (hnext : dm'.os.nextInode = dm.os.nextInode) (hpath : dm'.path2fd = dm.path2fd)
    (hfd : dm'.fd2path = dm.fd2path) : FilesOk dm' where
  dir_lt h1 := by
    rw [hdir] at h1
    rw [hnext]
    exact h.dir_lt h1
  open_lt ho := by
    obtain ⟨o', ho', he⟩ := hi.exists_open ho
    rw [hnext, ← he]
    exact h.open_lt ho'
  open_path ho := by
    obtain ⟨o', ho', he⟩ := hi.exists_open ho
    rw [hpath, hfd]
    exact h.open_path ho'
  listed_open h1 := by
    obtain ⟨o, ho⟩ := h.listed_open (hfd ▸ h1)
    obtain ⟨o', ho', -⟩ := hi.symm.exists_open ho
    exact ⟨o', ho'⟩
  distinct fd fd' o o' ho ho' he := by
    obtain ⟨q, hq, hqi⟩ := hi.exists_open ho
    obtain ⟨q', hq', hqi'⟩ := hi.exists_open ho'
    exact h.distinct fd fd' q q' hq hq' (by rw [hqi, hqi', he])

theorem SameOpen.filesOk (h : SameOpen dm dm') (hf : FilesOk dm) : FilesOk dm' :=
  hf.congr (fun fd => (h.inode fd).symm) h.dir h.nextInode h.path2fd h.fd2path

/-- A path is unlinked. -/
theorem FilesOk.unlink (h : FilesOk dm) (path : String) :
    FilesOk { dm with os := { dm.os with dir := dm.os.dir.set path none } } where
  dir_lt {q i} h1 := by
    by_cases hq : dm.os.dir.resolve q = dm.os.dir.resolve path
    · rw [Directory.find_set_of_eq hq] at h1
      cases h1
    · rw [Directory.find_set_of_ne hq] at h1
      exact h.dir_lt h1
  open_lt := h.open_lt
  open_path := h.open_path
  listed_open := h.listed_open
  distinct := h.distinct

/-- A file with a fresh number appears under a path. -/
theorem FilesOk.create (h : FilesOk dm) (path : String) (hi : SameInodes dm dm')
    (hdir : dm'.os.dir = dm.os.dir.set path (some dm.os.nextInode))
    (hnext : dm'.os.nextInode = dm.os.nextInode + 1) (hpath : dm'.path2fd = dm.path2fd)
    (hfd : dm'.fd2path = dm.fd2path) : FilesOk dm' where
  dir_lt {q i} h1 := by
    rw [hdir] at h1
    rw [hnext]
    by_cases hq : dm.os.dir.resolve q = dm.os.dir.resolve path
    · rw [Directory.find_set_of_eq hq] at h1
      have := Option.some.inj h1
      omega
    · rw [Directory.find_set_of_ne hq] at h1
      exact (h.dir_lt h1).trans (Nat.lt_succ_self _)
  open_lt {fd o} ho := by
    obtain ⟨o', ho', he⟩ := hi.exists_open ho
    have := h.open_lt ho'
    omega
  open_path {fd o} ho := by
    obtain ⟨o', ho', -⟩ := hi.exists_open ho
    rw [hfd, hpath]
    exact h.open_path ho'
  listed_open {fd q} h1 := by
    obtain ⟨o, ho⟩ := h.listed_open (hfd ▸ h1)
    obtain ⟨o', ho', -⟩ := hi.symm.exists_open ho
    exact ⟨o', ho'⟩
  distinct fd fd' o o' ho ho' he := by
    obtain ⟨q, hq, hqi⟩ := hi.exists_open ho
    obtain ⟨q', hq', hqi'⟩ := hi.exists_open ho'
    exact h.distinct fd fd' q q' hq hq' (by rw [hqi, hqi', he])

/-- What `open_file` does when it returns. -/
theorem openFile_eq_ok {fd : Int} {path : String} (ho : dm.openFile fd path = .ok dm') :
    0 ≤ fd ∧ ∃ i, dm.os.dir.find path = some i ∧ dm.path2fd path = none ∧ dm' =
      { dm with
        os := { dm.os with fds := Function.update dm.os.fds fd (some ⟨i, 0⟩) }
        path2fd := Function.update dm.path2fd path (some fd)
        fd2path := Function.update dm.fd2path fd (some path) } := by
  unfold openFile at ho
  split at ho
  · rename_i i hi hp
    split_ifs at ho with hneg
    cases ho
    exact ⟨by omega, i, hi, hp, rfl⟩
  · cases ho

/-- A file that is open nowhere is opened under a path that is not listed. -/
theorem FilesOk.open (h : FilesOk dm) {path : String} {fd : Int} {i : Nat}
    (hdir : dm.os.dir.find path = some i) (hpath : dm.path2fd path = none) (hnot : dm.Unopened i) :
    FilesOk
      { dm with
        os := { dm.os with fds := Function.update dm.os.fds fd (some ⟨i, 0⟩) }
        path2fd := Function.update dm.path2fd path (some fd)
        fd2path := Function.update dm.fd2path fd (some path) } := by
  have hcases : ∀ {fd' o}, Function.update dm.os.fds fd (some ⟨i, 0⟩) fd' = some o →
      fd' = fd ∧ o.inode = i ∨ fd' ≠ fd ∧ dm.os.fds fd' = some o := by
    intro fd' o ho
    rw [Function.update_apply] at ho
    split_ifs at ho with he
    · obtain rfl := Option.some.inj ho
      exact Or.inl ⟨he, rfl⟩
    · exact Or.inr ⟨he, ho⟩
  refine
    { dir_lt := h.dir_lt
      open_lt := fun {fd' o} ho => ?_
      open_path := fun {fd' o} ho => ?_
      listed_open := fun {fd' q} h1 => ?_
      distinct := fun fd₁ fd₂ o₁ o₂ h1 h2 he => ?_ }
  · rcases hcases ho with ⟨-, hi⟩ | ⟨-, ho⟩
    · rw [hi]
      exact h.dir_lt hdir
    · exact h.open_lt ho
  · rcases hcases ho with ⟨rfl, -⟩ | ⟨hne, ho⟩
    · exact ⟨path, by simp, by simp⟩
    · obtain ⟨q, hq, hqfd⟩ := h.open_path ho
      have hqp : q ≠ path := by
        rintro rfl
        rw [hpath] at hqfd
        cases hqfd
      exact ⟨q, by simpa [hne] using hq, by simpa [hqp] using hqfd⟩
  · show ∃ o, Function.update dm.os.fds fd (some ⟨i, 0⟩) fd' = some o
    by_cases he : fd' = fd
    · subst he
      exact ⟨_, Function.update_self ..⟩
    · simp only [Function.update_of_ne he] at h1 ⊢
      exact h.listed_open h1
  · rcases hcases h1 with ⟨hfd1, hi1⟩ | ⟨-, k1⟩ <;> rcases hcases h2 with ⟨hfd2, hi2⟩ | ⟨-, k2⟩
    · rw [hfd1, hfd2]
    · exact absurd (he.symm.trans hi1) (hnot _ _ k2)
    · exact absurd (he.trans hi2) (hnot _ _ k1)
    · exact h.distinct _ _ _ _ k1 k2 he

theorem closeFile_dir (dm : DiskManager) (fd : Int) : (dm.closeFile fd).os.dir = dm.os.dir := by
  unfold closeFile
  split
  · split_ifs <;> rfl
  · rfl

/-- `close_file` keeps the tables in order. -/
theorem FilesOk.close (h : FilesOk dm) (fd : Int) : FilesOk (dm.closeFile fd) := by
  unfold closeFile
  split
  · rename_i path hpath
    split_ifs
    · obtain ⟨o, ho⟩ := h.listed_open hpath
      obtain ⟨q, hq, hqfd⟩ := h.open_path ho
      rw [hpath] at hq
      obtain rfl := Option.some.inj hq
      have hcases : ∀ {fd' o'}, Function.update dm.os.fds fd none fd' = some o' →
          fd' ≠ fd ∧ dm.os.fds fd' = some o' := by
        intro fd' o' ho'
        rw [Function.update_apply] at ho'
        split_ifs at ho' with he
        exact ⟨he, ho'⟩
      refine
        { dir_lt := h.dir_lt
          open_lt := fun {fd' o'} ho' => h.open_lt (hcases ho').2
          open_path := fun {fd' o'} ho' => ?_
          listed_open := fun {fd' p} h1 => ?_
          distinct := fun fd₁ fd₂ o₁ o₂ h1 h2 he =>
            h.distinct _ _ _ _ (hcases h1).2 (hcases h2).2 he }
      · obtain ⟨hne, ho'⟩ := hcases ho'
        obtain ⟨p, hp, hpfd⟩ := h.open_path ho'
        have hpq : p ≠ path := by
          rintro rfl
          rw [hqfd] at hpfd
          exact hne (Option.some.inj hpfd).symm
        exact ⟨p, by simpa [hne] using hp, by simpa [hpq] using hpfd⟩
      · simp only [Function.update_apply] at h1
        split_ifs at h1 with he
        obtain ⟨o', ho'⟩ := h.listed_open h1
        exact ⟨o', by simp [he, ho']⟩
    · exact h
  · exact h

end DiskManager

end Rucbase
