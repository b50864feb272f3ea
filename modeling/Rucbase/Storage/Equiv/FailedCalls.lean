import Rucbase.Storage.Equiv.PoolRuns

/-!
# Calls of the buffer pool that throw

`FetchPage` and `NewPage` take a frame from the free list or the replacer before the disk is asked
for anything, and nothing puts it back when the disk call throws.  The three points of failure are
`fetchPage_error_cases` and `newPage_error_cases`; in each of them the frame that was taken is
neither free nor evictable nor pinned (`failed_call_loses_frame`).
-/

namespace Rucbase.BufferPoolManager

open EStateM

variable {D : Type} [PageDevice D] {b b' : BufferPoolManager D} {f : Nat} {pageId : PageId}
  {data : PageData} {e : RedBaseError}

/-! ### Where a call can fail -/

theorem writePage_eq_error_iff :
    writePage pageId data b = .error e b' ↔ e = .unixError ∧
      ∃ d, PageDevice.writePage b.diskManager pageId data = (false, d) ∧
        b' = { b with diskManager := d } := by
  simp only [writePage, get_bind_apply, set_bind_apply]
  rcases PageDevice.writePage b.diskManager pageId data with ⟨ok, d⟩
  cases ok with
  | false => simp [eq_comm]
  | true => simp

theorem readPage_eq_error_iff :
    readPage pageId f b = .error e b' ↔ e = .unixError ∧
      ∃ data d, PageDevice.readPage b.diskManager pageId (b.pages f).data = (false, data, d) ∧
        b' = { b.setPage f { b.pages f with data } with diskManager := d } := by
  simp only [readPage, get_bind_apply, set_bind_apply]
  rcases PageDevice.readPage b.diskManager pageId (b.pages f).data with ⟨ok, data, d⟩
  cases ok with
  | false => simp [eq_comm]
  | true => simp

/-- `UpdatePage` fails when a dirty page cannot be written; its dirty bit is cleared by then. -/
theorem updatePage_eq_error_iff :
    updatePage f pageId b = .error e b' ↔ e = .unixError ∧ (b.pages f).isDirty = true ∧
      ∃ d, PageDevice.writePage b.diskManager (b.pages f).id (b.pages f).data = (false, d) ∧
        b' = { b.setPage f { b.pages f with isDirty := false } with diskManager := d } := by
  cases hd : (b.pages f).isDirty with
  | false =>
    simp [updatePage, hd]
  | true =>
    simp only [updatePage, get_bind_apply, hd, if_true, set_bind_apply, bind_eq_error_iff,
      writePage_eq_error_iff, true_and]
    constructor
    · rintro (⟨he, d, hw, rfl⟩ | ⟨u, b₁, hw, hrest⟩)
      · exact ⟨he, d, hw, rfl⟩
      · simp at hrest
    · rintro ⟨he, d, hw, rfl⟩
      exact .inl ⟨he, d, hw, rfl⟩

omit [PageDevice D] in
theorem findVictimPage_ne_error : findVictimPage b ≠ .error e b' := by
  intro h
  simp only [findVictimPage, get_bind_apply] at h
  cases hfl : b.freeList with
  | nil =>
    simp only [hfl] at h
    rcases hv : b.replacer.victim with ⟨_ | f, r⟩
    · simp [hv] at h
    · simp [hv] at h
  | cons f rest => simp [hfl] at h

/-- **Where `FetchPage` can throw**: at the read, with the frame of a clean page or a free frame;
at the write of a dirty page; or at the read after that write, when `UpdatePage` has entered the
new page already. -/
theorem fetchPage_error_cases (hI : FrameInv b) (h : fetchPage pageId b = .error e b') :
    e = .unixError ∧ b.pageTable pageId = none ∧ ∃ f, b.Available f ∧
      ((b.pages f).isDirty = false ∧
          (∃ data d, PageDevice.readPage b.diskManager pageId (b.pages f).data = (false, data, d) ∧
            b' = { (b.take f).setPage f { b.pages f with id := pageId, data } with
              diskManager := d }) ∨
        (b.pages f).isDirty = true ∧
          (∃ d, PageDevice.writePage b.diskManager (b.pages f).id (b.pages f).data = (false, d) ∧
            b' = { (b.take f).setPage f { b.pages f with isDirty := false } with
              diskManager := d }) ∨
        (b.pages f).isDirty = true ∧
          ∃ d₁ data d,
            PageDevice.writePage b.diskManager (b.pages f).id (b.pages f).data = (true, d₁) ∧
            PageDevice.readPage d₁ pageId zeroPage = (false, data, d) ∧
            b' = { (b.take f).setPage f { b.pages f with id := pageId, data, isDirty := false } with
              pageTable := (b.take f).updateTable f pageId, diskManager := d }) := by
  simp only [fetchPage, get_bind_apply] at h
  cases hp : b.pageTable pageId with
  | some f => simp [hp] at h
  | none =>
    simp only [hp] at h
    rcases bind_eq_error_iff.mp h with h | ⟨v, b₁, hv, h⟩
    · exact absurd h findVictimPage_ne_error
    -- the frame is taken before anything can fail
    rcases findVictimPage_cases hI hv with ⟨rfl, -⟩ | ⟨f, rfl, hav, rfl⟩
    · simp at h
    have hpage : (b.take f).pages f = b.pages f := rfl
    simp only [get_bind_apply, hpage] at h
    cases hd : (b.pages f).isDirty with
    | false =>
      -- nothing to write back: the read fails
      simp only [hd, Bool.false_eq_true, if_false, set_bind_apply] at h
      rcases bind_eq_error_iff.mp h with h | ⟨u, b₂, -, h⟩
      · obtain ⟨rfl, data, d, hread, rfl⟩ := readPage_eq_error_iff.mp h
        refine ⟨rfl, rfl, f, hav, .inl ⟨hd, data, d, ?_, ?_⟩⟩
        · simpa [setPage, take] using hread
        · simp [setPage, take, hd]
      · cases h
    | true =>
      simp only [hd, if_true] at h
      -- the write-back fails, or the read behind it
      rcases bind_eq_error_iff.mp h with h | ⟨u, b₂, hupd, h⟩
      · obtain ⟨rfl, -, d, hw, rfl⟩ := updatePage_eq_error_iff.mp h
        exact ⟨rfl, rfl, f, hav, .inr (.inl ⟨hd, d, hw, rfl⟩)⟩
      · obtain ⟨d₁, hw, rfl⟩ := updatePage_eq_ok_iff.mp hupd
        have hw' : PageDevice.writePage b.diskManager (b.pages f).id (b.pages f).data =
            (true, d₁) := by
          rw [WriteBack, hpage, if_pos hd] at hw
          exact hw
        rcases bind_eq_error_iff.mp h with h | ⟨u', b₃, -, h⟩
        · obtain ⟨rfl, data, d, hread, rfl⟩ := readPage_eq_error_iff.mp h
          refine ⟨rfl, rfl, f, hav, .inr (.inr ⟨hd, d₁, data, d, hw', ?_, ?_⟩)⟩
          · simpa [setPage, take] using hread
          · simp [setPage, take]
        · cases h

/-- **Where `NewPage` can throw**: at the write of a dirty page, after the number was allocated. -/
theorem newPage_error_cases (hI : FrameInv b) {fd : Int} (h : newPage fd b = .error e b') :
    e = .unixError ∧ ∃ f d, b.Available f ∧ (b.pages f).isDirty = true ∧
      PageDevice.writePage (PageDevice.allocatePage b.diskManager fd).2 (b.pages f).id
        (b.pages f).data = (false, d) ∧
      b' = { (b.take f).setPage f { b.pages f with isDirty := false } with diskManager := d } := by
  simp only [newPage] at h
  rcases bind_eq_error_iff.mp h with h | ⟨v, b₁, hv, h⟩
  · exact absurd h findVictimPage_ne_error
  rcases findVictimPage_cases hI hv with ⟨rfl, -⟩ | ⟨f, rfl, hav, rfl⟩
  · simp at h
  simp only [get_bind_apply, set_bind_apply] at h
  rcases bind_eq_error_iff.mp h with h | ⟨u, b₂, -, h⟩
  · obtain ⟨rfl, hd, d, hw, rfl⟩ := updatePage_eq_error_iff.mp h
    exact ⟨rfl, f, d, hav, hd, hw, rfl⟩
  · cases h

/-! ### The frame that was taken -/

/-- What should hold after a call that threw: every frame is still free, evictable or pinned; the
page table has only pages whose bytes were there before; and the bytes of every dirty page are in
the pool, still to be written, or can be read from the disk. -/
structure Survives (b b' : BufferPoolManager D) : Prop where
  frames : ∀ f < b.poolSize, b'.Free f ∨ b'.Evictable f ∨ b'.Pinned f
  loaded : ∀ {p f}, b'.pageTable p = some f →
    b.pageTable p = some f ∧ (b'.pages f).data = (b.pages f).data
  dirty : ∀ {p f}, b.pageTable p = some f → (b.pages f).isDirty = true →
    (b'.pageTable p = some f ∧ (b'.pages f).isDirty = true ∧
        (b'.pages f).data = (b.pages f).data) ∨
      ∀ buf, ∃ d, PageDevice.readPage b'.diskManager p buf = (true, (b.pages f).data, d)

omit [PageDevice D] in
/-- A frame that was taken and not pinned is in none of the three states. -/
theorem lost_of_take (hI : FrameInv b) (hav : b.Available f) (hfree : b'.freeList = b.freeList.tail)
    (hrep : b'.replacer = (b.take f).replacer) (hpin : (b'.pages f).pinCount = 0) :
    ¬(b'.Free f ∨ b'.Evictable f ∨ b'.Pinned f) := by
  rintro (hf | hf | hf)
  · rw [Free, hfree] at hf
    exact hav.notMem_tail hI hf
  · rw [Evictable, hrep] at hf
    change f ∈ (if b.freeList = [] then b.replacer.victim.2 else b.replacer).frames at hf
    rcases hav with hhead | ⟨hnil, hv⟩
    · -- a free frame is not known to the replacer
      have hmem := List.mem_of_mem_head? hhead
      rw [if_neg (List.ne_nil_of_mem hmem)] at hf
      exact (hI.free_unmapped f hmem).2 hf
    · rw [if_pos hnil] at hf
      exact LruReplacer.not_mem_frames_victim hI.replacer_wf hv hf
  · have := hf.2
    omega

/-- **A call that throws loses a frame.**  Whatever the state of the pool and wherever `FetchPage` or
`NewPage` fails, the frame it took is neither free nor evictable nor pinned afterwards. -/
theorem failed_call_loses_frame (b b' : BufferPoolManager D) (hI : FrameInv b) (op : PoolOp)
    (hop : (∃ pageId, op = .fetchPage pageId) ∨ ∃ fd, op = .newPage fd) (e : RedBaseError)
    (herr : op.exec b = .error e b') : ¬Survives b b' := by
  have hlost : ∃ f, b.Available f ∧ b'.freeList = b.freeList.tail ∧
      b'.replacer = (b.take f).replacer ∧ (b'.pages f).pinCount = (b.pages f).pinCount := by
    rcases hop with ⟨pageId, rfl⟩ | ⟨fd, rfl⟩
    · rcases bind_eq_error_iff.mp herr with h | ⟨r, b₁, -, h⟩
      · obtain ⟨-, -, f, hav, hcase⟩ := fetchPage_error_cases hI h
        refine ⟨f, hav, ?_⟩
        rcases hcase with ⟨-, data, d, -, rfl⟩ | ⟨-, d, -, rfl⟩ | ⟨-, d₁, data, d, -, -, rfl⟩
        · exact ⟨rfl, rfl, by simp [setPage]⟩
        · exact ⟨rfl, rfl, by simp [setPage]⟩
        · exact ⟨rfl, rfl, by simp [setPage]⟩
      · cases h
    · rcases bind_eq_error_iff.mp herr with h | ⟨r, b₁, -, h⟩
      · obtain ⟨-, f, d, hav, -, -, rfl⟩ := newPage_error_cases hI h
        exact ⟨f, hav, rfl, rfl, by simp [setPage]⟩
      · cases h
  obtain ⟨f, hav, hfree, hrep, hpin⟩ := hlost
  intro hsurvives
  rw [hav.pinCount_eq_zero hI] at hpin
  exact lost_of_take hI hav hfree hrep hpin (hsurvives.frames f (hav.lt hI))

/-- A page that is not on disk is fetched in a pool of two frames. -/
theorem failed_call_loses_frame_fetch :
    ∃ b', (PoolOp.fetchPage ⟨3, 5⟩).exec (new 2 (fun _ => 0) oneFile) = .error .unixError b' ∧
      ¬Survives (new 2 (fun _ => 0) oneFile) b' := by
  refine ⟨_, rfl, ?_⟩
  exact failed_call_loses_frame _ _ (frameInv_new 2 (fun _ => 0) oneFile) (.fetchPage ⟨3, 5⟩)
    (.inl ⟨_, rfl⟩) .unixError rfl

/-- **The only frame of a pool is lost** when a page is fetched that is not on disk. -/
theorem not_survives_only_frame :
    FrameInv (new 1 (fun _ => 0) oneFile) ∧
      ∃ b', (PoolOp.fetchPage ⟨3, 0⟩).exec (new 1 (fun _ => 0) oneFile) = .error .unixError b' ∧
        ¬Survives (new 1 (fun _ => 0) oneFile) b' := by
  refine ⟨frameInv_new 1 (fun _ => 0) oneFile, _, rfl, fun hsurvives => ?_⟩
  rcases hsurvives.frames 0 Nat.zero_lt_one with hf | hf | hf
  · cases hf
  · cases hf
  · exact Nat.lt_irrefl 0 hf.2

/-- **When a later `FetchPage` reads again**: after a `FetchPage` that threw, the page is missing from
the table unless the victim was dirty and its write succeeded, in which case the table has the
page with whatever bytes the failed read left. -/
theorem failed_fetch_retries_iff (hI : FrameInv b) (hvalid : pageId.pageNo ≠ invalidPageId)
    (herr : fetchPage pageId b = .error e b') : ∃ f, b.Available f ∧
      (b'.pageTable pageId = none ↔ ¬((b.pages f).isDirty = true ∧
        (PageDevice.writePage b.diskManager (b.pages f).id (b.pages f).data).1 = true)) := by
  obtain ⟨-, hp, f, hav, hcase⟩ := fetchPage_error_cases hI herr
  have htake : (b.take f).pageTable pageId = none := by
    rcases eq_or_ne pageId (b.pages f).id with heq | hne
    · simp [take, heq]
    · simp [take, hne, hp]
  refine ⟨f, hav, ?_⟩
  rcases hcase with ⟨hd, data, d, -, rfl⟩ | ⟨hd, d, hw, rfl⟩ | ⟨hd, d₁, data, d, hw, -, rfl⟩
  · exact iff_of_true htake fun h => by simp [hd] at h
  · exact iff_of_true htake fun h => by simp [hw] at h
  · refine iff_of_false ?_ fun h => h ⟨hd, by rw [hw]⟩
    have herase : Function.update (b.take f).pageTable ((b.take f).pages f).id none pageId = none := by
      rw [show Function.update (b.take f).pageTable ((b.take f).pages f).id none =
        (b.take f).pageTable from Function.update_idem ..]
      exact htake
    show ¬(b.take f).updateTable f pageId pageId = none
    simp [updateTable, hvalid, tableInsert, herase]

end Rucbase.BufferPoolManager
