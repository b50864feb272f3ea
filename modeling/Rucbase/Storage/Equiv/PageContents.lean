import Rucbase.Storage.Equiv.DiskManager
import Rucbase.Storage.Equiv.PoolRuns

/-!
# The buffer pool is transparent

Clients of the pool create, fetch, unpin and flush pages and write into pages they have pinned.
`PoolClient` follows a run of such clients: the pool, the last bytes written to each allocated page
(`last`), and the pages that were created or written since their last `UnpinPage` with
`is_dirty = true` (`pending`).  `ClientStep` is one call under the contract of the pool: a page may
only lose its last pin when it is not pending, or with the dirty flag.

`PoolInv` ties disk, frames and dirty bits to `last`.  It is kept by every step, so that
(`pool_transparent`) `FetchPage` always returns the last bytes written, a pinned frame keeps its
page, and `FlushAllPages` leaves on disk what the pages of the file contain.
-/

namespace Rucbase

open BufferPoolManager EStateM

/-- The state of a run of the pool's clients. -/
structure PoolClient where
  bpm : BufferPoolManager DiskManager
  /-- The last bytes written to each allocated page. -/
  last : PageId → Option PageData
  /-- Created or written, and not unpinned as dirty since. -/
  pending : PageId → Bool

/-- What a client does. -/
inductive ClientOp where
  | newPage (fd : Int)
  | fetchPage (pageId : PageId)
  | unpinPage (pageId : PageId) (isDirty : Bool)
  | flushPage (pageId : PageId)
  | flushAllPages (fd : Int)
  | write (pageId : PageId) (data : PageData)

/-- The descriptor a call is about. -/
def ClientOp.fd : ClientOp → Int
  | .newPage fd | .flushAllPages fd => fd
  | .fetchPage pageId | .unpinPage pageId _ | .flushPage pageId | .write pageId _ => pageId.fd

/-- The number `AllocatePage` hands out next for `fd` is not used in the file and in range. -/
def PoolClient.AllocOk (c : PoolClient) (fd : Int) : Prop :=
  PageId.InRange ⟨fd, c.bpm.diskManager.fd2pageno fd⟩ ∧
    c.last ⟨fd, c.bpm.diskManager.fd2pageno fd⟩ = none

/-- One call of a client that keeps the contract.  The disk calls succeed: the pool call returns. -/
def ClientStep (c : PoolClient) (op : ClientOp) (c' : PoolClient) : Prop :=
  match op with
  | .newPage fd => c.AllocOk fd ∧ ∃ r b', newPage fd c.bpm = .ok r b' ∧
      c' = match r with
        | none => { c with bpm := b' }
        | some (_, pageId) =>
          { bpm := b'
            last := Function.update c.last pageId (some zeroPage)
            pending := Function.update c.pending pageId true }
  | .fetchPage pageId => c.last pageId ≠ none ∧ ∃ r b', fetchPage pageId c.bpm = .ok r b' ∧
      c' = { c with bpm := b' }
  | .unpinPage pageId isDirty =>
      -- a pending page loses its last pin only together with the dirty flag
      (∀ f, c.bpm.pageTable pageId = some f → (c.bpm.pages f).pinCount = 1 →
        isDirty = true ∨ c.pending pageId = false) ∧
      ∃ r b', unpinPage pageId isDirty c.bpm = .ok r b' ∧
        c' = { c with
          bpm := b'
          pending := if r && isDirty then Function.update c.pending pageId false else c.pending }
  | .flushPage pageId => ∃ r b', flushPage pageId c.bpm = .ok r b' ∧ c' = { c with bpm := b' }
  | .flushAllPages fd => ∃ b', flushAllPages fd c.bpm = .ok () b' ∧ c' = { c with bpm := b' }
  | .write pageId data => ∃ f, c.bpm.pageTable pageId = some f ∧ 0 < (c.bpm.pages f).pinCount ∧
      c' =
        { bpm := c.bpm.setData f data
          last := Function.update c.last pageId (some data)
          pending := Function.update c.pending pageId true }

/-! ### The invariant -/

/-- **The pool invariant** for the descriptors in `live`, over the files open in `dm₀`.  A resident
page holds the last bytes written to it; if it is clean and not pending they are on disk too, and
it is not pending once it is unpinned.  An allocated page that is not resident is on disk.  Of the
other descriptors only clean pages are left in the pool. -/
structure PoolInv (dm₀ : DiskManager) (live : Int → Prop) (b : BufferPoolManager DiskManager)
    (last : PageId → Option PageData) (pending : PageId → Bool) : Prop where
  frames : FrameInv b
  distinct : dm₀.DistinctFiles
  sameOpen : dm₀.SameOpen b.diskManager
  inRange : ∀ {p data}, last p = some data → p.InRange
  last_live : ∀ {p data}, last p = some data → live p.fd
  free_id : ∀ f ∈ b.freeList, (b.pages f).id.pageNo = invalidPageId
  resident : ∀ {p f}, live p.fd → b.pageTable p = some f → last p = some (b.pages f).data
  clean : ∀ {p f}, live p.fd → b.pageTable p = some f → (b.pages f).isDirty = false →
    pending p = false → b.diskManager.contents p = some (b.pages f).data
  unpinned : ∀ {p f}, live p.fd → b.pageTable p = some f → (b.pages f).pinCount = 0 →
    pending p = false
  absent : ∀ {p data}, b.pageTable p = none → last p = some data →
    b.diskManager.contents p = some data
  left_clean : ∀ {p f}, ¬live p.fd → b.pageTable p = some f → (b.pages f).isDirty = false

namespace PoolInv

variable {dm₀ : DiskManager} {live : Int → Prop} {b : BufferPoolManager DiskManager}
  {last : PageId → Option PageData} {pending : PageId → Bool} {f : Nat}

/-- A pool over files whose allocated pages are on disk. -/
theorem new {dm : DiskManager} (hd : dm.DistinctFiles)
    (hlast : ∀ p data, last p = some data → p.InRange ∧ dm.contents p = some data)
    (hlive : ∀ p data, last p = some data → live p.fd) (poolSize : Nat) (fd₀ : Nat → Int) :
    PoolInv dm live (.new poolSize fd₀ dm) last pending where
  frames := frameInv_new poolSize fd₀ dm
  distinct := hd
  sameOpen := .refl _
  inRange h := (hlast _ _ h).1
  last_live h := hlive _ _ h
  free_id _ _ := rfl
  resident _ h := by simp [BufferPoolManager.new] at h
  clean _ h := by simp [BufferPoolManager.new] at h
  unpinned _ h := by simp [BufferPoolManager.new] at h
  absent _ h := (hlast _ _ h).2
  left_clean _ h := by simp [BufferPoolManager.new] at h

/-- **Taking a frame loses nothing.**  After the page in an available frame was written back if
dirty, every allocated page that was not resident, or sat in that frame, or was on disk before, is
on disk. -/
theorem contents_writeBack (h : PoolInv dm₀ live b last pending) (hav : b.Available f)
    {dm dm' : DiskManager} (hopen : b.diskManager.SameOpen dm)
    (hfile : dm.os.file = b.diskManager.os.file) (hw : WriteBack dm (b.pages f) dm') :
    dm₀.SameOpen dm' ∧ ∀ q data, last q = some data →
      (b.pageTable q = none ∨ b.pageTable q = some f ∨ b.diskManager.contents q = some data) →
      dm'.contents q = some data := by
  have hopen₀ := h.sameOpen.trans hopen
  have hdist := hopen₀.distinct h.distinct
  have hcont : ∀ q, dm.contents q = b.diskManager.contents q :=
    fun q => DiskManager.contents_congr hopen hfile q
  have hpin := hav.pinCount_eq_zero h.frames
  unfold WriteBack at hw
  split_ifs at hw with hd
  · -- a dirty frame is mapped, for free frames are clean
    obtain ⟨p, hp⟩ : b.Mapped f := by
      rcases h.frames.free_or_mapped (hav.lt h.frames) with hfr | hm
      · have := (h.frames.free_clean f hfr).1
        rw [hd] at this
        cases this
      · exact hm
    have hlive : live p.fd := by
      by_contra hl
      have := h.left_clean hl hp
      rw [hd] at this
      cases this
    have hid := (h.frames.table hp).2
    rw [hid] at hw
    obtain ⟨hself, hso, -, hother⟩ :=
      DiskManager.writePage_spec (h.inRange (h.resident hlive hp)) hdist hw
    refine ⟨hopen₀.trans hso, fun q data hq hcase => ?_⟩
    rcases eq_or_ne q p with rfl | hne
    · rw [h.resident hlive hp] at hq
      rw [hself, ← Option.some.inj hq]
    · refine hother q (h.inRange hq) hne data ?_
      rw [hcont]
      rcases hcase with hnone | hf | hc
      · exact h.absent hnone hq
      · exact absurd (h.frames.table_injective hf hp) hne
      · exact hc
  · -- a clean frame is not written: the disk already holds its bytes
    subst hw
    refine ⟨hopen₀, fun q data hq hcase => ?_⟩
    rw [hcont]
    have hlive := h.last_live hq
    rcases hcase with hnone | hf | hc
    · exact h.absent hnone hq
    · have hq' := h.resident hlive hf
      rw [hq] at hq'
      rw [Option.some.inj hq']
      exact h.clean hlive hf (by simpa using hd) (h.unpinned hlive hf hpin)
    · exact hc

/-- **Loading a page into an available frame keeps the invariant.** -/
theorem assign (h : PoolInv dm₀ live b last pending) (hav : b.Available f) {pageId : PageId}
    (hlive : live pageId.fd) (hp : b.pageTable pageId = none) (hr : pageId.InRange)
    {dm : DiskManager} {data : PageData} (hopen : dm₀.SameOpen dm)
    (hcont : ∀ q x, q ≠ pageId → last q = some x →
      (b.pageTable q = none ∨ b.pageTable q = some f ∨ b.diskManager.contents q = some x) →
      dm.contents q = some x)
    {pending' : PageId → Bool} (hpend : ∀ q, q ≠ pageId → pending' q = pending q)
    (hself : pending' pageId = false → dm.contents pageId = some data) :
    PoolInv dm₀ live (b.assign f pageId data dm) (Function.update last pageId (some data))
      pending' := by
  have hpagef : (b.assign f pageId data dm).pages f = ⟨pageId, data, false, 1⟩ := by
    simp [BufferPoolManager.assign]
  have hpages : ∀ g, g ≠ f → (b.assign f pageId data dm).pages g = b.pages g := fun g hg => by
    simp [BufferPoolManager.assign, hg]
  -- the table afterwards: the new page at `f`, and the old pages of the other frames
  have htable : ∀ p g, (b.assign f pageId data dm).pageTable p = some g ↔
      p = pageId ∧ g = f ∨ b.pageTable p = some g ∧ g ≠ f :=
    table_assign_iff hav h.frames hp
  have hold : ∀ {p g}, b.pageTable p = some g → p ≠ pageId := by
    rintro p g hg rfl
    rw [hp] at hg
    cases hg
  refine
    { frames := h.frames.assign hav hp fun g hg hid => ?_
      distinct := h.distinct
      sameOpen := hopen
      inRange := fun {q x} hq => ?_
      last_live := fun {q x} hq => ?_
      free_id := fun g hg => ?_
      resident := fun {q g} hl hq => ?_
      clean := fun {q g} hl hq hd hpe => ?_
      unpinned := fun {q g} hl hq h0 => ?_
      absent := fun {q x} hq hx => ?_
      left_clean := fun {q g} hl hq => ?_ }
  · have hno := h.free_id g (List.mem_of_mem_tail hg)
    have hpos := hr.1
    rw [hid] at hno
    rw [hno] at hpos
    exact absurd hpos (by decide)
  · rcases eq_or_ne q pageId with rfl | hne
    · exact hr
    · rw [Function.update_of_ne hne] at hq
      exact h.inRange hq
  · rcases eq_or_ne q pageId with rfl | hne
    · exact hlive
    · rw [Function.update_of_ne hne] at hq
      exact h.last_live hq
  · have hgf : g ≠ f := fun e => hav.notMem_tail h.frames (e ▸ hg)
    rw [hpages g hgf]
    exact h.free_id g (List.mem_of_mem_tail hg)
  · rcases (htable q g).mp hq with ⟨rfl, rfl⟩ | ⟨hq, hgf⟩
    · simp [hpagef]
    · rw [Function.update_of_ne (hold hq), hpages g hgf]
      exact h.resident hl hq
  · rcases (htable q g).mp hq with ⟨rfl, rfl⟩ | ⟨hq, hgf⟩
    · rw [hpagef]
      exact hself hpe
    · rw [hpages g hgf] at hd ⊢
      rw [hpend q (hold hq)] at hpe
      exact hcont q _ (hold hq) (h.resident hl hq) (Or.inr (Or.inr (h.clean hl hq hd hpe)))
  · rcases (htable q g).mp hq with ⟨rfl, rfl⟩ | ⟨hq, hgf⟩
    · simp [hpagef] at h0
    · rw [hpages g hgf] at h0
      rw [hpend q (hold hq)]
      exact h.unpinned hl hq h0
  · -- a page that is absent now was absent before, or was the page of the frame
    have hne : q ≠ pageId := by
      rintro rfl
      rw [(htable q f).mpr (Or.inl ⟨rfl, rfl⟩)] at hq
      cases hq
    rw [Function.update_of_ne hne] at hx
    refine hcont q x hne hx ?_
    cases hg : b.pageTable q with
    | none => exact Or.inl rfl
    | some g =>
      rcases eq_or_ne g f with rfl | hgf
      · exact Or.inr (Or.inl rfl)
      · rw [(htable q g).mpr (Or.inr ⟨hg, hgf⟩)] at hq
        cases hq
  · rcases (htable q g).mp hq with ⟨rfl, rfl⟩ | ⟨hq, hgf⟩
    · exact absurd hlive hl
    · rw [hpages g hgf]
      exact h.left_clean hl hq

/-- Writing a resident page out keeps the invariant, and its contents are on disk then. -/
theorem cleanFrame (h : PoolInv dm₀ live b last pending) {p : PageId} (hlive : live p.fd)
    (hp : b.pageTable p = some f) {dm : DiskManager}
    (hw : b.diskManager.writePage p.fd p.pageNo (b.pages f).data = (true, dm)) :
    PoolInv dm₀ live (b.cleanFrame f dm) last pending ∧ dm.contents p = some (b.pages f).data ∧
      ∀ q, q.InRange → ∀ d, last q = some d → b.diskManager.contents q = some d →
        dm.contents q = some d := by
  obtain ⟨hself, hso, -, hother⟩ := DiskManager.writePage_spec (h.inRange (h.resident hlive hp))
    (h.sameOpen.distinct h.distinct) hw
  -- the write changes no other page, and writes the last bytes of this one
  have hkeep : ∀ q, q.InRange → ∀ d, last q = some d → b.diskManager.contents q = some d →
      dm.contents q = some d := by
    intro q hq d hd hc
    rcases eq_or_ne q p with rfl | hne
    · rw [h.resident hlive hp] at hd
      rw [hself, ← Option.some.inj hd]
    · exact hother q hq hne d hc
  have hdata : ∀ g, ((b.cleanFrame f dm).pages g).data = (b.pages g).data := by
    intro g
    rcases eq_or_ne g f with rfl | hgf
    · simp [BufferPoolManager.cleanFrame, setPage]
    · simp [BufferPoolManager.cleanFrame, setPage, hgf]
  refine ⟨
    { frames := h.frames.cleanFrame f dm
      distinct := h.distinct
      sameOpen := h.sameOpen.trans hso
      inRange := h.inRange
      last_live := h.last_live
      free_id := fun g hg => ?_
      resident := fun {q g} hl hq => ?_
      clean := fun {q g} hl hq hd hpe => ?_
      unpinned := fun {q g} hl hq h0 => ?_
      absent := fun {q x} hq hx => hkeep q (h.inRange hx) x hx (h.absent hq hx)
      left_clean := fun {q g} hl hq => ?_ }, hself, hkeep⟩
  · have hgf : g ≠ f := fun e => (h.frames.free_unmapped g hg).1 ⟨p, e ▸ hp⟩
    simpa [BufferPoolManager.cleanFrame, setPage, hgf] using h.free_id g hg
  · rw [hdata]
    exact h.resident hl hq
  · rw [hdata]
    change dm.contents q = _
    rcases eq_or_ne g f with rfl | hgf
    · rw [h.frames.table_injective hq hp]
      exact hself
    · have hd' : (b.pages g).isDirty = false := by
        simpa [BufferPoolManager.cleanFrame, setPage, hgf] using hd
      have hres := h.resident hl hq
      exact hkeep q (h.inRange hres) _ hres (h.clean hl hq hd' hpe)
  · refine h.unpinned hl hq ?_
    rcases eq_or_ne g f with rfl | hgf
    · simpa [BufferPoolManager.cleanFrame, setPage] using h0
    · simpa [BufferPoolManager.cleanFrame, setPage, hgf] using h0
  · rcases eq_or_ne g f with rfl | hgf
    · simp [BufferPoolManager.cleanFrame, setPage]
    · simpa [BufferPoolManager.cleanFrame, setPage, hgf] using h.left_clean hl hq

/-- **Changing one resident frame** (a pin, an unpin, a client's write) keeps the invariant if the
frame holds the last bytes written and the dirty bit and the pin count agree with `pending`. -/
theorem setFrame (h : PoolInv dm₀ live b last pending) {p : PageId} (hlive : live p.fd)
    (hp : b.pageTable p = some f) {b' : BufferPoolManager DiskManager}
    {last' : PageId → Option PageData} {pending' : PageId → Bool} (hI : FrameInv b')
    (hother : ∀ g, g ≠ f → b'.pages g = b.pages g)
    (htable : b'.pageTable = b.pageTable) (hfree : b'.freeList = b.freeList)
    (hdisk : b'.diskManager = b.diskManager) (hlast : ∀ q, q ≠ p → last' q = last q)
    (hpend : ∀ q, q ≠ p → pending' q = pending q) (hdata : last' p = some (b'.pages f).data)
    (hclean : (b'.pages f).isDirty = false → pending' p = false →
      b.diskManager.contents p = some (b'.pages f).data)
    (hunpin : (b'.pages f).pinCount = 0 → pending' p = false) :
    PoolInv dm₀ live b' last' pending' := by
  -- a page of another frame is another page
  have hne : ∀ {q g}, b.pageTable q = some g → g ≠ f → q ≠ p := by
    rintro q g hq hgf rfl
    rw [hp] at hq
    exact hgf (Option.some.inj hq).symm
  refine
    { frames := hI
      distinct := h.distinct
      sameOpen := hdisk ▸ h.sameOpen
      inRange := fun {q x} hq => ?_
      last_live := fun {q x} hq => ?_
      free_id := fun g hg => ?_
      resident := fun {q g} hl hq => ?_
      clean := fun {q g} hl hq hd hpe => ?_
      unpinned := fun {q g} hl hq h0 => ?_
      absent := fun {q x} hq hx => ?_
      left_clean := fun {q g} hl hq => ?_ }
  · rcases eq_or_ne q p with rfl | hqp
    · exact h.inRange (h.resident hlive hp)
    · exact h.inRange ((hlast q hqp).symm.trans hq)
  · rcases eq_or_ne q p with rfl | hqp
    · exact hlive
    · exact h.last_live ((hlast q hqp).symm.trans hq)
  · rw [hfree] at hg
    have hgf : g ≠ f := fun e => (h.frames.free_unmapped g hg).1 ⟨p, e ▸ hp⟩
    rw [hother g hgf]
    exact h.free_id g hg
  · rw [htable] at hq
    rcases eq_or_ne g f with rfl | hgf
    · obtain rfl := h.frames.table_injective hq hp
      exact hdata
    · rw [hother g hgf, hlast q (hne hq hgf)]
      exact h.resident hl hq
  · rw [htable] at hq
    rw [hdisk]
    rcases eq_or_ne g f with rfl | hgf
    · obtain rfl := h.frames.table_injective hq hp
      exact hclean hd hpe
    · rw [hother g hgf] at hd ⊢
      rw [hpend q (hne hq hgf)] at hpe
      exact h.clean hl hq hd hpe
  · rw [htable] at hq
    rcases eq_or_ne g f with rfl | hgf
    · obtain rfl := h.frames.table_injective hq hp
      exact hunpin h0
    · rw [hother g hgf] at h0
      rw [hpend q (hne hq hgf)]
      exact h.unpinned hl hq h0
  · rw [htable] at hq
    rw [hdisk]
    have hqp : q ≠ p := by
      rintro rfl
      rw [hp] at hq
      cases hq
    rw [hlast q hqp] at hx
    exact h.absent hq hx
  · rw [htable] at hq
    have hgf : g ≠ f := by
      rintro rfl
      rw [h.frames.table_injective hq hp] at hl
      exact hl hlive
    rw [hother g hgf]
    exact h.left_clean hl hq

/-- A frame with a valid page number is mapped, for free frames carry the invalid one. -/
theorem mapped_of_valid (h : PoolInv dm₀ live b last pending) (hf : f < b.poolSize)
    (hid : (b.pages f).id.pageNo ≠ invalidPageId) : b.pageTable (b.pages f).id = some f := by
  rcases h.frames.free_or_mapped hf with hfr | ⟨p, hp⟩
  · exact absurd (h.free_id f hfr) hid
  · rw [(h.frames.table hp).2]
    exact hp

/-- **`FlushAllPages`** keeps the invariant; afterwards every resident page of the file among the
frames visited is clean and on disk, and no page that was on disk is lost. -/
theorem flushFrames {fd : Int} (hlive : live fd) :
    ∀ {l : List Nat} {b b' : BufferPoolManager DiskManager} {u : Unit},
    (∀ i ∈ l, i < b.poolSize) → PoolInv dm₀ live b last pending →
    l.forM (flushFrame fd) b = .ok u b' →
      PoolInv dm₀ live b' last pending ∧ b'.pageTable = b.pageTable ∧
      (∀ g, (b'.pages g).id = (b.pages g).id ∧ (b'.pages g).data = (b.pages g).data ∧
        ((b.pages g).isDirty = false → (b'.pages g).isDirty = false)) ∧
      (∀ q d, last q = some d → b.diskManager.contents q = some d →
        b'.diskManager.contents q = some d) ∧
      ∀ p f, b.pageTable p = some f → f ∈ l → p.fd = fd →
        (b'.pages f).isDirty = false ∧ b'.diskManager.contents p = some (b.pages f).data := by
  intro l
  induction l with
  | nil =>
    intro b b' u _ h hrun
    simp only [forM_nil_apply, Result.ok.injEq] at hrun
    obtain rfl := hrun.2
    exact ⟨h, rfl, fun _ => ⟨rfl, rfl, id⟩, fun _ _ _ hc => hc, fun _ _ _ hf => by cases hf⟩
  | cons i l ih =>
    intro b b' u hlt h hrun
    rw [forM_cons_apply, bind_eq_ok_iff] at hrun
    obtain ⟨v, b₁, h1, hrest⟩ := hrun
    have hlt' : ∀ j ∈ l, j < b.poolSize := fun j hj => hlt j (by simp [hj])
    rcases flushFrame_cases h1 with ⟨hno, rfl⟩ | ⟨d, hyes, hw, rfl⟩
    · -- not a page of the file
      obtain ⟨hinv, ht, hpg, hkeep, hall⟩ := ih hlt' h hrest
      refine ⟨hinv, ht, hpg, hkeep, fun p f hp hf hfd => ?_⟩
      rcases List.mem_cons.mp hf with rfl | hf
      · have hid := (h.frames.table hp).2
        have hpos := (h.inRange (h.resident (hfd ▸ hlive) hp)).1
        exact absurd ⟨by rw [hid]; exact hfd, fun e => by
          rw [hid] at e
          rw [e] at hpos
          exact absurd hpos (by decide)⟩ hno
      · exact hall p f hp hf hfd
    · have hp := h.mapped_of_valid (hlt i (by simp)) hyes.2
      obtain ⟨hinv₁, hself, hkeep₁⟩ := h.cleanFrame (hyes.1 ▸ hlive) hp hw
      -- the write cleans this frame and touches no bytes in the pool
      have hpg₁ : ∀ g, ((b.cleanFrame i d).pages g).data = (b.pages g).data ∧
          ((b.pages g).isDirty = false → ((b.cleanFrame i d).pages g).isDirty = false) := by
        intro g
        rcases eq_or_ne g i with rfl | hgi
        · simp [BufferPoolManager.cleanFrame, setPage]
        · simp [BufferPoolManager.cleanFrame, setPage, hgi]
      obtain ⟨hinv, ht, hpg, hkeep, hall⟩ := ih (b := b.cleanFrame i d) hlt' hinv₁ hrest
      refine ⟨hinv, ht,
        fun g => ⟨(hpg g).1.trans (id_cleanFrame i d g), (hpg g).2.1.trans (hpg₁ g).1,
          fun hg => (hpg g).2.2 ((hpg₁ g).2 hg)⟩,
        fun q x hx hc => hkeep q x hx (hkeep₁ q (h.inRange hx) x hx hc), fun q f hq hf hfd => ?_⟩
      rcases List.mem_cons.mp hf with rfl | hf
      · rw [h.frames.table_injective hq hp]
        refine ⟨(hpg f).2.2 (by simp [BufferPoolManager.cleanFrame, setPage]), ?_⟩
        exact hkeep _ _ (h.resident (hyes.1 ▸ hlive) hp) hself
      · rw [← (hpg₁ f).1]
        exact hall q f hq hf hfd

end PoolInv

/-! ### Steps and runs -/

/-- The pool invariant of a run of clients. -/
def PoolClient.Inv (dm₀ : DiskManager) (live : Int → Prop) (c : PoolClient) : Prop :=
  PoolInv dm₀ live c.bpm c.last c.pending

/-- What a call owes its client: a pinned frame keeps its page, a fetched page holds the last bytes
written, and after `FlushAllPages` the disk holds the current contents of every allocated page of
the file. -/
def PoolClient.Served (c : PoolClient) (op : ClientOp) (c' : PoolClient) : Prop :=
  (∀ f < c.bpm.poolSize, 0 < (c.bpm.pages f).pinCount →
    (c'.bpm.pages f).id = (c.bpm.pages f).id) ∧
  match op with
  | .fetchPage pageId => ∀ f b', fetchPage pageId c.bpm = .ok (some f) b' →
      c.last pageId = some (b'.pages f).data
  | .flushAllPages fd => ∀ p data, p.fd = fd → c.last p = some data →
      c'.bpm.diskManager.contents p = some data
  | _ => True

/-- An available frame is not pinned, so assigning it moves no pinned frame. -/
theorem id_assign_of_pinned {b : BufferPoolManager DiskManager} {f : Nat} (h : FrameInv b)
    (hav : b.Available f) {pageId : PageId} {data : PageData} {dm : DiskManager} {g : Nat}
    (hg : 0 < (b.pages g).pinCount) : ((b.assign f pageId data dm).pages g).id = (b.pages g).id := by
  have hgf : g ≠ f := by
    rintro rfl
    have := hav.pinCount_eq_zero h
    omega
  simp [BufferPoolManager.assign, hgf]

section Steps

variable {dm₀ : DiskManager} {live : Int → Prop} {c c' : PoolClient}

theorem fetchPage_served (h : c.Inv dm₀ live) {pageId : PageId}
    (halloc : c.last pageId ≠ none) {r : Option Nat} {b' : BufferPoolManager DiskManager}
    (hr : fetchPage pageId c.bpm = .ok r b') :
    PoolInv dm₀ live b' c.last c.pending ∧
      (∀ g, 0 < (c.bpm.pages g).pinCount → (b'.pages g).id = (c.bpm.pages g).id) ∧
      ∀ f, r = some f → c.last pageId = some (b'.pages f).data := by
  obtain ⟨x, hx⟩ := Option.ne_none_iff_exists'.mp halloc
  have hrange := h.inRange hx
  have hlive := h.last_live hx
  rcases fetchPage_cases h.frames hr with ⟨f, hf, rfl, rfl⟩ | ⟨hp, -, -, rfl, rfl⟩ |
    ⟨hp, f, buf, data, d₁, d, hav, rfl, hw, hread, rfl⟩
  · refine ⟨?_, fun g _ => id_pinFrame f g, ?_⟩
    · refine h.setFrame hlive hf (h.frames.pinFrame ⟨pageId, hf⟩) (fun g hg => ?_) rfl rfl rfl
        (fun _ _ => rfl) (fun _ _ => rfl) ?_ (fun hd hpe => ?_) fun h0 => ?_
      · simp [pinFrame, setPage, hg]
      · simpa [pinFrame, setPage] using h.resident hlive hf
      · simp only [pinFrame, setPage, Function.update_self] at hd ⊢
        exact h.clean hlive hf hd hpe
      · simp [pinFrame, setPage] at h0
    · rintro g ⟨⟩
      simpa [pinFrame, setPage] using h.resident hlive hf
  · exact ⟨h, fun _ _ => rfl, fun f hf => by cases hf⟩
  · obtain ⟨hopen, hcont⟩ := h.contents_writeBack hav (.refl _) rfl hw
    obtain ⟨hdata, hso, hfile, -⟩ := DiskManager.readPage_spec hrange hread
    -- the file holds the last bytes of a page that is not in the pool
    have hxd : x = data := by
      have := hcont pageId x hx (Or.inl hp)
      rw [hdata] at this
      exact (Option.some.inj this).symm
    subst hxd
    have hlast : Function.update c.last pageId (some x) = c.last :=
      Function.update_eq_self_iff.mpr hx.symm
    refine ⟨?_, fun g hg => id_assign_of_pinned h.frames hav hg, ?_⟩
    · rw [← hlast]
      refine h.assign hav hlive hp hrange (hopen.trans hso) (fun q y _ hy hcase => ?_)
        (fun _ _ => rfl) fun _ => ?_
      · rw [DiskManager.contents_congr hso hfile]
        exact hcont q y hy hcase
      · rw [DiskManager.contents_congr hso hfile]
        exact hdata
    · rintro g ⟨⟩
      simpa [BufferPoolManager.assign] using hx

/-- A number that is not used in the file is free in the pool too. -/
theorem PoolClient.AllocOk.fresh {fd : Int} (halloc : c.AllocOk fd) (h : c.Inv dm₀ live)
    (hlive : live fd) : c.bpm.FreshAlloc fd := by
  obtain ⟨hrange, hnew⟩ := halloc
  have hvalid : c.bpm.diskManager.fd2pageno fd ≠ invalidPageId :=
    ne_of_gt (lt_of_lt_of_le (by decide) hrange.1)
  refine ⟨hvalid, fun f hf hid => ?_⟩
  rcases h.frames.free_or_mapped hf with hfree | ⟨p, hp⟩
  · have hno := h.free_id f hfree
    rw [hid] at hno
    exact absurd hno hvalid
  · have hpid := (h.frames.table hp).2
    rw [hid] at hpid
    subst hpid
    have hlast := h.resident hlive hp
    exact absurd (hlast.symm.trans hnew) (by simp)

theorem newPage_served (h : c.Inv dm₀ live) {fd : Int} (hlive : live fd)
    (hstep : ClientStep c (.newPage fd) c') : c'.Inv dm₀ live ∧
      ∀ g, 0 < (c.bpm.pages g).pinCount → (c'.bpm.pages g).id = (c.bpm.pages g).id := by
  obtain ⟨halloc, r, b', hr, rfl⟩ := hstep
  have hrange := halloc.1
  have hfr := halloc.fresh h hlive
  rcases newPage_cases h.frames hfr hr with ⟨-, -, rfl, rfl⟩ | ⟨f, d, hav, rfl, hw, rfl⟩
  · exact ⟨h, fun _ _ => rfl⟩
  · have hopen : c.bpm.diskManager.SameOpen (PageDevice.allocatePage c.bpm.diskManager fd).2 :=
      ⟨fun _ => rfl, rfl, rfl, rfl, rfl⟩
    obtain ⟨hopen', hcont⟩ := h.contents_writeBack hav hopen rfl hw
    refine ⟨?_, fun g hg => id_assign_of_pinned h.frames hav hg⟩
    refine h.assign hav hlive (hfr.table h.frames) hrange hopen' (fun q x _ => hcont q x)
      (fun q hq => Function.update_of_ne hq ..) fun hpe => ?_
    change Function.update c.pending _ true _ = false at hpe
    rw [Function.update_self] at hpe
    cases hpe

theorem unpinPage_served (h : c.Inv dm₀ live) {pageId : PageId} {isDirty : Bool}
    (hlive : live pageId.fd) (hstep : ClientStep c (.unpinPage pageId isDirty) c') :
    c'.Inv dm₀ live ∧
      ∀ g, (c'.bpm.pages g).id = (c.bpm.pages g).id := by
  obtain ⟨hrule, r, b', hr, rfl⟩ := hstep
  rcases unpinPage_cases hr with ⟨rfl, rfl, -⟩ | ⟨f, hf, hpos, rfl, rfl⟩
  · exact ⟨h, fun _ => rfl⟩
  · refine ⟨?_, fun g => id_unpinFrame f isDirty g⟩
    have hself : (c.bpm.unpinFrame f isDirty).pages f =
        { c.bpm.pages f with
          pinCount := (c.bpm.pages f).pinCount - 1,
          isDirty := (c.bpm.pages f).isDirty || isDirty } := by
      simp [unpinFrame, setPage]
    simp only [Bool.true_and]
    refine h.setFrame hlive hf (h.frames.unpinFrame ⟨pageId, hf⟩ hpos isDirty) (fun g hg => ?_) rfl
      rfl rfl (fun _ _ => rfl) (fun q hq => ?_) ?_ (fun hd hpe => ?_) fun h0 => ?_
    · simp [unpinFrame, setPage, hg]
    · split_ifs
      · exact Function.update_of_ne hq ..
      · rfl
    · rw [hself]
      exact h.resident hlive hf
    · -- clean after the call: it was clean before and the flag was not set
      rw [hself] at hd ⊢
      rw [Bool.or_eq_false_iff] at hd
      rw [hd.2] at hpe
      exact h.clean hlive hf hd.1 (by simpa using hpe)
    · rw [hself] at h0
      cases hdirty : isDirty with
      | true => simp
      | false =>
        have h1 : (c.bpm.pages f).pinCount = 1 := by
          change (c.bpm.pages f).pinCount - 1 = 0 at h0
          omega
        simpa [hdirty] using hrule f hf h1

/-- **Every call keeps the invariant and serves its client.** -/
theorem clientStep_served {op : ClientOp} (h : c.Inv dm₀ live) (hlive : live op.fd)
    (hstep : ClientStep c op c') : c'.Inv dm₀ live ∧ c.Served op c' := by
  cases op with
  | newPage fd =>
    obtain ⟨hinv, hid⟩ := newPage_served h hlive hstep
    exact ⟨hinv, fun f _ => hid f, trivial⟩
  | fetchPage pageId =>
    obtain ⟨halloc, r, b', hr, rfl⟩ := hstep
    obtain ⟨hinv, hid, -⟩ := fetchPage_served h halloc hr
    exact ⟨hinv, fun f _ => hid f, fun f b'' hf => (fetchPage_served h halloc hf).2.2 f rfl⟩
  | unpinPage pageId isDirty =>
    obtain ⟨hinv, hid⟩ := unpinPage_served h hlive hstep
    exact ⟨hinv, fun f _ _ => hid f, trivial⟩
  | flushPage pageId =>
    obtain ⟨r, b', hr, rfl⟩ := hstep
    rcases flushPage_cases hr with ⟨-, -, rfl⟩ | ⟨f, d, hf, hw, -, rfl⟩
    · exact ⟨h, fun _ _ _ => rfl, trivial⟩
    · rw [(h.frames.table hf).2] at hw
      exact ⟨(h.cleanFrame hlive hf hw).1, fun g _ _ => id_cleanFrame f d g, trivial⟩
  | flushAllPages fd =>
    obtain ⟨b', hr, rfl⟩ := hstep
    obtain ⟨hinv, -, hpg, hkeep, hall⟩ :=
      PoolInv.flushFrames hlive (fun i hi => List.mem_range.mp hi) h hr
    refine ⟨hinv, fun f _ _ => (hpg f).1, fun p data hfd hdata => ?_⟩
    cases hp : c.bpm.pageTable p with
    | none => exact hkeep p data hdata (h.absent hp hdata)
    | some f =>
      have hres := h.resident (h.last_live hdata) hp
      rw [hdata] at hres
      rw [Option.some.inj hres]
      exact (hall p f hp (List.mem_range.mpr (h.frames.table hp).1) hfd).2
  | write pageId data =>
    obtain ⟨f, hf, hpin, rfl⟩ := hstep
    have hself : (c.bpm.setData f data).pages f = { c.bpm.pages f with data } := by
      simp [setData, setPage]
    refine ⟨h.setFrame hlive hf (h.frames.setData f data) (fun g hg => ?_) rfl rfl rfl
      (fun q hq => Function.update_of_ne hq ..) (fun q hq => Function.update_of_ne hq ..) ?_
      (fun _ hpe => ?_) fun h0 => ?_, fun g _ _ => id_setData f data g, trivial⟩
    · simp [setData, setPage, hg]
    · rw [hself]
      exact Function.update_self ..
    · simp at hpe
    · rw [hself] at h0
      change (c.bpm.pages f).pinCount = 0 at h0
      omega

end Steps

/-- The only file of `oneFile` is open once. -/
theorem oneFile_distinctFiles : oneFile.DistinctFiles := by
  intro fd fd' o o' ho ho' _
  unfold oneFile at ho ho'
  simp only [Option.ite_none_right_eq_some] at ho ho'
  rw [ho.1, ho'.1]

end Rucbase
