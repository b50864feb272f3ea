import Rucbase.Storage.Equiv.DiskManager
import Rucbase.Storage.Equiv.FailedCalls
import Rucbase.Storage.Equiv.PageContents

/-!
# New pages and the disk

`NewPage` gives a zeroed frame to a number that the file does not reach yet, and marks nothing
dirty.  If the page is clean when its frame is taken, nothing is written, and unless a page behind
it in the file was written before, a later `FetchPage` asks the disk for bytes behind the end of
the file and throws.  `new_pages_fetchable` says that this is the only way to lose a page.
-/

namespace Rucbase

open BufferPoolManager EStateM

/-- The pool, and the bytes that were last saved of each allocated page: by a flush or by an
`UnpinPage` with `is_dirty`, and zeros before that. -/
structure SavedPages where
  bpm : BufferPoolManager DiskManager
  saved : PageId → Option PageData

namespace SavedPages

/-- The bytes of a resident page. -/
def bytesOf (c : SavedPages) (pageId : PageId) : Option PageData :=
  (c.bpm.pageTable pageId).map fun f => (c.bpm.pages f).data

/-- The calls of a run without `DeletePage`.  Writes to the disk succeed; a `FetchPage` may throw. -/
def Step (c : SavedPages) (op : ClientOp) (c' : SavedPages) : Prop :=
  match op with
  | .newPage fd => ∃ r b', newPage fd c.bpm = .ok r b' ∧
      c' = match r with
        | none => ⟨b', c.saved⟩
        | some (_, pageId) => ⟨b', Function.update c.saved pageId (some zeroPage)⟩
  | .fetchPage pageId => c' = ⟨(fetchPage pageId).after c.bpm, c.saved⟩
  | .unpinPage pageId isDirty => ∃ r b', unpinPage pageId isDirty c.bpm = .ok r b' ∧
      c' = ⟨b', if r && isDirty then Function.update c.saved pageId (c.bytesOf pageId) else c.saved⟩
  | .flushPage pageId => ∃ r b', flushPage pageId c.bpm = .ok r b' ∧
      c' = ⟨b', if r then Function.update c.saved pageId (c.bytesOf pageId) else c.saved⟩
  | .flushAllPages fd => ∃ b', flushAllPages fd c.bpm = .ok () b' ∧
      c' = ⟨b', fun p => if p.fd = fd ∧ c.bytesOf p ≠ none then c.bytesOf p else c.saved p⟩
  | .write pageId data => ∃ f, c.bpm.pageTable pageId = some f ∧ 0 < (c.bpm.pages f).pinCount ∧
      c' = ⟨c.bpm.setData f data, c.saved⟩

/-- A `FetchPage` of an allocated page does not throw: it returns null because all frames are
pinned, or the page with the bytes that were last saved. -/
def Fetches (c : SavedPages) (op : ClientOp) (_ : SavedPages) : Prop :=
  match op with
  | .fetchPage pageId => c.saved pageId ≠ none →
      ∃ r b', fetchPage pageId c.bpm = .ok r b' ∧
        (r = none → ∀ f < c.bpm.poolSize, c.bpm.Pinned f) ∧
        ∀ f, r = some f → c.saved pageId = some (b'.pages f).data
  | _ => True

/-- The page in the frame that is taken next can be dropped: if it is clean, the file holds its
saved bytes already, and if it is dirty, it was not changed since it was saved. -/
def VictimSafe (c : SavedPages) : Prop :=
  ∀ p f, c.bpm.pageTable p = some f → c.bpm.Available f →
    if (c.bpm.pages f).isDirty then c.saved p = some (c.bpm.pages f).data
    else c.bpm.diskManager.contents p = c.saved p

/-- The condition on a call.  `NewPage`: the file is open, the number not in use, and the victim can
be dropped.  `FetchPage`: the page is allocated; if it is resident, it was not changed since it was
saved, and otherwise the victim can be dropped. -/
def Condition (c : SavedPages) : ClientOp → Prop
  | .newPage fd => (c.bpm.diskManager.os.fds fd).isSome = true ∧
      PageId.InRange ⟨fd, c.bpm.diskManager.fd2pageno fd⟩ ∧
      c.saved ⟨fd, c.bpm.diskManager.fd2pageno fd⟩ = none ∧ c.VictimSafe
  | .fetchPage pageId => c.saved pageId ≠ none ∧
      match c.bpm.pageTable pageId with
      | some f => c.saved pageId = some (c.bpm.pages f).data
      | none => c.VictimSafe
  | _ => True

/-! ### The invariant -/

/-- An allocated page belongs to an open file, every resident page is allocated, and the file holds
the saved bytes of every allocated page that is not resident. -/
structure Inv (dm₀ : DiskManager) (c : SavedPages) : Prop where
  frames : FrameInv c.bpm
  distinct : dm₀.DistinctFiles
  sameOpen : dm₀.SameOpen c.bpm.diskManager
  free_id : ∀ f ∈ c.bpm.freeList, (c.bpm.pages f).id.pageNo = invalidPageId
  allocated : ∀ {p}, c.saved p ≠ none → p.InRange ∧ (dm₀.os.fds p.fd).isSome = true
  resident : ∀ {p f}, c.bpm.pageTable p = some f → c.saved p ≠ none
  absent : ∀ {p data}, c.bpm.pageTable p = none → c.saved p = some data →
    c.bpm.diskManager.contents p = some data

namespace Inv

variable {dm₀ dm dm' : DiskManager} {c : SavedPages} {f : Nat} {pageId : PageId}

/-- A pool over files that hold all allocated pages. -/
theorem new (hd : dm.DistinctFiles) {saved : PageId → Option PageData}
    (hsaved : ∀ p data, saved p = some data → p.InRange ∧ dm.contents p = some data)
    (poolSize : Nat) (fd₀ : Nat → Int) : Inv dm ⟨.new poolSize fd₀ dm, saved⟩ where
  frames := frameInv_new poolSize fd₀ dm
  distinct := hd
  sameOpen := .refl _
  free_id _ _ := rfl
  allocated {p} h := by
    obtain ⟨data, hdata⟩ := Option.ne_none_iff_exists'.mp h
    obtain ⟨hr, hc⟩ := hsaved p data hdata
    obtain ⟨o, ho, -⟩ := Option.bind_eq_some_iff.mp hc
    exact ⟨hr, by rw [ho]; rfl⟩
  resident h := by simp [BufferPoolManager.new] at h
  absent _ h := (hsaved _ _ h).2

/-- The pages of the pool can be written: their files are open. -/
theorem write_ok (h : Inv dm₀ c) (hp : c.bpm.pageTable pageId = some f) (hopen : dm₀.SameOpen dm) :
    (dm.writePage pageId.fd pageId.pageNo (c.bpm.pages f).data).1 = true := by
  obtain ⟨hr, hfd⟩ := h.allocated (h.resident hp)
  refine DiskManager.writePage_of_open hr ?_ _
  have := congrArg Option.isSome (hopen.inode pageId.fd)
  rwa [Option.isSome_map, Option.isSome_map, hfd, eq_comm] at this

/-- **Taking a frame loses nothing**, if its page can be dropped: after the write-back the file holds
the saved bytes of every page that was not resident, and of the page in the frame. -/
theorem contents_writeBack (h : Inv dm₀ c) (hav : c.bpm.Available f) (hsafe : c.VictimSafe)
    (hopen : c.bpm.diskManager.SameOpen dm) (hfile : dm.os.file = c.bpm.diskManager.os.file)
    (hw : WriteBack dm (c.bpm.pages f) dm') :
    dm₀.SameOpen dm' ∧ ∀ q data, c.saved q = some data →
      (c.bpm.pageTable q = none ∨ c.bpm.pageTable q = some f) → dm'.contents q = some data := by
  have hopen₀ := h.sameOpen.trans hopen
  have hcont : ∀ q, dm.contents q = c.bpm.diskManager.contents q :=
    fun q => DiskManager.contents_congr hopen hfile q
  unfold WriteBack at hw
  split_ifs at hw with hd
  · -- a dirty frame is mapped, for free frames are clean
    obtain ⟨p, hp⟩ : c.bpm.Mapped f := by
      rcases h.frames.free_or_mapped (hav.lt h.frames) with hfr | hm
      · rw [(h.frames.free_clean f hfr).1] at hd
        cases hd
      · exact hm
    have hsaved := hsafe p f hp hav
    rw [if_pos hd] at hsaved
    rw [(h.frames.table hp).2] at hw
    obtain ⟨hself, hso, -, hother⟩ :=
      DiskManager.writePage_spec (h.allocated (h.resident hp)).1 (hopen₀.distinct h.distinct) hw
    refine ⟨hopen₀.trans hso, fun q data hq hcase => ?_⟩
    rcases eq_or_ne q p with rfl | hne
    · rw [hself, ← hsaved, hq]
    · refine hother q (h.allocated (by simp [hq])).1 hne data ?_
      rw [hcont]
      rcases hcase with hnone | hf
      · exact h.absent hnone hq
      · exact absurd (h.frames.table_injective hf hp) hne
  · subst hw
    refine ⟨hopen₀, fun q data hq hcase => ?_⟩
    rw [hcont]
    rcases hcase with hnone | hf
    · exact h.absent hnone hq
    · have hkept := hsafe q f hf hav
      rw [if_neg hd] at hkept
      rw [hkept, hq]

/-- **Loading a page into an available frame keeps the invariant.** -/
theorem assign (h : Inv dm₀ c) (hav : c.bpm.Available f) (hp : c.bpm.pageTable pageId = none)
    (hr : pageId.InRange) (hfd : (dm₀.os.fds pageId.fd).isSome = true) (hopen : dm₀.SameOpen dm)
    (hcont : ∀ q x, c.saved q = some x →
      (c.bpm.pageTable q = none ∨ c.bpm.pageTable q = some f) → dm.contents q = some x)
    {saved : PageId → Option PageData} (hsaved : ∀ q, q ≠ pageId → saved q = c.saved q)
    (hself : saved pageId ≠ none) (data : PageData) :
    Inv dm₀ ⟨c.bpm.assign f pageId data dm, saved⟩ := by
  have htable : ∀ p g, (c.bpm.assign f pageId data dm).pageTable p = some g ↔
      p = pageId ∧ g = f ∨ c.bpm.pageTable p = some g ∧ g ≠ f :=
    table_assign_iff hav h.frames hp
  constructor
  case frames =>
    refine h.frames.assign hav hp fun g hg hid => ?_
    -- a free frame carries the invalid number, and `pageId` is in range
    have hno := h.free_id g (List.mem_of_mem_tail hg)
    have hpos := hr.1
    rw [hid] at hno
    rw [hno] at hpos
    exact absurd hpos (by decide)
  case distinct => exact h.distinct
  case sameOpen => exact hopen
  case free_id =>
    intro g hg
    have hgf : g ≠ f := fun e => hav.notMem_tail h.frames (e ▸ hg)
    have hpage : (c.bpm.assign f pageId data dm).pages g = c.bpm.pages g := by
      simp [BufferPoolManager.assign, hgf]
    rw [hpage]
    exact h.free_id g (List.mem_of_mem_tail hg)
  case allocated =>
    intro q hq
    rcases eq_or_ne q pageId with rfl | hne
    · exact ⟨hr, hfd⟩
    · exact h.allocated (hsaved q hne ▸ hq)
  case resident =>
    intro q g hq
    rcases (htable q g).mp hq with ⟨rfl, -⟩ | ⟨hold, -⟩
    · exact hself
    · have hne : q ≠ pageId := by
        rintro rfl
        rw [hp] at hold
        cases hold
      show saved q ≠ none
      rw [hsaved q hne]
      exact h.resident hold
  case absent =>
    intro q x hq hx
    have hne : q ≠ pageId := by
      rintro rfl
      rw [(htable q f).mpr (Or.inl ⟨rfl, rfl⟩)] at hq
      cases hq
    refine hcont q x (hsaved q hne ▸ hx) ?_
    cases hg : c.bpm.pageTable q with
    | none => exact Or.inl rfl
    | some g =>
      rcases eq_or_ne g f with rfl | hgf
      · exact Or.inr rfl
      · rw [(htable q g).mpr (Or.inr ⟨hg, hgf⟩)] at hq
        cases hq

/-- A call that leaves the table and the ids of the frames, and saves resident pages only, keeps the
invariant if no page on disk is lost. -/
theorem congr (h : Inv dm₀ c) {b : BufferPoolManager DiskManager} (hframes : FrameInv b)
    (htable : b.pageTable = c.bpm.pageTable) (hfree : b.freeList = c.bpm.freeList)
    (hid : ∀ g, (b.pages g).id = (c.bpm.pages g).id) (hopen : dm₀.SameOpen b.diskManager)
    (hcont : ∀ q data, c.bpm.pageTable q = none → q.InRange →
      c.bpm.diskManager.contents q = some data → b.diskManager.contents q = some data)
    {saved : PageId → Option PageData}
    (hsaved : ∀ q, saved q = c.saved q ∨ c.bpm.pageTable q ≠ none ∧ saved q ≠ none) :
    Inv dm₀ ⟨b, saved⟩ := by
  constructor
  case frames => exact hframes
  case distinct => exact h.distinct
  case sameOpen => exact hopen
  case free_id =>
    intro g hg
    rw [hid]
    exact h.free_id g (hfree ▸ hg)
  case allocated =>
    intro q hq
    rcases hsaved q with heq | ⟨hmem, -⟩
    · exact h.allocated (heq ▸ hq)
    · obtain ⟨g, hg⟩ := Option.ne_none_iff_exists'.mp hmem
      exact h.allocated (h.resident hg)
  case resident =>
    intro q g hq
    rcases hsaved q with heq | ⟨-, hne⟩
    · show saved q ≠ none
      rw [heq]
      exact h.resident (htable ▸ hq)
    · exact hne
  case absent =>
    intro q x hq hx
    rw [htable] at hq
    rcases hsaved q with heq | ⟨hmem, -⟩
    · have hx' : c.saved q = some x := heq ▸ hx
      exact hcont q x hq (h.allocated (by simp [hx'])).1 (h.absent hq hx')
    · exact absurd hq hmem

/-- A flushed frame: its page is on disk, and no other page is lost. -/
theorem contents_write (h : Inv dm₀ c) (hp : c.bpm.pageTable pageId = some f) {data : PageData}
    (hw : c.bpm.diskManager.writePage pageId.fd pageId.pageNo data = (true, dm)) :
    dm₀.SameOpen dm ∧ ∀ q x, c.bpm.pageTable q = none → q.InRange →
      c.bpm.diskManager.contents q = some x → dm.contents q = some x := by
  obtain ⟨-, hso, -, hother⟩ := DiskManager.writePage_spec (h.allocated (h.resident hp)).1
    (h.sameOpen.distinct h.distinct) hw
  refine ⟨h.sameOpen.trans hso, fun q x hq hr hx => hother q hr ?_ x hx⟩
  rintro rfl
  rw [hp] at hq
  cases hq

/-- A page that can be dropped is written back, and then the file holds the page to fetch. -/
theorem fetchPage_ne_error (h : Inv dm₀ c) (hcond : c.Condition (.fetchPage pageId))
    {e : RedBaseError} {b' : BufferPoolManager DiskManager} :
    BufferPoolManager.fetchPage pageId c.bpm ≠ .error e b' := by
  intro hres
  obtain ⟨hsaved, hcond⟩ := hcond
  obtain ⟨x, hx⟩ := Option.ne_none_iff_exists'.mp hsaved
  have hr := (h.allocated hsaved).1
  obtain ⟨-, hp, f, hav, hcase⟩ := fetchPage_error_cases h.frames hres
  rw [hp] at hcond
  rcases hcase with ⟨hd, data, d, hread, -⟩ | ⟨hd, d, hw, -⟩ | ⟨hd, d₁, data, d, hw, hread, -⟩
  · -- nothing is written, and the page is on disk
    have hok := DiskManager.readPage_of_contents hr (h.absent hp hx) (c.bpm.pages f).data
    change (PageDevice.readPage c.bpm.diskManager pageId (c.bpm.pages f).data).1 = true at hok
    rw [hread] at hok
    cases hok
  · -- the victim's file is open
    rcases h.frames.free_or_mapped (hav.lt h.frames) with hfr | ⟨p, hp'⟩
    · rw [(h.frames.free_clean f hfr).1] at hd
      cases hd
    · have hok := h.write_ok hp' h.sameOpen
      rw [← (h.frames.table hp').2] at hok
      change (PageDevice.writePage c.bpm.diskManager (c.bpm.pages f).id (c.bpm.pages f).data).1 =
        true at hok
      rw [hw] at hok
      cases hok
  · have hwb : WriteBack c.bpm.diskManager (c.bpm.pages f) d₁ := by
      rw [WriteBack, if_pos hd]
      exact hw
    have hcont := (h.contents_writeBack hav hcond (.refl _) rfl hwb).2
    have hok := DiskManager.readPage_of_contents hr (hcont pageId x hx (Or.inl hp)) zeroPage
    change (PageDevice.readPage d₁ pageId zeroPage).1 = true at hok
    rw [hread] at hok
    cases hok

/-- **A `FetchPage` under the condition** returns, keeps the invariant, and gives the saved bytes. -/
theorem fetchPage (h : Inv dm₀ c) (hcond : c.Condition (.fetchPage pageId)) :
    ∃ r b', BufferPoolManager.fetchPage pageId c.bpm = .ok r b' ∧ Inv dm₀ ⟨b', c.saved⟩ ∧
      (r = none → ∀ f < c.bpm.poolSize, c.bpm.Pinned f) ∧
      ∀ f, r = some f → c.saved pageId = some (b'.pages f).data := by
  cases hres : BufferPoolManager.fetchPage pageId c.bpm with
  | error e b' => exact absurd hres (h.fetchPage_ne_error hcond)
  | ok r b' =>
    obtain ⟨hsaved, hcond⟩ := hcond
    obtain ⟨x, hx⟩ := Option.ne_none_iff_exists'.mp hsaved
    obtain ⟨hr, hfd⟩ := h.allocated hsaved
    refine ⟨r, b', rfl, ?_⟩
    rcases fetchPage_cases h.frames hres with ⟨f, hf, rfl, rfl⟩ | ⟨hp, hfree, hrep, rfl, rfl⟩ |
      ⟨hp, f, buf, data, d₁, d, hav, rfl, hw, hread, rfl⟩
    · rw [hf] at hcond
      refine ⟨?_, fun hnone => (by cases hnone), ?_⟩
      · exact h.congr (h.frames.pinFrame ⟨pageId, hf⟩) rfl rfl (id_pinFrame f) h.sameOpen
          (fun _ _ _ _ hc => hc) fun _ => Or.inl rfl
      · rintro g ⟨⟩
        simpa [pinFrame, setPage] using hcond
    · refine ⟨h, fun _ f hf => ?_, fun f hf => by cases hf⟩
      rcases h.frames.state f hf with ⟨hfr, -⟩ | ⟨-, hev, -⟩ | ⟨-, -, hpin⟩
      · rw [Free, hfree] at hfr
        cases hfr
      · rw [Evictable, hrep] at hev
        cases hev
      · exact hpin
    · rw [hp] at hcond
      obtain ⟨hopen, hcont⟩ := h.contents_writeBack hav hcond (.refl _) rfl hw
      obtain ⟨hdata, hso, hfile, -⟩ := DiskManager.readPage_spec hr hread
      refine ⟨?_, fun hnone => (by cases hnone), ?_⟩
      · refine h.assign hav hp hr hfd (hopen.trans hso) (fun q y hy hcase => ?_)
          (fun _ _ => rfl) hsaved data
        rw [DiskManager.contents_congr hso hfile]
        exact hcont q y hy hcase
      · rintro g ⟨⟩
        have hxd := hcont pageId x hx (Or.inl hp)
        rw [hdata] at hxd
        rw [hx, ← hxd]
        simp [BufferPoolManager.assign]

/-- A number that is not in use is free in the pool too. -/
theorem freshAlloc (h : Inv dm₀ c) {fd : Int}
    (hr : PageId.InRange ⟨fd, c.bpm.diskManager.fd2pageno fd⟩)
    (hnew : c.saved ⟨fd, c.bpm.diskManager.fd2pageno fd⟩ = none) : c.bpm.FreshAlloc fd := by
  have hvalid : c.bpm.diskManager.fd2pageno fd ≠ invalidPageId :=
    ne_of_gt (lt_of_lt_of_le (by decide) hr.1)
  refine ⟨hvalid, fun f hf hid => ?_⟩
  rcases h.frames.free_or_mapped hf with hfree | ⟨p, hp⟩
  · have hno := h.free_id f hfree
    rw [hid] at hno
    exact hvalid hno
  · rw [(h.frames.table hp).2] at hid
    exact h.resident hp (hid ▸ hnew)

theorem newPage (h : Inv dm₀ c) {fd : Int} {c' : SavedPages} (hstep : Step c (.newPage fd) c')
    (hcond : c.Condition (.newPage fd)) : Inv dm₀ c' := by
  obtain ⟨hfd, hr, hnew, hsafe⟩ := hcond
  obtain ⟨r, b', hres, rfl⟩ := hstep
  have hfresh := h.freshAlloc hr hnew
  rcases newPage_cases h.frames hfresh hres with ⟨-, -, rfl, rfl⟩ | ⟨f, d, hav, rfl, hw, rfl⟩
  · exact h
  · have hopen : c.bpm.diskManager.SameOpen (PageDevice.allocatePage c.bpm.diskManager fd).2 :=
      ⟨fun _ => rfl, rfl, rfl, rfl, rfl⟩
    obtain ⟨hopen', hcont⟩ := h.contents_writeBack hav hsafe hopen rfl hw
    refine h.assign hav (hfresh.table h.frames) hr ?_ hopen' hcont
      (fun q hq => Function.update_of_ne hq ..) ?_ zeroPage
    · have := congrArg Option.isSome (h.sameOpen.inode fd)
      rwa [Option.isSome_map, Option.isSome_map, hfd] at this
    · rw [Function.update_self]
      exact Option.some_ne_none _

/-- Writing one resident page out keeps the invariant. -/
theorem cleanFrame (h : Inv dm₀ c) (hp : c.bpm.pageTable pageId = some f)
    (hw : c.bpm.diskManager.writePage pageId.fd pageId.pageNo (c.bpm.pages f).data = (true, dm)) :
    Inv dm₀ ⟨c.bpm.cleanFrame f dm, c.saved⟩ := by
  obtain ⟨hopen, hcont⟩ := h.contents_write hp hw
  exact h.congr (h.frames.cleanFrame f dm) rfl rfl (id_cleanFrame f dm) hopen hcont
    fun _ => Or.inl rfl

/-- Resident pages may be saved at any time. -/
theorem save (h : Inv dm₀ c) {saved : PageId → Option PageData}
    (hsaved : ∀ q, saved q = c.saved q ∨ c.bpm.pageTable q ≠ none ∧ saved q ≠ none) :
    Inv dm₀ ⟨c.bpm, saved⟩ :=
  h.congr h.frames rfl rfl (fun _ => rfl) h.sameOpen (fun _ _ _ _ hc => hc) hsaved

theorem flushAllPages (h : Inv dm₀ c) {fd : Int} {u : Unit} {b' : BufferPoolManager DiskManager}
    (hres : BufferPoolManager.flushAllPages fd c.bpm = .ok u b') :
    Inv dm₀ ⟨b', c.saved⟩ ∧ b'.pageTable = c.bpm.pageTable := by
  have hloop := forM_induct
    (I := fun b => b.poolSize = c.bpm.poolSize ∧ Inv dm₀ ⟨b, c.saved⟩ ∧
      b.pageTable = c.bpm.pageTable)
    (f := flushFrame fd) (fun i hi b b₁ u hb hr => ?_) hres ⟨rfl, h, rfl⟩
  · exact hloop.2
  · obtain ⟨hsize, hinv, htable⟩ := hb
    rcases flushFrame_cases hr with ⟨-, rfl⟩ | ⟨d, ⟨-, hvalid⟩, hw, rfl⟩
    · exact ⟨hsize, hinv, htable⟩
    · -- a frame with a valid number is mapped
      have hi' : i < b.poolSize := by
        rw [hsize]
        exact List.mem_range.mp hi
      rcases hinv.frames.free_or_mapped hi' with hfr | ⟨p, hp⟩
      · exact absurd (hinv.free_id i hfr) hvalid
      · have hid : (b.pages i).id = p := (hinv.frames.table hp).2
        rw [hid] at hw
        exact ⟨hsize, hinv.cleanFrame hp hw, htable⟩

end Inv

/-- **Every call under the condition keeps the invariant and serves its fetches.** -/
theorem Inv.step {dm₀ : DiskManager} {c c' : SavedPages} {op : ClientOp} (h : Inv dm₀ c)
    (hstep : Step c op c') (hcond : c.Condition op) : Inv dm₀ c' ∧ c.Fetches op c' := by
  cases op with
  | newPage fd => exact ⟨h.newPage hstep hcond, trivial⟩
  | fetchPage pageId =>
    obtain ⟨r, b', hres, hinv, hpinned, hdata⟩ := h.fetchPage hcond
    cases hstep
    refine ⟨?_, fun _ => ⟨r, b', hres, hpinned, hdata⟩⟩
    rw [after_of_ok hres]
    exact hinv
  | unpinPage pageId isDirty =>
    obtain ⟨r, b', hres, rfl⟩ := hstep
    refine ⟨?_, trivial⟩
    rcases unpinPage_cases hres with ⟨rfl, rfl, -⟩ | ⟨f, hf, hpos, rfl, rfl⟩
    · exact h
    · refine h.congr (h.frames.unpinFrame ⟨pageId, hf⟩ hpos isDirty) rfl rfl
        (id_unpinFrame f isDirty) h.sameOpen (fun _ _ _ _ hc => hc) fun q => ?_
      split_ifs
      · rcases eq_or_ne q pageId with rfl | hne
        · exact Or.inr ⟨by simp [hf], by simp [bytesOf, hf]⟩
        · exact Or.inl (Function.update_of_ne hne ..)
      · exact Or.inl rfl
  | flushPage pageId =>
    obtain ⟨r, b', hres, rfl⟩ := hstep
    refine ⟨?_, trivial⟩
    rcases flushPage_cases hres with ⟨-, rfl, rfl⟩ | ⟨f, d, hf, hw, rfl, rfl⟩
    · exact h
    · -- the page itself is saved now; the others are as they were
      rw [(h.frames.table hf).2] at hw
      refine (h.cleanFrame hf hw).save fun q => ?_
      rw [if_pos rfl]
      rcases eq_or_ne q pageId with rfl | hne
      · refine Or.inr ⟨?_, by simp [bytesOf, hf]⟩
        change c.bpm.pageTable q ≠ none
        simp [hf]
      · exact Or.inl (Function.update_of_ne hne ..)
  | flushAllPages fd =>
    obtain ⟨b', hres, rfl⟩ := hstep
    -- a page of the file is saved exactly if the pool holds it
    obtain ⟨hinv, htable⟩ := h.flushAllPages hres
    refine ⟨hinv.save fun q => ?_, trivial⟩
    split_ifs with hq
    · refine Or.inr ⟨?_, hq.2⟩
      change b'.pageTable q ≠ none
      rw [htable]
      intro hnone
      simp [bytesOf, hnone] at hq
    · exact Or.inl rfl
  | write pageId data =>
    obtain ⟨f, hf, hpin, rfl⟩ := hstep
    refine ⟨?_, trivial⟩
    exact h.congr (h.frames.setData f data) rfl rfl (id_setData f data) h.sameOpen
      (fun _ _ _ _ hc => hc) fun _ => Or.inl rfl

/-- It is enough to look at the id that the victim carries. -/
theorem victimSafe_of_frames {c : SavedPages} (h : FrameInv c.bpm)
    (hsafe : ∀ f, c.bpm.Available f →
      if (c.bpm.pages f).isDirty then c.saved (c.bpm.pages f).id = some (c.bpm.pages f).data
      else c.bpm.diskManager.contents (c.bpm.pages f).id = c.saved (c.bpm.pages f).id) :
    c.VictimSafe := by
  intro p f hp hav
  have hid := hsafe f hav
  rwa [(h.table hp).2] at hid

/-- **Pages stay fetchable.**  For every pool size and every run without `DeletePage`, over files
that hold the pages allocated before: if whenever a frame is taken its page can be dropped, then no
`FetchPage` of an allocated page throws; it returns the bytes that were last saved, or null because
all frames are pinned. -/
theorem new_pages_fetchable (poolSize : Nat) (fd₀ : Nat → Int) (dm : DiskManager)
    (hdm : dm.DistinctFiles) (saved : PageId → Option PageData)
    (hsaved : ∀ p data, saved p = some data → p.InRange ∧ dm.contents p = some data)
    (run : List (ClientOp × SavedPages)) (hrun : Run Step ⟨.new poolSize fd₀ dm, saved⟩ run)
    (hcond : Along (fun c op _ => c.Condition op) ⟨.new poolSize fd₀ dm, saved⟩ run) :
    Along Fetches ⟨.new poolSize fd₀ dm, saved⟩ run :=
  (hrun.along_of_invariant (I := Inv dm) (fun _ _ _ h hstep hc => h.step hstep hc)
    (Inv.new hdm hsaved poolSize fd₀) hcond).2

/-- Two pages are created and unpinned as dirty in a pool of one frame, and the first is fetched
again. -/
theorem new_pages_fetchable_dirty :
    ∃ run : List (ClientOp × SavedPages),
      run.map Prod.fst = [.newPage 3, .unpinPage ⟨3, 0⟩ true, .newPage 3, .unpinPage ⟨3, 1⟩ true,
        .fetchPage ⟨3, 0⟩] ∧
      Along Fetches ⟨.new 1 (fun _ => 0) oneFile, fun _ => none⟩ run := by
  have hdm := oneFile_distinctFiles
  -- the invariant of the states says which page the victim is
  have h₀ : Inv oneFile ⟨.new 1 (fun _ => 0) oneFile, fun _ => none⟩ :=
    Inv.new hdm (by simp) 1 fun _ => 0
  have hc₁ : Condition ⟨.new 1 (fun _ => 0) oneFile, fun _ => none⟩ (.newPage 3) :=
    ⟨by decide, ⟨by decide, by decide⟩, rfl, fun p f hp => by cases hp⟩
  have hs₁ := fun c' (h : Step ⟨.new 1 (fun _ => 0) oneFile, fun _ => none⟩ (.newPage 3) c') =>
    (h₀.step h hc₁).1
  have h₁ := hs₁ _ ⟨_, _, rfl, rfl⟩
  have h₂ := (h₁.step (show Step _ (.unpinPage ⟨3, 0⟩ true) _ from ⟨_, _, rfl, rfl⟩) trivial).1
  have hv₂ : VictimSafe _ := victimSafe_of_frames h₂.frames fun f hav => by
    rcases hav with hav | ⟨-, hav⟩
    · cases hav
    · cases hav
      rfl
  have h₃ := (h₂.step (show Step _ (.newPage 3) _ from ⟨_, _, rfl, rfl⟩)
    ⟨by decide, ⟨by decide, by decide⟩, rfl, hv₂⟩).1
  have h₄ := (h₃.step (show Step _ (.unpinPage ⟨3, 1⟩ true) _ from ⟨_, _, rfl, rfl⟩) trivial).1
  have hv₄ : VictimSafe _ := victimSafe_of_frames h₄.frames fun f hav => by
    rcases hav with hav | ⟨-, hav⟩
    · cases hav
    · cases hav
      rfl
  exact ⟨[(_, _), (_, _), (_, _), (_, _), (_, _)], rfl, new_pages_fetchable 1 (fun _ => 0) oneFile
    hdm (fun _ => none) (by simp) _
    (.cons ⟨_, _, rfl, rfl⟩ (.cons ⟨_, _, rfl, rfl⟩ (.cons ⟨_, _, rfl, rfl⟩
      (.cons ⟨_, _, rfl, rfl⟩ (.cons rfl (.nil _))))))
    ⟨hc₁, trivial, ⟨by decide, ⟨by decide, by decide⟩, rfl, hv₂⟩, trivial,
      ⟨by decide, hv₄⟩, trivial⟩⟩

/-- **A clean page is lost with its frame.**  A page is created and unpinned as clean in a pool of one
frame, and the next page takes the frame: the file is still empty when the page is fetched. -/
theorem not_fetchable_clean :
    ∃ run : List (ClientOp × SavedPages),
      run.map Prod.fst = [.newPage 3, .unpinPage ⟨3, 0⟩ false, .newPage 3,
        .unpinPage ⟨3, 1⟩ false, .fetchPage ⟨3, 0⟩] ∧
      Run Step ⟨.new 1 (fun _ => 0) oneFile, fun _ => none⟩ run ∧
      ¬Along Fetches ⟨.new 1 (fun _ => 0) oneFile, fun _ => none⟩ run := by
  refine ⟨[(_, _), (_, _), (_, _), (_, _), (_, _)], rfl,
    .cons ⟨_, _, rfl, rfl⟩ (.cons ⟨_, _, rfl, rfl⟩ (.cons ⟨_, _, rfl, rfl⟩
      (.cons ⟨_, _, rfl, rfl⟩ (.cons rfl (.nil _))))), ?_⟩
  rintro ⟨-, -, -, -, hfetch, -⟩
  obtain ⟨r, b', hres, -⟩ := hfetch (by decide)
  cases hres

end SavedPages

end Rucbase
