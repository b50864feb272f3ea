import Mathlib.Combinatorics.Pigeonhole
import Rucbase.Storage.Equiv.FileSessions

/-!
# A file whose pages stay pinned

The pages of a file that no client ever unpins cannot leave the pool, whatever the clients of other
files do.  `PinsFile fd n b` says that the pool holds the pages `1 .. n - 1` of the file open under
`fd`, all of them pinned, and no other page of it.  Calls on other descriptors keep it and the
bytes of these pages (`poolStep_beside`), and so do fetching, writing and creating pages of the
file.  `FlushAllPages` then puts every page of the file on disk, marked dirty or not
(`PinsFile.flushAllPages`).
-/

namespace Rucbase

open BufferPoolManager DiskManager EStateM

/-- The bytes of a page that is in the pool. -/
def BufferPoolManager.resident (b : BufferPoolManager DiskManager) (p : PageId) : Option PageData :=
  (b.pageTable p).map fun f => (b.pages f).data

/-- The descriptor a pool call is about. -/
def BufferPoolManager.PoolOp.fd : PoolOp → Int
  | .newPage fd | .flushAllPages fd => fd
  | .fetchPage pageId | .unpinPage pageId _ | .flushPage pageId | .deletePage pageId => pageId.fd

/-- The pool holds the pages `1 .. n - 1` of the file open under `fd`, pinned, and no others. -/
structure PinsFile (fd n : Int) (b : BufferPoolManager DiskManager) : Prop where
  frames : FrameInv b
  mapped : ∀ {k f}, b.pageTable ⟨fd, k⟩ = some f → 1 ≤ k ∧ k < n ∧ 0 < (b.pages f).pinCount
  total : ∀ {k}, 1 ≤ k → k < n → ∃ f, b.pageTable ⟨fd, k⟩ = some f
  free : ∀ f ∈ b.freeList, (b.pages f).id.fd = fd → (b.pages f).id.pageNo = invalidPageId

/-- What a call leaves alone of the file open under `fd`: the pages in the pool, which files are
open, and the counter. -/
structure Beside (fd : Int) (b b' : BufferPoolManager DiskManager) : Prop where
  poolSize : b'.poolSize = b.poolSize
  resident : ∀ k, b'.resident ⟨fd, k⟩ = b.resident ⟨fd, k⟩
  sameOpen : SameOpen b.diskManager b'.diskManager
  counter : b'.diskManager.fd2pageno fd = b.diskManager.fd2pageno fd

section

variable {fd n : Int} {b b' : BufferPoolManager DiskManager} {f : Nat}

theorem Beside.refl (fd : Int) (b : BufferPoolManager DiskManager) : Beside fd b b :=
  ⟨rfl, fun _ => rfl, .refl _, rfl⟩

theorem Beside.trans {b'' : BufferPoolManager DiskManager} (h : Beside fd b b')
    (h' : Beside fd b' b'') : Beside fd b b'' where
  poolSize := h'.poolSize.trans h.poolSize
  resident k := (h'.resident k).trans (h.resident k)
  sameOpen := h.sameOpen.trans h'.sameOpen
  counter := h'.counter.trans h.counter

theorem allocatePage_sameOpen (dm : DiskManager) (fd : Int) :
    SameOpen dm (PageDevice.allocatePage dm fd).2 := ⟨fun _ => rfl, rfl, rfl, rfl, rfl⟩

/-- A write opens and closes nothing and allocates nothing. -/
theorem writePage_quiet {dm dm' : DiskManager} {p : PageId} {data : PageData}
    (hw : PageDevice.writePage dm p data = (true, dm')) :
    SameOpen dm dm' ∧ dm'.fd2pageno = dm.fd2pageno := by
  change dm.writePage p.fd p.pageNo data = (true, dm') at hw
  have hcounter : dm'.fd2pageno = dm.fd2pageno := by
    have := congrArg Prod.snd hw
    simp only at this
    rw [← this]
    rfl
  refine ⟨?_, hcounter⟩
  by_cases hopen : dm.IsOpen p.fd
  · obtain ⟨dm₁, hw₁, hso, -⟩ := writePage_open hopen p.pageNo data
    rw [hw] at hw₁
    obtain rfl := (Prod.mk.injEq .. ▸ hw₁).2
    exact hso
  · rw [writePage_closed hopen] at hw
    cases hw

theorem writeBack_quiet {dm dm' : DiskManager} {page : Page} (hw : WriteBack dm page dm') :
    SameOpen dm dm' ∧ dm'.fd2pageno = dm.fd2pageno := by
  unfold WriteBack at hw
  split_ifs at hw
  · exact writePage_quiet hw
  · subst hw
    exact ⟨.refl _, rfl⟩

namespace PinsFile

/-- A frame that carries a page of the file is where the page is. -/
theorem table_of_id (h : PinsFile fd n b) (hf : f < b.poolSize) (hfd : (b.pages f).id.fd = fd)
    (hno : (b.pages f).id.pageNo ≠ invalidPageId) :
    b.pageTable ⟨fd, (b.pages f).id.pageNo⟩ = some f := by
  rcases h.frames.free_or_mapped hf with hfree | ⟨p, hp⟩
  · exact absurd (h.free f hfree hfd) hno
  · have hid := (h.frames.table hp).2
    rw [← hfd, hid]
    exact hp

/-- The invariant survives a change that leaves the file's entries of the page table alone and
unpins none of its frames. -/
theorem of_table (h : PinsFile fd n b) (hF : FrameInv b')
    (htable : ∀ k f, b'.pageTable ⟨fd, k⟩ = some f ↔ b.pageTable ⟨fd, k⟩ = some f)
    (hpin : ∀ k f, b.pageTable ⟨fd, k⟩ = some f → 0 < (b'.pages f).pinCount)
    (hfree : ∀ f ∈ b'.freeList, f ∈ b.freeList ∧ (b'.pages f).id = (b.pages f).id) :
    PinsFile fd n b' where
  frames := hF
  mapped hf := by
    have hf' := (htable _ _).mp hf
    exact ⟨(h.mapped hf').1, (h.mapped hf').2.1, hpin _ _ hf'⟩
  total h1 h2 := by
    obtain ⟨f, hf⟩ := h.total h1 h2
    exact ⟨f, (htable _ _).mpr hf⟩
  free f hf := by
    rw [(hfree f hf).2]
    exact h.free f (hfree f hf).1

/-- The bytes are the same when table and data are. -/
theorem resident_congr
    (htable : ∀ k f, b'.pageTable ⟨fd, k⟩ = some f ↔ b.pageTable ⟨fd, k⟩ = some f)
    (hdata : ∀ k f, b.pageTable ⟨fd, k⟩ = some f → (b'.pages f).data = (b.pages f).data) (k : Int) :
    b'.resident ⟨fd, k⟩ = b.resident ⟨fd, k⟩ := by
  unfold BufferPoolManager.resident
  cases hf : b.pageTable ⟨fd, k⟩ with
  | some f =>
    rw [(htable k f).mpr hf, Option.map_some, Option.map_some, hdata k f hf]
  | none =>
    have : b'.pageTable ⟨fd, k⟩ = none := by
      rw [Option.eq_none_iff_forall_ne_some]
      intro f hf'
      rw [(htable k f).mp hf'] at hf
      cases hf
    rw [this]
    rfl

/-! ### Pinning and writing -/

theorem pinFrame (h : PinsFile fd n b) {p : PageId} (hp : b.pageTable p = some f) :
    PinsFile fd n (b.pinFrame f) ∧ Beside fd b (b.pinFrame f) := by
  have hpages : ∀ g, ((b.pinFrame f).pages g).data = (b.pages g).data ∧
      (b.pages g).pinCount ≤ ((b.pinFrame f).pages g).pinCount := by
    intro g
    rcases eq_or_ne g f with rfl | hg
    · simp [BufferPoolManager.pinFrame, setPage]
    · simp [BufferPoolManager.pinFrame, setPage, hg]
  constructor
  · refine h.of_table (h.frames.pinFrame ⟨p, hp⟩) (fun _ _ => Iff.rfl) (fun k g hg => ?_)
      fun g hg => ⟨hg, id_pinFrame f g⟩
    exact lt_of_lt_of_le (h.mapped hg).2.2 (hpages g).2
  · exact ⟨rfl, resident_congr (fun _ _ => Iff.rfl) fun _ g _ => (hpages g).1,
      .refl _, rfl⟩

/-- **Fetching a page of the file** finds it in the pool. -/
theorem fetchPage (h : PinsFile fd n b) {k : Int} (h1 : 1 ≤ k) (h2 : k < n) :
    ∃ f b', BufferPoolManager.fetchPage ⟨fd, k⟩ b = .ok (some f) b' ∧
      b'.pageTable ⟨fd, k⟩ = some f ∧ PinsFile fd n b' ∧ Beside fd b b' := by
  obtain ⟨f, hf⟩ := h.total h1 h2
  have hfetch : BufferPoolManager.fetchPage ⟨fd, k⟩ b = .ok (some f) (b.pinFrame f) := by
    simp only [BufferPoolManager.fetchPage, get_bind_apply, hf, set_bind_apply, pure_apply]
    rfl
  exact ⟨f, _, hfetch, hf, (h.pinFrame hf).1, (h.pinFrame hf).2⟩

/-- **Writing into a page** of the file changes the bytes of that page. -/
theorem setData (h : PinsFile fd n b) {k : Int} (hf : b.pageTable ⟨fd, k⟩ = some f)
    (data : PageData) :
    PinsFile fd n (b.setData f data) ∧
      ∀ j, (b.setData f data).resident ⟨fd, j⟩ =
        if j = k then some data else b.resident ⟨fd, j⟩ := by
  have hpages : ∀ g, ((b.setData f data).pages g).pinCount = (b.pages g).pinCount ∧
      ((b.setData f data).pages g).data = if g = f then data else (b.pages g).data := by
    intro g
    rcases eq_or_ne g f with rfl | hg
    · simp [BufferPoolManager.setData, setPage]
    · simp [BufferPoolManager.setData, setPage, hg]
  constructor
  · refine h.of_table (h.frames.setData f data) (fun _ _ => Iff.rfl) (fun j g hg => ?_)
      fun g hg => ⟨hg, id_setData f data g⟩
    rw [(hpages g).1]
    exact (h.mapped hg).2.2
  · intro j
    have htable : (b.setData f data).pageTable = b.pageTable := rfl
    unfold BufferPoolManager.resident
    rw [htable]
    split_ifs with hj
    · rw [hj, hf, Option.map_some, (hpages f).2, if_pos rfl]
    · cases hg : b.pageTable ⟨fd, j⟩ with
      | none => rfl
      | some g =>
        have hne : g ≠ f := by
          rintro rfl
          exact hj (congrArg PageId.pageNo (h.frames.table_injective hg hf))
        rw [Option.map_some, Option.map_some, (hpages g).2, if_neg hne]

/-! ### Creating a page -/

/-- Loading a page into an available frame leaves the pages of the file where they are. -/
theorem table_assign (h : PinsFile fd n b) (hav : b.Available f) {pageId : PageId}
    (hp : b.pageTable pageId = none) {data : PageData} {dm : DiskManager} {k : Int}
    (hne : (⟨fd, k⟩ : PageId) ≠ pageId) (g : Nat) :
    (b.assign f pageId data dm).pageTable ⟨fd, k⟩ = some g ↔ b.pageTable ⟨fd, k⟩ = some g := by
  rw [table_assign_iff hav h.frames hp]
  constructor
  · rintro (⟨he, -⟩ | ⟨hg, -⟩)
    · exact absurd he hne
    · exact hg
  · intro hg
    refine Or.inr ⟨hg, ?_⟩
    rintro rfl
    have h0 := hav.pinCount_eq_zero h.frames
    have hpos := (h.mapped hg).2.2
    omega

/-- The frame of a page of the file is not the one that is given away. -/
theorem pages_assign (h : PinsFile fd n b) (hav : b.Available f) {pageId : PageId}
    {data : PageData} {dm : DiskManager} {k : Int} {g : Nat} (hg : b.pageTable ⟨fd, k⟩ = some g) :
    (b.assign f pageId data dm).pages g = b.pages g := by
  have hne : g ≠ f := by
    rintro rfl
    have h0 := hav.pinCount_eq_zero h.frames
    have hpos := (h.mapped hg).2.2
    omega
  simp [BufferPoolManager.assign, hne]

/-- No frame carries the number that is handed out next. -/
theorem freshAlloc (h : PinsFile fd n b) (hn : 1 ≤ n) (hc : b.diskManager.fd2pageno fd = n) :
    b.FreshAlloc fd := by
  have hno : (PageDevice.allocatePage b.diskManager fd).1 = n := hc
  refine ⟨?_, fun g hg hid => ?_⟩
  · rw [hno]
    exact ne_of_gt (lt_of_lt_of_le (by decide) hn)
  · rw [hno] at hid
    have hvalid : (b.pages g).id.pageNo ≠ invalidPageId := by
      rw [hid]
      exact ne_of_gt (lt_of_lt_of_le (by decide) hn)
    have htable := h.table_of_id hg (by rw [hid]) hvalid
    have hlt := (h.mapped htable).2.1
    rw [hid] at hlt
    exact absurd hlt (lt_irrefl n)

/-- **Creating a page of the file**: without a frame nothing happens; otherwise the file has one
more page, zeroed and pinned. -/
theorem newPage (h : PinsFile fd n b) (hn : 1 ≤ n) (hc : b.diskManager.fd2pageno fd = n)
    {r : Option (Nat × PageId)} (hr : BufferPoolManager.newPage fd b = .ok r b') :
    r = none ∧ b' = b ∨ ∃ f, r = some (f, ⟨fd, n⟩) ∧ b'.pageTable ⟨fd, n⟩ = some f ∧
      PinsFile fd (n + 1) b' ∧ b'.poolSize = b.poolSize ∧
      (∀ k, b'.resident ⟨fd, k⟩ = if k = n then some zeroPage else b.resident ⟨fd, k⟩) ∧
      SameOpen b.diskManager b'.diskManager ∧ b'.diskManager.fd2pageno fd = n + 1 := by
  have hfr := h.freshAlloc hn hc
  have hnew := hfr.table h.frames
  have hno : (PageDevice.allocatePage b.diskManager fd).1 = n := hc
  rcases newPage_cases h.frames hfr hr with ⟨-, -, rfl, rfl⟩ | ⟨f, dm, hav, rfl, hw, rfl⟩
  · exact Or.inl ⟨rfl, rfl⟩
  rw [hno] at hnew ⊢
  obtain ⟨hso, hcounter⟩ := writeBack_quiet hw
  -- the other pages of the file stay in their frames
  have hkeep : ∀ k g, k ≠ n → ((b.assign f ⟨fd, n⟩ zeroPage dm).pageTable ⟨fd, k⟩ = some g ↔
      b.pageTable ⟨fd, k⟩ = some g) := fun k g hk =>
    h.table_assign hav hnew (fun e => hk (congrArg PageId.pageNo e)) g
  have hself : (b.assign f ⟨fd, n⟩ zeroPage dm).pageTable ⟨fd, n⟩ = some f :=
    (table_assign_iff hav h.frames hnew ..).mpr (Or.inl ⟨rfl, rfl⟩)
  have hpage : (b.assign f ⟨fd, n⟩ zeroPage dm).pages f = ⟨⟨fd, n⟩, zeroPage, false, 1⟩ := by
    simp [BufferPoolManager.assign]
  refine Or.inr ⟨f, rfl, hself, ?_, rfl, fun k => ?_, ?_, ?_⟩
  · refine
      { frames := h.frames.assign hav hnew fun g hg hid => ?_
        mapped := fun {k g} hg => ?_
        total := fun {k} h1 h2 => ?_
        free := fun g hg hfd => ?_ }
    · refine hfr.2 g (h.frames.free_lt g (List.mem_of_mem_tail hg)) ?_
      rw [hid, hno]
    · rcases eq_or_ne k n with rfl | hk
      · rw [hself] at hg
        obtain rfl := Option.some.inj hg
        rw [hpage]
        exact ⟨hn, by omega, Nat.one_pos⟩
      · have hg' := (hkeep k g hk).mp hg
        rw [h.pages_assign hav hg']
        have := h.mapped hg'
        exact ⟨this.1, by omega, this.2.2⟩
    · rcases eq_or_ne k n with rfl | hk
      · exact ⟨f, hself⟩
      · obtain ⟨g, hg⟩ := h.total h1 (by omega)
        exact ⟨g, (hkeep k g hk).mpr hg⟩
    · have hgf : g ≠ f := fun e => hav.notMem_tail h.frames (e ▸ hg)
      have hsame : (b.assign f ⟨fd, n⟩ zeroPage dm).pages g = b.pages g := by
        simp [BufferPoolManager.assign, hgf]
      rw [hsame] at hfd ⊢
      exact h.free g (List.mem_of_mem_tail hg) hfd
  · unfold BufferPoolManager.resident
    split_ifs with hk
    · rw [hk, hself, Option.map_some, hpage]
    · have : (b.assign f ⟨fd, n⟩ zeroPage dm).pageTable ⟨fd, k⟩ = b.pageTable ⟨fd, k⟩ :=
        Option.ext fun g => hkeep k g hk
      rw [this]
      cases hg : b.pageTable ⟨fd, k⟩ with
      | none => rfl
      | some g => rw [Option.map_some, Option.map_some, h.pages_assign hav hg]
  · exact (allocatePage_sameOpen _ fd).trans hso
  · change dm.fd2pageno fd = n + 1
    rw [hcounter, ← hc]
    exact Function.update_self ..

/-! ### Calls on other descriptors -/

/-- Loading a page of another file. -/
theorem assign_beside (h : PinsFile fd n b) (hav : b.Available f) {pageId : PageId}
    (hfd : pageId.fd ≠ fd) (hp : b.pageTable pageId = none)
    (hid : ∀ g ∈ b.freeList.tail, (b.pages g).id ≠ pageId) {data : PageData} {dm : DiskManager}
    (hso : SameOpen b.diskManager dm) (hc : dm.fd2pageno fd = b.diskManager.fd2pageno fd) :
    PinsFile fd n (b.assign f pageId data dm) ∧ Beside fd b (b.assign f pageId data dm) := by
  have htable : ∀ k g, (b.assign f pageId data dm).pageTable ⟨fd, k⟩ = some g ↔
      b.pageTable ⟨fd, k⟩ = some g := fun k g =>
    h.table_assign hav hp (fun e => hfd (congrArg PageId.fd e).symm) g
  constructor
  · refine h.of_table (h.frames.assign hav hp hid) htable (fun k g hg => ?_) fun g hg => ?_
    · rw [h.pages_assign hav hg]
      exact (h.mapped hg).2.2
    · have hgf : g ≠ f := fun e => hav.notMem_tail h.frames (e ▸ hg)
      exact ⟨List.mem_of_mem_tail hg, by simp [BufferPoolManager.assign, hgf]⟩
  · exact ⟨rfl, resident_congr htable fun k g hg => by rw [h.pages_assign hav hg], hso, hc⟩

/-- Writing a frame out. -/
theorem cleanFrame_beside (h : PinsFile fd n b) (g : Nat) {dm : DiskManager}
    (hso : SameOpen b.diskManager dm) (hc : dm.fd2pageno = b.diskManager.fd2pageno) :
    PinsFile fd n (b.cleanFrame g dm) ∧ Beside fd b (b.cleanFrame g dm) := by
  have hpages : ∀ i, ((b.cleanFrame g dm).pages i).pinCount = (b.pages i).pinCount ∧
      ((b.cleanFrame g dm).pages i).data = (b.pages i).data := by
    intro i
    rcases eq_or_ne i g with rfl | hi
    · simp [BufferPoolManager.cleanFrame, setPage]
    · simp [BufferPoolManager.cleanFrame, setPage, hi]
  constructor
  · refine h.of_table (h.frames.cleanFrame g dm) (fun _ _ => Iff.rfl) (fun k i hi => ?_)
      fun i hi => ⟨hi, id_cleanFrame g dm i⟩
    rw [(hpages i).1]
    exact (h.mapped hi).2.2
  · exact ⟨rfl, resident_congr (fun _ _ => Iff.rfl) fun _ i _ => (hpages i).2, hso, congrFun hc fd⟩

/-- Unpinning a page of another file. -/
theorem unpinFrame_beside (h : PinsFile fd n b) {p : PageId} (hfd : p.fd ≠ fd)
    (hp : b.pageTable p = some f) (hpos : 0 < (b.pages f).pinCount) (isDirty : Bool) :
    PinsFile fd n (b.unpinFrame f isDirty) ∧ Beside fd b (b.unpinFrame f isDirty) := by
  -- the frame is not one of the file's
  have hpages : ∀ k g, b.pageTable ⟨fd, k⟩ = some g →
      (b.unpinFrame f isDirty).pages g = b.pages g := by
    intro k g hg
    have hgf : g ≠ f := by
      rintro rfl
      exact hfd (congrArg PageId.fd (h.frames.table_injective hg hp)).symm
    simp [BufferPoolManager.unpinFrame, setPage, hgf]
  constructor
  · refine h.of_table (h.frames.unpinFrame ⟨p, hp⟩ hpos isDirty) (fun _ _ => Iff.rfl)
      (fun k g hg => ?_) fun g hg => ⟨hg, id_unpinFrame f isDirty g⟩
    rw [hpages k g hg]
    exact (h.mapped hg).2.2
  · exact ⟨rfl, resident_congr (fun _ _ => Iff.rfl) fun k g hg => by rw [hpages k g hg],
      .refl _, rfl⟩

/-- A run of `FlushAllPages` changes dirty flags and the disk. -/
theorem flushAllPages_beside (h : PinsFile fd n b) {fd' : Int} {u : Unit}
    (hrun : BufferPoolManager.flushAllPages fd' b = .ok u b') :
    PinsFile fd n b' ∧ Beside fd b b' := by
  refine forM_induct (I := fun s => PinsFile fd n s ∧ Beside fd b s) (f := flushFrame fd')
    (fun i _ s s' _ hs hr => ?_) hrun ⟨h, .refl fd b⟩
  rcases flushFrame_cases hr with ⟨-, rfl⟩ | ⟨d, -, hw, rfl⟩
  · exact hs
  · obtain ⟨hso, hc⟩ := writePage_quiet hw
    obtain ⟨hpins, hbeside⟩ := hs.1.cleanFrame_beside i hso hc
    exact ⟨hpins, hs.2.trans hbeside⟩

/-- **Calls on other descriptors** leave the pages of the file alone. -/
theorem poolStep_beside (h : PinsFile fd n b) {op : PoolOp} (hop : op.fd ≠ fd)
    (hstep : PoolStep b op b') (hkeeps : b.KeepsFrames op) : PinsFile fd n b' ∧ Beside fd b b' := by
  obtain ⟨hexec, hfresh⟩ := hstep
  cases op with
  | fetchPage pageId =>
    obtain ⟨r, hr⟩ := exec_discard_iff.mp hexec
    rcases fetchPage_cases h.frames hr with ⟨f, hf, -, rfl⟩ | ⟨-, -, -, -, rfl⟩ |
      ⟨hp, f, buf, data, dm₁, dm, hav, -, hw, hread, rfl⟩
    · exact h.pinFrame hf
    · exact ⟨h, .refl fd _⟩
    · -- the frame goes to a page of another file: the pages of this file are pinned
      obtain ⟨hso₁, hc₁⟩ := writeBack_quiet hw
      have hread' : dm = (dm₁.readPage pageId.fd pageId.pageNo buf).2.2 :=
        (congrArg (fun r => r.2.2) hread).symm
      have hc : dm.fd2pageno = dm₁.fd2pageno := by
        rw [hread']
        rfl
      have hso := (readPage_sameOpen dm₁ pageId.fd pageId.pageNo buf).1
      rw [← hread'] at hso
      exact h.assign_beside hav hop hp (hkeeps hp) (hso₁.trans hso) (by rw [hc, hc₁])
  | newPage fd' =>
    obtain ⟨r, hr⟩ := exec_discard_iff.mp hexec
    have hfr := hfresh fd' rfl
    rcases newPage_cases h.frames hfr hr with ⟨-, -, -, rfl⟩ | ⟨f, dm, hav, -, hw, rfl⟩
    · exact ⟨h, .refl fd _⟩
    · obtain ⟨hso, hc⟩ := writeBack_quiet hw
      refine h.assign_beside hav hop (hfr.table h.frames)
        (fun g hg => hfr.2 g (h.frames.free_lt g (List.mem_of_mem_tail hg)))
        ((allocatePage_sameOpen _ fd').trans hso) ?_
      rw [hc]
      exact Function.update_of_ne (Ne.symm hop) ..
  | unpinPage pageId isDirty =>
    obtain ⟨r, hr⟩ := exec_discard_iff.mp hexec
    rcases unpinPage_cases hr with ⟨-, rfl, -⟩ | ⟨f, hf, hpos, -, rfl⟩
    · exact ⟨h, .refl fd _⟩
    · exact h.unpinFrame_beside hop hf hpos isDirty
  | flushPage pageId =>
    obtain ⟨r, hr⟩ := exec_discard_iff.mp hexec
    rcases flushPage_cases hr with ⟨-, -, rfl⟩ | ⟨f, d, -, hw, -, rfl⟩
    · exact ⟨h, .refl fd _⟩
    · obtain ⟨hso, hc⟩ := writePage_quiet hw
      exact h.cleanFrame_beside f hso hc
  | flushAllPages fd' => exact h.flushAllPages_beside hexec
  | deletePage pageId =>
    obtain ⟨r, hr⟩ := exec_discard_iff.mp hexec
    rcases deletePage_cases hr with ⟨rfl, -⟩ | ⟨f, hf, h0, -⟩
    · exact ⟨h, .refl fd _⟩
    · have := hkeeps f hf
      omega

end PinsFile

/-! ### Flushing -/

/-- The first `m` bytes of the file open under `fd`. -/
def DiskManager.header (dm : DiskManager) (fd : Int) (m : Nat) : Option (Fin m → UInt8) :=
  (dm.os.fds fd).bind fun o => (dm.os.file o.inode).read 0 m

/-- Writing a page other than page 0 leaves the header alone. -/
theorem header_writePage {dm dm' : DiskManager} (hd : dm.DistinctFiles) {p : PageId}
    (hp : p.InRange) (h1 : 1 ≤ p.pageNo) {data : PageData}
    (hw : dm.writePage p.fd p.pageNo data = (true, dm')) {m : Nat} (hm : m ≤ pageSize)
    {hdr : Fin m → UInt8} (hh : dm.header fd m = some hdr) : dm'.header fd m = some hdr := by
  unfold DiskManager.writePage at hw
  rw [pageOffset_eq hp.1 hp.2] at hw
  cases ho : dm.os.fds p.fd with
  | none => simp [Os.lseek, Os.write, ho] at hw
  | some o =>
    simp only [Os.lseek, Os.write, ho, Int.natCast_nonneg, if_true, Int.toNat_natCast,
      Function.update_self, Prod.mk.injEq, true_and, Function.update_idem] at hw
    subst hw
    unfold DiskManager.header at hh ⊢
    obtain ⟨o', ho', hread⟩ := Option.bind_eq_some_iff.mp hh
    by_cases he : fd = p.fd
    · rw [he, ho] at ho'
      obtain rfl := Option.some.inj ho'
      simp only [he, Function.update_self, Option.bind_some]
      refine ByteFile.read_write_disjoint hread (Or.inl ?_)
      calc 0 + m ≤ 1 * pageSize := by omega
        _ ≤ p.pageNo.toNat * pageSize := Nat.mul_le_mul_right _ (by omega)
    · have hne : o'.inode ≠ o.inode := fun e => he (hd fd p.fd o' o ho' ho e)
      simp [he, ho', hne, hread]

namespace PinsFile

/-- The frames of a list are written out: their pages are on disk then, the pages that were on disk
still are, and the header is as it was. -/
theorem flushFrames {m : Nat} (hm : m ≤ pageSize) {hdr : Fin m → UInt8} (hn : n ≤ 2 ^ 19) :
    ∀ {l : List Nat} {b b' : BufferPoolManager DiskManager} {u : Unit},
    (∀ i ∈ l, i < b.poolSize) → PinsFile fd n b → b.diskManager.DistinctFiles →
    b.diskManager.header fd m = some hdr → l.forM (flushFrame fd) b = .ok u b' →
      PinsFile fd n b' ∧ Beside fd b b' ∧ b'.diskManager.header fd m = some hdr ∧
      (∀ k d, b.resident ⟨fd, k⟩ = some d → b.diskManager.contents ⟨fd, k⟩ = some d →
        b'.diskManager.contents ⟨fd, k⟩ = some d) ∧
      ∀ k f, b.pageTable ⟨fd, k⟩ = some f → f ∈ l →
        b'.diskManager.contents ⟨fd, k⟩ = some (b.pages f).data := by
  -- one frame at a time; a page that is written keeps its bytes on disk while the rest is flushed
  intro l
  induction l with
  | nil =>
    intro b b' u _ h _ hh hrun
    simp only [forM_nil_apply, Result.ok.injEq] at hrun
    obtain rfl := hrun.2
    exact ⟨h, .refl fd _, hh, fun _ _ _ hc => hc, fun _ _ _ hf => by cases hf⟩
  | cons i l ih =>
    intro b b' u hlt h hd hh hrun
    rw [forM_cons_apply, bind_eq_ok_iff] at hrun
    obtain ⟨v, b₁, h1, hrest⟩ := hrun
    have hlt' : ∀ j ∈ l, j < b.poolSize := fun j hj => hlt j (by simp [hj])
    rcases flushFrame_cases h1 with ⟨hno, rfl⟩ | ⟨dm, ⟨hfd, hvalid⟩, hw, rfl⟩
    · -- not a page of the file
      obtain ⟨hpins, hbeside, hh', hkeep, hall⟩ := ih hlt' h hd hh hrest
      refine ⟨hpins, hbeside, hh', hkeep, fun k f hk hf => ?_⟩
      rcases List.mem_cons.mp hf with rfl | hf
      · have hid := (h.frames.table hk).2
        refine absurd ⟨by rw [hid], ?_⟩ hno
        rw [hid]
        exact ne_of_gt (lt_of_lt_of_le (by decide) (h.mapped hk).1)
      · exact hall k f hk hf
    · have htable := h.table_of_id (hlt i (by simp)) hfd hvalid
      have hid := (h.frames.table htable).2
      obtain ⟨hlo, hhi, -⟩ := h.mapped htable
      -- the frame holds page `k₀` of the file: its bytes go to disk, the other pages stay
      set k₀ := (b.pages i).id.pageNo with hk₀
      have hin : PageId.InRange ⟨fd, k₀⟩ := ⟨by simp only; omega, by simp only; omega⟩
      obtain ⟨hso, hc⟩ := writePage_quiet hw
      obtain ⟨hpins₁, hbeside₁⟩ := h.cleanFrame_beside i hso hc
      rw [hid] at hw
      change b.diskManager.writePage fd k₀ (b.pages i).data = (true, dm) at hw
      obtain ⟨hself, -, -, hother⟩ := writePage_spec (p := ⟨fd, k₀⟩) hin hd hw
      have hh₁ := header_writePage (p := ⟨fd, k₀⟩) hd hin hlo hw hm hh
      obtain ⟨hpins, hbeside, hh', hkeep, hall⟩ :=
        ih (b := b.cleanFrame i dm) hlt' hpins₁ (hso.distinct hd) hh₁ hrest
      have hres : ∀ k f, b.pageTable ⟨fd, k⟩ = some f →
          (b.cleanFrame i dm).resident ⟨fd, k⟩ = some (b.pages f).data := by
        intro k f hk
        rw [hbeside₁.resident, BufferPoolManager.resident, hk]
        rfl
      refine ⟨hpins, hbeside₁.trans hbeside, hh', fun k d hr hc => ?_, fun k f hk hf => ?_⟩
      · refine hkeep k d (by rw [hbeside₁.resident, hr]) ?_
        change dm.contents ⟨fd, k⟩ = some d
        rcases eq_or_ne k k₀ with rfl | hne
        · rw [BufferPoolManager.resident, htable] at hr
          rw [hself, ← hr]
          rfl
        · obtain ⟨f, hf, -⟩ := Option.map_eq_some_iff.mp hr
          have hk := h.mapped hf
          exact hother ⟨fd, k⟩ ⟨by simp only; omega, by simp only; omega⟩
            (fun e => hne (congrArg PageId.pageNo e)) d hc
      · rcases List.mem_cons.mp hf with rfl | hf
        · obtain rfl : k = k₀ :=
            congrArg PageId.pageNo (h.frames.table_injective hk htable)
          exact hkeep _ _ (hres _ f hk) hself
        · have := hall k f hk hf
          rw [this]
          have hr := hres k f hk
          rw [BufferPoolManager.resident] at hr
          change (b.pageTable ⟨fd, k⟩).map _ = _ at hr
          rw [hk] at hr
          exact hr

/-- **`FlushAllPages`** puts every page of the file on disk and leaves the header alone. -/
theorem flushAllPages (h : PinsFile fd n b) (hn : n ≤ 2 ^ 19) (hd : b.diskManager.DistinctFiles)
    {m : Nat} (hm : m ≤ pageSize) {hdr : Fin m → UInt8} (hh : b.diskManager.header fd m = some hdr)
    {u : Unit} (hrun : BufferPoolManager.flushAllPages fd b = .ok u b') :
    SameOpen b.diskManager b'.diskManager ∧ b'.diskManager.header fd m = some hdr ∧
      ∀ k d, b.resident ⟨fd, k⟩ = some d → b'.diskManager.contents ⟨fd, k⟩ = some d := by
  obtain ⟨-, hbeside, hh', -, hall⟩ :=
    flushFrames hm hn (fun i hi => List.mem_range.mp hi) h hd hh hrun
  refine ⟨hbeside.sameOpen, hh', fun k d hr => ?_⟩
  obtain ⟨f, hf, rfl⟩ := Option.map_eq_some_iff.mp hr
  exact hall k f hf (List.mem_range.mpr (h.frames.table hf).1)

end PinsFile

end

end Rucbase
