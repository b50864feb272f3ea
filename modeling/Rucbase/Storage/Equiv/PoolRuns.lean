import Rucbase.Lib.Run
import Rucbase.Storage.Equiv.FrameInvariant

/-!
# Runs of the buffer pool

A run is any sequence of the six public calls of `BufferPoolManager` in which the disk calls
succeed and `AllocatePage` hands out fresh numbers.  `frameInv_iff_keepsFrames` says exactly when
the frame invariant survives a run: `DeletePage` must never meet a resident page with pin count
zero, because it puts the frame on the free list and leaves it in the replacer (and possibly
dirty), and `FetchPage` must never ask for the id that a frame on the free list still carries
(in a fresh pool these are ids with page number `INVALID_PAGE_ID`).
-/

namespace Rucbase.BufferPoolManager

variable {D : Type} [PageDevice D]

/-- The public calls of the buffer pool. -/
inductive PoolOp where
  | fetchPage (pageId : PageId)
  | newPage (fd : Int)
  | unpinPage (pageId : PageId) (isDirty : Bool)
  | flushPage (pageId : PageId)
  | flushAllPages (fd : Int)
  | deletePage (pageId : PageId)

/-- Run a call and forget its result. -/
def PoolOp.exec : PoolOp → PoolM D Unit
  | .fetchPage pageId => do let _ ← BufferPoolManager.fetchPage pageId
  | .newPage fd => do let _ ← BufferPoolManager.newPage fd
  | .unpinPage pageId isDirty => do let _ ← BufferPoolManager.unpinPage pageId isDirty
  | .flushPage pageId => do let _ ← BufferPoolManager.flushPage pageId
  | .flushAllPages fd => BufferPoolManager.flushAllPages fd
  | .deletePage pageId => do let _ ← BufferPoolManager.deletePage pageId

/-- A call that returns, with a fresh page number if it allocates one. -/
def PoolStep (b : BufferPoolManager D) (op : PoolOp) (b' : BufferPoolManager D) : Prop :=
  op.exec b = .ok () b' ∧ ∀ fd, op = .newPage fd → b.FreshAlloc fd

/-- The call does not run into the two calls that break the frame invariant. -/
def KeepsFrames (b : BufferPoolManager D) : PoolOp → Prop
  | .deletePage pageId => ∀ f, b.pageTable pageId = some f → 0 < (b.pages f).pinCount
  | .fetchPage pageId =>
    b.pageTable pageId = none → ∀ f ∈ b.freeList.tail, (b.pages f).id ≠ pageId
  | _ => True

open EStateM

omit [PageDevice D] in
theorem exec_discard_iff {α : Type} {x : PoolM D α} {b b' : BufferPoolManager D} :
    (do let _ ← x : PoolM D Unit) b = .ok () b' ↔ ∃ r, x b = .ok r b' := by
  rw [bind_eq_ok_iff]
  simp only [pure_apply, Result.ok.injEq, true_and, exists_eq_right]

theorem FrameInv.flushAllPages {b b' : BufferPoolManager D} (h : FrameInv b) {fd : Int} {u : Unit}
    (hrun : BufferPoolManager.flushAllPages fd b = .ok u b') : FrameInv b' := by
  refine forM_induct (I := FrameInv) (f := flushFrame fd) (fun i _ s s' _ hs hr => ?_) hrun h
  rcases flushFrame_cases hr with ⟨-, rfl⟩ | ⟨d, -, -, rfl⟩
  · exact hs
  · exact hs.cleanFrame i d

/-- **One call keeps the frame invariant exactly when it is not one of the two bad calls.** -/
theorem frameInv_step_iff {b b' : BufferPoolManager D} {op : PoolOp} (h : FrameInv b)
    (hstep : PoolStep b op b') : FrameInv b' ↔ b.KeepsFrames op := by
  obtain ⟨hexec, hfresh⟩ := hstep
  cases op with
  | fetchPage pageId =>
    obtain ⟨r, hr⟩ := exec_discard_iff.mp hexec
    rcases fetchPage_cases h hr with ⟨f, hf, -, rfl⟩ | ⟨hp, hfl, -, -, rfl⟩ |
      ⟨hp, f, buf, data, d₁, d, hav, -, -, -, rfl⟩
    · exact iff_of_true (h.pinFrame ⟨pageId, hf⟩) (by simp [KeepsFrames, hf])
    · exact iff_of_true h (by simp [KeepsFrames, hfl])
    · refine ⟨fun h' _ g hg hid => ?_, fun hk => h.assign hav hp (hk hp)⟩
      -- the id is mapped now, and `g` is still free
      have hgf : g ≠ f := fun e => hav.notMem_tail h (e ▸ hg)
      have hnone := h'.free_id g hg
      have hpage : (b.assign f pageId data d).pages g = b.pages g := by simp [assign, hgf]
      rw [hpage, hid] at hnone
      simp [assign] at hnone
  | newPage fd =>
    obtain ⟨r, hr⟩ := exec_discard_iff.mp hexec
    have hfr := hfresh fd rfl
    refine iff_of_true ?_ trivial
    rcases newPage_cases h hfr hr with ⟨-, -, -, rfl⟩ | ⟨f, d, hav, -, -, rfl⟩
    · exact h
    · exact h.assign hav (hfr.table h) fun g hg => hfr.2 g (h.free_lt g (List.mem_of_mem_tail hg))
  | unpinPage pageId isDirty =>
    obtain ⟨r, hr⟩ := exec_discard_iff.mp hexec
    refine iff_of_true ?_ trivial
    rcases unpinPage_cases hr with ⟨-, rfl, -⟩ | ⟨f, hf, hpos, -, rfl⟩
    · exact h
    · exact h.unpinFrame ⟨pageId, hf⟩ hpos isDirty
  | flushPage pageId =>
    obtain ⟨r, hr⟩ := exec_discard_iff.mp hexec
    refine iff_of_true ?_ trivial
    rcases flushPage_cases hr with ⟨-, -, rfl⟩ | ⟨f, d, -, -, -, rfl⟩
    · exact h
    · exact h.cleanFrame f d
  | flushAllPages fd => exact iff_of_true (h.flushAllPages hexec) trivial
  | deletePage pageId =>
    obtain ⟨r, hr⟩ := exec_discard_iff.mp hexec
    rcases deletePage_cases hr with ⟨rfl, hpin⟩ | ⟨f, hf, h0, rfl⟩
    · exact iff_of_true h hpin
    · -- the frame is free now and the replacer still has it
      refine iff_of_false (fun h' => ?_) fun hk => by have := hk f hf; omega
      exact (h'.free_unmapped f (by simp)).2 ((h.evictable_iff f).mpr ⟨⟨pageId, hf⟩, h0⟩)

/-- **The frame invariant over runs.**  In a run from a fresh pool of any size, the invariant holds
after every call exactly when no `DeletePage` meets a resident page with pin count zero and no
`FetchPage` asks for the id left in a free frame. -/
theorem frameInv_iff_keepsFrames (poolSize : Nat) (fd₀ : Nat → Int) (d : D)
    (run : List (PoolOp × BufferPoolManager D)) (hrun : Run PoolStep (new poolSize fd₀ d) run) :
    (∀ e ∈ run, FrameInv e.2) ↔
      Along (fun b op _ => KeepsFrames b op) (new poolSize fd₀ d) run :=
  hrun.forall_iff_along (J := fun _ => True)
    (fun _ _ _ _ h hstep => ⟨trivial, frameInv_step_iff h hstep⟩) trivial
    (frameInv_new poolSize fd₀ d)

/-- A process that has created one file and opened it under descriptor `3`. -/
def oneFile : DiskManager where
  os :=
    { dir := ⟨id, fun name => if name = "t" then some 0 else none⟩
      file := fun _ => .empty
      fds := fun fd => if fd = 3 then some ⟨0, 0⟩ else none
      nextInode := 1 }
  path2fd := fun path => if path = "t" then some 3 else none
  fd2path := fun fd => if fd = 3 then some "t" else none
  fd2pageno := fun _ => 0

/-- Creating a page and unpinning it meets the condition, so the invariant holds throughout. -/
theorem frameInv_newPage_unpinPage :
    ∃ run : List (PoolOp × BufferPoolManager DiskManager),
      run.map Prod.fst = [.newPage 3, .unpinPage ⟨3, 0⟩ true] ∧
        Run PoolStep (new 1 (fun _ => 0) oneFile) run ∧ ∀ e ∈ run, FrameInv e.2 := by
  refine ⟨[(_, _), (_, _)], rfl, .cons ⟨rfl, ?_⟩ (.cons ⟨rfl, by simp⟩ (.nil _)), ?_⟩
  · rintro fd h
    cases h
    exact ⟨by decide, by decide⟩
  · refine (frameInv_iff_keepsFrames 1 (fun _ => 0) oneFile _
      (.cons ⟨rfl, ?_⟩ (.cons ⟨rfl, by simp⟩ (.nil _)))).mpr ⟨trivial, trivial, trivial⟩
    rintro fd h
    cases h
    exact ⟨by decide, by decide⟩

/-- **`DeletePage` breaks the invariant.**  A page is created, unpinned and deleted in a pool of one
frame: the frame is on the free list and in the replacer at once. -/
theorem not_frameInv_deletePage :
    ∃ run : List (PoolOp × BufferPoolManager DiskManager),
      run.map Prod.fst = [.newPage 3, .unpinPage ⟨3, 0⟩ false, .deletePage ⟨3, 0⟩] ∧
        Run PoolStep (new 1 (fun _ => 0) oneFile) run ∧ ¬∀ e ∈ run, FrameInv e.2 := by
  refine ⟨[(_, _), (_, _), (_, _)], rfl,
    .cons ⟨rfl, ?_⟩ (.cons ⟨rfl, by simp⟩ (.cons ⟨rfl, by simp⟩ (.nil _))), ?_⟩
  · rintro fd h
    cases h
    exact ⟨by decide, by decide⟩
  · intro h
    have hlast := h _ (List.mem_cons_of_mem _ (List.mem_cons_of_mem _ (List.mem_cons_self ..)))
    exact (hlast.free_unmapped 0 (by decide)).2 (by unfold Evictable; decide)

end Rucbase.BufferPoolManager
