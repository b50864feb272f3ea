import Rucbase.Storage.Equiv.FileSessions

/-!
# Pool calls open and close no file

However a call of the buffer pool ends, the files and the descriptors that are open on them are those
from before: the pool only reads, writes and allocates pages.  `KeepsOpen x b` says so of a program
from one state, and its rules follow the program.
-/

namespace Rucbase.BufferPoolManager

open DiskManager EStateM

/-- A program of the pool, run from `b`, opens and closes no file, however it ends. -/
def KeepsOpen {α : Type} (x : PoolM DiskManager α) (b : BufferPoolManager DiskManager) : Prop :=
  SameOpen b.diskManager (x.after b).diskManager

namespace KeepsOpen

variable {α β : Type} {x : PoolM DiskManager α} {f : α → PoolM DiskManager β}
  {b c : BufferPoolManager DiskManager}

theorem pure (a : α) : KeepsOpen (Pure.pure a) b := .refl b.diskManager

theorem throw (e : RedBaseError) : KeepsOpen (MonadExcept.throw e : PoolM DiskManager α) b :=
  .refl b.diskManager

theorem set (h : SameOpen b.diskManager c.diskManager) :
    KeepsOpen (MonadStateOf.set c : PoolM DiskManager PUnit) b := h

theorem bind (hx : KeepsOpen x b) (hf : ∀ a b', x b = .ok a b' → KeepsOpen (f a) b') :
    KeepsOpen (x >>= f) b :=
  after_bind_of_trans
    (R := fun b b' : BufferPoolManager DiskManager => SameOpen b.diskManager b'.diskManager)
    (fun _ _ _ h h' => h.trans h') hx hf

theorem get_bind {f : BufferPoolManager DiskManager → PoolM DiskManager β}
    (h : KeepsOpen (f b) b) : KeepsOpen (get >>= f) b := h

/-- A step that leaves the disk manager alone. -/
theorem set_bind {f : PUnit → PoolM DiskManager β} (h : SameOpen b.diskManager c.diskManager)
    (hf : KeepsOpen (f ⟨⟩) c) : KeepsOpen (MonadStateOf.set c >>= f) b :=
  bind (set h) fun _ _ hrun => by
    cases hrun
    exact hf

end KeepsOpen

theorem writePage_keepsOpen (pageId : PageId) (data : PageData)
    (b : BufferPoolManager DiskManager) : KeepsOpen (writePage pageId data) b := by
  unfold KeepsOpen
  by_cases hopen : b.diskManager.IsOpen pageId.fd
  · obtain ⟨dm, hw, hso, -⟩ := writePage_open hopen pageId.pageNo data
    have hok : writePage pageId data b = .ok () { b with diskManager := dm } :=
      writePage_eq_ok_iff.mpr ⟨dm, hw, rfl⟩
    rw [after_of_ok hok]
    exact hso
  · have hw : PageDevice.writePage b.diskManager pageId data = (false, b.diskManager) :=
      writePage_closed hopen pageId.pageNo data
    have hthrow : writePage pageId data b = .error .unixError b := by simp [writePage, hw]
    rw [after_of_error hthrow]
    exact .refl b.diskManager

theorem readPage_keepsOpen (pageId : PageId) (frameId : Nat) (b : BufferPoolManager DiskManager) :
    KeepsOpen (readPage pageId frameId) b := by
  have hso := (readPage_sameOpen b.diskManager pageId.fd pageId.pageNo (b.pages frameId).data).1
  unfold readPage
  apply KeepsOpen.get_bind
  refine .set_bind hso ?_
  split_ifs
  · exact .throw _
  · exact .pure _

theorem findVictimPage_keepsOpen (b : BufferPoolManager DiskManager) :
    KeepsOpen findVictimPage b := by
  unfold findVictimPage
  apply KeepsOpen.get_bind
  split
  · split
    · exact .set_bind (.refl _) (.pure _)
    · exact .pure _
  · exact .set_bind (.refl _) (.pure _)

theorem updatePage_keepsOpen (frameId : Nat) (newPageId : PageId)
    (b : BufferPoolManager DiskManager) : KeepsOpen (updatePage frameId newPageId) b := by
  unfold updatePage
  apply KeepsOpen.get_bind
  dsimp only
  cases (b.pages frameId).isDirty with
  | false =>
    rw [if_neg Bool.false_ne_true]
    exact .get_bind (.set_bind (.refl _) (.get_bind (.set (.refl _))))
  | true =>
    rw [if_pos rfl]
    refine .set_bind (.refl _) ?_
    apply KeepsOpen.bind (writePage_keepsOpen ..)
    intro _ b' _
    exact .get_bind (.set_bind (.refl _) (.get_bind (.set (.refl _))))

theorem fetchPage_keepsOpen (pageId : PageId) (b : BufferPoolManager DiskManager) :
    KeepsOpen (fetchPage pageId) b := by
  unfold fetchPage
  apply KeepsOpen.get_bind
  split
  · exact .set_bind (.refl _) (.pure _)
  · apply KeepsOpen.bind (findVictimPage_keepsOpen b)
    intro target b₁ _
    cases target with
    | none => exact .pure _
    | some target =>
      apply KeepsOpen.get_bind
      dsimp only
      cases (b₁.pages target).isDirty with
      | false =>
        rw [if_neg Bool.false_ne_true]
        refine .set_bind (.refl _) ?_
        apply KeepsOpen.bind (readPage_keepsOpen ..)
        intro _ b' _
        exact .get_bind (.set_bind (.refl _) (.pure _))
      | true =>
        rw [if_pos rfl]
        apply KeepsOpen.bind (updatePage_keepsOpen ..)
        intro _ b₂ _
        apply KeepsOpen.bind (readPage_keepsOpen ..)
        intro _ b' _
        exact .get_bind (.set_bind (.refl _) (.pure _))

theorem newPage_keepsOpen (fd : Int) (b : BufferPoolManager DiskManager) :
    KeepsOpen (newPage fd) b := by
  unfold newPage
  apply KeepsOpen.bind (findVictimPage_keepsOpen b)
  intro target b₁ _
  cases target with
  | none => exact .pure _
  | some target =>
    apply KeepsOpen.get_bind
    dsimp only [PageDevice.allocatePage]
    refine .set_bind ⟨fun _ => rfl, rfl, rfl, rfl, rfl⟩ ?_
    apply KeepsOpen.bind (updatePage_keepsOpen ..)
    intro _ b' _
    exact .get_bind (.set_bind (.refl _) (.pure _))

theorem unpinPage_keepsOpen (pageId : PageId) (isDirty : Bool)
    (b : BufferPoolManager DiskManager) : KeepsOpen (unpinPage pageId isDirty) b := by
  unfold unpinPage
  apply KeepsOpen.get_bind
  split
  · exact .pure _
  · dsimp only
    split
    · exact .pure _
    · exact .set_bind (.refl _) (.pure _)

end Rucbase.BufferPoolManager
