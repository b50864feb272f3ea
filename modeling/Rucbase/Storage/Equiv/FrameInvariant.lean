import Rucbase.Lib.StateExcept
import Rucbase.Replacer.Equiv.LruReplacer
import Rucbase.Storage.BufferPoolManager

/-!
# The frames of the buffer pool

`FrameInv` says that the page table, the free list, the replacer, the pin counts and the frame
ids of a pool agree: every frame is free, evictable or pinned, and a free frame can be handed out
without touching another page.

What the operations do to a pool that satisfies it is said once, by inversion lemmas
(`fetchPage_cases`, `newPage_cases`, `unpinPage_cases`, ...): a page that is not resident is
loaded by `assign`, which gives an `Available` frame to a new id.  Every later result about the
pool goes through these lemmas.
-/

namespace Rucbase.BufferPoolManager

variable {D : Type}

/-! ### The invariant -/

/-- The frame is in the page table. -/
def Mapped (b : BufferPoolManager D) (f : Nat) : Prop := ∃ p, b.pageTable p = some f

/-- On the free list. -/
def Free (b : BufferPoolManager D) (f : Nat) : Prop := f ∈ b.freeList

/-- Known to the replacer. -/
def Evictable (b : BufferPoolManager D) (f : Nat) : Prop := f ∈ b.replacer.frames

/-- Holding a page that somebody uses. -/
def Pinned (b : BufferPoolManager D) (f : Nat) : Prop := b.Mapped f ∧ 0 < (b.pages f).pinCount

/-- **The frame invariant.**  An entry of the page table names a frame that carries its id (so the
table is injective); the free list has no duplicates, and its frames are clean, unpinned, neither
mapped nor known to the replacer, and carry an id that is not mapped; the replacer holds exactly
the mapped frames with pin count zero; and every frame is in exactly one of the three states. -/
structure FrameInv (b : BufferPoolManager D) : Prop where
  table : ∀ {p f}, b.pageTable p = some f → f < b.poolSize ∧ (b.pages f).id = p
  free_nodup : b.freeList.Nodup
  free_lt : ∀ f ∈ b.freeList, f < b.poolSize
  free_unmapped : ∀ f ∈ b.freeList, ¬b.Mapped f ∧ ¬b.Evictable f
  free_clean : ∀ f ∈ b.freeList, (b.pages f).isDirty = false ∧ (b.pages f).pinCount = 0
  free_id : ∀ f ∈ b.freeList, b.pageTable (b.pages f).id = none
  replacer_wf : b.replacer.WF
  evictable_iff : ∀ f, b.Evictable f ↔ b.Mapped f ∧ (b.pages f).pinCount = 0
  state : ∀ f < b.poolSize,
    (b.Free f ∧ ¬b.Evictable f ∧ ¬b.Pinned f) ∨ (¬b.Free f ∧ b.Evictable f ∧ ¬b.Pinned f) ∨
      (¬b.Free f ∧ ¬b.Evictable f ∧ b.Pinned f)

/-- Two pages never share a frame. -/
theorem FrameInv.table_injective {b : BufferPoolManager D} (h : FrameInv b) {p q : PageId}
    {f : Nat} (hp : b.pageTable p = some f) (hq : b.pageTable q = some f) : p = q := by
  rw [← (h.table hp).2, (h.table hq).2]

/-- It is enough to know where a frame can be: the three states exclude each other. -/
theorem state_of_mapped_or_free {b : BufferPoolManager D} {f : Nat}
    (hfree : ∀ f ∈ b.freeList, ¬b.Mapped f ∧ ¬b.Evictable f)
    (hev : ∀ f, b.Evictable f ↔ b.Mapped f ∧ (b.pages f).pinCount = 0)
    (hf : b.Free f ∨ b.Mapped f) :
    (b.Free f ∧ ¬b.Evictable f ∧ ¬b.Pinned f) ∨ (¬b.Free f ∧ b.Evictable f ∧ ¬b.Pinned f) ∨
      (¬b.Free f ∧ ¬b.Evictable f ∧ b.Pinned f) := by
  rcases hf with hf | hf
  · have := hfree f hf
    exact Or.inl ⟨hf, this.2, fun hp => this.1 hp.1⟩
  · have hnf : ¬b.Free f := fun hfr => (hfree f hfr).1 hf
    rcases Nat.eq_zero_or_pos (b.pages f).pinCount with h0 | hpos
    · exact Or.inr (Or.inl ⟨hnf, (hev f).mpr ⟨hf, h0⟩, fun hp => by have := hp.2; omega⟩)
    · exact Or.inr (Or.inr ⟨hnf, fun he => by have := ((hev f).mp he).2; omega, hf, hpos⟩)

theorem FrameInv.free_or_mapped {b : BufferPoolManager D} (h : FrameInv b) {f : Nat}
    (hf : f < b.poolSize) : b.Free f ∨ b.Mapped f := by
  rcases h.state f hf with hs | hs | hs
  · exact Or.inl hs.1
  · exact Or.inr ((h.evictable_iff f).mp hs.2.1).1
  · exact Or.inr hs.2.2.1

/-- A fresh pool satisfies the invariant. -/
theorem frameInv_new (poolSize : Nat) (fd₀ : Nat → Int) (d : D) :
    FrameInv (new poolSize fd₀ d) := by
  have hfr : (LruReplacer.new : LruReplacer Nat).frames = [] := rfl
  have hfree : ∀ f ∈ (new poolSize fd₀ d).freeList,
      ¬(new poolSize fd₀ d).Mapped f ∧ ¬(new poolSize fd₀ d).Evictable f := by
    intro f _
    exact ⟨fun ⟨p, hp⟩ => by simp [new] at hp, by simp [Evictable, new, hfr]⟩
  have hev : ∀ f, (new poolSize fd₀ d).Evictable f ↔
      (new poolSize fd₀ d).Mapped f ∧ ((new poolSize fd₀ d).pages f).pinCount = 0 := by
    intro f
    simp [Evictable, Mapped, new, hfr]
  exact
    { table := by simp [new]
      free_nodup := List.nodup_range
      free_lt := by simp [new]
      free_unmapped := hfree
      free_clean := by simp [new]
      free_id := by simp [new]
      replacer_wf := LruReplacer.wf_new
      evictable_iff := hev
      state := fun f hf => state_of_mapped_or_free hfree hev (Or.inl (by simpa [Free, new] using hf)) }

/-! ### Giving a frame to a page -/

/-- The frame `FindVictimPage` picks: the first free one, else the replacer's victim. -/
def Available (b : BufferPoolManager D) (f : Nat) : Prop :=
  b.freeList.head? = some f ∨ b.freeList = [] ∧ b.replacer.victim.1 = some f

/-- The pool after an available frame was given to `pageId` and pinned once. -/
def assign (b : BufferPoolManager D) (f : Nat) (pageId : PageId) (data : PageData) (d : D) :
    BufferPoolManager D :=
  { b with
    pages := Function.update b.pages f ⟨pageId, data, false, 1⟩
    pageTable := Function.update (Function.update b.pageTable (b.pages f).id none) pageId (some f)
    freeList := b.freeList.tail
    replacer := (if b.freeList = [] then b.replacer.victim.2 else b.replacer).pin f
    diskManager := d }

variable {b : BufferPoolManager D} {f : Nat} {pageId : PageId} {data : PageData} {d : D}

theorem Available.lt (hav : b.Available f) (h : FrameInv b) : f < b.poolSize := by
  rcases hav with hf | ⟨-, hv⟩
  · exact h.free_lt f (List.mem_of_mem_head? hf)
  · obtain ⟨p, hp⟩ := ((h.evictable_iff f).mp
      ((LruReplacer.mem_frames_victim hv f).mpr (Or.inl rfl))).1
    exact (h.table hp).1

theorem Available.pinCount_eq_zero (hav : b.Available f) (h : FrameInv b) :
    (b.pages f).pinCount = 0 := by
  rcases hav with hf | ⟨-, hv⟩
  · exact (h.free_clean f (List.mem_of_mem_head? hf)).2
  · exact ((h.evictable_iff f).mp ((LruReplacer.mem_frames_victim hv f).mpr (Or.inl rfl))).2

theorem Available.notMem_tail (hav : b.Available f) (h : FrameInv b) : f ∉ b.freeList.tail := by
  rcases hav with hf | ⟨hnil, -⟩
  · obtain ⟨rest, hrest⟩ := List.head?_eq_some_iff.mp hf
    have hnd := h.free_nodup
    rw [hrest, List.nodup_cons] at hnd
    simpa [hrest] using hnd.1
  · simp [hnil]

theorem mem_frames_assign (hav : b.Available f) (h : FrameInv b) (g : Nat) :
    g ∈ (b.assign f pageId data d).replacer.frames ↔ g ∈ b.replacer.frames ∧ g ≠ f := by
  have hwf : (if b.freeList = [] then b.replacer.victim.2 else b.replacer).WF := by
    split_ifs
    · exact h.replacer_wf.victim
    · exact h.replacer_wf
  unfold assign
  rw [LruReplacer.mem_frames_pin hwf]
  split_ifs with hnil
  · rcases hav with hf | ⟨-, hv⟩
    · simp [hnil] at hf
    · rw [LruReplacer.mem_frames_victim hv g]
      tauto
  · rfl

/-- The id an available frame carries is mapped to that frame or not at all. -/
theorem Available.table_id (hav : b.Available f) (h : FrameInv b) {g : Nat}
    (hg : b.pageTable (b.pages f).id = some g) : g = f := by
  rcases hav with hf | ⟨-, hv⟩
  · rw [h.free_id f (List.mem_of_mem_head? hf)] at hg
    cases hg
  · obtain ⟨p, hp⟩ := ((h.evictable_iff f).mp
      ((LruReplacer.mem_frames_victim hv f).mpr (Or.inl rfl))).1
    rw [(h.table hp).2, hp] at hg
    exact (Option.some.inj hg).symm

/-- The page table after an assignment: the new page is in `f`, the page that was there is gone. -/
theorem table_assign_iff (hav : b.Available f) (h : FrameInv b) (hp : b.pageTable pageId = none)
    (p : PageId) (g : Nat) :
    (b.assign f pageId data d).pageTable p = some g ↔
      p = pageId ∧ g = f ∨ b.pageTable p = some g ∧ g ≠ f := by
  change Function.update (Function.update b.pageTable (b.pages f).id none) pageId (some f) p =
    some g ↔ _
  rcases eq_or_ne p pageId with rfl | hne
  · simp [hp, eq_comm]
  · rw [Function.update_of_ne hne]
    rcases eq_or_ne p (b.pages f).id with rfl | hid
    · simp only [Function.update_self, reduceCtorEq, hne, false_and, false_or, false_iff, not_and,
        not_not]
      exact hav.table_id h
    · rw [Function.update_of_ne hid]
      constructor
      · intro hg
        exact Or.inr ⟨hg, fun e => hid (h.table (e ▸ hg)).2.symm⟩
      · rintro (⟨e, -⟩ | ⟨hg, -⟩)
        · exact absurd e hne
        · exact hg

theorem mapped_assign (hav : b.Available f) (h : FrameInv b) (hp : b.pageTable pageId = none)
    (g : Nat) : (b.assign f pageId data d).Mapped g ↔ g = f ∨ b.Mapped g ∧ g ≠ f := by
  simp only [Mapped, table_assign_iff hav h hp, exists_or, exists_and_right,
    exists_eq, true_and]

/-- **Assigning keeps the invariant**, provided no other free frame still carries the new id. -/
theorem FrameInv.assign (h : FrameInv b) (hav : b.Available f) (hp : b.pageTable pageId = none)
    (hid : ∀ g ∈ b.freeList.tail, (b.pages g).id ≠ pageId) :
    FrameInv (b.assign f pageId data d) := by
  have hpages : ∀ g, g ≠ f → (b.assign f pageId data d).pages g = b.pages g := fun g hg => by
    simp [BufferPoolManager.assign, hg]
  have hpagef : (b.assign f pageId data d).pages f = ⟨pageId, data, false, 1⟩ := by
    simp [BufferPoolManager.assign]
  have htail : ∀ {g}, g ∈ b.freeList.tail → g ∈ b.freeList ∧ g ≠ f := fun hg =>
    ⟨List.mem_of_mem_tail hg, fun e => hav.notMem_tail h (e ▸ hg)⟩
  have hfree : ∀ g ∈ (b.assign f pageId data d).freeList,
      ¬(b.assign f pageId data d).Mapped g ∧ ¬(b.assign f pageId data d).Evictable g := by
    intro g hg
    obtain ⟨hg, hgf⟩ := htail hg
    rw [mapped_assign hav h hp, Evictable, mem_frames_assign hav h]
    have := h.free_unmapped g hg
    exact ⟨fun hm => hm.elim hgf fun hm => this.1 hm.1, fun he => this.2 he.1⟩
  -- the frame is pinned now, so it leaves the replacer; the others stay as they were
  have hev : ∀ g, (b.assign f pageId data d).Evictable g ↔
      (b.assign f pageId data d).Mapped g ∧ ((b.assign f pageId data d).pages g).pinCount = 0 := by
    intro g
    rw [mapped_assign hav h hp, Evictable, mem_frames_assign hav h]
    have := h.evictable_iff g
    rcases eq_or_ne g f with rfl | hgf
    · simp [hpagef]
    · simp only [hpages g hgf, hgf, ne_eq, not_false_eq_true, and_true, false_or]
      exact this
  refine
    { table := ?_
      free_nodup := h.free_nodup.sublist (List.tail_sublist _)
      free_lt := fun g hg => h.free_lt g (htail hg).1
      free_unmapped := hfree
      free_clean := ?_
      free_id := ?_
      replacer_wf := ?_
      evictable_iff := hev
      state := ?_ }
  · intro p g hg
    rcases (table_assign_iff hav h hp p g).mp hg with ⟨rfl, rfl⟩ | ⟨hg, hgf⟩
    · exact ⟨hav.lt h, by rw [hpagef]⟩
    · rw [hpages g hgf]
      exact h.table hg
  · intro g hg
    obtain ⟨hg, hgf⟩ := htail hg
    rw [hpages g hgf]
    exact h.free_clean g hg
  · intro g hg
    have hne := hid g hg
    obtain ⟨hg, hgf⟩ := htail hg
    rw [hpages g hgf, Option.eq_none_iff_forall_ne_some]
    intro k hk
    rcases (table_assign_iff hav h hp _ k).mp hk with ⟨e, -⟩ | ⟨hk, -⟩
    · exact hne e
    · rw [h.free_id g hg] at hk
      cases hk
  · have hwf : (if b.freeList = [] then b.replacer.victim.2 else b.replacer).WF := by
      split_ifs
      · exact h.replacer_wf.victim
      · exact h.replacer_wf
    exact hwf.pin f
  · intro g hg
    refine state_of_mapped_or_free hfree hev ?_
    rw [mapped_assign hav h hp]
    rcases eq_or_ne g f with rfl | hgf
    · exact Or.inr (Or.inl rfl)
    · rcases h.free_or_mapped hg with hfr | hm
      · -- the frame was the head of the free list, or the free list was empty
        left
        rcases hav with hf | ⟨hnil, -⟩
        · obtain ⟨rest, hrest⟩ := List.head?_eq_some_iff.mp hf
          rw [Free, hrest] at hfr
          have : g ∈ rest := (List.mem_cons.mp hfr).resolve_left hgf
          simpa [Free, BufferPoolManager.assign, hrest] using this
        · rw [Free, hnil] at hfr
          cases hfr
      · exact Or.inr (Or.inr ⟨hm, hgf⟩)

/-! ### Pinning, unpinning and writing back -/

/-- A frame that is in the table already is pinned once more. -/
def pinFrame (b : BufferPoolManager D) (f : Nat) : BufferPoolManager D :=
  { b.setPage f { b.pages f with pinCount := (b.pages f).pinCount + 1 } with
    replacer := b.replacer.pin f }

/-- A pinned frame loses one pin and may become dirty. -/
def unpinFrame (b : BufferPoolManager D) (f : Nat) (isDirty : Bool) : BufferPoolManager D :=
  { b.setPage f
      { b.pages f with
        pinCount := (b.pages f).pinCount - 1, isDirty := (b.pages f).isDirty || isDirty } with
    replacer := if (b.pages f).pinCount - 1 = 0 then b.replacer.unpin f else b.replacer }

/-- A frame has been written to the device. -/
def cleanFrame (b : BufferPoolManager D) (f : Nat) (d : D) : BufferPoolManager D :=
  { b.setPage f { b.pages f with isDirty := false } with diskManager := d }

/-- A client overwrites the bytes of a frame it holds. -/
def setData (b : BufferPoolManager D) (f : Nat) (data : PageData) : BufferPoolManager D :=
  b.setPage f { b.pages f with data }

/-- None of these moves a frame to another page. -/
theorem id_setPage {page : Page} {f : Nat} (hid : page.id = (b.pages f).id) (g : Nat) :
    ((b.setPage f page).pages g).id = (b.pages g).id := by
  rcases eq_or_ne g f with rfl | hgf
  · simp [setPage, hid]
  · simp [setPage, hgf]

@[simp] theorem id_pinFrame (f g : Nat) : ((b.pinFrame f).pages g).id = (b.pages g).id := by
  unfold pinFrame
  exact id_setPage (by rfl) g

@[simp] theorem id_unpinFrame (f : Nat) (isDirty : Bool) (g : Nat) :
    ((b.unpinFrame f isDirty).pages g).id = (b.pages g).id := by
  unfold unpinFrame
  exact id_setPage (by rfl) g

@[simp] theorem id_cleanFrame (f : Nat) (d : D) (g : Nat) :
    ((b.cleanFrame f d).pages g).id = (b.pages g).id := by
  unfold cleanFrame
  exact id_setPage (by rfl) g

@[simp] theorem id_setData (f : Nat) (data : PageData) (g : Nat) :
    ((b.setData f data).pages g).id = (b.pages g).id := by
  unfold setData
  exact id_setPage (by rfl) g

/-- Only ids, pin counts and the dirty bits of free frames matter to the invariant. -/
theorem FrameInv.congr {b' : BufferPoolManager D} (h : FrameInv b)
    (hsize : b'.poolSize = b.poolSize) (htable : b'.pageTable = b.pageTable)
    (hfree : b'.freeList = b.freeList) (hrep : b'.replacer = b.replacer)
    (hpages : ∀ g, (b'.pages g).id = (b.pages g).id ∧
      (b'.pages g).pinCount = (b.pages g).pinCount ∧
      ((b.pages g).isDirty = false → (b'.pages g).isDirty = false)) : FrameInv b' := by
  have hm : ∀ g, b'.Mapped g ↔ b.Mapped g := fun g => by simp [Mapped, htable]
  have he : ∀ g, b'.Evictable g ↔ b.Evictable g := fun g => by simp [Evictable, hrep]
  refine
    { table := fun {p g} hp => ?_
      free_nodup := hfree ▸ h.free_nodup
      free_lt := fun g hg => ?_
      free_unmapped := fun g hg => ?_
      free_clean := fun g hg => ?_
      free_id := fun g hg => ?_
      replacer_wf := hrep ▸ h.replacer_wf
      evictable_iff := fun g => ?_
      state := fun g hg => ?_ }
  · rw [hsize, (hpages g).1]
    exact h.table (htable ▸ hp)
  · rw [hsize]
    exact h.free_lt g (hfree ▸ hg)
  · rw [hm, he]
    exact h.free_unmapped g (hfree ▸ hg)
  · rw [(hpages g).2.1]
    have := h.free_clean g (hfree ▸ hg)
    exact ⟨(hpages g).2.2 this.1, this.2⟩
  · rw [(hpages g).1, htable]
    exact h.free_id g (hfree ▸ hg)
  · rw [he, hm, (hpages g).2.1]
    exact h.evictable_iff g
  · have := h.state g (hsize ▸ hg)
    simpa only [Free, Pinned, hfree, he, hm, (hpages g).2.1] using this

theorem FrameInv.cleanFrame (h : FrameInv b) (f : Nat) (d : D) : FrameInv (b.cleanFrame f d) := by
  refine h.congr rfl rfl rfl rfl fun g => ?_
  rcases eq_or_ne g f with rfl | hgf
  · simp [BufferPoolManager.cleanFrame, setPage]
  · simp [BufferPoolManager.cleanFrame, setPage, hgf]

theorem FrameInv.setData (h : FrameInv b) (f : Nat) (data : PageData) :
    FrameInv (b.setData f data) := by
  refine h.congr rfl rfl rfl rfl fun g => ?_
  rcases eq_or_ne g f with rfl | hgf
  · simp [BufferPoolManager.setData, setPage]
  · simp [BufferPoolManager.setData, setPage, hgf]

/-- A change of one mapped frame's pin count keeps the invariant if the replacer follows it. -/
theorem FrameInv.setPin (h : FrameInv b) {f : Nat} (hf : b.Mapped f) {page : Page}
    {r : LruReplacer Nat} (hid : page.id = (b.pages f).id) (hr : r.WF)
    (hmem : ∀ g, g ∈ r.frames ↔ g = f ∧ page.pinCount = 0 ∨ g ∈ b.replacer.frames ∧ g ≠ f) :
    FrameInv { b.setPage f page with replacer := r } := by
  have hnf : ∀ {g}, g ∈ b.freeList → g ≠ f := fun hg e => (h.free_unmapped f (e ▸ hg)).1 hf
  have hpages : ∀ g, g ≠ f → (b.setPage f page).pages g = b.pages g := fun g hg => by
    simp [setPage, hg]
  have hfree : ∀ g ∈ b.freeList, ¬b.Mapped g ∧ g ∉ r.frames := fun g hg => by
    refine ⟨(h.free_unmapped g hg).1, ?_⟩
    rw [hmem]
    exact fun hm => hm.elim (fun e => hnf hg e.1) fun e => (h.free_unmapped g hg).2 e.1
  have hev : ∀ g, g ∈ r.frames ↔ b.Mapped g ∧ ((b.setPage f page).pages g).pinCount = 0 := by
    intro g
    rw [hmem]
    rcases eq_or_ne g f with rfl | hgf
    · simp [setPage, hf]
    · rw [hpages g hgf]
      have := h.evictable_iff g
      unfold Evictable at this
      simpa [hgf] using this
  refine
    { table := fun {p g} hp => ?_
      free_nodup := h.free_nodup
      free_lt := h.free_lt
      free_unmapped := hfree
      free_clean := fun g hg => ?_
      free_id := fun g hg => ?_
      replacer_wf := hr
      evictable_iff := hev
      state := fun g hg => state_of_mapped_or_free hfree hev (h.free_or_mapped hg) }
  · rcases eq_or_ne g f with rfl | hgf
    · exact ⟨(h.table hp).1, by simpa [setPage, hid] using (h.table hp).2⟩
    · exact ⟨(h.table hp).1, by simpa [setPage, hgf] using (h.table hp).2⟩
  · simpa [setPage, hnf hg] using h.free_clean g hg
  · simpa [setPage, hnf hg] using h.free_id g hg

theorem FrameInv.pinFrame (h : FrameInv b) {f : Nat} (hf : b.Mapped f) :
    FrameInv (b.pinFrame f) := by
  refine h.setPin hf rfl (h.replacer_wf.pin f) fun g => ?_
  rw [LruReplacer.mem_frames_pin h.replacer_wf]
  simp

theorem FrameInv.unpinFrame (h : FrameInv b) {f : Nat} (hf : b.Mapped f)
    (hpos : 0 < (b.pages f).pinCount) (isDirty : Bool) : FrameInv (b.unpinFrame f isDirty) := by
  have hnot : f ∉ b.replacer.frames := fun hm => by
    have := ((h.evictable_iff f).mp hm).2
    omega
  have hne : ∀ {g}, g ∈ b.replacer.frames → g ≠ f := fun hg e => hnot (e ▸ hg)
  by_cases h0 : (b.pages f).pinCount - 1 = 0
  · refine h.setPin hf rfl ?_ fun g => ?_
    · rw [if_pos h0]
      exact h.replacer_wf.unpin f
    · rw [if_pos h0, LruReplacer.mem_frames_unpin h.replacer_wf]
      exact ⟨fun hg => hg.imp (fun e => ⟨e, h0⟩) fun hg => ⟨hg, hne hg⟩,
        fun hg => hg.imp And.left And.left⟩
  · refine h.setPin hf rfl ?_ fun g => ?_
    · rw [if_neg h0]
      exact h.replacer_wf
    · rw [if_neg h0]
      exact ⟨fun hg => Or.inr ⟨hg, hne hg⟩, fun hg => hg.elim (fun e => absurd e.2 h0) And.left⟩

/-! ### What an operation can do -/

section Steps

variable [PageDevice D] {b' : BufferPoolManager D}

open EStateM

theorem writePage_eq_ok_iff {u : Unit} :
    writePage pageId data b = .ok u b' ↔
      ∃ d, PageDevice.writePage b.diskManager pageId data = (true, d) ∧
        b' = { b with diskManager := d } := by
  simp only [writePage, get_bind_apply, set_bind_apply]
  rcases PageDevice.writePage b.diskManager pageId data with ⟨ok, d⟩
  cases ok <;> simp [eq_comm]

theorem readPage_eq_ok_iff {u : Unit} :
    readPage pageId f b = .ok u b' ↔
      ∃ data d, PageDevice.readPage b.diskManager pageId (b.pages f).data = (true, data, d) ∧
        b' = { b.setPage f { b.pages f with data } with diskManager := d } := by
  simp only [readPage, get_bind_apply, set_bind_apply]
  rcases PageDevice.readPage b.diskManager pageId (b.pages f).data with ⟨ok, data, d⟩
  cases ok <;> simp [eq_comm]

/-- The device after a dirty page was written back; a clean page is not written. -/
def WriteBack (d : D) (page : Page) (d' : D) : Prop :=
  if page.isDirty then PageDevice.writePage d page.id page.data = (true, d') else d' = d

/-- The page table `UpdatePage` leaves. -/
def updateTable (b : BufferPoolManager D) (f : Nat) (pageId : PageId) : PageId → Option Nat :=
  let table := Function.update b.pageTable (b.pages f).id none
  if pageId.pageNo ≠ invalidPageId then tableInsert table pageId f else table

theorem updatePage_eq_ok_iff {u : Unit} :
    updatePage f pageId b = .ok u b' ↔ ∃ d, WriteBack b.diskManager (b.pages f) d ∧
      b' = { b.setPage f { b.pages f with data := zeroPage, id := pageId, isDirty := false } with
        pageTable := b.updateTable f pageId, diskManager := d } := by
  cases hd : (b.pages f).isDirty
  · simp only [updatePage, WriteBack, updateTable, setPage, get_bind_apply, hd, Bool.false_eq_true,
      if_false, set_bind_apply, set_apply, Result.ok.injEq, true_and,
      exists_eq_left]
    exact eq_comm
  · simp only [updatePage, get_bind_apply, hd, if_true, set_bind_apply,
      bind_eq_ok_iff, writePage_eq_ok_iff, WriteBack, updateTable]
    constructor
    · rintro ⟨_, s, ⟨d, hw, rfl⟩, hs⟩
      exact ⟨d, hw, by simpa [setPage] using hs.symm⟩
    · rintro ⟨d, hw, rfl⟩
      exact ⟨⟨⟩, _, ⟨d, hw, rfl⟩, by simp [setPage]⟩

/-- The pool after `FindVictimPage` took frame `f`. -/
def take (b : BufferPoolManager D) (f : Nat) : BufferPoolManager D :=
  { b with
    pageTable := Function.update b.pageTable (b.pages f).id none
    freeList := b.freeList.tail
    replacer := if b.freeList = [] then b.replacer.victim.2 else b.replacer }

omit [PageDevice D] in
theorem findVictimPage_cases (hI : FrameInv b) {r : Option Nat}
    (h : findVictimPage b = .ok r b') :
    (r = none ∧ b.freeList = [] ∧ b.replacer.frames = [] ∧ b' = b) ∨
      ∃ f, r = some f ∧ b.Available f ∧ b' = b.take f := by
  simp only [findVictimPage, get_bind_apply] at h
  cases hfl : b.freeList with
  | nil =>
    simp only [hfl] at h
    rcases hv : b.replacer.victim with ⟨_ | f, r'⟩
    · simp only [hv, pure_apply, Result.ok.injEq] at h
      exact Or.inl ⟨h.1.symm, rfl, (LruReplacer.victim_eq_none_iff _).mp (by rw [hv]), h.2.symm⟩
    · simp only [hv, set_bind_apply, pure_apply, Result.ok.injEq] at h
      refine Or.inr ⟨f, h.1.symm, Or.inr ⟨hfl, by rw [hv]⟩, ?_⟩
      rw [← h.2, take, if_pos hfl, hfl, hv]
      rfl
  | cons f rest =>
    simp only [hfl, set_bind_apply, pure_apply, Result.ok.injEq] at h
    have hid := hI.free_id f (by simp [hfl])
    refine Or.inr ⟨f, h.1.symm, Or.inl (by rw [hfl]; rfl), ?_⟩
    -- the id of a free frame is not in the table, so erasing it changes nothing
    rw [← h.2, take, Function.update_eq_self_iff.mpr hid.symm, if_neg (by simp [hfl]), hfl]
    rfl

omit [PageDevice D] in
/-- A page that is not in the table after `FindVictimPage` is entered. -/
theorem tableInsert_take (hp : b.pageTable pageId = none) :
    tableInsert (b.take f).pageTable pageId f =
      Function.update (Function.update b.pageTable (b.pages f).id none) pageId (some f) := by
  have : (b.take f).pageTable pageId = none := by
    rcases eq_or_ne pageId (b.pages f).id with he | hne
    · simp [take, he]
    · simp [take, hne, hp]
  rw [tableInsert, this]
  rfl

omit [PageDevice D] in
/-- Entering the page again after `UpdatePage` did makes no difference. -/
theorem tableInsert_updateTable (hp : b.pageTable pageId = none) :
    tableInsert ((b.take f).updateTable f pageId) pageId f =
      Function.update (Function.update b.pageTable (b.pages f).id none) pageId (some f) := by
  have herase : Function.update (b.take f).pageTable ((b.take f).pages f).id none =
      (b.take f).pageTable := Function.update_idem ..
  unfold updateTable
  rw [herase]
  dsimp only
  split_ifs
  · rw [tableInsert_take hp]
    simp [tableInsert]
  · exact tableInsert_take hp

/-- **What `FetchPage` can do**: pin a resident page, fail for want of a frame, or write a dirty
victim back, read the page and enter it. -/
theorem fetchPage_cases (hI : FrameInv b) {r : Option Nat} (h : fetchPage pageId b = .ok r b') :
    (∃ f, b.pageTable pageId = some f ∧ r = some f ∧ b' = b.pinFrame f) ∨
    (b.pageTable pageId = none ∧ b.freeList = [] ∧ b.replacer.frames = [] ∧ r = none ∧ b' = b) ∨
    (b.pageTable pageId = none ∧ ∃ f buf data d₁ d, b.Available f ∧ r = some f ∧
      WriteBack b.diskManager (b.pages f) d₁ ∧
      PageDevice.readPage d₁ pageId buf = (true, data, d) ∧ b' = b.assign f pageId data d) := by
  simp only [fetchPage, get_bind_apply] at h
  cases hp : b.pageTable pageId with
  | some f =>
    simp only [hp, set_bind_apply, pure_apply, Result.ok.injEq] at h
    exact Or.inl ⟨f, rfl, h.1.symm, h.2.symm⟩
  | none =>
    simp only [hp, bind_eq_ok_iff] at h
    obtain ⟨v, b₁, hv, h⟩ := h
    rcases findVictimPage_cases hI hv with ⟨rfl, hfl, hrep, rfl⟩ | ⟨f, rfl, hav, rfl⟩
    · simp only [pure_apply, Result.ok.injEq] at h
      exact Or.inr (Or.inl ⟨rfl, hfl, hrep, h.1.symm, h.2.symm⟩)
    · have hpin := hav.pinCount_eq_zero hI
      have hpage : (b.take f).pages f = b.pages f := rfl
      refine Or.inr (Or.inr ⟨rfl, ?_⟩)
      simp only [get_bind_apply, hpage] at h
      cases hd : (b.pages f).isDirty
      · -- a clean victim
        simp only [hd, Bool.false_eq_true, if_false, set_bind_apply] at h
        rw [bind_eq_ok_iff] at h
        obtain ⟨_, b₂, hread, h⟩ := h
        rw [readPage_eq_ok_iff] at hread
        obtain ⟨data, d, hread, rfl⟩ := hread
        simp only [get_bind_apply, set_bind_apply, pure_apply, Result.ok.injEq] at h
        refine ⟨f, _, data, b.diskManager, d, hav, h.1.symm, by simp [WriteBack, hd], hread, ?_⟩
        rw [← h.2, assign, ← tableInsert_take hp]
        simp [setPage, take, hpin]
      · -- a dirty victim goes through `UpdatePage`, which enters the page already
        simp only [hd, if_true] at h
        rw [bind_eq_ok_iff] at h
        obtain ⟨_, b₂, hupd, h⟩ := h
        rw [updatePage_eq_ok_iff] at hupd
        obtain ⟨d₁, hw, rfl⟩ := hupd
        rw [bind_eq_ok_iff] at h
        obtain ⟨_, b₃, hread, h⟩ := h
        rw [readPage_eq_ok_iff] at hread
        obtain ⟨data, d, hread, rfl⟩ := hread
        simp only [get_bind_apply, set_bind_apply, pure_apply, Result.ok.injEq] at h
        refine ⟨f, _, data, d₁, d, hav, h.1.symm, hw, hread, ?_⟩
        rw [← h.2, assign]
        simp only [setPage, tableInsert_updateTable hp, hpage, Function.update_idem,
          Function.update_self, hpin]
        rfl

/-- The number `AllocatePage` hands out next for `fd` is a page number no frame carries. -/
def FreshAlloc (b : BufferPoolManager D) (fd : Int) : Prop :=
  (PageDevice.allocatePage b.diskManager fd).1 ≠ invalidPageId ∧
    ∀ f < b.poolSize, (b.pages f).id ≠ ⟨fd, (PageDevice.allocatePage b.diskManager fd).1⟩

theorem FreshAlloc.table {fd : Int} (hfr : b.FreshAlloc fd) (hI : FrameInv b) :
    b.pageTable ⟨fd, (PageDevice.allocatePage b.diskManager fd).1⟩ = none := by
  rw [Option.eq_none_iff_forall_ne_some]
  intro f hf
  exact hfr.2 f (hI.table hf).1 (hI.table hf).2

/-- **What `NewPage` can do**: fail for want of a frame, or give one, zeroed, to the new page. -/
theorem newPage_cases (hI : FrameInv b) {fd : Int} (hfr : b.FreshAlloc fd)
    {r : Option (Nat × PageId)} (h : newPage fd b = .ok r b') :
    (b.freeList = [] ∧ b.replacer.frames = [] ∧ r = none ∧ b' = b) ∨
    (∃ f d, b.Available f ∧
      r = some (f, ⟨fd, (PageDevice.allocatePage b.diskManager fd).1⟩) ∧
      WriteBack (PageDevice.allocatePage b.diskManager fd).2 (b.pages f) d ∧
      b' = b.assign f ⟨fd, (PageDevice.allocatePage b.diskManager fd).1⟩ zeroPage d) := by
  have hp := hfr.table hI
  have hno := hfr.1
  revert hp hno
  generalize hal : PageDevice.allocatePage b.diskManager fd = al
  rcases al with ⟨n, da⟩
  intro hp hno
  rw [newPage, bind_eq_ok_iff] at h
  obtain ⟨v, b₁, hv, h⟩ := h
  rcases findVictimPage_cases hI hv with ⟨rfl, hfl, hrep, rfl⟩ | ⟨f, rfl, hav, rfl⟩
  · simp only [pure_apply, Result.ok.injEq] at h
    exact Or.inl ⟨hfl, hrep, h.1.symm, h.2.symm⟩
  · have hda : (b.take f).diskManager = b.diskManager := rfl
    simp only [get_bind_apply, hda, hal, set_bind_apply] at h
    rw [bind_eq_ok_iff] at h
    obtain ⟨_, b₂, hupd, h⟩ := h
    rw [updatePage_eq_ok_iff] at hupd
    obtain ⟨d, hw, rfl⟩ := hupd
    simp only [get_bind_apply, set_bind_apply, pure_apply, Result.ok.injEq] at h
    refine Or.inr ⟨f, d, hav, h.1.symm, hw, ?_⟩
    have htable : (b.take f).updateTable f ⟨fd, n⟩ =
        Function.update (Function.update b.pageTable (b.pages f).id none) ⟨fd, n⟩ (some f) := by
      rw [← tableInsert_take hp, updateTable]
      dsimp only
      rw [if_pos hno]
      exact congrArg (tableInsert · _ f) (Function.update_idem ..)
    rw [← h.2, assign, ← htable]
    simp only [setPage, Function.update_idem, Function.update_self]
    rfl

omit [PageDevice D] in
/-- **What `UnpinPage` can do**: nothing, or take one pin off a resident page. -/
theorem unpinPage_cases {isDirty r : Bool} (h : unpinPage pageId isDirty b = .ok r b') :
    (r = false ∧ b' = b ∧ ∀ f, b.pageTable pageId = some f → (b.pages f).pinCount = 0) ∨
    (∃ f, b.pageTable pageId = some f ∧ 0 < (b.pages f).pinCount ∧ r = true ∧
      b' = b.unpinFrame f isDirty) := by
  simp only [unpinPage, get_bind_apply] at h
  cases hp : b.pageTable pageId with
  | none =>
    simp only [hp, pure_apply, Result.ok.injEq] at h
    exact Or.inl ⟨h.1.symm, h.2.symm, by simp⟩
  | some f =>
    simp only [hp] at h
    by_cases h0 : (b.pages f).pinCount = 0
    · simp only [h0, if_true, pure_apply, Result.ok.injEq] at h
      exact Or.inl ⟨h.1.symm, h.2.symm, by simpa using h0⟩
    · simp only [h0, if_false, set_bind_apply, pure_apply, Result.ok.injEq] at h
      exact Or.inr ⟨f, rfl, Nat.pos_of_ne_zero h0, h.1.symm, h.2.symm⟩

/-- **What `FlushPage` can do**: nothing, or write a resident page out. -/
theorem flushPage_cases {r : Bool} (h : flushPage pageId b = .ok r b') :
    (b.pageTable pageId = none ∧ r = false ∧ b' = b) ∨
    (∃ f d, b.pageTable pageId = some f ∧
      PageDevice.writePage b.diskManager (b.pages f).id (b.pages f).data = (true, d) ∧
      r = true ∧ b' = b.cleanFrame f d) := by
  simp only [flushPage, get_bind_apply] at h
  cases hp : b.pageTable pageId with
  | none =>
    simp only [hp, pure_apply, Result.ok.injEq] at h
    exact Or.inl ⟨rfl, h.1.symm, h.2.symm⟩
  | some f =>
    simp only [hp] at h
    rw [bind_eq_ok_iff] at h
    obtain ⟨_, b₁, hw, h⟩ := h
    rw [writePage_eq_ok_iff] at hw
    obtain ⟨d, hw, rfl⟩ := hw
    simp only [get_bind_apply, set_bind_apply, pure_apply, Result.ok.injEq] at h
    exact Or.inr ⟨f, d, rfl, hw, h.1.symm, h.2.symm⟩

/-- **What a round of `FlushAllPages` can do.** -/
theorem flushFrame_cases {fd : Int} {i : Nat} {u : Unit} (h : flushFrame fd i b = .ok u b') :
    (¬((b.pages i).id.fd = fd ∧ (b.pages i).id.pageNo ≠ invalidPageId) ∧ b' = b) ∨
    (∃ d, ((b.pages i).id.fd = fd ∧ (b.pages i).id.pageNo ≠ invalidPageId) ∧
      PageDevice.writePage b.diskManager (b.pages i).id (b.pages i).data = (true, d) ∧
      b' = b.cleanFrame i d) := by
  simp only [flushFrame, get_bind_apply] at h
  split_ifs at h with hc
  · rw [bind_eq_ok_iff] at h
    obtain ⟨_, b₁, hw, h⟩ := h
    rw [writePage_eq_ok_iff] at hw
    obtain ⟨d, hw, rfl⟩ := hw
    simp only [get_bind_apply, set_apply, Result.ok.injEq, true_and] at h
    exact Or.inr ⟨d, hc, hw, h.symm⟩
  · simp only [pure_apply, Result.ok.injEq, true_and] at h
    exact Or.inl ⟨hc, h.symm⟩

omit [PageDevice D] in
/-- **What `DeletePage` can do**: nothing, or put the frame of an unpinned resident page on the
free list. -/
theorem deletePage_cases {r : Bool} (h : deletePage pageId b = .ok r b') :
    (b' = b ∧ ∀ f, b.pageTable pageId = some f → 0 < (b.pages f).pinCount) ∨
    (∃ f, b.pageTable pageId = some f ∧ (b.pages f).pinCount = 0 ∧
      b' = { b.setPage f { b.pages f with data := zeroPage } with
        pageTable := Function.update b.pageTable pageId none
        freeList := b.freeList ++ [f] }) := by
  simp only [deletePage, get_bind_apply] at h
  cases hp : b.pageTable pageId with
  | none =>
    simp only [hp, pure_apply, Result.ok.injEq] at h
    exact Or.inl ⟨h.2.symm, by simp⟩
  | some f =>
    simp only [hp] at h
    by_cases h0 : 0 < (b.pages f).pinCount
    · simp only [h0, if_true, pure_apply, Result.ok.injEq] at h
      exact Or.inl ⟨h.2.symm, by simpa using h0⟩
    · simp only [h0, if_false, set_bind_apply, pure_apply, Result.ok.injEq] at h
      exact Or.inr ⟨f, rfl, by omega, h.2.symm⟩

end Steps

end Rucbase.BufferPoolManager
