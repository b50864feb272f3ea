import Rucbase.Storage.PageStore

/-!
# What a handle sees

`view` is what a fetch would return.  Fetching and unpinning do not change it, a write and a new
page change it at one page, and flushing moves it to disk.
-/

namespace Rucbase.PageStore

variable {P : Type} {s s' : PageStore P} {p q : PageId} {x : P}

theorem view_of_pool (h : s.pool p = some x) : s.view p = some x := by
  simp [view, h]

theorem view_of_pool_none (h : s.pool p = none) : s.view p = s.disk p.pageNo := by
  simp [view, h]

theorem pool_eq_none_of_view (h : s.view p = none) : s.pool p = none := by
  unfold view at h
  split at h
  · cases h
  · assumption

theorem fetchPage_of_view (h : s.view p = some x) :
    ∃ s', s.fetchPage p = some (x, s') ∧ (∀ q, s'.view q = s.view q) ∧
      s'.fd2pageno = s.fd2pageno ∧ s'.disk = s.disk := by
  rw [fetchPage, h]
  refine ⟨_, rfl, fun q => ?_, rfl, rfl⟩
  by_cases hq : q = p
  · subst hq
    rw [h]
    exact view_of_pool (by simp)
  · simp [view, hq]

@[simp]
theorem view_setPage (s : PageStore P) (p : PageId) (x : P) (q : PageId) :
    (s.setPage p x).view q = if q = p then some x else s.view q := by
  by_cases hq : q = p
  · subst hq
    simp [view, setPage]
  · simp [view, setPage, hq]

theorem view_newPage (s : PageStore P) (zero : P) (fd : Int) (q : PageId) :
    (s.newPage zero fd).view q =
      if q = ⟨fd, s.fd2pageno fd⟩ then some zero else s.view q := by
  by_cases hq : q = ⟨fd, s.fd2pageno fd⟩
  · subst hq
    simp [view, newPage]
  · simp [view, newPage, hq]

@[simp]
theorem view_unpinPage (s : PageStore P) (p q : PageId) : (s.unpinPage p).2.view q = s.view q := by
  unfold unpinPage
  split
  · rfl
  · split_ifs
    · rfl
    · rfl

@[simp]
theorem fd2pageno_unpinPage (s : PageStore P) (p : PageId) :
    (s.unpinPage p).2.fd2pageno = s.fd2pageno := by
  unfold unpinPage
  split
  · rfl
  · split_ifs
    · rfl
    · rfl

/-- After `FlushAllPages` the disk holds what the handle sees. -/
theorem disk_flushAllPages (s : PageStore P) (fd : Int) {k : Int} (hk : k ≠ invalidPageId) :
    (s.flushAllPages fd).disk k = s.view ⟨fd, k⟩ := by
  simp only [flushAllPages, view]
  cases s.pool ⟨fd, k⟩ with
  | none => rfl
  | some x => simp only [if_neg hk]

theorem disk_flushAllPages_of_view_none {fd k : Int} (h : s.view ⟨fd, k⟩ = none) :
    (s.flushAllPages fd).disk k = none := by
  have hpool := pool_eq_none_of_view h
  have hdisk : s.disk k = none := by
    rwa [view, hpool] at h
  simp only [flushAllPages, hpool, hdisk]

end Rucbase.PageStore
