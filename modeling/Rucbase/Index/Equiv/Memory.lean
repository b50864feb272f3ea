import Rucbase.Index.Equiv.Slots
import Rucbase.Lib.Does
import Rucbase.Storage.Equiv.PageStore

/-!
# The memory of an index

What the operations of an index can see: the header, the pages and the page counter (`IxMem`).  Pin
counts and the split between pool and disk are left out, since no operation depends on them.  The
lemmas run the primitive operations on memories; `maintain_child` in a loop is `IxMem.adopt`.
-/

namespace Rucbase

open EStateM IxIndexHandle

variable {κ : Type}

/-- Header, pages and page counter of an open index. -/
@[ext]
structure IxMem (κ : Type) where
  fd : Int
  fileHdr : IxFileHdr
  pages : Int → Option (IxPage κ)
  counter : Int

/-- The memory of an index. -/
def IxIndex.mem (s : IxIndex κ) : IxMem κ where
  fd := s.fd
  fileHdr := s.fileHdr
  pages := fun q => s.store.view ⟨s.fd, q⟩
  counter := s.store.fd2pageno s.fd

namespace IxMem

/-- One page is written. -/
def set (M : IxMem κ) (q : Int) (page : IxPage κ) : IxMem κ :=
  { M with pages := Function.update M.pages q (some page) }

/-- The pages of a list get a new parent. -/
def adopt (M : IxMem κ) (parent : Int) (l : List Int) : IxMem κ :=
  { M with pages := fun q =>
      if q ∈ l then (M.pages q).map fun page => { page with parent } else M.pages q }

/-- `CreateNode`. -/
def create [Inhabited κ] (M : IxMem κ) : IxMem κ where
  fd := M.fd
  fileHdr := { M.fileHdr with numPages := M.fileHdr.numPages + 1 }
  pages := Function.update M.pages M.counter (some .zero)
  counter := M.counter + 1

/-- `UpdateRootPageNo`. -/
def setRoot (M : IxMem κ) (root : Int) : IxMem κ :=
  { M with fileHdr := { M.fileHdr with rootPage := root } }

/-- `set_last_leaf`. -/
def setLast (M : IxMem κ) (lastLeaf : Int) : IxMem κ :=
  { M with fileHdr := { M.fileHdr with lastLeaf } }

/-- `release_node_handle`. -/
def release (M : IxMem κ) : IxMem κ :=
  { M with fileHdr := { M.fileHdr with numPages := M.fileHdr.numPages - 1 } }

variable (M : IxMem κ) {q r : Int} {page : IxPage κ}

@[simp]
theorem set_pages_self : (M.set q page).pages q = some page := Function.update_self ..

theorem set_pages_of_ne (h : r ≠ q) : (M.set q page).pages r = M.pages r :=
  Function.update_of_ne h ..

@[simp]
theorem set_fileHdr : (M.set q page).fileHdr = M.fileHdr := rfl

theorem set_set (page' : IxPage κ) : (M.set q page).set q page' = M.set q page' := by
  unfold set
  simp

theorem set_comm {page' : IxPage κ} (h : q ≠ r) :
    (M.set q page).set r page' = (M.set r page').set q page := by
  unfold set
  simp only
  rw [Function.update_comm h]

@[simp]
theorem adopt_nil (parent : Int) : M.adopt parent [] = M := by
  unfold adopt
  simp

theorem adopt_cons {parent c : Int} {l : List Int} {child : IxPage κ} (hc : M.pages c = some child) :
    M.adopt parent (c :: l) = (M.set c { child with parent }).adopt parent l := by
  ext1
  · rfl
  · rfl
  · show (M.adopt parent (c :: l)).pages = ((M.set c { child with parent }).adopt parent l).pages
    ext1 q
    simp only [adopt, set, List.mem_cons]
    by_cases hq : q = c
    · subst hq
      by_cases hl : q ∈ l
      · simp [hl, hc]
      · simp [hl, hc]
    · simp [hq]
  · rfl

theorem adopt_pages_of_notMem {parent : Int} {l : List Int} (h : q ∉ l) :
    (M.adopt parent l).pages q = M.pages q := if_neg h

end IxMem

/-! ### Primitive operations -/

section Primitive

variable {M M' : IxMem κ} {q : Int} {page : IxPage κ} {β : Type} {b : β}

/-- Run an operation of the index on a memory. -/
abbrev IxDoes {α : Type} (x : IxM κ α) (M : IxMem κ) (a : α) (M' : IxMem κ) : Prop :=
  Does IxIndex.mem x M a M'

theorem view_of_mem {s : IxIndex κ} (hs : s.mem = M) (h : M.pages q = some page) :
    s.store.view ⟨s.fd, q⟩ = some page := by
  rw [← h, ← hs]
  rfl

theorem fetchNode_does (h : M.pages q = some page) : IxDoes (fetchNode q) M q M := by
  intro s hs
  obtain ⟨store, hfetch, hview, hcount, -⟩ := PageStore.fetchPage_of_view (view_of_mem hs h)
  refine ⟨{ s with store }, ?_, ?_⟩
  · simp only [fetchNode, get_bind_apply, hfetch]
    rfl
  · rw [← hs]
    simp only [IxIndex.mem, hview, hcount]

theorem node_does (h : M.pages q = some page) : IxDoes (node q) M page M := by
  intro s hs
  refine ⟨s, ?_, hs⟩
  simp only [node, get_bind_apply, view_of_mem hs h]
  rfl

theorem setNode_does (q : Int) (page : IxPage κ) : IxDoes (setNode q page) M () (M.set q page) := by
  apply Does.modifies
  rintro s rfl
  ext1
  · rfl
  · rfl
  · show (fun r => (s.store.setPage ⟨s.fd, q⟩ page).view ⟨s.fd, r⟩) = _
    ext1 r
    rw [PageStore.view_setPage]
    by_cases hr : r = q
    · simp [hr, IxMem.set]
    · rw [if_neg (by simpa using hr), IxMem.set_pages_of_ne _ hr]
      rfl
  · rfl

theorem unpinPage_bind_does {f : Bool → IxM κ β} (h : ∀ ok, IxDoes (f ok) M b M') :
    IxDoes (unpinPage q >>= f) M b M' := by
  intro s hs
  let s' := { s with store := (s.store.unpinPage ⟨s.fd, q⟩).2 }
  have hmem : s'.mem = M := by
    rw [← hs]
    show IxIndex.mem { s with store := (s.store.unpinPage ⟨s.fd, q⟩).2 } = _
    have hcount : (s.store.unpinPage ⟨s.fd, q⟩).2.fd2pageno = s.store.fd2pageno := by
      unfold PageStore.unpinPage
      split
      · rfl
      · split_ifs <;> rfl
    simp only [IxIndex.mem, PageStore.view_unpinPage, hcount]
  exact h _ s' hmem

theorem createNode_does [Inhabited κ] (h : M.pages M.counter = none) :
    IxDoes (createNode : IxM κ Int) M M.counter M.create := by
  rintro s rfl
  have hpool : s.store.pool ⟨s.fd, s.store.fd2pageno s.fd⟩ = none :=
    PageStore.pool_eq_none_of_view h
  refine ⟨{ s with
    fileHdr := { s.fileHdr with numPages := s.fileHdr.numPages + 1 }
    store := s.store.newPage .zero s.fd }, ?_, ?_⟩
  · simp only [createNode, modify_bind_apply, get_bind_apply, hpool, set_bind_apply]
    rfl
  · ext1
    · rfl
    · rfl
    · show (fun r => (s.store.newPage .zero s.fd).view ⟨s.fd, r⟩) = _
      ext1 r
      rw [PageStore.view_newPage]
      by_cases hr : r = s.store.fd2pageno s.fd
      · simp [hr, IxMem.create, IxIndex.mem]
      · rw [if_neg (by simpa using hr)]
        exact (Function.update_of_ne (f := s.mem.pages) hr (some .zero)).symm
    · show Function.update s.store.fd2pageno s.fd (s.store.fd2pageno s.fd + 1) s.fd = _
      rw [Function.update_self]
      rfl

theorem updateRootPageNo_does (root : Int) :
    IxDoes (updateRootPageNo root) M () (M.setRoot root) := by
  apply Does.modifies
  rintro s rfl
  rfl

theorem setLastLeaf_does (pageNo : Int) : IxDoes (setLastLeaf pageNo) M () (M.setLast pageNo) := by
  apply Does.modifies
  rintro s rfl
  rfl

theorem releaseNodeHandle_does : IxDoes releaseNodeHandle M () M.release := by
  apply Does.modifies
  rintro s rfl
  rfl

end Primitive

/-! ### Children and links -/

section Children

variable {M : IxMem κ} {p : Int} {page child : IxPage κ}

theorem maintainChild_does {idx : Int} (hp : M.pages p = some page) (hleaf : page.isLeaf = false)
    (hc : M.pages (page.rids idx.toNat).pageNo = some child) :
    IxDoes (maintainChild p idx) M ()
      (M.set (page.rids idx.toNat).pageNo { child with parent := p }) := by
  unfold maintainChild
  apply Does.bind (node_does hp)
  rw [hleaf, if_neg (by decide)]
  apply Does.bind (fetchNode_does hc)
  apply Does.bind (node_does hc)
  apply Does.bind (setNode_does _ _)
  exact unpinPage_bind_does fun _ => Does.pure

theorem maintainChild_leaf_does {idx : Int} (hp : M.pages p = some page)
    (hleaf : page.isLeaf = true) : IxDoes (maintainChild p idx) M () M := by
  unfold maintainChild
  apply Does.bind (node_does hp)
  rw [hleaf, if_pos rfl]
  exact Does.pure

theorem maintainChildren_leaf_does (hp : M.pages p = some page) (hleaf : page.isLeaf = true) :
    ∀ (n : Nat) (lo : Int), IxDoes (maintainChildren p n lo) M () M
  | 0, _ => Does.pure
  | n + 1, _ => (maintainChild_leaf_does hp hleaf).bind (maintainChildren_leaf_does hp hleaf n _)

/-- The loop over `maintain_child`: the children in the slots from `lo` on get the node as their
parent. -/
theorem maintainChildren_does {l : List Int} {lo : Nat} (hp : M.pages p = some page)
    (hleaf : page.isLeaf = false) (hkids : ∀ i c, l[i]? = some c → (page.rids (lo + i)).pageNo = c)
    (hmem : ∀ c ∈ l, ∃ child, M.pages c = some child) (hself : p ∉ l) :
    IxDoes (maintainChildren p l.length lo) M () (M.adopt p l) := by
  induction l generalizing M lo with
  | nil =>
    rw [IxMem.adopt_nil]
    exact Does.pure
  | cons c l ih =>
    obtain ⟨child, hc⟩ := hmem c List.mem_cons_self
    have hrid : (page.rids ((lo : Int)).toNat).pageNo = c := hkids 0 c rfl
    have hne : p ≠ c := fun h => hself (h ▸ List.mem_cons_self)
    rw [IxMem.adopt_cons M hc]
    have hc' : M.pages (page.rids ((lo : Int)).toNat).pageNo = some child := by rw [hrid, hc]
    have hstep := maintainChild_does hp hleaf hc'
    rw [hrid] at hstep
    apply hstep.bind
    show IxDoes (maintainChildren p l.length ((lo + 1 : Nat) : Int)) _ () _
    refine ih ?_ (fun i d hd => ?_) (fun d hd => ?_) fun h => ?_
    · rw [IxMem.set_pages_of_ne _ hne, hp]
    · rw [show lo + 1 + i = lo + (i + 1) by omega]
      exact hkids (i + 1) d hd
    · by_cases hdc : d = c
      · subst hdc
        exact ⟨_, IxMem.set_pages_self M⟩
      · rw [IxMem.set_pages_of_ne _ hdc]
        exact hmem d (List.mem_cons_of_mem c hd)
    · exact hself (List.mem_cons_of_mem c h)

/-- `insertLeaf` up to the leaf after the new one. -/
def IxMem.linked (M : IxMem κ) (p q : Int) (page new : IxPage κ) : IxMem κ :=
  (M.set q { new with prevLeaf := p, nextLeaf := page.nextLeaf }).set p { page with nextLeaf := q }

/-- The last part of `insertLeaf`: the page `x` that follows, if there is one, gets the new leaf as
its predecessor. -/
def linkNext (newNode x : Int) : IxM κ Unit := do
  if x ≠ invalidPageId then
    let nextNode ← fetchNode x
    let next ← node nextNode
    setNode nextNode { next with prevLeaf := newNode }
    let _ ← unpinPage nextNode

theorem linkNext_invalid_does {q : Int} : IxDoes (linkNext q invalidPageId) M () M := by
  unfold linkNext
  rw [if_neg (not_not.mpr rfl)]
  exact Does.pure

theorem linkNext_does {q x : Int} {next : IxPage κ} (hxi : x ≠ invalidPageId)
    (hx : M.pages x = some next) :
    IxDoes (linkNext q x) M () (M.set x { next with prevLeaf := q }) := by
  unfold linkNext
  rw [if_pos hxi]
  apply Does.bind (fetchNode_does hx)
  apply Does.bind (node_does hx)
  apply Does.bind (setNode_does _ _)
  exact unpinPage_bind_does fun _ => Does.pure

/-- `insertLeaf` is linking the two leaves and then the page after them, which may be the node
itself. -/
theorem insertLeaf_linked_does {M' : IxMem κ} {q : Int} {new : IxPage κ} (hp : M.pages p = some page)
    (hq : M.pages q = some new) (hpq : p ≠ q)
    (hrest : IxDoes (linkNext q page.nextLeaf) (M.linked p q page new) () M') :
    IxDoes (insertLeaf p q true) M () M' := by
  have hp' : (M.set q { new with prevLeaf := p, nextLeaf := page.nextLeaf }).pages p = some page := by
    rw [IxMem.set_pages_of_ne _ hpq, hp]
  have hq' : (M.linked p q page new).pages q =
      some { new with prevLeaf := p, nextLeaf := page.nextLeaf } := by
    rw [IxMem.linked, IxMem.set_pages_of_ne _ hpq.symm, IxMem.set_pages_self]
  unfold insertLeaf
  apply Does.bind (node_does hp)
  apply Does.bind (node_does hq)
  apply Does.bind (setNode_does _ _)
  simp only [if_true]
  apply Does.bind (node_does (IxMem.set_pages_self _))
  apply Does.bind (setNode_does _ _)
  rw [IxMem.set_set]
  apply Does.bind (node_does hp')
  apply Does.bind (setNode_does _ _)
  apply Does.bind (node_does hq')
  exact hrest

/-- `insertLeaf`: the new leaf goes between the node and the leaf after it. -/
theorem insertLeaf_does {q x : Int} {new next : IxPage κ} (hp : M.pages p = some page)
    (hq : M.pages q = some new) (hx : M.pages x = some next) (hnext : page.nextLeaf = x)
    (hxi : x ≠ invalidPageId) (hpq : p ≠ q) (hpx : p ≠ x) (hqx : q ≠ x) :
    IxDoes (insertLeaf p q true) M ()
      (((M.set q { new with prevLeaf := p, nextLeaf := x }).set p { page with nextLeaf := q }).set x
        { next with prevLeaf := q }) := by
  subst hnext
  -- the leaf after the node is neither of the two
  have hnext' : (M.linked p q page new).pages page.nextLeaf = some next := by
    rw [IxMem.linked, IxMem.set_pages_of_ne _ hpx.symm, IxMem.set_pages_of_ne _ hqx.symm, hx]
  exact insertLeaf_linked_does hp hq hpq (linkNext_does hxi hnext')

/-- The page of a new root. -/
def rootPage (page : IxPage κ) (left right : Int) (leftKey rightKey : κ) : IxPage κ :=
  { page with
    isLeaf := false
    numKey := 2
    parent := invalidPageId
    keys := Function.update (Function.update page.keys 0 leftKey) 1 rightKey
    rids := Function.update (Function.update page.rids 0 ⟨left, -1⟩) 1 ⟨right, -1⟩ }

/-- `setNewRoot`. -/
theorem setNewRoot_does {left right : Int} {leftPage rightPage : IxPage κ}
    (hp : M.pages p = some page) (hl : M.pages left = some leftPage)
    (hr : M.pages right = some rightPage) (hpl : p ≠ left) (hpr : p ≠ right) :
    IxDoes (setNewRoot p left right) M ()
      (((M.setRoot p).set p
        (rootPage page left right (leftPage.keys 0) (rightPage.keys 0))).adopt p [left, right]) := by
  unfold setNewRoot
  apply Does.bind (node_does hp)
  apply Does.bind (setNode_does _ _)
  apply Does.bind (updateRootPageNo_does p)
  -- the root page is not one of its children
  have hpages : ∀ {r}, p ≠ r → ((M.set p { page with
      isLeaf := false, numKey := 2, parent := invalidPageId }).setRoot p).pages r = M.pages r :=
    fun hne => IxMem.set_pages_of_ne _ hne.symm
  apply Does.bind (node_does ((hpages hpl).trans hl))
  apply Does.bind (node_does ((hpages hpr).trans hr))
  apply Does.bind (node_does (IxMem.set_pages_self (M.setRoot p)))
  apply Does.bind (setNode_does _ _)
  let M₁ := (M.setRoot p).set p (rootPage page left right (leftPage.keys 0) (rightPage.keys 0))
  change IxDoes _ (IxMem.set _ p (rootPage page left right (leftPage.keys 0) (rightPage.keys 0))) _ _
  rw [IxMem.set_set]
  have hchildren : IxDoes (maintainChildren p [left, right].length ((0 : Nat) : Int)) M₁ ()
      (M₁.adopt p [left, right]) := by
    refine maintainChildren_does (IxMem.set_pages_self _) rfl (fun i c hc => ?_) (fun c hc => ?_)
      (by simp [hpl, hpr])
    · match i with
      | 0 =>
        obtain rfl := Option.some.inj hc
        rfl
      | 1 =>
        obtain rfl := Option.some.inj hc
        rfl
      | i + 2 => cases hc
    · simp only [List.mem_cons, List.not_mem_nil, or_false] at hc
      rcases hc with rfl | rfl
      · exact ⟨leftPage, (IxMem.set_pages_of_ne _ hpl.symm).trans hl⟩
      · exact ⟨rightPage, (IxMem.set_pages_of_ne _ hpr.symm).trans hr⟩
  apply hchildren.bind
  exact unpinPage_bind_does fun _ => Does.pure

end Children

/-! ### Splitting -/

section Split

variable [Inhabited κ] {M : IxMem κ} {p : Int} {page : IxPage κ}

/-- The pages after the entries of a node have been shared with a new one. -/
def IxMem.shared (M : IxMem κ) (p : Int) (page : IxPage κ) : IxMem κ :=
  (M.create.set M.counter (evenlyDistributePairs .zero page).1).set p
    (evenlyDistributePairs .zero page).2

theorem IxMem.shared_pages_counter (hpc : p ≠ M.counter) :
    (M.shared p page).pages M.counter = some (evenlyDistributePairs .zero page).1 := by
  rw [shared, set_pages_of_ne _ hpc.symm, set_pages_self]

theorem IxMem.shared_pages_self : (M.shared p page).pages p =
    some (evenlyDistributePairs .zero page).2 := set_pages_self _

theorem IxMem.shared_pages_of_ne {q : Int} (hq : q ≠ p) (hqc : q ≠ M.counter) :
    (M.shared p page).pages q = M.pages q := by
  rw [shared, set_pages_of_ne _ hq, set_pages_of_ne _ hqc]
  exact Function.update_of_ne hqc _ _

/-- The part of `Split` up to the links. -/
theorem split_does {M' : IxMem κ} (hp : M.pages p = some page) (hfresh : M.pages M.counter = none)
    (hrest : IxDoes
      (if page.isLeaf then insertLeaf p M.counter true
        else maintainChildren M.counter (page.numKey - page.numKey / 2).toNat 0)
      (M.shared p page) () M') :
    IxDoes (split p) M M.counter M' := by
  have hpc : p ≠ M.counter := by
    rintro rfl
    rw [hfresh] at hp
    cases hp
  unfold split
  apply Does.bind (createNode_does hfresh)
  apply Does.bind (node_does (Function.update_self ..))
  apply Does.bind (node_does ((Function.update_of_ne hpc ..).trans hp))
  apply Does.bind (setNode_does _ _)
  apply Does.bind (setNode_does _ _)
  show IxDoes (if page.isLeaf then insertLeaf p M.counter true >>= fun _ => pure M.counter
    else maintainChildren M.counter (page.numKey - page.numKey / 2).toNat 0 >>= fun _ =>
      pure M.counter) (M.shared p page) M.counter M'
  cases hleaf : page.isLeaf with
  | true =>
    rw [hleaf, if_pos rfl] at hrest
    rw [if_pos rfl]
    exact hrest.bind Does.pure
  | false =>
    rw [hleaf, if_neg (by decide)] at hrest
    rw [if_neg (by decide)]
    exact hrest.bind Does.pure

end Split

end Rucbase
