import Rucbase.Index.Equiv.Shape

/-!
# Reachable pages

The pages that can be reached from `root_page` by child pointers, and what a consistent index says
about them (`IxMem.TreeOk`).  The reachable pages are the nodes of the tree that the memory holds
(`Reach.exists_ctx`), so a tree of the right shape makes the pages consistent (`IndexOk.treeOk`).
-/

namespace Rucbase

variable {κ : Type} {h H : Nat}

/-- The page can be reached from `root_page` in a number of steps. -/
inductive Reach (M : IxMem κ) : Nat → Int → Prop where
  | root : Reach M 0 M.fileHdr.rootPage
  | child {d : Nat} {q : Int} {page : IxPage κ} {i : Nat} : Reach M d q → M.pages q = some page →
      page.isLeaf = false → i < page.numKey → Reach M (d + 1) (page.valueAt i)

/-- A consistent index, page by page. -/
structure IxMem.TreeOk [LT κ] (M : IxMem κ) : Prop where
  page : ∀ {d q}, Reach M d q → ∃ page, M.pages q = some page
  sorted : ∀ {d q page}, Reach M d q → M.pages q = some page →
    ∀ i j : Nat, i < j → j < page.numKey → page.keys i < page.keys j
  maxSize : ∀ {d q page}, Reach M d q → M.pages q = some page → page.numKey ≤ M.fileHdr.btreeOrder
  minSize : ∀ {d q page}, Reach M d q → M.pages q = some page → q ≠ M.fileHdr.rootPage →
    M.fileHdr.getMinSize ≤ page.numKey
  root : ∀ {page}, M.pages M.fileHdr.rootPage = some page → page.parent = invalidPageId
  parent : ∀ {d q page} {i : Nat} {child}, Reach M d q → M.pages q = some page →
    page.isLeaf = false → i < page.numKey → M.pages (page.valueAt i) = some child →
    child.parent = q
  /-- No page is the child of two nodes, or twice the child of one. -/
  unique : ∀ {d d' q q' page page'} {i i' : Nat}, Reach M d q → Reach M d' q' →
    M.pages q = some page → M.pages q' = some page' → page.isLeaf = false → page'.isLeaf = false →
    i < page.numKey → i' < page'.numKey → page.valueAt i = page'.valueAt i' → q = q' ∧ i = i'
  depth : ∃ H, ∀ {d q page}, Reach M d q → M.pages q = some page → (page.isLeaf = true ↔ d = H)
  /-- The leaf pages form a ring through the leaf header page. -/
  chain : ∃ leaves, LinkRing (nextOf M.pages) (prevOf M.pages) ixLeafHeaderPage leaves ∧
    (∀ q, q ∈ ixLeafHeaderPage :: leaves ↔ ∃ page, M.pages q = some page ∧ page.isLeaf = true) ∧
    leaves.head? = some M.fileHdr.firstLeaf ∧ leaves.getLast? = some M.fileHdr.lastLeaf

variable {M : IxMem κ} {order : Nat}

/-- The pages of the nodes of a tree. -/
theorem Focus.nodeAt {c : Ctx κ h H} {t : Tree κ h} (hf : Focus M order c t) :
    ∃ page, M.pages t.no = some page ∧ page.parent = c.parentNo ∧
      page.isLeaf = decide (h = 0) ∧ page.Shows t.row := by
  obtain ⟨page, hp, hparent, hleaf, hshows⟩ := hf.tree.nodeAt
  exact ⟨page, hp, hparent, hleaf, hshows⟩

/-- The slot of a child in the page of its parent. -/
theorem valueAt_kid {t : Tree κ (h + 1)} {page : IxPage κ} (hshows : page.Shows t.row) {i : Nat}
    (hi : i < page.numKey) : ∃ e, t.kids[i]? = some e ∧ page.valueAt i = e.2.no := by
  have hlt : i < t.kids.length := by
    have hsize := hshows.numKey
    rw [Tree.row, Slots.size_map] at hsize
    have : t.slots.size = t.kids.length := rfl
    omega
  refine ⟨t.kids.get ⟨i, hlt⟩, List.getElem?_eq_getElem hlt, ?_⟩
  have hget : t.row.entries[i]? =
      some ((t.kids.get ⟨i, hlt⟩).1, Item.rid (h := h + 1) (t.kids.get ⟨i, hlt⟩).2) := by
    show (t.kids.map fun e => (e.1, Item.rid (h := h + 1) e.2))[i]? = _
    rw [List.getElem?_map, List.getElem?_eq_getElem hlt]
    rfl
  show (page.rids _).pageNo = _
  rw [Int.toNat_natCast, hshows.rids hget]
  rfl

/-- **Reachable pages are nodes of the tree.** -/
theorem Reach.exists_ctx {T : Tree κ H} (hf : Focus M order .top T) {d : Nat} {q : Int}
    (hr : Reach M d q) :
    ∃ (h : Nat) (c : Ctx κ h H) (t : Tree κ h), c.plug t = T ∧ c.depth = d ∧ t.no = q := by
  induction hr with
  | root => exact ⟨H, .top, T, rfl, rfl, hf.root.symm⟩
  | @child d q page i _ hp hleaf hi ih =>
    obtain ⟨h, c, t, rfl, rfl, rfl⟩ := ih
    obtain ⟨page', hp', -, hleaf', hshows⟩ := hf.of_plug.nodeAt
    obtain rfl : page = page' := Option.some.inj (hp.symm.trans hp')
    cases h with
    | zero =>
      -- a leaf has no children
      rw [hleaf'] at hleaf
      cases hleaf
    | succ h =>
      obtain ⟨e, he, hno⟩ := valueAt_kid hshows hi
      refine ⟨h, .down c t.no (t.kids.take i) e.1 (t.kids.drop (i + 1)) t.slots.stale, e.2, ?_, rfl,
        hno.symm⟩
      show c.plug (Ctx.fill _ _ _ _ _ _) = _
      rw [← Tree.eq_fill he]

/-- The children of a node have different page numbers. -/
theorem Tree.kid_index_unique {t : Tree κ (h + 1)} (hn : t.nos.Nodup) {i i' : Nat}
    {e e' : κ × Tree κ h} (he : t.kids[i]? = some e) (he' : t.kids[i']? = some e')
    (hno : e.2.no = e'.2.no) : i = i' := by
  have hnodup : (t.kids.map fun e => e.2.no).Nodup := by
    have hflat : (t.kids.flatMap fun e => Tree.nos e.2).Nodup := (List.nodup_cons.mp hn).2
    obtain ⟨-, hdisjoint⟩ := List.nodup_flatMap.mp hflat
    refine List.pairwise_map.mpr (hdisjoint.imp fun {a b} hab heq => ?_)
    exact hab a.2.no_mem_nos (heq ▸ b.2.no_mem_nos)
  have hget : (t.kids.map fun e => e.2.no)[i]? = (t.kids.map fun e => e.2.no)[i']? := by
    rw [List.getElem?_map, List.getElem?_map, he, he']
    exact congrArg some hno
  have hlt : i < (t.kids.map fun e => e.2.no).length := by
    rw [List.length_map]
    exact (List.getElem?_eq_some_iff.mp he).1
  exact (List.getElem?_inj hlt hnodup).mp hget

/-- **A tree of the right shape makes the pages consistent.** -/
theorem IndexOk.treeOk [LinearOrder κ] {T : Tree κ H} {leaves : List Int}
    (hok : IndexOk M order T leaves) (hsorted : T.Sorted)
    (hsized : T.Sized order (rootMin H) order) : M.TreeOk := by
  have hf := hok.focus
  -- the node of a reachable page, and what its page shows
  have hnode : ∀ {d q page}, Reach M d q → M.pages q = some page →
      ∃ (h : Nat) (c : Ctx κ h H) (t : Tree κ h), c.plug t = T ∧ c.depth = d ∧ t.no = q ∧
        Focus M order c t ∧ page.isLeaf = decide (h = 0) ∧ page.Shows t.row := by
    intro d q page hr hp
    obtain ⟨h, c, t, rfl, hd, rfl⟩ := hr.exists_ctx hf
    obtain ⟨page', hp', -, hleaf, hshows⟩ := hf.of_plug.nodeAt
    obtain rfl : page = page' := Option.some.inj (hp.symm.trans hp')
    exact ⟨h, c, t, rfl, hd, rfl, hf.of_plug, hleaf, hshows⟩
  have hparent : ∀ {d q page} {i : Nat} {child}, Reach M d q → M.pages q = some page →
      page.isLeaf = false → i < page.numKey → M.pages (page.valueAt i) = some child →
      child.parent = q := by
    intro d q page i child hr hp hleaf hi hchild
    obtain ⟨h, c, t, -, -, rfl, hft, hleaf', hshows⟩ := hnode hr hp
    cases h with
    | zero =>
      rw [hleaf'] at hleaf
      cases hleaf
    | succ h =>
      obtain ⟨e, he, hno⟩ := valueAt_kid hshows hi
      obtain ⟨page', hp', hpar, -⟩ := (hft.tree.2 e (List.mem_of_getElem? he)).nodeAt
      rw [hno, hp'] at hchild
      rw [← Option.some.inj hchild, hpar]
  have hpage : ∀ {d q}, Reach M d q → ∃ page, M.pages q = some page := by
    intro d q hr
    obtain ⟨h, c, t, rfl, -, rfl⟩ := hr.exists_ctx hf
    obtain ⟨page, hp, -⟩ := hf.of_plug.nodeAt
    exact ⟨page, hp⟩
  refine ⟨hpage, ?_, ?_, ?_, ?_, hparent, ?_, ⟨H, ?_⟩, leaves, hok.chain.ring, hok.chain.mem_iff,
    hok.first, hok.last⟩
  · intro d q page hr hp i j hij hj
    obtain ⟨h, c, t, rfl, -, -, -, -, hshows⟩ := hnode hr hp
    rw [hshows.numKey, Tree.row, Slots.size_map] at hj
    rw [hshows.keys, Tree.row, Slots.keyAt_map]
    exact hsorted.of_plug.node i j (Nat.zero_le _) hij (by omega)
  · intro d q page hr hp
    obtain ⟨h, c, t, rfl, -, -, -, -, hshows⟩ := hnode hr hp
    have := hsized.of_plug.size.2
    rw [hshows.numKey, Tree.row, Slots.size_map, hf.order]
    omega
  · intro d q page hr hp hne
    obtain ⟨h, c, t, rfl, -, rfl, hft, -, hshows⟩ := hnode hr hp
    have hlo := hsized.of_plug.size.1
    have hmin : M.fileHdr.getMinSize = ((order + 1) / 2 : Nat) := by
      show (M.fileHdr.btreeOrder + 1) / 2 = _
      rw [hf.order]
      omega
    rw [hshows.numKey, Tree.row, Slots.size_map, hmin]
    cases c with
    | top => exact absurd hf.root.symm hne
    | down up no left key right stale => exact_mod_cast hlo
  · intro page hp
    obtain ⟨page', hp', hpar, -⟩ := hf.nodeAt
    have hroot : M.fileHdr.rootPage = T.no := hf.root
    rw [hroot, hp'] at hp
    rw [← Option.some.inj hp, hpar]
    rfl
  · intro d d' q q' page page' i i' hr hr' hp hp' hleaf hleaf' hi hi' heq
    -- the child says who its parent is
    obtain ⟨child, hchild⟩ := hpage (hr.child hp hleaf hi)
    have h1 := hparent hr hp hleaf hi hchild
    have h2 := hparent hr' hp' hleaf' hi' (heq ▸ hchild)
    obtain rfl : q = q' := h1.symm.trans h2
    obtain rfl : page = page' := Option.some.inj (hp.symm.trans hp')
    refine ⟨rfl, ?_⟩
    obtain ⟨h, c, t, -, -, -, hft, hl, hshows⟩ := hnode hr hp
    cases h with
    | zero =>
      rw [hl] at hleaf
      cases hleaf
    | succ h =>
      obtain ⟨e, he, hno⟩ := valueAt_kid hshows hi
      obtain ⟨e', he', hno'⟩ := valueAt_kid hshows hi'
      exact Tree.kid_index_unique hft.nodup_tree he he' (by rw [← hno, ← hno', heq])
  · intro d q page hr hp
    obtain ⟨h, c, t, -, rfl, -, -, hl, -⟩ := hnode hr hp
    have := c.depth_add
    rw [hl, decide_eq_true_iff]
    omega

end Rucbase
