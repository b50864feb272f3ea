import Rucbase.Index.Equiv.KeyOrder
import Rucbase.Index.Equiv.LeafStep
import Rucbase.Index.Equiv.NodeUpdates

/-!
# Deleting an entry

`delete_entry` of a stored key takes the entry out of its leaf (`deleteEntry_reaches`) and leaves the
rest to `CoalesceOrRedistribute`.  At the root nothing is left to do, or the only child becomes the
root (`IxMem.Formed.adjust`); a node that is large enough passes its first key upwards
(`IxMem.Formed.maintain`); a leaf that is too small borrows or is merged
(`ChainedTree.borrow`, `ChainedTree.mergeInto`).  An inner node that is too small has no links to follow:
the call reads page 0 (`IxMem.Formed.underflow`).
-/

namespace Rucbase

open EStateM IxIndexHandle Separators

variable {κ : Type} {h H : Nat}

/-! ### The leaf without the key -/

section Leaf

variable [LinearOrder κ]

theorem Slots.sortedFrom_zero_iff {α : Type} {s : Slots κ α} :
    s.SortedFrom 0 ↔ s.entries.Pairwise fun a b => a.1 < b.1 := by
  rw [List.pairwise_iff_getElem]
  constructor
  · intro hs i j hi hj hij
    have := hs i j (Nat.zero_le i) hij hj
    rwa [Slots.keyAt_of_getElem? (List.getElem?_eq_getElem hi),
      Slots.keyAt_of_getElem? (List.getElem?_eq_getElem hj)] at this
  · intro hs i j _ hij hj
    have hj' : j < s.entries.length := hj
    rw [Slots.keyAt_of_getElem? (List.getElem?_eq_getElem (hij.trans hj')),
      Slots.keyAt_of_getElem? (List.getElem?_eq_getElem hj')]
    exact hs i j _ _ hij

/-- The leaf after `Remove` of a key that it has. -/
def Tree.removed (t : Tree κ 0) (k : κ) : Tree κ 0 :=
  ⟨t.no, t.slots.eraseAt (t.slots.lowerBound k)⟩

variable {t : Tree κ 0} {k : κ}

/-- Where `lower_bound` finds a key of the leaf. -/
theorem Tree.lowerBound_stored (ht : t.Ordered) (hk : k ∈ t.leafKeys) :
    t.slots.lowerBound k < t.slots.size ∧ t.slots.keyAt (t.slots.lowerBound k) = k := by
  have hs : t.slots.SortedFrom 0 := ht
  obtain ⟨e, he, rfl⟩ := List.mem_map.mp hk
  obtain ⟨j, hj⟩ := List.getElem?_of_mem he
  rw [hs.lowerBound_of_mem hj]
  exact ⟨(List.getElem?_eq_some_iff.mp hj).1, Slots.keyAt_of_getElem? hj⟩

/-- Exactly the key is gone. -/
theorem Tree.entries_removed (ht : t.Ordered) (hk : k ∈ t.leafKeys) :
    (t.removed k).slots.entries = t.slots.entries.filter fun e => e.1 ≠ k := by
  have hs : t.slots.SortedFrom 0 := ht
  obtain ⟨e, he, rfl⟩ := List.mem_map.mp hk
  obtain ⟨A, B, hsplit⟩ := List.append_of_mem (show e ∈ t.slots.entries from he)
  have hget : t.slots.entries[A.length]? = some e := by
    rw [hsplit, List.getElem?_append_right (le_refl _), Nat.sub_self]
    rfl
  have hpair := Slots.sortedFrom_zero_iff.mp hs
  rw [hsplit, List.pairwise_append, List.pairwise_cons] at hpair
  obtain ⟨-, ⟨hB, -⟩, hA⟩ := hpair
  show t.slots.entries.eraseIdx _ = _
  rw [hs.lowerBound_of_mem hget, hsplit, List.eraseIdx_append_of_length_le (le_refl _), Nat.sub_self,
    List.filter_append, List.filter_cons_of_neg (by simp)]
  congr 1
  · refine (List.filter_eq_self.mpr fun a ha => ?_).symm
    exact decide_eq_true (hA a ha e List.mem_cons_self).ne
  · refine (List.filter_eq_self.mpr fun b hb => ?_).symm
    exact decide_eq_true (hB b hb).ne'

theorem Tree.size_removed (ht : t.Ordered) (hk : k ∈ t.leafKeys) :
    (t.removed k).slots.size + 1 = t.slots.size := by
  have hlt := (t.lowerBound_stored ht hk).1
  show (t.slots.eraseAt _).size + 1 = _
  rw [Slots.size_eraseAt hlt]
  omega

theorem Tree.leafKeys_removed (ht : t.Ordered) (hk : k ∈ t.leafKeys) :
    (t.removed k).leafKeys = t.leafKeys.filter (· ≠ k) := by
  show (t.removed k).slots.entries.map Prod.fst = (t.slots.entries.map Prod.fst).filter _
  rw [Tree.entries_removed ht hk, List.filter_map]
  rfl

theorem Tree.ordered_removed (ht : t.Ordered) (hk : k ∈ t.leafKeys) : (t.removed k).Ordered := by
  show (t.removed k).slots.SortedFrom 0
  rw [Slots.sortedFrom_zero_iff, Tree.entries_removed ht hk]
  exact (Slots.sortedFrom_zero_iff.mp ht).sublist List.filter_sublist

end Leaf

/-! ### The search for the leaf -/

section Search

variable [LinearOrder κ] {k : κ}

/-- A key leads to one place of the tree. -/
theorem Ctx.Leads.unique {c c' : Ctx κ h H} {t t' : Tree κ h} (hc : c.Leads k t)
    (hc' : c'.Leads k t') (hplug : c.plug t = c'.plug t') : c = c' ∧ t = t' := by
  induction c with
  | top =>
    cases c' with
    | top => exact ⟨rfl, hplug⟩
    | down up no left key right stale =>
      have := up.depth_add
      omega
  | down up no left key right stale ih =>
    cases c' with
    | top =>
      have := up.depth_add
      omega
    | down up' no' left' key' right' stale' =>
      obtain ⟨hindex, hup⟩ := hc
      obtain ⟨hindex', hup'⟩ := hc'
      obtain ⟨rfl, hfill⟩ := ih hup hup' hplug
      rw [hfill, hindex'] at hindex
      obtain ⟨rfl, hslots⟩ := TreeNode.mk.inj hfill
      obtain ⟨hentries, rfl⟩ := Slots.mk.inj hslots
      obtain ⟨rfl, hrest⟩ := List.append_inj hentries hindex.symm
      obtain ⟨hhead, rfl⟩ := List.cons.inj hrest
      obtain ⟨rfl, rfl⟩ := Prod.mk.inj hhead
      exact ⟨rfl, rfl⟩

/-- **`FindLeafPage` comes to the leaf that has the key.** -/
theorem Tree.Ordered.leads {c : Ctx κ h H} {t : Tree κ h} (hT : (c.plug t).Ordered)
    (hk : k ∈ t.leafKeys) : c.Leads k t := by
  induction c with
  | top => trivial
  | down up no left key right stale ih =>
    have hfill : (Ctx.fill no left key right stale t).Ordered := (up.ordered_plug.mp hT).1
    have hmem : k ∈ (Ctx.fill no left key right stale t).leafKeys := by
      rw [Ctx.leafKeys_fill]
      simp [hk]
    refine ⟨?_, ih hT hmem⟩
    obtain ⟨hsep, -⟩ := Ctx.ordered_fill.mp hfill
    have hF := (separated_iff.mp hsep).2
    have hsorted : (Ctx.fill no left key right stale t).slots.SortedFrom 0 :=
      (separated_groups_iff.mp hfill.1).1
    obtain ⟨hle, hlt⟩ := hsorted.upperBound_spec (Nat.zero_le 1) k
    have hsize : (Ctx.fill no left key right stale t).slots.size = left.length + right.length + 1 :=
      Ctx.size_fill t
    have hub := ((Ctx.fill no left key right stale t).slots.boundLoop_upperBound k).2
    -- neither to the left nor to the right of the hole
    have hge : left.length ≤ (Ctx.fill no left key right stale t).slots.upperBound k - 1 := by
      by_contra hcon
      have hnil : left ≠ [] := by
        rintro rfl
        exact hcon (Nat.zero_le _)
      have := hlt left.length (Nat.zero_le _) (by omega) (by omega)
      rw [Ctx.keyAt_fill_self] at this
      exact absurd (hF.own (by simpa [groups] using hnil) k hk) (not_le.mpr this)
    have hle' : (Ctx.fill no left key right stale t).slots.upperBound k ≤ left.length + 1 := by
      by_contra hcon
      cases right with
      | nil => rw [List.length_nil] at hsize; omega
      | cons e right =>
        have := hle (left.length + 1) (Nat.zero_le _) (by omega)
        have hnext : (Ctx.fill no left key (e :: right) stale t).slots.keyAt (left.length + 1) = e.1 := by
          apply Slots.keyAt_of_getElem?
          show (left ++ (key, t) :: e :: right)[left.length + 1]? = some e
          rw [List.getElem?_append_right (by omega), Nat.add_sub_cancel_left]
          rfl
        rw [hnext] at this
        have hbelow := (hF.right (e.1, e.2.leafKeys) (by simp [groups])).2 k hk
        exact absurd this (not_le.mpr hbelow)
    show (Ctx.fill no left key right stale t).slots.upperBound k - 1 = left.length
    omega

variable {M : IxMem κ} {order : Nat}

theorem IxPage.remove_fields (page : IxPage κ) (k : κ) :
    (page.remove k).link = page.link ∧ (page.remove k).parent = page.parent := by
  unfold IxPage.remove
  simp only
  split_ifs
  · exact ⟨rfl, rfl⟩
  · exact ⟨rfl, rfl⟩

/-- `delete_entry` up to `CoalesceOrRedistribute`: the leaf has lost the key. -/
theorem deleteEntry_reaches {c : Ctx κ 0 H} {t : Tree κ 0} {fuel : Nat}
    (hT : ChainedTree M order (c.plug t)) (hinner : (c.plug t).Inner) (hord : (c.plug t).Ordered)
    (hk : k ∈ t.leafKeys) (hfuel : H < fuel) :
    ∃ M', Reaches IxIndex.mem (deleteEntry fuel k) M (do
        let _ ← coalesceOrRedistribute fuel t.no
        let _ ← unpinPage t.no
        return true) M' ∧ KeepsLinks M M' ∧ ChainedTree M' order (c.plug (t.removed k)) := by
  have ht : t.Ordered := (c.ordered_plug.mp hord).1
  obtain ⟨hlt, hkey⟩ := t.lowerBound_stored ht hk
  have hh : Held M order c t := Held.plug_iff.mpr hT.held
  obtain ⟨c', t', hplug, hleads, hfind⟩ :=
    findLeafPage_does hT.held.tree hT.held.root hinner hfuel k
  -- there is only one leaf to which the key leads
  obtain ⟨rfl, rfl⟩ := (Tree.Ordered.leads hord hk).unique hleads hplug.symm
  obtain ⟨page, hp, -, -, hshows⟩ := hh.tree
  rw [Tree.row_leaf] at hshows
  have hshows' := hshows.remove hlt hkey
  have hlink := page.remove_fields k
  have hheld := hh.set_leaf hp hlink.2 (congrArg Prod.fst hlink.1) hshows'
  have hlinks : KeepsLinks M (M.set t.no (page.remove k)) := .set hp hlink.1
  refine ⟨M.set t.no (page.remove k), ?_, hlinks,
    hT.of_leaves hlinks (Held.plug_iff.mp hheld) ?_⟩
  · have hnum : ¬(page.remove k).numKey = page.numKey := by
      rw [hshows'.numKey, hshows.numKey, Slots.size_eraseAt hlt]
      omega
    unfold deleteEntry
    apply Reaches.trans (Reaches.of_does hfind)
    apply Reaches.trans (Reaches.of_does (node_does hp))
    apply Reaches.trans (Reaches.of_does (setNode_does _ _))
    rw [if_neg hnum]
    exact Reaches.refl _ _ _
  · unfold Tree.leaves
    rw [Ctx.collect_plug, Ctx.collect_plug]
    rfl

end Search

/-! ### What `CoalesceOrRedistribute` leaves -/

/-- A tree in memory whose leaves are chained and whose inner nodes have no links: `CreateNode` leaves
zeros there.  Page 0 holds the file header and is no node. -/
structure IxMem.Formed (M : IxMem κ) (order : Nat) (T : Tree κ H) : Prop where
  chained : ChainedTree M order T
  unlinked : ∀ q ∈ T.nos, ∀ page, M.pages q = some page → page.isLeaf = false →
    page.prevLeaf = 0 ∧ page.nextLeaf = 0
  header : M.pages ixFileHdrPage = none

theorem Ctx.Rekeyed.nos_eq {c c' : Ctx κ h H} (hc : c.Rekeyed c') : c'.nos = c.nos := by
  induction hc with
  | top => rfl
  | down no left key key' right stale hup ih =>
    unfold Ctx.nos
    rw [ih]

theorem Ctx.Rekeyed.mem_nos_iff {c c' : Ctx κ h H} (hc : c.Rekeyed c') (t : Tree κ h) (q : Int) :
    q ∈ (c'.plug t).nos ↔ q ∈ (c.plug t).nos := by
  rw [(c'.nos_plug t).mem_iff, (c.nos_plug t).mem_iff, hc.nos_eq]

namespace IxMem.Formed

variable {M M' : IxMem κ} {order : Nat} {fuel : Nat}

/-- Another tree with pages of the old one, where no link has changed. -/
theorem of_links {H' : Nat} {T : Tree κ H} {T' : Tree κ H'} (hF : M.Formed order T)
    (hlinks : ∀ q, (M'.pages q).map IxPage.link = (M.pages q).map IxPage.link)
    (hT' : ChainedTree M' order T') (hnos : ∀ q ∈ T'.nos, q ∈ T.nos) : M'.Formed order T' := by
  refine ⟨hT', fun q hq page' hpage' hleaf => ?_, ?_⟩
  · have hlink := hlinks q
    rw [hpage', Option.map_some] at hlink
    obtain ⟨page, hpage, hsame⟩ := Option.map_eq_some_iff.mp hlink.symm
    have hold := hF.unlinked q (hnos q hq) page hpage ((congrArg Prod.fst hsame).trans hleaf)
    have hprev : page.prevLeaf = page'.prevLeaf := congrArg (fun l => l.2.1) hsame
    have hnext : page.nextLeaf = page'.nextLeaf := congrArg (fun l => l.2.2) hsame
    exact ⟨hprev ▸ hold.1, hnext ▸ hold.2⟩
  · have hlink := hlinks ixFileHdrPage
    rw [hF.header, Option.map_none] at hlink
    exact Option.map_eq_none_iff.mp hlink

/-- Only the right leaf leaves the tree, and inner nodes get no links. -/
theorem merge {c : Ctx κ 1 H} {no : Int} {pre post : List (κ × Tree κ 0)} {kl kr : κ} {L R : Tree κ 0}
    {stale : Nat → κ} {parentPage pageL pageR next : IxPage κ} {x : Int}
    (hF : M.Formed order (c.plug (twins no pre kl L kr R post stale)))
    (hp : TwinPages M no pre L R parentPage pageL pageR)
    (hl : TwinLinks M no L R pageL pageR x next) :
    (M.merge no (pre.length + 1) L.no R.no x parentPage pageL pageR next).Formed order
      (c.plug (mergedTree no pre kl L R post stale)) := by
  have hT := hF.chained
  have hge : ∀ q ∈ (c.plug (twins no pre kl L kr R post stale)).nos, 2 ≤ q := by
    intro q hq
    exact hT.held.range q (List.mem_append_left _ hq)
  have hnos : ∀ q ∈ (c.plug (mergedTree no pre kl L R post stale)).nos,
      q ∈ (c.plug (twins no pre kl L kr R post stale)).nos := by
    intro q hq
    rw [(Ctx.nos_plug c _).mem_iff] at hq ⊢
    exact (nos_mergedTree kr).mem_iff.mpr (List.mem_cons_of_mem _ hq)
  -- the page after the two leaves is linked, so that it is not an inner node of the tree
  have hprev : next.prevLeaf = R.no := by
    have hring := hT.ring
    rw [leaves_twins, ← List.singleton_append, ← List.append_assoc] at hring
    obtain ⟨y, D, -, -, hright, -⟩ := hring.split
    have hnext := hright.1
    have hback := hright.2
    rw [nextOf, hp.right] at hnext
    obtain rfl : x = y := hl.right_next.symm.trans (Option.some.inj hnext)
    rw [prevOf, hl.page] at hback
    exact Option.some.inj hback
  have hR : 2 ≤ R.no := by
    refine hge _ ((Ctx.nos_plug c _).mem_iff.mpr (List.mem_append_left _ ?_))
    refine Tree.nos_subset_of_kid (e := (kr, R)) ?_ _ R.no_mem_nos
    show (kr, R) ∈ pre ++ (kl, L) :: (kr, R) :: post
    simp
  refine ⟨hT.merge hp hl, fun q hq page hpage hleaf => ?_, ?_⟩
  · rw [IxMem.merge_pages] at hpage
    split_ifs at hpage with hqn hqx hql
    · obtain rfl := Option.some.inj hpage
      subst hqn
      exact hF.unlinked q (hnos q hq) parentPage hp.parent hp.parent_inner
    · obtain rfl := Option.some.inj hpage
      subst hqx
      have := (hF.unlinked q (hnos q hq) next hl.page hleaf).1
      omega
    · obtain rfl := Option.some.inj hpage
      obtain ⟨hlink, -⟩ :=
        pageL.insertPairs_fields pageL.numKey pageR.keys pageR.rids pageR.numKey
      have hflag : pageL.isLeaf = false := (congrArg Prod.fst hlink).symm.trans hleaf
      rw [hp.left_leaf] at hflag
      cases hflag
    · exact hF.unlinked q (hnos q hq) page hpage hleaf
  · rw [IxMem.merge_pages]
    split_ifs with h1 h2 h3
    · have hzero : (0 : Int) = no := h1
      have := hp.ge
      omega
    · have hpage := hl.page
      rw [← h2, hF.header] at hpage
      cases hpage
    · have hpage := hp.left
      rw [← h3, hF.header] at hpage
      cases hpage
    · exact hF.header

variable [LinearOrder κ]

omit [LinearOrder κ] in
/-- The page of a node below the root, as `CoalesceOrRedistribute` sees it. -/
theorem page_below {c : Ctx κ h H} {t : Tree κ h} (hF : M.Formed order (c.plug t))
    (hc : c.depth ≠ 0) :
    ∃ page, M.pages t.no = some page ∧ page.isLeaf = decide (h = 0) ∧
      page.parent ≠ invalidPageId ∧ page.numKey = t.slots.size := by
  have hh : Held M order c t := Held.plug_iff.mpr hF.chained.held
  obtain ⟨page, hp, hparent, hleaf, hshows⟩ := hh.tree.nodeAt
  refine ⟨page, hp, hleaf, ?_, ?_⟩
  · cases c with
    | top => exact absurd rfl hc
    | down up no left key right stale =>
      have hge : 2 ≤ no := hh.range no (List.mem_append_right _ List.mem_cons_self)
      have hval : invalidPageId = -1 := rfl
      rw [hparent, hval]
      show no ≠ -1
      omega
  · rw [hshows.numKey, Tree.row, Slots.size_map]

/-- **A node that is large enough** passes its first key upwards. -/
theorem maintain {c : Ctx κ h H} {t : Tree κ h} (hF : M.Formed order (c.plug t))
    (hc : c.depth ≠ 0) (hsize : (order + 1) / 2 ≤ t.slots.size) (hfuel : c.depth < fuel) :
    ∃ M', IxDoes (coalesceOrRedistribute fuel t.no) M false M' ∧
      M'.Formed order ((c.maintain (t.slots.keyAt 0)).plug t) := by
  obtain ⟨fuel, rfl⟩ := Nat.exists_eq_succ_of_ne_zero (Nat.ne_of_gt (Nat.zero_lt_of_lt hfuel))
  have hh : Held M order c t := Held.plug_iff.mpr hF.chained.held
  obtain ⟨page, hp, -, hparent, hnum⟩ := hF.page_below hc
  obtain ⟨M', hdoes, hchanges, hheld⟩ := maintainParent_does c hh hfuel
  have hrekeyed := c.rekeyed_maintain (t.slots.keyAt 0)
  refine ⟨M', ?_, hF.of_links hchanges.keepsLinks.link ?_ fun q hq => (hrekeyed.mem_nos_iff t q).mp hq⟩
  · rw [coalesceOrRedistribute]
    apply Does.get_bind
    intro s hs
    have hmin : s.fileHdr.getMinSize = M.fileHdr.getMinSize :=
      congrArg (fun m : IxMem κ => m.fileHdr.getMinSize) hs
    apply Does.bind (node_does hp)
    rw [if_neg hparent, hmin, hh.minSize, hnum, if_pos (by omega)]
    exact hdoes.bind Does.pure
  · exact hF.chained.of_leaves hchanges.keepsLinks (Held.plug_iff.mp hheld)
      (hrekeyed.collect_eq _ t)

/-- **An inner node that is too small**: the call reads page 0 as the node beside it. -/
theorem underflow {c : Ctx κ (h + 1) H} {t : Tree κ (h + 1)} (hF : M.Formed order (c.plug t))
    (hc : c.depth ≠ 0) (hsize : t.slots.size < (order + 1) / 2) :
    Fails IxIndex.mem (coalesceOrRedistribute fuel t.no) M := by
  cases fuel with
  | zero =>
    intro s _
    exact ⟨_, s, rfl⟩
  | succ fuel =>
    have hh : Held M order c t := Held.plug_iff.mpr hF.chained.held
    obtain ⟨page, hp, hleaf, hparent, hnum⟩ := hF.page_below hc
    have hmem : t.no ∈ (c.plug t).nos :=
      (c.nos_plug t).mem_iff.mpr (List.mem_append_left _ t.no_mem_nos)
    obtain ⟨hprev, hnext⟩ := hF.unlinked t.no hmem page hp hleaf
    have hmiss : ∀ {α : Type} (f : Int → IxM κ α), Fails IxIndex.mem (fetchNode 0 >>= f) M := by
      intro α f
      apply Fails.bind
      rintro s rfl
      have hview : s.store.view ⟨s.fd, 0⟩ = none := hF.header
      exact ⟨_, s, by simp only [fetchNode, get_bind_apply, PageStore.fetchPage, hview]; rfl⟩
    cases c with
    | top => exact absurd rfl hc
    | down up no left key right stale =>
      obtain ⟨parentPage, hpp, -, -, -, hfind, -⟩ := hh.parent
      have hparentNo : page.parent = no := by
        obtain ⟨page₀, hp₀, h0, -⟩ := hh.tree.nodeAt
        obtain rfl := Option.some.inj (hp.symm.trans hp₀)
        exact h0
      rw [coalesceOrRedistribute]
      apply Fails.get_bind
      intro s hs
      have hmin : s.fileHdr.getMinSize = M.fileHdr.getMinSize :=
        congrArg (fun m : IxMem κ => m.fileHdr.getMinSize) hs
      apply (Reaches.of_does (node_does hp)).fails
      rw [if_neg hparent, hmin, hh.minSize, hnum, if_neg (by omega), hparentNo]
      apply (Reaches.of_does (fetchNode_does hpp)).fails
      apply (Reaches.of_does (node_does hpp)).fails
      simp only [hfind]
      rw [hprev, hnext, ite_self]
      exact hmiss _

/-- **A root that stays**: a leaf with entries, or an inner node with two children or more. -/
theorem keepRoot {T : Tree κ H} (hF : M.Formed order T) (hfuel : 0 < fuel)
    (hleaf : H = 0 → T.slots.size ≠ 0) (hinner : H ≠ 0 → T.slots.size ≠ 1) :
    IxDoes (coalesceOrRedistribute fuel T.no) M false M := by
  obtain ⟨fuel, rfl⟩ := Nat.exists_eq_succ_of_ne_zero hfuel.ne'
  obtain ⟨page, hp, hparent, hflag, hshows⟩ := hF.chained.held.tree.nodeAt
  have hroot : page.parent = invalidPageId := hparent
  have hnum : page.numKey = T.slots.size := by
    rw [hshows.numKey, Tree.row, Slots.size_map]
  rw [coalesceOrRedistribute]
  apply Does.get_bind
  intro s _
  apply Does.bind (node_does hp)
  rw [if_pos hroot, adjustRoot]
  apply Does.bind (node_does hp)
  rw [hflag, hnum]
  by_cases hH : H = 0
  · have := hleaf hH
    rw [if_pos (decide_eq_true hH), if_neg (by omega)]
    exact Does.pure
  · have := hinner hH
    rw [if_neg (by simpa using hH), if_neg (by omega)]
    exact Does.pure

/-- **`AdjustRoot`** of an inner root with a single child: the child becomes the root. -/
theorem adjust {no : Int} {key : κ} {child : Tree κ h} {stale : Nat → κ}
    (hF : M.Formed order (⟨no, ⟨[(key, child)], stale⟩⟩ : Tree κ (h + 1))) (hfuel : 0 < fuel) :
    ∃ M', IxDoes (coalesceOrRedistribute fuel no) M true M' ∧ M'.Formed order child := by
  obtain ⟨fuel, rfl⟩ := Nat.exists_eq_succ_of_ne_zero hfuel.ne'
  have hh : Held M order (.down .top no [] key [] stale) child :=
    Held.down_iff.mpr hF.chained.held
  obtain ⟨page, hp, hparent, hflag, hshows, -⟩ := hh.parent
  obtain ⟨childPage, hc, -, -, -⟩ := hh.tree.nodeAt
  have hnum : page.numKey = 1 := hshows.numKey
  have hvalue : page.valueAt 0 = child.no := congrArg Rid.pageNo (hshows.rids (i := 0) rfl)
  have hroot : page.parent = invalidPageId := hparent
  let M₁ := M.set child.no { childPage with parent := invalidPageId }
  have hlinks : KeepsLinks M M₁ := .set hc rfl
  have htree : child.Holds M₁.pages invalidPageId := by
    refine hh.tree.set_parent (List.nodup_append.mp hh.nodup).1 ?_ fun q _ hq => ?_
    · rw [hc]
      exact IxMem.set_pages_self _
    · exact .of_eq (IxMem.set_pages_of_ne _ hq)
  have hheld : Held (M₁.setRoot child.no).release order .top child :=
    ⟨trivial, htree, by simpa [Ctx.nos] using (List.nodup_append.mp hh.nodup).1,
      fun q hq => hh.range q (List.mem_append_left _ (by simpa [Ctx.nos] using hq)), hh.order, rfl⟩
  have hleaves : Tree.leaves (h := h + 1) ⟨no, ⟨[(key, child)], stale⟩⟩ = child.leaves :=
    List.append_nil _
  have hT := hF.chained
  refine ⟨(M₁.setRoot child.no).release, ?_, hF.of_links hlinks.link ⟨hheld, ?_, ?_, ?_⟩ ?_⟩
  · rw [coalesceOrRedistribute]
    apply Does.get_bind
    intro s _
    apply Does.bind (node_does hp)
    rw [if_pos hroot, adjustRoot]
    apply Does.bind (node_does hp)
    rw [hflag, if_neg (by decide), if_pos hnum, hvalue]
    apply Does.bind (fetchNode_does hc)
    apply Does.bind (node_does hc)
    apply Does.bind (setNode_does _ _)
    apply Does.bind (updateRootPageNo_does _)
    apply Does.bind releaseNodeHandle_does
    exact unpinPage_bind_does fun _ => Does.pure
  · show LinkRing (nextOf M₁.pages) (prevOf M₁.pages) ixLeafHeaderPage child.leaves
    rw [hlinks.nextOf_eq, hlinks.prevOf_eq, ← hleaves]
    exact hT.ring
  · rw [← hleaves]
    exact hT.first
  · rw [← hleaves]
    exact hT.last
  · intro q hq
    exact Tree.nos_subset_of_kid (t := ⟨no, ⟨[(key, child)], stale⟩⟩) List.mem_cons_self q hq

end IxMem.Formed

end Rucbase
