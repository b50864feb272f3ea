import Rucbase.Index.Equiv.Holds
import Rucbase.Lib.LinkRing

/-!
# Inserting into the tree

`splitNodeIfFull` on the pages of a tree does what `splitUp` does on the tree
(`splitNodeIfFull_inner` above the leaves, `splitNodeIfFull_leaf` at a leaf), whatever the keys are.
Above the leaves nothing happens to the leaves and their links (`KeepsLeaves`).
-/

namespace Rucbase

open EStateM IxIndexHandle

variable {κ : Type} {h H : Nat}

/-! ### What inner nodes do not change -/

/-- The leaf flag and the leaf links of a page. -/
def IxPage.link (page : IxPage κ) : Bool × Int × Int := (page.isLeaf, page.prevLeaf, page.nextLeaf)

/-- Leaf flags and links are kept, new pages are inner nodes. -/
structure KeepsLeaves (M M' : IxMem κ) : Prop where
  fd : M'.fd = M.fd
  hdr : ∃ n, M'.fileHdr = { M.fileHdr with numPages := n, rootPage := M'.fileHdr.rootPage }
  counter : M.counter ≤ M'.counter
  old : ∀ q, q < M.counter → (M'.pages q).map IxPage.link = (M.pages q).map IxPage.link
  new : ∀ q page, M.counter ≤ q → M'.pages q = some page → page.isLeaf = false
  fresh : ∀ q, M'.counter ≤ q → M'.pages q = none

namespace KeepsLeaves

variable {M M' M'' : IxMem κ}

theorem refl (hfresh : ∀ q, M.counter ≤ q → M.pages q = none) : KeepsLeaves M M := by
  refine ⟨rfl, ⟨_, rfl⟩, le_refl _, fun q _ => rfl, fun q page hq hp => ?_, hfresh⟩
  rw [hfresh q hq] at hp
  cases hp

theorem trans (h1 : KeepsLeaves M M') (h2 : KeepsLeaves M' M'') : KeepsLeaves M M'' := by
  refine ⟨h2.fd.trans h1.fd, ?_, h1.counter.trans h2.counter, fun q hq => ?_,
    fun q page hq hp => ?_, h2.fresh⟩
  · obtain ⟨n, hn⟩ := h1.hdr
    obtain ⟨n', hn'⟩ := h2.hdr
    refine ⟨n', ?_⟩
    rw [hn', hn]
  · exact (h2.old q (lt_of_lt_of_le hq h1.counter)).trans (h1.old q hq)
  · by_cases hlt : q < M'.counter
    · -- a page of the first part
      have hlink := h2.old q hlt
      rw [hp] at hlink
      obtain ⟨page', hp', heq⟩ := Option.map_eq_some_iff.mp hlink.symm
      rw [← h1.new q page' hq hp']
      exact (congrArg Prod.fst heq).symm
    · exact h2.new q page (not_lt.mp hlt) hp

/-- A page is written that keeps its flag and links. -/
theorem set {q : Int} {page page' : IxPage κ} (hfresh : ∀ r, M.counter ≤ r → M.pages r = none)
    (hp : M.pages q = some page) (hlink : page'.link = page.link) : KeepsLeaves M (M.set q page') := by
  have hlt : q < M.counter := by
    by_contra hge
    rw [hfresh q (not_lt.mp hge)] at hp
    cases hp
  have hpages : ∀ r, M.counter ≤ r → (M.set q page').pages r = none := by
    intro r hr
    rw [IxMem.set_pages_of_ne _ (by omega), hfresh r hr]
  refine ⟨rfl, ⟨_, rfl⟩, le_refl _, fun r _ => ?_, fun r page hr hpr => ?_, hpages⟩
  · by_cases hrq : r = q
    · subst hrq
      rw [IxMem.set_pages_self, hp]
      exact congrArg some hlink
    · rw [IxMem.set_pages_of_ne _ hrq]
  · rw [hpages r hr] at hpr
    cases hpr

theorem adopt {parent : Int} {l : List Int} (hfresh : ∀ r, M.counter ≤ r → M.pages r = none) :
    KeepsLeaves M (M.adopt parent l) := by
  have hpages : ∀ r, M.counter ≤ r → (M.adopt parent l).pages r = none := by
    intro r hr
    show (if r ∈ l then (M.pages r).map fun page => { page with parent } else M.pages r) = none
    rw [hfresh r hr]
    simp
  refine ⟨rfl, ⟨_, rfl⟩, le_refl _, fun r _ => ?_, fun r page hr hpr => ?_, hpages⟩
  · show (if r ∈ l then (M.pages r).map fun page => { page with parent } else M.pages r).map _ = _
    by_cases hr : r ∈ l
    · rw [if_pos hr, Option.map_map]
      rfl
    · rw [if_neg hr]
  · rw [hpages r hr] at hpr
    cases hpr

theorem setRoot (root : Int) (hfresh : ∀ r, M.counter ≤ r → M.pages r = none) :
    KeepsLeaves M (M.setRoot root) := by
  refine ⟨rfl, ⟨_, rfl⟩, le_refl _, fun r _ => rfl, fun r page hr hpr => ?_, hfresh⟩
  rw [show (M.setRoot root).pages r = M.pages r from rfl, hfresh r hr] at hpr
  cases hpr

/-- A new page is created and filled as an inner node. -/
theorem createSet [Inhabited κ] {page : IxPage κ} (hfresh : ∀ r, M.counter ≤ r → M.pages r = none)
    (hleaf : page.isLeaf = false) : KeepsLeaves M (M.create.set M.counter page) := by
  have hpages : ∀ r, r ≠ M.counter → (M.create.set M.counter page).pages r = M.pages r := by
    intro r hr
    rw [IxMem.set_pages_of_ne _ hr]
    exact Function.update_of_ne hr _ _
  refine ⟨rfl, ⟨_, rfl⟩, ?_, fun r hr => ?_, fun r page' hr hpr => ?_, fun r hr => ?_⟩
  · show M.counter ≤ M.counter + 1
    omega
  · rw [hpages r (by omega)]
  · by_cases hrc : r = M.counter
    · subst hrc
      rw [IxMem.set_pages_self] at hpr
      rw [← Option.some.inj hpr, hleaf]
    · rw [hpages r hrc, hfresh r hr] at hpr
      cases hpr
  · have hr' : M.counter + 1 ≤ r := hr
    rw [hpages r (by omega), hfresh r (by omega)]

theorem shared [Inhabited κ] {p : Int} {page : IxPage κ}
    (hfresh : ∀ r, M.counter ≤ r → M.pages r = none) (hp : M.pages p = some page)
    (hleaf : page.isLeaf = false) : KeepsLeaves M (M.shared p page) := by
  have hpc : p ≠ M.counter := by
    rintro rfl
    rw [hfresh _ (le_refl _)] at hp
    cases hp
  have hcreate : KeepsLeaves M (M.create.set M.counter (evenlyDistributePairs .zero page).1) :=
    createSet hfresh hleaf
  have hp' : (M.create.set M.counter (evenlyDistributePairs .zero page).1).pages p = some page := by
    rw [IxMem.set_pages_of_ne _ hpc]
    exact (Function.update_of_ne hpc _ _).trans hp
  exact hcreate.trans (set hcreate.fresh hp' rfl)

end KeepsLeaves

/-! ### The leaf chain -/

/-- `next_leaf` of a page. -/
def nextOf (pages : Int → Option (IxPage κ)) (q : Int) : Option Int := (pages q).map IxPage.nextLeaf

/-- `prev_leaf` of a page. -/
def prevOf (pages : Int → Option (IxPage κ)) (q : Int) : Option Int := (pages q).map IxPage.prevLeaf

/-- The leaf pages form a ring through the leaf header, in this order. -/
structure LeafChain (pages : Int → Option (IxPage κ)) (leaves : List Int) : Prop where
  ring : LinkRing (nextOf pages) (prevOf pages) ixLeafHeaderPage leaves
  ge : ∀ q ∈ leaves, 2 ≤ q
  mem_iff : ∀ q, q ∈ ixLeafHeaderPage :: leaves ↔ ∃ page, pages q = some page ∧ page.isLeaf = true

theorem LeafChain.keep {M M' : IxMem κ} {leaves : List Int} (hl : LeafChain M.pages leaves)
    (hfresh : ∀ q, M.counter ≤ q → M.pages q = none) (hkeep : KeepsLeaves M M') :
    LeafChain M'.pages leaves := by
  have hlink : ∀ q, q < M.counter → (M'.pages q).map IxPage.link = (M.pages q).map IxPage.link :=
    hkeep.old
  have hmem : ∀ q ∈ ixLeafHeaderPage :: leaves, q < M.counter := by
    intro q hq
    obtain ⟨page, hp, -⟩ := (hl.mem_iff q).mp hq
    by_contra hge
    rw [hfresh q (not_lt.mp hge)] at hp
    cases hp
  -- flag and links are parts of the same triple
  have hpart : ∀ {β : Type} (f : Bool × Int × Int → β) (q : Int), q < M.counter →
      (M'.pages q).map (fun page => f page.link) = (M.pages q).map fun page => f page.link := by
    intro β f q hq
    have := congrArg (Option.map f) (hlink q hq)
    rwa [Option.map_map, Option.map_map] at this
  refine ⟨hl.ring.congr (fun q hq => hpart (fun l => l.2.2) q (hmem q hq))
    (fun q hq => hpart (fun l => l.2.1) q (hmem q hq)), hl.ge, fun q => ?_⟩
  rw [hl.mem_iff]
  have hex : ∀ pages : Int → Option (IxPage κ),
      (∃ page, pages q = some page ∧ page.isLeaf = true) ↔
        (pages q).map (fun page => page.link.1) = some true := by
    intro pages
    rw [Option.map_eq_some_iff]
    rfl
  by_cases hq : q < M.counter
  · rw [hex, hex, hpart (fun l => l.1) q hq]
  · constructor
    · rintro ⟨page, hp, -⟩
      rw [hfresh q (not_lt.mp hq)] at hp
      cases hp
    · rintro ⟨page, hp, hleaf⟩
      rw [hkeep.new q page (not_lt.mp hq) hp] at hleaf
      cases hleaf

/-! ### The tree in focus -/

/-- The memory holds a tree, seen from one of its nodes. -/
structure Focus (M : IxMem κ) (order : Nat) (c : Ctx κ h H) (t : Tree κ h) : Prop where
  ctx : c.Holds M.pages t.no
  tree : t.Holds M.pages c.parentNo
  nodup : (t.nos ++ c.nos).Nodup
  range : ∀ q ∈ t.nos ++ c.nos, 2 ≤ q ∧ q < M.counter
  fresh : ∀ q, M.counter ≤ q → M.pages q = none
  order : M.fileHdr.btreeOrder = order
  root : M.fileHdr.rootPage = (c.plug t).no

namespace Focus

variable {M M' : IxMem κ} {order : Nat} {c : Ctx κ h H} {t : Tree κ h}

/-- The same tree seen from its root. -/
theorem plug (hf : Focus M order c t) : Focus M order .top (c.plug t) := by
  refine ⟨trivial, (Ctx.holds_plug c t).mpr ⟨hf.ctx, hf.tree⟩, ?_, fun q hq => ?_, hf.fresh, hf.order,
    hf.root⟩
  · show ((c.plug t).nos ++ []).Nodup
    rw [List.append_nil]
    exact (Ctx.nos_plug c t).nodup_iff.mpr hf.nodup
  · have hq' : q ∈ (c.plug t).nos ++ [] := hq
    rw [List.append_nil] at hq'
    exact hf.range q ((Ctx.nos_plug c t).mem_iff.mp hq')

/-- A tree seen from its root can be seen from any of its nodes. -/
theorem of_plug (hf : Focus M order .top (c.plug t)) : Focus M order c t := by
  obtain ⟨hctx, htree⟩ := (Ctx.holds_plug c t).mp hf.tree
  have hnodup : ((c.plug t).nos ++ []).Nodup := hf.nodup
  rw [List.append_nil] at hnodup
  refine ⟨hctx, htree, (Ctx.nos_plug c t).nodup_iff.mp hnodup, fun q hq => hf.range q ?_, hf.fresh,
    hf.order, hf.root⟩
  show q ∈ (c.plug t).nos ++ []
  rw [List.append_nil]
  exact (Ctx.nos_plug c t).mem_iff.mpr hq

theorem setLast (hf : Focus M order c t) (q : Int) : Focus (M.setLast q) order c t :=
  ⟨hf.ctx, hf.tree, hf.nodup, hf.range, hf.fresh, hf.order, hf.root⟩

theorem nodup_tree (hf : Focus M order c t) : t.nos.Nodup := (List.nodup_append.mp hf.nodup).1

theorem notMem_ctx (hf : Focus M order c t) {q : Int} (hq : q ∈ t.nos) : q ∉ c.nos := by
  intro hc
  exact (List.nodup_append.mp hf.nodup).2.2 q hq q hc rfl

theorem lt_counter (hf : Focus M order c t) {q : Int} (hq : q ∈ t.nos) : q < M.counter :=
  (hf.range q (List.mem_append_left _ hq)).2

end Focus

theorem Ctx.no_plug (c : Ctx κ h H) {t t' : Tree κ h} (hno : t'.no = t.no) :
    (c.plug t').no = (c.plug t).no := by
  induction c with
  | top => exact hno
  | down up no left key right stale ih =>
    exact ih (show (fill no left key right stale t').no = (fill no left key right stale t).no from rfl)

/-! ### Splitting a node -/

section Split

variable [Inhabited κ] {M M' : IxMem κ} {order : Nat} {c : Ctx κ h H} {t : Tree κ h}

/-- A node was split: the left half is in the tree, the right half is beside it. -/
structure Halves (M : IxMem κ) (order : Nat) (c : Ctx κ h H) (old new : Tree κ h) : Prop where
  focus : Focus M order c old
  tree : new.Holds M.pages c.parentNo
  nodup : (new.nos ++ (old.nos ++ c.nos)).Nodup
  range : ∀ q ∈ new.nos, 2 ≤ q ∧ q < M.counter

omit [Inhabited κ] in
theorem Tree.row_splitLeft (t : Tree κ h) : t.splitLeft.row = t.row.leftHalf :=
  Slots.map_leftHalf _

theorem Tree.row_splitRight (t : Tree κ h) (q : Int) : (t.splitRight q).row = t.row.rightHalf :=
  Slots.map_rightHalf _

/-- What is left to show of a split, once the two nodes are in memory. -/
theorem Halves.of_split (hf : Focus M order c t) (hcounter : M'.counter = M.counter + 1)
    (hhdr : ∃ n, M'.fileHdr = { M.fileHdr with numPages := n })
    (hfresh : ∀ q, M'.counter ≤ q → M'.pages q = none)
    (hbody : ∀ q, q ∉ t.nos → q ≠ M.counter → SameBody M.pages M'.pages q)
    (hold : t.splitLeft.Holds M'.pages c.parentNo)
    (hnew : (t.splitRight M.counter).Holds M'.pages c.parentNo) :
    Halves M' order c t.splitLeft (t.splitRight M.counter) := by
  have hperm : ((t.splitRight M.counter).nos ++ (t.splitLeft.nos ++ c.nos)).Perm
      (M.counter :: (t.nos ++ c.nos)) := by
    have hsplit := t.nos_split M.counter
    rw [List.perm_iff_count] at hsplit ⊢
    intro q
    have := hsplit q
    simp only [List.count_append, List.count_cons] at this ⊢
    omega
  have hcount : 2 ≤ M.counter ∧ M.counter ∉ t.nos ++ c.nos := by
    have hno := hf.range t.no (List.mem_append_left _ t.no_mem_nos)
    refine ⟨by omega, fun hmem => ?_⟩
    have := hf.range _ hmem
    omega
  have hrange : ∀ q ∈ (t.splitRight M.counter).nos ++ (t.splitLeft.nos ++ c.nos),
      2 ≤ q ∧ q < M'.counter := by
    intro q hq
    rcases List.mem_cons.mp (hperm.mem_iff.mp hq) with rfl | hq
    · omega
    · have := hf.range q hq
      omega
  have hnodup : ((t.splitRight M.counter).nos ++ (t.splitLeft.nos ++ c.nos)).Nodup :=
    hperm.nodup_iff.mpr (List.nodup_cons.mpr ⟨hcount.2, hf.nodup⟩)
  obtain ⟨n, hn⟩ := hhdr
  refine ⟨⟨?_, hold, (List.nodup_append.mp hnodup).2.1, fun q hq => ?_, hfresh, ?_, ?_⟩, hnew,
    hnodup, fun q hq => ?_⟩
  · -- the pages around the node are the same
    refine Ctx.Holds.congr hf.ctx fun q hq => hbody q (fun ht => hf.notMem_ctx ht hq) ?_
    rintro rfl
    exact hcount.2 (List.mem_append_right _ hq)
  · exact hrange q (List.mem_append_right _ hq)
  · rw [hn]
    exact hf.order
  · rw [hn]
    exact hf.root.trans (c.no_plug (show t.splitLeft.no = t.no from rfl)).symm
  · exact hrange q (List.mem_append_left _ hq)

/-- **`Split`** of an inner node. -/
theorem split_inner {c : Ctx κ (h + 1) H} {t : Tree κ (h + 1)} (hf : Focus M order c t) :
    ∃ M', IxDoes (split t.no) M M.counter M' ∧ KeepsLeaves M M' ∧ M'.counter = M.counter + 1 ∧
      Halves M' order c t.splitLeft (t.splitRight M.counter) := by
  obtain ⟨⟨page, hp, hparent, hleaf, hshows⟩, hkids⟩ := hf.tree
  have hn := hf.nodup_tree
  have hsize : page.numKey = t.slots.size := hshows.numKey.trans (by rw [Tree.row, Slots.size_map])
  let moved := t.kids.drop (t.slots.size / 2)
  let l := moved.map fun e => e.2.no
  have hmoved : ∀ e ∈ moved, e ∈ t.kids := fun e he => List.mem_of_mem_drop he
  have hl : ∀ {q}, q ∈ l ↔ ∃ e ∈ moved, e.2.no = q := List.mem_map
  have hlt : ∀ {q}, q ∈ l → q ∈ t.nos ∧ q ≠ t.no := by
    intro q hq
    obtain ⟨e, he, rfl⟩ := hl.mp hq
    exact ⟨Tree.nos_subset_of_kid (hmoved e he) _ e.2.no_mem_nos,
      Tree.ne_no_of_mem_kid hn (hmoved e he) e.2.no_mem_nos⟩
  have hno : t.no ≠ M.counter := (hf.lt_counter t.no_mem_nos).ne
  have hcl : M.counter ∉ l := fun hq => absurd (hf.lt_counter (hlt hq).1) (lt_irrefl _)
  obtain ⟨hright, hleft⟩ := hshows.evenlyDistributePairs
    (show (IxPage.zero : IxPage κ).keys = fun _ => default from rfl)
  have hshare := KeepsLeaves.shared hf.fresh hp hleaf
  -- the moved children get the new node as their parent
  have hadopt : IxDoes (maintainChildren M.counter l.length ((0 : Nat) : Int)) (M.shared t.no page) ()
      ((M.shared t.no page).adopt M.counter l) := by
    refine maintainChildren_does (IxMem.shared_pages_counter hno) hleaf (fun i q hq => ?_)
      (fun q hq => ?_) hcl
    · rw [List.getElem?_map] at hq
      obtain ⟨e, he, rfl⟩ := Option.map_eq_some_iff.mp hq
      have hget : t.row.rightHalf.entries[i]? = some (e.1, Item.rid (h := h + 1) e.2) := by
        rw [← Tree.row_splitRight t M.counter]
        show (moved.map fun e => (e.1, Item.rid (h := h + 1) e.2))[i]? = _
        rw [List.getElem?_map, he]
        rfl
      rw [Nat.zero_add, hright.rids hget]
      rfl
    · obtain ⟨e, he, rfl⟩ := hl.mp hq
      obtain ⟨child, hchild, -⟩ := (hkids e (hmoved e he)).nodeAt
      exact ⟨child, (IxMem.shared_pages_of_ne (hlt hq).2
        (hf.lt_counter (hlt hq).1).ne).trans hchild⟩
  have hlen : (page.numKey - page.numKey / 2).toNat = l.length := by
    have h1 : l.length = t.slots.size - t.slots.size / 2 := by
      rw [List.length_map, List.length_drop]
      rfl
    omega
  have hdoes : IxDoes (split t.no) M M.counter ((M.shared t.no page).adopt M.counter l) := by
    refine split_does hp (hf.fresh _ (le_refl _)) ?_
    rw [hleaf, if_neg (by decide), hlen]
    exact hadopt
  have hpages : ∀ {q}, q ∉ l → ((M.shared t.no page).adopt M.counter l).pages q =
      (M.shared t.no page).pages q := fun hq => IxMem.adopt_pages_of_notMem _ hq
  have hkeep : KeepsLeaves M ((M.shared t.no page).adopt M.counter l) :=
    hshare.trans (.adopt hshare.fresh)
  -- the two lists of children have no page in common
  have hflat : (t.kids.flatMap fun e => Tree.nos e.2).Nodup := (List.nodup_cons.mp hn).2
  rw [← List.take_append_drop (t.slots.size / 2) t.kids, List.flatMap_append] at hflat
  have hdisjoint := (List.nodup_append.mp hflat).2.2
  refine ⟨_, hdoes, hkeep, rfl, Halves.of_split hf rfl ⟨_, rfl⟩ hkeep.fresh (fun q hq hqc => ?_)
    ⟨⟨_, (hpages fun h => (hlt h).2 rfl).trans IxMem.shared_pages_self, hparent, hleaf, ?_⟩,
      fun e he => ?_⟩
    ⟨⟨_, (hpages hcl).trans (IxMem.shared_pages_counter hno), hparent, hleaf, ?_⟩, fun e he => ?_⟩⟩
  · refine .of_eq ((hpages fun h => hq (hlt h).1).trans (IxMem.shared_pages_of_ne ?_ hqc))
    rintro rfl
    exact hq t.no_mem_nos
  · rw [Tree.row_splitLeft]
    exact hleft
  · -- a child that stays
    have hmem : e ∈ t.kids := List.mem_of_mem_take he
    refine (hkids e hmem).congr fun q hq => .of_eq ?_
    have hql : q ∉ l := by
      intro h
      obtain ⟨e', he', rfl⟩ := hl.mp h
      exact hdisjoint _ (List.mem_flatMap.mpr ⟨e, he, hq⟩) _
        (List.mem_flatMap.mpr ⟨e', he', e'.2.no_mem_nos⟩) rfl
    exact (hpages hql).trans (IxMem.shared_pages_of_ne (Tree.ne_no_of_mem_kid hn hmem hq)
      (hf.lt_counter (Tree.nos_subset_of_kid hmem q hq)).ne)
  · rw [Tree.row_splitRight]
    exact hright
  · -- a child that moves
    have hmem : e ∈ t.kids := hmoved e he
    refine (hkids e hmem).set_parent (Tree.kid_nos_nodup hn hmem) ?_ fun q hq hne => .of_eq ?_
    · show (if e.2.no ∈ l then ((M.shared t.no page).pages e.2.no).map _ else _) = _
      rw [if_pos (hl.mpr ⟨e, he, rfl⟩),
        IxMem.shared_pages_of_ne (Tree.ne_no_of_mem_kid hn hmem e.2.no_mem_nos)
          (hf.lt_counter (Tree.nos_subset_of_kid hmem _ e.2.no_mem_nos)).ne]
      rfl
    · have hql : q ∉ l := by
        intro h
        obtain ⟨e', he', rfl⟩ := hl.mp h
        rw [Tree.eq_of_mem_nos hn hmem (hmoved e' he') hq e'.2.no_mem_nos] at hne
        exact hne rfl
      exact (hpages hql).trans (IxMem.shared_pages_of_ne (Tree.ne_no_of_mem_kid hn hmem hq)
        (hf.lt_counter (Tree.nos_subset_of_kid hmem q hq)).ne)

/-- **`Split`** of a leaf: the new leaf goes into the chain behind it. -/
theorem split_leaf {c : Ctx κ 0 H} {t : Tree κ 0} {A B : List Int} (hf : Focus M order c t)
    (hchain : LeafChain M.pages (A ++ t.no :: B)) :
    ∃ M', IxDoes (split t.no) M M.counter M' ∧ M'.counter = M.counter + 1 ∧
      (∃ n, M'.fileHdr = { M.fileHdr with numPages := n }) ∧ M'.fd = M.fd ∧
      LeafChain M'.pages (A ++ t.no :: M.counter :: B) ∧
      Halves M' order c t.splitLeft (t.splitRight M.counter) := by
  obtain ⟨page, hp, hparent, hleaf, hshows⟩ := hf.tree
  have hno : t.no ≠ M.counter := (hf.lt_counter t.no_mem_nos).ne
  have hnodup := hchain.ring.nodup
  -- the leaf after the node
  obtain ⟨x, C, hC, -, hlink, -⟩ := hchain.ring.split
  have hx : page.nextLeaf = x := by
    have := hlink.1
    rw [nextOf, hp] at this
    exact Option.some.inj this
  have hxmem : x ∈ B ∨ x = ixLeafHeaderPage := by
    have : x ∈ B ++ [ixLeafHeaderPage] := hC ▸ List.mem_cons_self
    rwa [List.mem_append, List.mem_singleton] at this
  have hxno : t.no ≠ x := by
    rintro rfl
    simp only [List.nodup_cons, List.nodup_append, List.mem_append, List.mem_cons] at hnodup
    grind
  obtain ⟨next, hnext, hnextleaf⟩ : ∃ next, M.pages x = some next ∧ next.isLeaf = true := by
    refine (hchain.mem_iff x).mp ?_
    simp only [List.mem_cons, List.mem_append]
    tauto
  have hxc : M.counter ≠ x := by
    rintro rfl
    rw [hf.fresh _ (le_refl _)] at hnext
    cases hnext
  have hxi : x ≠ invalidPageId := by
    rcases hxmem with hB | rfl
    · have := hchain.ge x (by simp [hB])
      rintro rfl
      exact absurd this (by decide)
    · decide
  obtain ⟨hright, hleft⟩ := hshows.evenlyDistributePairs
    (show (IxPage.zero : IxPage κ).keys = fun _ => default from rfl)
  let new := (evenlyDistributePairs .zero page).1
  let old := (evenlyDistributePairs .zero page).2
  let M' := (((M.shared t.no page).set M.counter { new with prevLeaf := t.no, nextLeaf := x }).set t.no
    { old with nextLeaf := M.counter }).set x { next with prevLeaf := M.counter }
  have hxM : (M.shared t.no page).pages x = some next :=
    (IxMem.shared_pages_of_ne hxno.symm hxc.symm).trans hnext
  have hdoes : IxDoes (split t.no) M M.counter M' := by
    refine split_does hp (hf.fresh _ (le_refl _)) ?_
    rw [hleaf, if_pos rfl]
    exact insertLeaf_does IxMem.shared_pages_self (IxMem.shared_pages_counter hno) hxM hx hxi hno
      hxno hxc
  have hpx : M'.pages x = some { next with prevLeaf := M.counter } := IxMem.set_pages_self _
  have hpt : M'.pages t.no = some { old with nextLeaf := M.counter } :=
    (IxMem.set_pages_of_ne _ hxno).trans (IxMem.set_pages_self _)
  have hpc : M'.pages M.counter = some { new with prevLeaf := t.no, nextLeaf := x } :=
    (IxMem.set_pages_of_ne _ hxc).trans ((IxMem.set_pages_of_ne _ hno.symm).trans
      (IxMem.set_pages_self _))
  have hpo : ∀ q, q ≠ x → q ≠ t.no → q ≠ M.counter → M'.pages q = M.pages q := by
    intro q h1 h2 h3
    rw [IxMem.set_pages_of_ne _ h1, IxMem.set_pages_of_ne _ h2, IxMem.set_pages_of_ne _ h3,
      IxMem.shared_pages_of_ne h2 h3]
  refine ⟨M', hdoes, rfl, ⟨_, rfl⟩, rfl, ⟨?_, fun q hq => ?_, fun q => ?_⟩,
    Halves.of_split hf rfl ⟨_, rfl⟩ (fun q hq => ?_) (fun q hq hqc => ?_) ?_ ?_⟩
  · -- the ring
    have hcmem : M.counter ∉ ixLeafHeaderPage :: (A ++ t.no :: B) := by
      intro h
      obtain ⟨page', hp', -⟩ := (hchain.mem_iff _).mp h
      rw [hf.fresh _ (le_refl _)] at hp'
      cases hp'
    refine hchain.ring.insertAfter hcmem hlink.1 (fun b h1 h2 => ?_) ?_ ?_ (fun b h1 h2 => ?_) ?_ ?_
    · by_cases hbx : b = x
      · subst hbx
        rw [nextOf, nextOf, hpx, hnext]
        rfl
      · rw [nextOf, nextOf, hpo b hbx h1 h2]
    · rw [nextOf, hpt]
      rfl
    · rw [nextOf, hpc]
      rfl
    · by_cases hbt : b = t.no
      · subst hbt
        rw [prevOf, prevOf, hpt, hp]
        rfl
      · rw [prevOf, prevOf, hpo b h1 hbt h2]
    · rw [prevOf, hpc]
      rfl
    · rw [prevOf, hpx]
      rfl
  · have hcount : 2 ≤ M.counter := by
      have := hf.range t.no (List.mem_append_left _ t.no_mem_nos)
      omega
    by_cases hqc : q = M.counter
    · rw [hqc]
      exact hcount
    · refine hchain.ge q ?_
      simp only [List.mem_append, List.mem_cons] at hq ⊢
      tauto
  · by_cases hqc : q = M.counter
    · subst hqc
      rw [hpc]
      exact ⟨fun _ => ⟨_, rfl, hleaf⟩, fun _ => by simp⟩
    · have hiff : q ∈ ixLeafHeaderPage :: (A ++ t.no :: M.counter :: B) ↔
          q ∈ ixLeafHeaderPage :: (A ++ t.no :: B) := by
        simp [hqc]
      rw [hiff, hchain.mem_iff]
      by_cases hqx : q = x
      · subst hqx
        rw [hpx, hnext]
        simp [hnextleaf]
      · by_cases hqt : q = t.no
        · subst hqt
          rw [hpt, hp]
          exact ⟨fun _ => ⟨_, rfl, hleaf⟩, fun _ => ⟨_, rfl, hleaf⟩⟩
        · rw [hpo q hqx hqt hqc]
  · have hq' : M.counter + 1 ≤ q := hq
    have hqt := hf.lt_counter t.no_mem_nos
    have hqx : q ≠ x := by
      rintro rfl
      rw [hf.fresh q (by omega)] at hnext
      cases hnext
    rw [hpo q hqx (by omega) (by omega), hf.fresh q (by omega)]
  · have hqt : q ≠ t.no := fun h => hq (h ▸ t.no_mem_nos)
    by_cases hqx : q = x
    · subst hqx
      rw [SameBody, hpx, hnext]
      rfl
    · exact .of_eq (hpo q hqx hqt hqc)
  · refine ⟨_, hpt, hparent, hleaf, ?_⟩
    rw [Tree.row_splitLeft]
    exact ⟨hleft.numKey, hleft.keys, fun he => hleft.rids he⟩
  · refine ⟨_, hpc, hparent, hleaf, ?_⟩
    rw [Tree.row_splitRight]
    exact ⟨hright.numKey, hright.keys, fun he => hright.rids he⟩

end Split

/-! ### Inserting into the parent -/

section Insert

variable [LinearOrder κ] {t : Tree κ (h + 1)} {key : κ} {child : Tree κ h}

theorem Tree.insert_of_eq (hk : t.slots.keyAt (t.slots.lowerBound key) = key) :
    t.insert key child = t := by
  unfold Tree.insert
  rw [Slots.insert_of_eq hk]

theorem Tree.insert_of_ne (hk : t.slots.keyAt (t.slots.lowerBound key) ≠ key) :
    t.insert key child = ⟨t.no, t.slots.insertAt (t.slots.lowerBound key) key child⟩ := by
  unfold Tree.insert
  rw [Slots.insert_of_ne hk]

/-- The children after `Insert`: the old ones, and perhaps the new one. -/
theorem Tree.mem_kids_insert {e : κ × Tree κ h} (he : e ∈ (t.insert key child).kids) :
    e ∈ t.kids ∨ e = (key, child) := by
  by_cases hk : t.slots.keyAt (t.slots.lowerBound key) = key
  · rw [Tree.insert_of_eq hk] at he
    exact Or.inl he
  · rw [Tree.insert_of_ne hk] at he
    exact ((List.mem_insertIdx (t.slots.lowerBound_le key)).mp he).symm

theorem Tree.nos_insert (t : Tree κ (h + 1)) (key : κ) (child : Tree κ h) :
    (t.insert key child).nos = t.nos ∨ (t.insert key child).nos.Perm (child.nos ++ t.nos) := by
  by_cases hk : t.slots.keyAt (t.slots.lowerBound key) = key
  · refine Or.inl ?_
    rw [Tree.insert_of_eq hk]
  · refine Or.inr ?_
    rw [Tree.insert_of_ne hk]
    exact Tree.nos_insertAt t (t.slots.lowerBound_le key) key child

omit [LinearOrder κ] in
theorem IxPage.insertPairs_fields (page : IxPage κ) (pos : Int) (key : Nat → κ) (rid : Nat → Rid)
    (n : Int) : (page.insertPairs pos key rid n).link = page.link ∧
      (page.insertPairs pos key rid n).parent = page.parent := by
  unfold IxPage.insertPairs
  split_ifs
  · exact ⟨rfl, rfl⟩
  · exact ⟨rfl, rfl⟩

theorem IxPage.insert_fields (page : IxPage κ) (key : κ) (rid : Rid) :
    (page.insert key rid).link = page.link ∧ (page.insert key rid).parent = page.parent := by
  unfold IxPage.insert
  simp only
  split_ifs
  · exact ⟨rfl, rfl⟩
  · exact page.insertPairs_fields _ _ _ _

theorem Tree.row_insert (t : Tree κ h) (key : κ) (v : Item κ h) :
    (t.insert key v).row = t.row.insert key v.rid := Slots.map_insert _

end Insert

section Attach

variable [LinearOrder κ] [Inhabited κ] {M M' : IxMem κ} {order : Nat}

omit [LinearOrder κ] in
/-- The page of a new root shows its two children. -/
theorem rootPage_shows (l r : Int) (k₀ k₁ : κ) :
    (rootPage .zero l r k₀ k₁).Shows ⟨[(k₀, ⟨l, -1⟩), (k₁, ⟨r, -1⟩)], fun _ => default⟩ := by
  refine ⟨rfl, ?_, fun {i e} he => ?_⟩
  · ext i
    match i with
    | 0 => rfl
    | 1 => rfl
    | i + 2 => rfl
  · match i with
    | 0 =>
      obtain rfl := Option.some.inj he
      rfl
    | 1 =>
      obtain rfl := Option.some.inj he
      rfl
    | i + 2 => cases he

/-- `InsertIntoParent` at the root: a new root above the two halves. -/
theorem insertIntoParent_top {old new : Tree κ h}
    (hh : Halves M order (.top : Ctx κ h h) old new) (rec : Int → IxM κ Unit) :
    ∃ M', IxDoes (insertIntoParent old.no (new.slots.keyAt 0) new.no rec) M () M' ∧
      KeepsLeaves M M' ∧ M'.counter = M.counter + 1 ∧
      Focus M' order .top (newRoot M.counter old new) := by
  have hf := hh.focus
  obtain ⟨oldPage, hold, holdparent, -, holdshows⟩ := hf.tree.nodeAt
  obtain ⟨newPage, hnew, -, -, hnewshows⟩ := hh.tree.nodeAt
  have holdkey : oldPage.keys 0 = old.slots.keyAt 0 := by
    rw [holdshows.keys, Tree.row, Slots.keyAt_map]
  have hnewkey : newPage.keys 0 = new.slots.keyAt 0 := by
    rw [hnewshows.keys, Tree.row, Slots.keyAt_map]
  have hnolt := hf.lt_counter old.no_mem_nos
  have hnewlt := (hh.range _ new.no_mem_nos).2
  have hdisjoint : ∀ {q}, q ∈ new.nos → q ∈ old.nos → False := by
    intro q h1 h2
    exact (List.nodup_append.mp hh.nodup).2.2 q h1 q (List.mem_append_left _ h2) rfl
  -- the new root takes the next page number and adopts the two halves
  let root := rootPage .zero old.no new.no (oldPage.keys 0) (newPage.keys 0)
  let M₁ := ((M.create.setRoot M.counter).set M.counter root)
  let M' := M₁.adopt M.counter [old.no, new.no]
  have hpages : ∀ {q}, q ≠ M.counter → M.create.pages q = M.pages q :=
    fun hq => Function.update_of_ne hq _ _
  have hdoes : IxDoes (insertIntoParent old.no (new.slots.keyAt 0) new.no rec) M () M' := by
    unfold insertIntoParent
    apply Does.bind (node_does hold)
    rw [if_pos (show oldPage.parent = invalidPageId from holdparent)]
    apply Does.bind (createNode_does (hf.fresh _ (le_refl _)))
    exact setNewRoot_does (Function.update_self ..) ((hpages hnolt.ne).trans hold)
      ((hpages hnewlt.ne).trans hnew) hnolt.ne' hnewlt.ne'
  have hkeep : KeepsLeaves M M' := by
    have h1 : KeepsLeaves M (M.create.set M.counter root) := .createSet hf.fresh rfl
    have h2 : KeepsLeaves M M₁ := h1.trans (.setRoot M.counter h1.fresh)
    exact h2.trans (.adopt h2.fresh)
  -- only the new root and the parent fields of the halves differ
  have hpM : ∀ {q}, q ≠ M.counter → q ∉ [old.no, new.no] → M'.pages q = M.pages q := by
    intro q h1 h2
    rw [IxMem.adopt_pages_of_notMem _ h2, IxMem.set_pages_of_ne _ h1]
    exact hpages h1
  have hpk : ∀ {q}, q ≠ M.counter → q ∈ [old.no, new.no] →
      M'.pages q = (M.pages q).map fun page => { page with parent := M.counter } := by
    intro q h1 h2
    show (if q ∈ [old.no, new.no] then (M₁.pages q).map _ else _) = _
    rw [if_pos h2, IxMem.set_pages_of_ne _ h1]
    exact congrArg _ (hpages h1)
  have hcount : M.counter ∉ [old.no, new.no] := by
    simp only [List.mem_cons, List.not_mem_nil, or_false, not_or]
    exact ⟨hnolt.ne', hnewlt.ne'⟩
  have hkid : ∀ {e : κ × Tree κ h}, e ∈ (newRoot M.counter old new).kids →
      e.2 = old ∨ e.2 = new := by
    intro e he
    rcases List.mem_cons.mp he with rfl | he
    · exact Or.inl rfl
    · rw [List.mem_singleton.mp he]
      exact Or.inr rfl
  have hnos : ∀ {q}, q ∈ (newRoot M.counter old new).nos ↔
      q = M.counter ∨ q ∈ old.nos ∨ q ∈ new.nos := by
    intro q
    show q ∈ M.counter :: (old.nos ++ (new.nos ++ [])) ↔ _
    rw [List.append_nil, List.mem_cons, List.mem_append]
  refine ⟨M', hdoes, hkeep, rfl, trivial, ⟨⟨root, ?_, rfl, rfl, ?_⟩, fun e he => ?_⟩, ?_, ?_,
    hkeep.fresh, hf.order, rfl⟩
  · exact (IxMem.adopt_pages_of_notMem _ hcount).trans (IxMem.set_pages_self _)
  · show root.Shows ⟨[(old.slots.keyAt 0, ⟨old.no, -1⟩), (new.slots.keyAt 0, ⟨new.no, -1⟩)],
      fun _ => default⟩
    rw [← holdkey, ← hnewkey]
    exact rootPage_shows _ _ _ _
  · rcases hkid he with heq | heq
    · rw [heq]
      refine hf.tree.set_parent hf.nodup_tree (hpk hnolt.ne (by simp)) fun q hq hne => .of_eq ?_
      refine hpM (hf.lt_counter hq).ne fun hmem => ?_
      simp only [List.mem_cons, List.not_mem_nil, or_false] at hmem
      rcases hmem with rfl | rfl
      · exact hne rfl
      · exact hdisjoint new.no_mem_nos hq
    · rw [heq]
      refine hh.tree.set_parent (List.nodup_append.mp hh.nodup).1 (hpk hnewlt.ne (by simp))
        fun q hq hne => .of_eq ?_
      refine hpM (hh.range q hq).2.ne fun hmem => ?_
      simp only [List.mem_cons, List.not_mem_nil, or_false] at hmem
      rcases hmem with rfl | rfl
      · exact hdisjoint hq old.no_mem_nos
      · exact hne rfl
  · -- page numbers in use are below the counter, so the number of the root is a new one
    show (M.counter :: (old.nos ++ (new.nos ++ [])) ++ []).Nodup
    rw [List.append_nil, List.append_nil, List.nodup_cons, List.nodup_append]
    refine ⟨fun hmem => ?_, hf.nodup_tree, (List.nodup_append.mp hh.nodup).1,
      fun a ha b hb hab => hdisjoint hb (hab ▸ ha)⟩
    rcases List.mem_append.mp hmem with hq | hq
    · exact absurd (hf.lt_counter hq) (lt_irrefl _)
    · exact absurd (hh.range _ hq).2 (lt_irrefl _)
  · intro q hq
    have hq' : q ∈ (newRoot M.counter old new).nos ++ [] := hq
    rw [List.append_nil, hnos] at hq'
    have hcounter : M'.counter = M.counter + 1 := rfl
    have hno := hf.range old.no (List.mem_append_left _ old.no_mem_nos)
    rcases hq' with rfl | hq | hq
    · omega
    · have := hf.range q (List.mem_append_left _ hq)
      omega
    · have := hh.range q hq
      omega

/-- `InsertIntoParent` below the root: the new half goes into the parent, and the parent is in
focus. -/
theorem insertIntoParent_down {up : Ctx κ (h + 1) H} {no : Int} {left right : List (κ × Tree κ h)}
    {key : κ} {stale : Nat → κ} {old new : Tree κ h}
    (hh : Halves M order (.down up no left key right stale) old new) (rec : Int → IxM κ Unit) :
    ∃ M₁, KeepsLeaves M M₁ ∧ M₁.counter = M.counter ∧
      Focus M₁ order up
        ((Ctx.fill no left key right stale old).insert (new.slots.keyAt 0) new) ∧
      ∀ M', IxDoes (rec no) M₁ () M' →
        IxDoes (insertIntoParent old.no (new.slots.keyAt 0) new.no rec) M () M' := by
  have hf := hh.focus
  obtain ⟨oldPage, hold, holdparent, -, -⟩ := hf.tree.nodeAt
  -- the parent with its children, seen from above
  have hp : Focus M order up (Ctx.fill no left key right stale old) := Focus.of_plug hf.plug
  obtain ⟨⟨page, hpage, hparent, hleaf, hshows⟩, hkids⟩ := hp.tree
  have hn := hp.nodup_tree
  have hno : no ∈ (Ctx.fill no left key right stale old).nos := List.mem_cons_self
  let parent := Ctx.fill no left key right stale old
  have hnewno : ∀ q ∈ new.nos, q ∉ parent.nos ++ up.nos := by
    intro q hq hmem
    have hperm := Ctx.nos_plug (.down up no left key right stale) old
    have hperm' := Ctx.nos_plug up parent
    have hq' : q ∈ old.nos ++ (Ctx.down up no left key right stale).nos :=
      hperm.mem_iff.mp (hperm'.mem_iff.mpr hmem)
    exact (List.nodup_append.mp hh.nodup).2.2 q hq q hq' rfl
  obtain ⟨hlink, hpar⟩ := page.insert_fields (new.slots.keyAt 0) ⟨new.no, -1⟩
  let page' := page.insert (new.slots.keyAt 0) ⟨new.no, -1⟩
  have hsame : ∀ {q}, q ≠ no → (M.set no page').pages q = M.pages q :=
    fun hq => IxMem.set_pages_of_ne _ hq
  have hnos := Tree.nos_insert parent (new.slots.keyAt 0) new
  have hmemnos : ∀ q, q ∈ (parent.insert (new.slots.keyAt 0) new).nos →
      q ∈ parent.nos ∨ q ∈ new.nos := by
    intro q hq
    rcases hnos with heq | hperm
    · exact Or.inl (heq ▸ hq)
    · exact (List.mem_append.mp (hperm.mem_iff.mp hq)).symm
  have hnewne : ∀ q ∈ new.nos, q ≠ no := by
    rintro q hq rfl
    exact hnewno q hq (List.mem_append_left _ hno)
  refine ⟨M.set no page', .set hf.fresh hpage hlink, rfl,
    ⟨hp.ctx.congr fun q hq => .of_eq (hsame ?_), ⟨⟨page', IxMem.set_pages_self _, ?_, ?_, ?_⟩,
      fun e he => ?_⟩, ?_, fun q hq => ?_, fun q hq => ?_, hp.order, ?_⟩, fun M' hrec => ?_⟩
  · rintro rfl
    exact hp.notMem_ctx hno hq
  · exact hpar.trans hparent
  · exact (congrArg Prod.fst hlink).trans hleaf
  · rw [Tree.row_insert]
    exact hshows.insert _ _
  · -- a child of the parent, or the new one
    rcases Tree.mem_kids_insert he with he | rfl
    · refine (hkids e he).congr fun q hq => .of_eq (hsame ?_)
      exact Tree.ne_no_of_mem_kid hn he hq
    · exact hh.tree.congr fun q hq => .of_eq (hsame (hnewne q hq))
  · rcases hnos with heq | hperm
    · rw [heq]
      exact hp.nodup
    · rw [(hperm.append_right _).nodup_iff, List.append_assoc, List.nodup_append]
      refine ⟨(List.nodup_append.mp hh.nodup).1, hp.nodup, fun a ha b hb hab => ?_⟩
      exact hnewno a ha (hab ▸ hb)
  · rcases List.mem_append.mp hq with hq | hq
    · rcases hmemnos q hq with hq | hq
      · exact hp.range q (List.mem_append_left _ hq)
      · exact hh.range q hq
    · exact hp.range q (List.mem_append_right _ hq)
  · rw [hsame, hp.fresh q hq]
    rintro rfl
    have : q < M.counter := hp.lt_counter hno
    have hq' : M.counter ≤ q := hq
    omega
  · exact hp.root.trans (up.no_plug (show (parent.insert (new.slots.keyAt 0) new).no = parent.no
      from rfl)).symm
  · have hinvalid : oldPage.parent ≠ invalidPageId := by
      have hge : 2 ≤ no := (hp.range no (List.mem_append_left _ hno)).1
      intro h
      rw [h] at holdparent
      have h' : invalidPageId = no := holdparent
      have hval : invalidPageId = -1 := rfl
      omega
    have holdno : oldPage.parent = no := holdparent
    unfold insertIntoParent
    apply Does.bind (node_does hold)
    rw [if_neg hinvalid, holdno]
    apply Does.bind (fetchNode_does hpage)
    apply Does.bind (node_does hpage)
    apply Does.bind (setNode_does _ _)
    apply hrec.bind
    exact unpinPage_bind_does fun _ => Does.pure

/-- What `splitNodeIfFull` does first: nothing to a node with room, `Split` to a full one. -/
theorem splitNodeIfFull_does {c : Ctx κ h H} {t : Tree κ h} (hf : Focus M order c t) (fuel : Nat) :
    (t.slots.size ≠ order + 1 → IxDoes (splitNodeIfFull (fuel + 1) t.no) M () M) ∧
    (t.slots.size = order + 1 → ∀ {M₁ M₂ M₃ : IxMem κ} {new : Tree κ h} {page : IxPage κ},
      IxDoes (split t.no) M new.no M₁ → new.Holds M₁.pages c.parentNo →
      IxDoes (insertIntoParent t.no (new.slots.keyAt 0) new.no (splitNodeIfFull fuel)) M₁ () M₂ →
      M₂.pages t.no = some page →
      (page.isLeaf = true → IxDoes (updateLastLeaf t.no new.no) M₂ () M₃) →
      (page.isLeaf = false → M₃ = M₂) →
      IxDoes (splitNodeIfFull (fuel + 1) t.no) M () M₃) := by
  obtain ⟨page, hp, -, -, hshows⟩ := hf.tree.nodeAt
  have hsize : page.numKey = t.slots.size := hshows.numKey.trans (by rw [Tree.row, Slots.size_map])
  have hfull : page.isFull M.fileHdr = decide (t.slots.size = order + 1) := by
    show decide (page.numKey = M.fileHdr.btreeOrder + 1) = _
    rw [hsize, hf.order]
    norm_cast
  constructor
  · intro hne
    unfold splitNodeIfFull
    apply Does.get_bind
    rintro s rfl
    apply Does.bind (node_does hp)
    rw [show page.isFull s.fileHdr = _ from hfull, decide_eq_false hne, if_neg (by decide)]
    exact Does.pure
  · intro heq M₁ M₂ M₃ new page' hsplit hnew hinsert hpage' hleaf hinner
    -- `InsertIntoParent` gets the first key of the new half
    obtain ⟨newPage, hnp, -, -, hnshows⟩ := hnew.nodeAt
    have hkey : newPage.keys 0 = new.slots.keyAt 0 := by
      rw [hnshows.keys, Tree.row, Slots.keyAt_map]
    unfold splitNodeIfFull
    apply Does.get_bind
    rintro s rfl
    apply Does.bind (node_does hp)
    rw [show page.isFull s.fileHdr = _ from hfull, decide_eq_true heq, if_pos rfl]
    apply hsplit.bind
    apply Does.bind (node_does hnp)
    rw [hkey]
    apply hinsert.bind
    apply Does.bind (node_does hpage')
    cases hl : page'.isLeaf with
    | true =>
      rw [if_pos rfl]
      apply (hleaf hl).bind
      exact unpinPage_bind_does fun _ => unpinPage_bind_does fun _ => Does.pure
    | false =>
      rw [if_neg (by decide), hinner hl]
      exact Does.pure

/-- What `splitNodeIfFull` at an inner node does. -/
def SplitsUp (order fuel : Nat) (c : Ctx κ h H) : Prop :=
  ∀ (t : Tree κ h) (M : IxMem κ), Focus M order c t →
    ∃ M', IxDoes (splitNodeIfFull fuel t.no) M () M' ∧ KeepsLeaves M M' ∧
      M'.counter = (splitUp order c t M.counter).counter ∧
      Focus M' order .top (splitUp order c t M.counter).tree

/-- **`InsertIntoParent`** is `attach`, if the recursion does its part. -/
theorem insertIntoParent_attach {c : Ctx κ h H} {old new : Tree κ h} {fuel : Nat}
    (hh : Halves M order c old new)
    (hrec : ∀ up : Ctx κ (h + 1) H, up.depth < c.depth → SplitsUp order fuel up) :
    ∃ M', IxDoes (insertIntoParent old.no (new.slots.keyAt 0) new.no (splitNodeIfFull fuel)) M () M' ∧
      KeepsLeaves M M' ∧ M'.counter = (attach order c old new M.counter).counter ∧
      Focus M' order .top (attach order c old new M.counter).tree := by
  cases c with
  | top => exact insertIntoParent_top hh _
  | down up no left key right stale =>
    obtain ⟨M₁, hkeep₁, hc₁, hfocus₁, hrest⟩ := insertIntoParent_down hh (splitNodeIfFull fuel)
    obtain ⟨M₂, hdoes, hkeep₂, hc₂, hfocus₂⟩ := hrec up (Nat.lt_succ_self _) _ _ hfocus₁
    rw [hc₁] at hc₂ hfocus₂
    exact ⟨M₂, hrest M₂ hdoes, hkeep₁.trans hkeep₂, hc₂, hfocus₂⟩

/-- **`splitNodeIfFull` above the leaves** is `splitUp`, and terminates. -/
theorem splitNodeIfFull_inner : ∀ (fuel : Nat) {h H : Nat} (c : Ctx κ (h + 1) H), c.depth < fuel →
    SplitsUp order fuel c
  | 0, _, _, _, hfuel => absurd hfuel (Nat.not_lt_zero _)
  | fuel + 1, h, H, c, hfuel => by
    intro t M hf
    obtain ⟨hroom, hfull⟩ := splitNodeIfFull_does hf fuel
    by_cases hsize : t.slots.size = order + 1
    · obtain ⟨M₁, hsplit, hkeep, hcounter, hh⟩ := split_inner hf
      rw [splitUp_of_full hsize, ← hcounter]
      obtain ⟨M₂, hinsert, hkeep₂, hcounter₂, hfocus⟩ := insertIntoParent_attach hh
        fun up hup => splitNodeIfFull_inner fuel up (by omega)
      -- the node is still an inner node
      have hall := hkeep.trans hkeep₂
      obtain ⟨page, hp, -, hleaf, -⟩ := hf.tree.nodeAt
      have hlink := hall.old t.no (hf.lt_counter t.no_mem_nos)
      rw [hp] at hlink
      obtain ⟨page₂, hp₂, hlink₂⟩ := Option.map_eq_some_iff.mp hlink
      have hinner : page₂.isLeaf = false := (congrArg Prod.fst hlink₂).trans hleaf
      refine ⟨M₂, hfull hsize hsplit hh.tree hinsert hp₂ (fun h => ?_) (fun _ => rfl), hall, hcounter₂,
        hfocus⟩
      rw [hinner] at h
      cases h
    · rw [splitUp_of_not_full hsize]
      exact ⟨M, hroom hsize, .refl hf.fresh, rfl, hf.plug⟩

omit [LinearOrder κ] [Inhabited κ] in
theorem updateLastLeaf_does (p q : Int) :
    IxDoes (updateLastLeaf p q) M ()
      (M.setLast (if p = M.fileHdr.lastLeaf then q else M.fileHdr.lastLeaf)) := by
  unfold updateLastLeaf
  apply Does.get_bind
  rintro s rfl
  by_cases hlast : p = s.fileHdr.lastLeaf
  · rw [if_pos hlast, if_pos (show p = s.mem.fileHdr.lastLeaf from hlast)]
    exact setLastLeaf_does q
  · rw [if_neg hlast, if_neg (show ¬p = s.mem.fileHdr.lastLeaf from hlast)]
    exact Does.pure

/-- The memory of an index: a tree, and the chain of all leaf pages. -/
structure IndexOk (M : IxMem κ) (order : Nat) (T : Tree κ H) (leaves : List Int) : Prop where
  focus : Focus M order .top T
  chain : LeafChain M.pages leaves
  first : leaves.head? = some M.fileHdr.firstLeaf
  last : leaves.getLast? = some M.fileHdr.lastLeaf

omit [LinearOrder κ] [Inhabited κ] in
/-- A leaf of the tree is on the chain. -/
theorem LeafChain.mem_of_focus {c : Ctx κ 0 H} {t : Tree κ 0} {leaves : List Int}
    (hchain : LeafChain M.pages leaves) (hf : Focus M order c t) : t.no ∈ leaves := by
  obtain ⟨page, hp, -, hleaf, -⟩ := hf.tree
  have hge := (hf.range t.no (List.mem_append_left _ t.no_mem_nos)).1
  rcases List.mem_cons.mp ((hchain.mem_iff t.no).mpr ⟨page, hp, hleaf⟩) with hone | hmem
  · rw [hone] at hge
    exact absurd hge (by decide)
  · exact hmem

/-- The chain after an insert that ends at a leaf: a split leaf is followed by the new one. -/
def chainAfter (order : Nat) (t : Tree κ 0) (counter : Int) (A B : List Int) : List Int :=
  if t.slots.size = order + 1 then A ++ t.no :: counter :: B else A ++ t.no :: B

/-- **`splitNodeIfFull` at a leaf** is `splitUp`, and the new leaf joins the chain. -/
theorem splitNodeIfFull_leaf {c : Ctx κ 0 H} {t : Tree κ 0} {A B : List Int} {fuel : Nat}
    (hf : Focus M order c t) (hchain : LeafChain M.pages (A ++ t.no :: B))
    (hfirst : (A ++ t.no :: B).head? = some M.fileHdr.firstLeaf)
    (hlast : (A ++ t.no :: B).getLast? = some M.fileHdr.lastLeaf) (hfuel : c.depth < fuel) :
    ∃ M', IxDoes (splitNodeIfFull fuel t.no) M () M' ∧
      M'.counter = (splitUp order c t M.counter).counter ∧
      IndexOk M' order (splitUp order c t M.counter).tree (chainAfter order t M.counter A B) := by
  obtain ⟨fuel, rfl⟩ := Nat.exists_eq_succ_of_ne_zero (show fuel ≠ 0 by omega)
  obtain ⟨hroom, hfull⟩ := splitNodeIfFull_does hf fuel
  unfold chainAfter
  by_cases hsize : t.slots.size = order + 1
  · rw [if_pos hsize, splitUp_of_full hsize]
    obtain ⟨M₁, hsplit, hcounter, ⟨n, hhdr⟩, hfd, hchain₁, hh⟩ := split_leaf hf hchain
    rw [← hcounter]
    obtain ⟨M₂, hinsert, hkeep₂, hcounter₂, hfocus⟩ := insertIntoParent_attach hh
      fun up hup => splitNodeIfFull_inner fuel up (by omega)
    have hchain₂ := hchain₁.keep hh.focus.fresh hkeep₂
    obtain ⟨page₂, hp₂, hleaf₂⟩ := (hchain₂.mem_iff t.no).mp (by simp)
    obtain ⟨n₂, hhdr₂⟩ := hkeep₂.hdr
    have hlast₂ : M₂.fileHdr.lastLeaf = M.fileHdr.lastLeaf := by rw [hhdr₂, hhdr]
    have hfirst₂ : M₂.fileHdr.firstLeaf = M.fileHdr.firstLeaf := by rw [hhdr₂, hhdr]
    refine ⟨_, hfull hsize hsplit hh.tree hinsert hp₂ (fun _ => updateLastLeaf_does t.no M.counter)
      (fun h => ?_), hcounter₂, hfocus.setLast _, hchain₂, ?_, ?_⟩
    · rw [hleaf₂] at h
      cases h
    · show _ = some M₂.fileHdr.firstLeaf
      rw [hfirst₂, ← hfirst]
      cases A with
      | nil => rfl
      | cons a A => rfl
    · show _ = some (if t.no = M₂.fileHdr.lastLeaf then M.counter else M₂.fileHdr.lastLeaf)
      rw [hlast₂]
      cases B with
      | nil =>
        rw [List.getLast?_append_cons] at hlast ⊢
        have hno : t.no = M.fileHdr.lastLeaf := Option.some.inj hlast
        rw [if_pos hno]
        rfl
      | cons b B =>
        have hsame : (A ++ t.no :: M.counter :: b :: B).getLast? =
            (A ++ t.no :: b :: B).getLast? := by
          rw [List.getLast?_append_cons, List.getLast?_append_cons, List.getLast?_cons_cons,
            List.getLast?_cons_cons, List.getLast?_cons_cons]
        rw [hsame, hlast, if_neg]
        -- the last leaf is behind the node
        intro heq
        rw [List.getLast?_append_cons, List.getLast?_cons_cons, ← heq] at hlast
        have hmem := List.mem_of_getLast? hlast
        have hnodup := hchain.ring.nodup
        simp only [List.nodup_cons, List.nodup_append] at hnodup
        exact hnodup.2.2.1.1 hmem
  · rw [if_neg hsize, splitUp_of_not_full hsize]
    exact ⟨M, hroom hsize, rfl, hf.plug, hchain, hfirst, hlast⟩

end Attach

end Rucbase
