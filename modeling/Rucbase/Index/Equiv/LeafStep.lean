import Rucbase.Index.Equiv.MaintainParent
import Rucbase.Index.Equiv.RangeScan

/-!
# A leaf that has become too small

`CoalesceOrRedistribute` at a leaf that has lost an entry: the leaf borrows an entry from the leaf
beside it, or the two are merged into the left one (`coalesceOrRedistribute_leaf`).  The two leaves
are neighbours under one parent; the leaf that is too small is the right one, or the left one if it
is the first child.
-/

namespace Rucbase

open EStateM IxIndexHandle

variable {κ : Type} {H : Nat}

/-- A tree in memory whose leaves are chained from left to right. -/
structure ChainedTree {h : Nat} (M : IxMem κ) (order : Nat) (T : Tree κ h) : Prop where
  held : Held M order .top T
  ring : LinkRing (nextOf M.pages) (prevOf M.pages) ixLeafHeaderPage T.leaves
  first : T.leaves.head? = some M.fileHdr.firstLeaf
  last : T.leaves.getLast? = some M.fileHdr.lastLeaf

/-- A parent of leaves with two neighbouring children. -/
abbrev twins (no : Int) (pre : List (κ × Tree κ 0)) (kl : κ) (L : Tree κ 0) (kr : κ) (R : Tree κ 0)
    (post : List (κ × Tree κ 0)) (stale : Nat → κ) : Tree κ 1 :=
  ⟨no, ⟨pre ++ (kl, L) :: (kr, R) :: post, stale⟩⟩

/-! ### Trees in memory -/

theorem Held.plug_iff {h : Nat} {M : IxMem κ} {order : Nat} {c : Ctx κ h H} {t : Tree κ h} :
    Held M order c t ↔ Held M order .top (c.plug t) := by
  induction c with
  | top => exact Iff.rfl
  | down up no left key right stale ih => exact Held.down_iff.trans ih

section Twins

variable {M : IxMem κ} {order : Nat} {c : Ctx κ 1 H} {no : Int} {pre post : List (κ × Tree κ 0)}
  {kl kr : κ} {L R : Tree κ 0} {stale : Nat → κ}

theorem held_twins_left : Held M order c (twins no pre kl L kr R post stale) ↔
    Held M order (.down c no pre kl ((kr, R) :: post) stale) L := Held.down_iff.symm

theorem held_twins_right : Held M order c (twins no pre kl L kr R post stale) ↔
    Held M order (.down c no (pre ++ [(kl, L)]) kr post stale) R := by
  rw [Held.down_iff]
  unfold Ctx.fill
  rw [List.append_assoc, List.singleton_append]

/-- A leaf gets other slots; its parent field and its flag stay. -/
theorem Held.set_leaf {c : Ctx κ 0 H} {t : Tree κ 0} (hh : Held M order c t) {page page' : IxPage κ}
    {s : Slots κ Rid} (hp : M.pages t.no = some page) (hparent : page'.parent = page.parent)
    (hleaf : page'.isLeaf = page.isLeaf) (hshows : page'.Shows s) :
    Held (M.set t.no page') order c ⟨t.no, s⟩ := by
  obtain ⟨page₀, hp₀, hparent₀, hleaf₀, -⟩ := hh.tree
  obtain rfl : page = page₀ := Option.some.inj (hp.symm.trans hp₀)
  have hno : (c.plug ⟨t.no, s⟩).no = (c.plug t).no := c.no_plug rfl
  refine ⟨hh.ctx.congr fun q hq => .of_eq (IxMem.set_pages_of_ne _ ?_),
    ⟨page', IxMem.set_pages_self _, hparent.trans hparent₀, hleaf.trans hleaf₀, ?_⟩, hh.nodup,
    hh.range, hh.order, hh.root.trans hno.symm⟩
  · rintro rfl
    exact hh.notMem_ctx t.no_mem_nos hq
  · rw [Tree.row_leaf]
    exact hshows

/-- The pages of the two leaves and of their parent. -/
structure TwinPages (M : IxMem κ) (no : Int) (pre : List (κ × Tree κ 0)) (L R : Tree κ 0)
    (parentPage pageL pageR : IxPage κ) : Prop where
  parent : M.pages no = some parentPage
  left : M.pages L.no = some pageL
  right : M.pages R.no = some pageR
  parent_inner : parentPage.isLeaf = false
  left_leaf : pageL.isLeaf = true
  right_leaf : pageR.isLeaf = true
  left_parent : pageL.parent = no
  right_parent : pageR.parent = no
  left_shows : pageL.Shows L.slots
  right_shows : pageR.Shows R.slots
  left_find : parentPage.findChild L.no = some (pre.length : Int)
  right_find : parentPage.findChild R.no = some ((pre.length + 1 : Nat) : Int)
  ne : L.no ≠ R.no
  left_ne : L.no ≠ no
  right_ne : R.no ≠ no
  ge : 2 ≤ no

theorem Held.twinPages (hh : Held M order c (twins no pre kl L kr R post stale)) :
    ∃ parentPage pageL pageR, TwinPages M no pre L R parentPage pageL pageR := by
  have hl := held_twins_left.mp hh
  have hr := held_twins_right.mp hh
  obtain ⟨parentPage, hparent, -, hinner, -, hfindL, -⟩ := hl.parent
  obtain ⟨parentPage', hparent', -, -, -, hfindR, -⟩ := hr.parent
  obtain rfl : parentPage = parentPage' := Option.some.inj (hparent.symm.trans hparent')
  obtain ⟨pageL, hpl, hplp, hpll, hshowsL⟩ := hl.tree
  obtain ⟨pageR, hpr, hprp, hprl, hshowsR⟩ := hr.tree
  rw [Tree.row_leaf] at hshowsL hshowsR
  rw [List.length_append, List.length_singleton] at hfindR
  have hneR : R.no ∉ (Ctx.down c no (pre ++ [(kl, L)]) kr post stale).nos :=
    hr.notMem_ctx R.no_mem_nos
  have hneL : L.no ∉ (Ctx.down c no pre kl ((kr, R) :: post) stale).nos :=
    hl.notMem_ctx L.no_mem_nos
  refine ⟨parentPage, pageL, pageR, hparent, hpl, hpr, hinner, hpll, hprl, hplp, hprp, hshowsL,
    hshowsR, hfindL, hfindR, ?_, ?_, ?_, hh.range no (List.mem_append_left _ List.mem_cons_self)⟩
  · intro heq
    refine hneR (List.mem_append_left _ (List.mem_cons_of_mem _ ?_))
    refine List.mem_flatMap.mpr ⟨(kl, L), by simp, ?_⟩
    rw [← heq]
    exact L.no_mem_nos
  · intro heq
    exact hneL (heq ▸ List.mem_cons_self)
  · intro heq
    exact hneR (heq ▸ List.mem_cons_self)

/-- The two leaves get other slots. -/
theorem Held.set_twins (hh : Held M order c (twins no pre kl L kr R post stale))
    {parentPage pageL pageR pageL' pageR' : IxPage κ}
    (hp : TwinPages M no pre L R parentPage pageL pageR) (hlinkL : pageL'.link = pageL.link)
    (hlinkR : pageR'.link = pageR.link) (hparentL : pageL'.parent = pageL.parent)
    (hparentR : pageR'.parent = pageR.parent) {l r : Slots κ Rid} (hshowsL : pageL'.Shows l)
    (hshowsR : pageR'.Shows r) :
    Held ((M.set L.no pageL').set R.no pageR') order c
        (twins no pre kl ⟨L.no, l⟩ kr ⟨R.no, r⟩ post stale) ∧
      KeepsLinks M ((M.set L.no pageL').set R.no pageR') := by
  have hleft := (held_twins_left.mp hh).set_leaf hp.left hparentL (congrArg Prod.fst hlinkL) hshowsL
  have hright : (M.set L.no pageL').pages R.no = some pageR := by
    rw [IxMem.set_pages_of_ne _ hp.ne.symm, hp.right]
  have hheld := (held_twins_right.mp (held_twins_left.mpr hleft)).set_leaf hright hparentR
    (congrArg Prod.fst hlinkR) hshowsR
  refine ⟨held_twins_right.mpr hheld, ?_⟩
  have hlinks : KeepsLinks M (M.set L.no pageL') := .set hp.left hlinkL
  exact hlinks.trans (.set hright hlinkR)

variable [DecidableEq κ]

/-- The path above the parent when the key `k` was written for the right one of two neighbours: the
first key of the parent has gone further up, unless the key was there already. -/
def Ctx.carry (c : Ctx κ 1 H) (pre : List (κ × Tree κ 0)) (kl kr k : κ) : Ctx κ 1 H :=
  if kr = k then c else c.maintain (firstKey pre kl)

omit [DecidableEq κ] in
theorem Ctx.firstKey_append (pre : List (κ × Tree κ 0)) (kl k : κ) (L : Tree κ 0) :
    firstKey (pre ++ [(kl, L)]) k = firstKey pre kl := by
  cases pre with
  | nil => rfl
  | cons e pre => rfl

theorem Ctx.rekeyed_carry (c : Ctx κ 1 H) (pre : List (κ × Tree κ 0)) (kl kr k : κ) :
    c.Rekeyed (c.carry pre kl kr k) := by
  unfold carry
  split_ifs
  · exact .refl c
  · exact c.rekeyed_maintain _

theorem Ctx.maintain_twins (c : Ctx κ 1 H) (no : Int) (pre : List (κ × Tree κ 0)) (kl : κ)
    (L : Tree κ 0) (kr : κ) (post : List (κ × Tree κ 0)) (stale : Nat → κ) (k : κ) :
    (Ctx.down c no (pre ++ [(kl, L)]) kr post stale).maintain k =
      .down (c.carry pre kl kr k) no (pre ++ [(kl, L)]) k post stale := by
  rw [maintain, carry, firstKey_append]
  split_ifs with hkey
  · rw [hkey]
  · rfl

/-- `maintain_parent` at the right leaf: its first key goes into the parent. -/
theorem maintainParent_twins (hh : Held M order c (twins no pre kl L kr R post stale)) {fuel : Nat}
    (hfuel : c.depth + 1 < fuel) :
    ∃ M' : IxMem κ, IxDoes (maintainParent fuel R.no) M () M' ∧ KeepsLinks M M' ∧
      Held M' order (c.carry pre kl kr (R.slots.keyAt 0))
        (twins no pre kl L (R.slots.keyAt 0) R post stale) := by
  obtain ⟨M', hdoes, hchanges, hheld⟩ := maintainParent_does _ (held_twins_right.mp hh) hfuel
  rw [Ctx.maintain_twins] at hheld
  exact ⟨M', hdoes, hchanges.keepsLinks, held_twins_right.mpr hheld⟩

end Twins

/-! ### Borrowing an entry -/

section Redistribute

variable [LinearOrder κ] {M : IxMem κ} {order : Nat} {c : Ctx κ 1 H} {no : Int}
  {pre post : List (κ × Tree κ 0)} {kl kr : κ} {L R : Tree κ 0} {stale : Nat → κ}
  {parentPage pageL pageR : IxPage κ} {fuel : Nat} {e : κ × Rid}

/-- **`Redistribute`** when the right leaf is too small: it gets the last entry of the left one. -/
theorem redistribute_right (hh : Held M order c (twins no pre kl L kr R post stale))
    (hp : TwinPages M no pre L R parentPage pageL pageR) {l : List (κ × Rid)}
    (hl : L.slots.entries = l ++ [e]) {index : Int} (hindex : index ≠ 0) (hfuel : c.depth + 1 < fuel) :
    ∃ (M' : IxMem κ) (L' R' : Tree κ 0),
      IxDoes (redistribute fuel L.no R.no index) M () M' ∧ KeepsLinks M M' ∧
      Held M' order (c.carry pre kl kr (R'.slots.keyAt 0))
        (twins no pre kl L' (R'.slots.keyAt 0) R' post stale) ∧
      L'.no = L.no ∧ R'.no = R.no ∧ L'.slots.entries = l ∧
      R'.slots.entries = e :: R.slots.entries := by
  have hsize : L.slots.size = l.length + 1 := by
    show L.slots.entries.length = _
    rw [hl, List.length_append, List.length_singleton]
  have hget : L.slots.entries[l.length]? = some e := by
    rw [hl, List.getElem?_append_right (le_refl _), Nat.sub_self]
    rfl
  have hpos : (pageL.numKey - 1).toNat = l.length := by
    rw [hp.left_shows.numKey, hsize]
    omega
  have hkey : pageL.keys (pageL.numKey - 1).toNat = e.1 := by
    rw [hpos, hp.left_shows.keys, Slots.keyAt_of_getElem? hget]
  have hrid : pageL.rids (pageL.numKey - 1).toNat = e.2 := by
    rw [hpos, hp.left_shows.rids hget]
  have hpos' : pageL.numKey - 1 = (l.length : Int) := by
    rw [hp.left_shows.numKey, hsize]
    omega
  have hshowsL := hp.left_shows.erasePair (show l.length < L.slots.size by omega)
  have hshowsR := hp.right_shows.insertPair (k := e.1) (v := e.2) (Nat.zero_le _)
  obtain ⟨hlinkR, hparentR⟩ := pageR.insertPairs_fields 0 (fun _ => e.1) (fun _ => e.2) 1
  have hlinkL : (pageL.erasePair (l.length : Int)).link = pageL.link := rfl
  -- the last entry of the left leaf becomes the first of the right one
  obtain ⟨hheld, hlinks⟩ := hh.set_twins hp hlinkL hlinkR rfl hparentR hshowsL hshowsR
  obtain ⟨M', hdoes, hlinks', hheld'⟩ := maintainParent_twins hheld hfuel
  refine ⟨M', _, _, ?_, hlinks.trans hlinks', hheld', rfl, rfl, ?_, ?_⟩
  · unfold redistribute
    apply Does.bind (node_does hp.left)
    apply Does.bind (node_does hp.right)
    rw [if_pos hindex]
    simp only [hkey, hrid]
    rw [hpos']
    apply Does.bind (setNode_does _ _)
    apply Does.bind (setNode_does _ _)
    rw [IxMem.set_comm _ hp.ne.symm]
    apply Does.bind (maintainChild_leaf_does (IxMem.set_pages_self _)
      ((congrArg Prod.fst hlinkR).trans hp.right_leaf))
    exact hdoes
  · show L.slots.entries.eraseIdx l.length = l
    rw [hl, List.eraseIdx_append_of_length_le (le_refl _), Nat.sub_self]
    exact List.append_nil l
  · rfl

/-- **`Redistribute`** when the left leaf is too small: it gets the first entry of the right one. -/
theorem redistribute_left (hh : Held M order c (twins no pre kl L kr R post stale))
    (hp : TwinPages M no pre L R parentPage pageL pageR) {r : List (κ × Rid)}
    (hr : R.slots.entries = e :: r) (hfuel : c.depth + 1 < fuel) :
    ∃ (M' : IxMem κ) (L' R' : Tree κ 0),
      IxDoes (redistribute fuel R.no L.no 0) M () M' ∧ KeepsLinks M M' ∧
      Held M' order (c.carry pre kl kr (R'.slots.keyAt 0))
        (twins no pre kl L' (R'.slots.keyAt 0) R' post stale) ∧
      L'.no = L.no ∧ R'.no = R.no ∧ L'.slots.entries = L.slots.entries ++ [e] ∧
      R'.slots.entries = r := by
  have hget : R.slots.entries[0]? = some e := by
    rw [hr]
    rfl
  have hkey : pageR.keys 0 = e.1 := by
    rw [hp.right_shows.keys, Slots.keyAt_of_getElem? hget]
  have hrid : pageR.rids 0 = e.2 := hp.right_shows.rids hget
  have hsize : 0 < R.slots.size := by
    show 0 < R.slots.entries.length
    rw [hr]
    exact Nat.succ_pos _
  have hshowsL := hp.left_shows.insertPair (k := e.1) (v := e.2) (le_refl L.slots.size)
  have hshowsR := hp.right_shows.erasePair hsize
  rw [← hp.left_shows.numKey] at hshowsL
  obtain ⟨hlinkL, hparentL⟩ :=
    pageL.insertPairs_fields pageL.numKey (fun _ => e.1) (fun _ => e.2) 1
  have hlinkR : (pageR.erasePair ((0 : Nat) : Int)).link = pageR.link := rfl
  obtain ⟨hheld, hlinks⟩ := hh.set_twins hp hlinkL hlinkR hparentL rfl hshowsL hshowsR
  obtain ⟨M', hdoes, hlinks', hheld'⟩ := maintainParent_twins hheld hfuel
  refine ⟨M', _, _, ?_, hlinks.trans hlinks', hheld', rfl, rfl, ?_, ?_⟩
  · unfold redistribute
    apply Does.bind (node_does hp.right)
    apply Does.bind (node_does hp.left)
    rw [if_neg (not_not.mpr rfl)]
    simp only [hkey, hrid]
    apply Does.bind (setNode_does _ _)
    apply Does.bind (setNode_does _ _)
    have hleft : ((M.set L.no (pageL.insertPair pageL.numKey e.1 e.2)).set R.no
        (pageR.erasePair 0)).pages L.no = some (pageL.insertPair pageL.numKey e.1 e.2) := by
      rw [IxMem.set_pages_of_ne _ hp.ne, IxMem.set_pages_self]
    apply Does.bind (maintainChild_leaf_does hleft
      ((congrArg Prod.fst hlinkL).trans hp.left_leaf))
    exact hdoes
  · show L.slots.entries.insertIdx L.slots.size (e.1, e.2) = _
    exact List.insertIdx_length_self
  · show R.slots.entries.eraseIdx 0 = r
    rw [hr]
    rfl

end Redistribute

/-! ### Merging two leaves -/

section Coalesce

variable {M : IxMem κ}

/-- `erase_leaf`: the leaf before and the leaf after are linked to each other. -/
theorem eraseLeaf_does {q p x : Int} {page prev next : IxPage κ} (hq : M.pages q = some page)
    (hleaf : page.isLeaf = true) (hp : M.pages p = some prev) (hprev : page.prevLeaf = p)
    (hx : M.pages x = some next) (hnext : page.nextLeaf = x) (hqp : q ≠ p) (hxp : x ≠ p) :
    IxDoes (eraseLeaf q) M ()
      ((M.set p { prev with nextLeaf := x }).set x { next with prevLeaf := p }) := by
  unfold eraseLeaf
  apply Does.bind (node_does hq)
  rw [if_pos hleaf, hprev, hnext]
  apply Does.bind (fetchNode_does hp)
  apply Does.bind (node_does hp)
  apply Does.bind (setNode_does _ _)
  apply unpinPage_bind_does
  intro _
  have hq' : (M.set p { prev with nextLeaf := x }).pages q = some page := by
    rw [IxMem.set_pages_of_ne _ hqp, hq]
  have hx' : (M.set p { prev with nextLeaf := x }).pages x = some next := by
    rw [IxMem.set_pages_of_ne _ hxp, hx]
  apply Does.bind (node_does hq')
  rw [hprev, hnext]
  apply Does.bind (fetchNode_does hx')
  apply Does.bind (node_does hx')
  apply Does.bind (setNode_does _ _)
  exact unpinPage_bind_does fun _ => Does.pure

/-- The memory in which `Coalesce` goes on with the parent: the right leaf `r` was merged into the
left leaf `l`, and the leaf after it is `x`. -/
def IxMem.merge (M : IxMem κ) (no : Int) (index : Nat) (l r x : Int)
    (parentPage pageL pageR next : IxPage κ) : IxMem κ :=
  ((((M.setLast (if r = M.fileHdr.lastLeaf then l else M.fileHdr.lastLeaf)).set l
    { pageL.insertPairs pageL.numKey pageR.keys pageR.rids pageR.numKey with nextLeaf := x }).set x
      { next with prevLeaf := l }).release).set no (parentPage.erasePair index)

/-- **`Coalesce`** up to the recursive call, for leaves. -/
theorem coalesce_reaches {no l r x neighbor q index : Int} {i : Nat}
    {parentPage pageL pageR next : IxPage κ} (hno : M.pages no = some parentPage)
    (hl : M.pages l = some pageL) (hr : M.pages r = some pageR) (hx : M.pages x = some next)
    (hleafL : pageL.isLeaf = true) (hleafR : pageR.isLeaf = true) (hprev : pageR.prevLeaf = l)
    (hnext : pageR.nextLeaf = x) (hlr : l ≠ r) (hxl : x ≠ l) (hln : l ≠ no) (hxn : x ≠ no)
    (hswap : (if index = 0 then (q, neighbor, index + 1) else (neighbor, q, index)) =
      (l, r, (i : Int))) (rec : Int → IxM κ Bool) :
    Reaches IxIndex.mem (coalesce neighbor q no index rec) M
      (rec no >>= fun b => pure (l, b)) (M.merge no i l r x parentPage pageL pageR next) := by
  let pageL' := pageL.insertPairs pageL.numKey pageR.keys pageR.rids pageR.numKey
  obtain ⟨hlink, -⟩ := pageL.insertPairs_fields pageL.numKey pageR.keys pageR.rids pageR.numKey
  have hleafL' : pageL'.isLeaf = true := (congrArg Prod.fst hlink).trans hleafL
  unfold coalesce
  rw [hswap]
  apply Reaches.trans (Reaches.of_does (node_does hl))
  apply Reaches.trans (Reaches.of_does (node_does hr))
  apply Reaches.trans (Reaches.of_does (setNode_does _ _))
  apply Reaches.trans (Reaches.of_does
    (maintainChildren_leaf_does (IxMem.set_pages_self M) hleafL' _ _))
  apply Reaches.get_bind
  intro s hs
  have hlast : s.fileHdr.lastLeaf = M.fileHdr.lastLeaf :=
    congrArg (fun m : IxMem κ => m.fileHdr.lastLeaf) hs
  rw [hlast]
  -- what is left once `last_leaf` is right
  let M₁ := (M.setLast (if r = M.fileHdr.lastLeaf then l else M.fileHdr.lastLeaf)).set l pageL'
  have hr₁ : M₁.pages r = some pageR := (IxMem.set_pages_of_ne _ hlr.symm).trans hr
  have hx₁ : M₁.pages x = some next := (IxMem.set_pages_of_ne _ hxl).trans hx
  have herase := eraseLeaf_does hr₁ hleafR (IxMem.set_pages_self _) hprev hx₁ hnext hlr.symm hxl
  rw [IxMem.set_set] at herase
  have hrest : Reaches IxIndex.mem (do
      eraseLeaf r
      releaseNodeHandle
      let parentPage ← node no
      setNode no (parentPage.erasePair i)
      let b ← rec no
      return (l, b)) M₁ (rec no >>= fun b => pure (l, b))
      (M.merge no i l r x parentPage pageL pageR next) := by
    apply Reaches.trans (Reaches.of_does herase)
    apply Reaches.trans (Reaches.of_does releaseNodeHandle_does)
    -- neither of the two leaves is the parent
    refine Reaches.trans (Reaches.of_does (node_does ?_)) (Reaches.of_does (setNode_does _ _))
    refine (IxMem.set_pages_of_ne _ hxn.symm).trans ?_
    exact (IxMem.set_pages_of_ne _ hln.symm).trans hno
  by_cases hr_last : r = M.fileHdr.lastLeaf
  · rw [if_pos hr_last]
    have hM₁ : (M.set l pageL').setLast l = M₁ := by
      show _ = (M.setLast (if r = M.fileHdr.lastLeaf then l else M.fileHdr.lastLeaf)).set l pageL'
      rw [if_pos hr_last]
      rfl
    apply Reaches.trans (Reaches.of_does (setLastLeaf_does l))
    rw [hM₁]
    exact hrest
  · rw [if_neg hr_last]
    have hM₁ : M.set l pageL' = M₁ := by
      show _ = (M.setLast (if r = M.fileHdr.lastLeaf then l else M.fileHdr.lastLeaf)).set l pageL'
      rw [if_neg hr_last]
      rfl
    rw [hM₁]
    exact hrest

theorem IxMem.merge_pages (no : Int) (index : Nat) (l r x : Int)
    (parentPage pageL pageR next : IxPage κ) (q : Int) :
    (M.merge no index l r x parentPage pageL pageR next).pages q =
      if q = no then some (parentPage.erasePair index)
      else if q = x then some { next with prevLeaf := l }
      else if q = l then
        some { pageL.insertPairs pageL.numKey pageR.keys pageR.rids pageR.numKey with nextLeaf := x }
      else M.pages q := by
  simp only [merge, release, set, setLast, Function.update_apply]

end Coalesce

section Merge

variable {M : IxMem κ} {order : Nat} {c : Ctx κ 1 H} {no : Int} {pre post : List (κ × Tree κ 0)}
  {kl kr : κ} {L R : Tree κ 0} {stale : Nat → κ} {parentPage pageL pageR next : IxPage κ} {x : Int}

/-- The leaves of a tree, seen from a parent of leaves. -/
theorem Ctx.leaves_plug (c : Ctx κ 1 H) (t : Tree κ 1) :
    (c.plug t).leaves = c.before (fun leaf => [leaf.no]) ++ (t.kids.map fun e => e.2.no) ++
      c.after fun leaf => [leaf.no] := by
  unfold Tree.leaves
  rw [Ctx.collect_plug]
  show _ ++ List.flatMap (fun e : κ × Tree κ 0 => [e.2.no]) t.kids ++ _ = _
  rw [List.map_eq_flatMap]

/-- The leaves before the two. -/
def Ctx.leavesBefore (c : Ctx κ 1 H) (pre : List (κ × Tree κ 0)) : List Int :=
  c.before (fun leaf => [leaf.no]) ++ pre.map fun e => e.2.no

/-- The leaves after the two. -/
def Ctx.leavesAfter (c : Ctx κ 1 H) (post : List (κ × Tree κ 0)) : List Int :=
  (post.map fun e => e.2.no) ++ c.after fun leaf => [leaf.no]

theorem leaves_twins : (c.plug (twins no pre kl L kr R post stale)).leaves =
    c.leavesBefore pre ++ L.no :: R.no :: c.leavesAfter post := by
  rw [Ctx.leaves_plug]
  show _ ++ List.map _ (pre ++ (kl, L) :: (kr, R) :: post) ++ _ = _
  simp only [Ctx.leavesBefore, Ctx.leavesAfter, List.map_append, List.map_cons, List.append_assoc,
    List.cons_append]

/-- The links at the two leaves, and the page after them. -/
structure TwinLinks (M : IxMem κ) (no : Int) (L R : Tree κ 0) (pageL pageR : IxPage κ) (x : Int)
    (next : IxPage κ) : Prop where
  left_next : pageL.nextLeaf = R.no
  right_prev : pageR.prevLeaf = L.no
  right_next : pageR.nextLeaf = x
  page : M.pages x = some next
  ne_left : x ≠ L.no
  ne_parent : x ≠ no

theorem ChainedTree.twinLinks
    (hT : ChainedTree M order (c.plug (twins no pre kl L kr R post stale)))
    (hp : TwinPages M no pre L R parentPage pageL pageR) :
    ∃ x next, TwinLinks M no L R pageL pageR x next := by
  have hring := hT.ring
  rw [leaves_twins] at hring
  obtain ⟨y, C, hC, -, hleft, -⟩ := hring.split
  obtain rfl : R.no = y := (List.cons.inj hC).1
  have hring' := hring
  rw [← List.singleton_append, ← List.append_assoc] at hring'
  obtain ⟨x, D, hD, -, hright, -⟩ := hring'.split
  obtain ⟨next, hx, -⟩ := Option.map_eq_some_iff.mp hright.2
  have hnextL : pageL.nextLeaf = R.no := by
    have := hleft.1
    rw [nextOf, hp.left] at this
    exact Option.some.inj this
  have hprevR : pageR.prevLeaf = L.no := by
    have := hleft.2
    rw [prevOf, hp.right] at this
    exact Option.some.inj this
  have hnextR : pageR.nextLeaf = x := by
    have := hright.1
    rw [nextOf, hp.right] at this
    exact Option.some.inj this
  -- the page after is a leaf to the right, or the leaf header
  have hmem : x ∈ c.leavesAfter post ∨ x = ixLeafHeaderPage := by
    have : x ∈ c.leavesAfter post ++ [ixLeafHeaderPage] := by
      rw [hD]
      exact List.mem_cons_self
    simpa using this
  refine ⟨x, next, hnextL, hprevR, hnextR, hx, ?_, ?_⟩
  · rintro rfl
    have hnodup := hring.nodup
    simp only [List.nodup_cons, List.mem_append, List.mem_cons, List.nodup_append] at hnodup
    grind
  · rintro rfl
    rcases hmem with hmem | rfl
    · have hleaf : x ∈ (c.plug (twins x pre kl L kr R post stale)).leaves := by
        rw [leaves_twins]
        simp [hmem]
      obtain ⟨c', t, hplug, ht⟩ := Tree.exists_leaf_of_mem_collect _ .top hleaf
      obtain rfl := List.mem_singleton.mp ht
      have hheld : Held M order c' t := by
        rw [Held.plug_iff, hplug]
        exact hT.held
      obtain ⟨page, hpage, -, hisLeaf, -⟩ := hheld.tree
      obtain rfl := Option.some.inj (hp.parent.symm.trans hpage)
      rw [hp.parent_inner] at hisLeaf
      cases hisLeaf
    · exact absurd hp.ge (by decide)

/-- What `Coalesce` leaves of the parent and the two leaves. -/
def mergedTree (no : Int) (pre : List (κ × Tree κ 0)) (kl : κ) (L R : Tree κ 0)
    (post : List (κ × Tree κ 0)) (stale : Nat → κ) : Tree κ 1 :=
  ⟨no, ⟨pre ++ (kl, ⟨L.no, L.slots.append R.slots⟩) :: post, fun j => stale (j - 1)⟩⟩

theorem leaves_mergedTree : (c.plug (mergedTree no pre kl L R post stale)).leaves =
    c.leavesBefore pre ++ L.no :: c.leavesAfter post := by
  rw [Ctx.leaves_plug]
  show _ ++ List.map _ (pre ++ (kl, _) :: post) ++ _ = _
  simp only [Ctx.leavesBefore, Ctx.leavesAfter, List.map_append, List.map_cons, List.append_assoc,
    List.cons_append]

/-- The slots of the parent without the right leaf. -/
theorem row_mergedTree (kr : κ) : (mergedTree no pre kl L R post stale).row =
    (twins no pre kl L kr R post stale).row.eraseAt (pre.length + 1) := by
  have herase : (mergedTree no pre kl L R post stale).slots = Slots.eraseAt
      ⟨pre ++ (kl, ⟨L.no, L.slots.append R.slots⟩) :: (kr, R) :: post, stale⟩ (pre.length + 1) := by
    unfold mergedTree Slots.eraseAt
    simp [List.eraseIdx_append]
  unfold Tree.row
  rw [herase, Slots.map_eraseAt]
  congr 1
  unfold Slots.map
  simp only [List.map_append, List.map_cons]
  rfl

/-- Only the parent and the left leaf get other bodies. -/
theorem sameBody_merge (hx : M.pages x = some next) (index : Nat) {l r q : Int} (hqn : q ≠ no)
    (hql : q ≠ l) :
    SameBody M.pages (M.merge no index l r x parentPage pageL pageR next).pages q := by
  unfold SameBody
  rw [IxMem.merge_pages, if_neg hqn, if_neg hql]
  by_cases hqx : q = x
  · subst hqx
    rw [if_pos rfl, hx]
    rfl
  · rw [if_neg hqx]

/-- The right leaf is the only page that leaves the tree. -/
theorem nos_mergedTree (kr : κ) : ((twins no pre kl L kr R post stale).nos ++ c.nos).Perm
    (R.no :: ((mergedTree no pre kl L R post stale).nos ++ c.nos)) := by
  show (no :: (pre ++ (kl, L) :: (kr, R) :: post).flatMap (fun e => Tree.nos e.2) ++ c.nos).Perm
    (R.no :: (no :: (pre ++ (kl, (⟨L.no, L.slots.append R.slots⟩ : Tree κ 0)) :: post).flatMap
      (fun e => Tree.nos e.2) ++ c.nos))
  rw [List.perm_iff_count]
  intro q
  simp only [List.flatMap_append, List.flatMap_cons, List.count_append, List.count_cons,
    List.cons_append, Tree.nos, List.count_nil]
  omega

/-- The merged leaf in memory. -/
theorem TwinPages.holds_merged (hp : TwinPages M no pre L R parentPage pageL pageR)
    (hxl : x ≠ L.no) (index : Nat) :
    Tree.Holds (M.merge no index L.no R.no x parentPage pageL pageR next).pages no
      (⟨L.no, L.slots.append R.slots⟩ : Tree κ 0) := by
  obtain ⟨hlink, hparent⟩ :=
    pageL.insertPairs_fields pageL.numKey pageR.keys pageR.rids pageR.numKey
  have hshows := hp.left_shows.insertPairs hp.right_shows
  refine ⟨{ pageL.insertPairs pageL.numKey pageR.keys pageR.rids pageR.numKey with nextLeaf := x }, ?_,
    hparent.trans hp.left_parent, (congrArg Prod.fst hlink).trans hp.left_leaf, ?_⟩
  · rw [IxMem.merge_pages, if_neg hp.left_ne, if_neg hxl.symm, if_pos rfl]
  · rw [Tree.row_leaf]
    exact ⟨hshows.numKey, hshows.keys, hshows.rids⟩

/-- **The tree after `Coalesce`** up to the recursive call. -/
theorem Held.merge (hh : Held M order c (twins no pre kl L kr R post stale))
    (hp : TwinPages M no pre L R parentPage pageL pageR) (hx : M.pages x = some next)
    (hxl : x ≠ L.no) :
    Held (M.merge no (pre.length + 1) L.no R.no x parentPage pageL pageR next) order c
      (mergedTree no pre kl L R post stale) := by
  obtain ⟨⟨page, hpage, hparent, hleaf, hshows⟩, hkids⟩ := hh.tree
  obtain rfl : parentPage = page := Option.some.inj (hp.parent.symm.trans hpage)
  have hnotL : L.no ∉ (Ctx.down c no pre kl ((kr, R) :: post) stale).nos :=
    (held_twins_left.mp hh).notMem_ctx L.no_mem_nos
  have hperm : ((twins no pre kl L kr R post stale).nos ++ c.nos).Perm
      (R.no :: ((mergedTree no pre kl L R post stale).nos ++ c.nos)) := nos_mergedTree kr
  -- the children that stay are the same in both memories
  have hold : ∀ e ∈ pre ++ post, Tree.Holds
      (M.merge no (pre.length + 1) L.no R.no x parentPage pageL pageR next).pages no e.2 := by
    intro e he
    have hmem : e ∈ (twins no pre kl L kr R post stale).kids := by
      show e ∈ pre ++ (kl, L) :: (kr, R) :: post
      simp only [List.mem_append, List.mem_cons] at he ⊢
      tauto
    refine (hkids e hmem).congr fun q hq => sameBody_merge hx _ ?_ ?_
    · exact Tree.ne_no_of_mem_kid hh.nodup_tree hmem hq
    · rintro rfl
      refine hnotL (List.mem_append_left _ (List.mem_cons_of_mem _ ?_))
      refine List.mem_flatMap.mpr ⟨e, ?_, hq⟩
      simp only [List.mem_append, List.mem_cons] at he ⊢
      tauto
  refine ⟨hh.ctx.congr fun q hq => sameBody_merge hx _ ?_ ?_,
    ⟨⟨parentPage.erasePair (pre.length + 1 : Nat), ?_, hparent, hleaf, ?_⟩, fun e he => ?_⟩, ?_,
    fun q hq => ?_, hh.order, ?_⟩
  · rintro rfl
    exact hh.notMem_ctx List.mem_cons_self hq
  · rintro rfl
    exact hnotL (List.mem_append_right _ hq)
  · show (M.merge ..).pages no = _
    rw [IxMem.merge_pages, if_pos rfl]
  · rw [row_mergedTree kr]
    refine hshows.erasePair ?_
    show pre.length + 1 < (List.map _ (pre ++ (kl, L) :: (kr, R) :: post)).length
    rw [List.length_map, List.length_append, List.length_cons, List.length_cons]
    omega
  · have he' : e ∈ pre ++ (kl, (⟨L.no, L.slots.append R.slots⟩ : Tree κ 0)) :: post := he
    rcases List.mem_append.mp he' with he | he
    · exact hold e (List.mem_append_left _ he)
    · rcases List.mem_cons.mp he with rfl | he
      · exact hp.holds_merged hxl _
      · exact hold e (List.mem_append_right _ he)
  · exact (List.nodup_cons.mp (hperm.nodup_iff.mp hh.nodup)).2
  · exact hh.range q (hperm.mem_iff.mpr (List.mem_cons_of_mem _ hq))
  · have hno : (c.plug (mergedTree no pre kl L R post stale)).no =
        (c.plug (twins no pre kl L kr R post stale)).no := c.no_plug rfl
    exact hh.root.trans hno.symm

/-- **The leaf chain after `Coalesce`** skips the right leaf, and the header names the last leaf. -/
theorem ChainedTree.merge (hT : ChainedTree M order (c.plug (twins no pre kl L kr R post stale)))
    (hp : TwinPages M no pre L R parentPage pageL pageR)
    (hl : TwinLinks M no L R pageL pageR x next) :
    ChainedTree (M.merge no (pre.length + 1) L.no R.no x parentPage pageL pageR next) order
      (c.plug (mergedTree no pre kl L R post stale)) := by
  have hheld := (Held.plug_iff.mpr hT.held).merge hp hl.page hl.ne_left
  have hring := hT.ring
  have hfirst := hT.first
  have hlast := hT.last
  rw [leaves_twins] at hring hfirst hlast
  refine ⟨Held.plug_iff.mp hheld, ?_, ?_, ?_⟩
  · rw [leaves_mergedTree]
    rw [← List.singleton_append, ← List.append_assoc] at hring ⊢
    obtain ⟨hlink, -⟩ := pageL.insertPairs_fields pageL.numKey pageR.keys pageR.rids pageR.numKey
    refine hring.remove (x := x) (p := L.no) ?_ ?_ (fun b hb => ?_) ?_ (fun b hb => ?_) ?_
    · rw [nextOf, hp.right]
      exact congrArg some hl.right_next
    · rw [prevOf, hp.right]
      exact congrArg some hl.right_prev
    · unfold nextOf
      rw [IxMem.merge_pages, if_neg hb]
      split_ifs with hbn hbx
      · rw [hbn, hp.parent]
        rfl
      · rw [hbx, hl.page]
        rfl
      · rfl
    · unfold nextOf
      rw [IxMem.merge_pages, if_neg hp.left_ne, if_neg hl.ne_left.symm, if_pos rfl]
      rfl
    · unfold prevOf
      rw [IxMem.merge_pages, if_neg hb]
      split_ifs with hbn hbl
      · rw [hbn, hp.parent]
        rfl
      · rw [hbl, hp.left]
        exact congrArg some (congrArg (fun l => l.2.1) hlink)
      · rfl
    · unfold prevOf
      rw [IxMem.merge_pages, if_neg hl.ne_parent, if_pos rfl]
      rfl
  · rw [leaves_mergedTree]
    show _ = some M.fileHdr.firstLeaf
    rw [← hfirst]
    cases c.leavesBefore pre with
    | nil => rfl
    | cons a A => rfl
  · rw [leaves_mergedTree]
    show _ = some (if R.no = M.fileHdr.lastLeaf then L.no else M.fileHdr.lastLeaf)
    rw [List.getLast?_append_cons] at hlast ⊢
    cases hafter : c.leavesAfter post with
    | nil =>
      rw [hafter] at hlast
      have hR : R.no = M.fileHdr.lastLeaf := Option.some.inj hlast
      rw [if_pos hR]
      rfl
    | cons b B =>
      rw [hafter, List.getLast?_cons_cons, List.getLast?_cons_cons] at hlast
      rw [List.getLast?_cons_cons, hlast, if_neg]
      -- the last leaf is behind the two
      intro heq
      have hmem := List.mem_of_getLast? hlast
      rw [← heq, ← hafter] at hmem
      have hnodup := hring.nodup
      simp only [List.nodup_cons, List.nodup_append] at hnodup
      exact hnodup.2.2.1.2.1 hmem

end Merge

/-! ### The step -/

section Step

variable [LinearOrder κ] {M : IxMem κ}

/-- The part of `CoalesceOrRedistribute` that finds the brother of a small node. -/
theorem coalesceOrRedistribute_reaches {q no b : Int} {page parentPage brother : IxPage κ} {pos : Nat}
    (hq : M.pages q = some page) (hparent : page.parent = no) (hno : no ≠ invalidPageId)
    (hsmall : page.numKey < M.fileHdr.getMinSize) (hpp : M.pages no = some parentPage)
    (hfind : parentPage.findChild q = some (pos : Int))
    (hbrother : (if (pos : Int) ≠ 0 then page.prevLeaf else page.nextLeaf) = b)
    (hb : M.pages b = some brother) (fuel : Nat) :
    Reaches IxIndex.mem (coalesceOrRedistribute (fuel + 1) q) M
      (if page.numKey + brother.numKey ≥ M.fileHdr.getMinSize * 2 then do
          redistribute (fuel + 1) b q pos
          let _ ← unpinPage no
          let _ ← unpinPage b
          return false
        else do
          let (b', _) ← coalesce b q no pos (coalesceOrRedistribute fuel)
          let _ ← unpinPage no
          let _ ← unpinPage b'
          return true) M := by
  rw [coalesceOrRedistribute]
  apply Reaches.get_bind
  intro s hs
  have hmin : s.fileHdr.getMinSize = M.fileHdr.getMinSize :=
    congrArg (fun m : IxMem κ => m.fileHdr.getMinSize) hs
  rw [hmin]
  apply Reaches.trans (Reaches.of_does (node_does hq))
  rw [hparent, if_neg hno, if_neg (not_le.mpr hsmall)]
  apply Reaches.trans (Reaches.of_does (fetchNode_does hpp))
  apply Reaches.trans (Reaches.of_does (node_does hpp))
  simp only [hfind]
  rw [hbrother]
  apply Reaches.trans (Reaches.of_does (fetchNode_does hb))
  exact Reaches.of_does (node_does hb)

variable {order : Nat} {c : Ctx κ 1 H} {no : Int} {pre post : List (κ × Tree κ 0)} {kl kr : κ}
  {L R : Tree κ 0} {stale : Nat → κ}

/-- One entry has moved between the two leaves.  Both are large enough, the key of the right leaf is
its first key, and the rest of the tree is the same up to keys on the path above. -/
structure Redistributed (M M' : IxMem κ) (order : Nat) (c c' : Ctx κ 1 H) (no : Int)
    (pre : List (κ × Tree κ 0)) (kl : κ) (L R L' R' : Tree κ 0) (post : List (κ × Tree κ 0))
    (stale : Nat → κ) : Prop where
  tree : ChainedTree M' order (c'.plug (twins no pre kl L' (R'.slots.keyAt 0) R' post stale))
  path : c.Rekeyed c'
  left_no : L'.no = L.no
  right_no : R'.no = R.no
  entries : L'.slots.entries ++ R'.slots.entries = L.slots.entries ++ R.slots.entries
  moves_one : L'.slots.size = L.slots.size + 1 ∨ L.slots.size = L'.slots.size + 1
  left_size : (order + 1) / 2 ≤ L'.slots.size
  right_size : (order + 1) / 2 ≤ R'.slots.size
  hdr : M'.fileHdr = M.fileHdr

/-- All entries are in the left leaf.  The right leaf is gone from the parent and from the chain, and
the rest of the tree is the same. -/
structure Coalesced (M M' : IxMem κ) (order : Nat) (c : Ctx κ 1 H) (no : Int)
    (pre : List (κ × Tree κ 0)) (kl : κ) (L : Tree κ 0) (kr : κ) (R L' : Tree κ 0)
    (post : List (κ × Tree κ 0)) (stale stale' : Nat → κ) : Prop where
  tree : ChainedTree M' order (c.plug ⟨no, ⟨pre ++ (kl, L') :: post, stale'⟩⟩)
  left_no : L'.no = L.no
  entries : L'.slots.entries = L.slots.entries ++ R.slots.entries
  size : L'.slots.size ≤ order
  chain : ∃ A B, (c.plug (twins no pre kl L kr R post stale)).leaves = A ++ L.no :: R.no :: B ∧
    (c.plug ⟨no, ⟨pre ++ (kl, L') :: post, stale'⟩⟩).leaves = A ++ L.no :: B
  last : M'.fileHdr.lastLeaf = if R.no = M.fileHdr.lastLeaf then L.no else M.fileHdr.lastLeaf

omit [LinearOrder κ] in
theorem Ctx.Rekeyed.before_eq {h : Nat} {β : Type} {f : Tree κ 0 → List β} {c c' : Ctx κ h H}
    (hc : c.Rekeyed c') : c'.before f = c.before f := by
  induction hc with
  | top => rfl
  | down no left key key' right stale hup ih =>
    unfold Ctx.before
    rw [ih]

omit [LinearOrder κ] in
theorem Ctx.Rekeyed.after_eq {h : Nat} {β : Type} {f : Tree κ 0 → List β} {c c' : Ctx κ h H}
    (hc : c.Rekeyed c') : c'.after f = c.after f := by
  induction hc with
  | top => rfl
  | down no left key key' right stale hup ih =>
    unfold Ctx.after
    rw [ih]

omit [LinearOrder κ] in
theorem Ctx.Rekeyed.collect_eq {h : Nat} {β : Type} (f : Tree κ 0 → List β) {c c' : Ctx κ h H}
    (hc : c.Rekeyed c') (t : Tree κ h) : (c'.plug t).collect f = (c.plug t).collect f := by
  rw [Ctx.collect_plug, Ctx.collect_plug, hc.before_eq, hc.after_eq]

omit [LinearOrder κ] in
/-- Another tree with the same leaves in the same order, where no link has changed. -/
theorem ChainedTree.of_leaves {h h' : Nat} {T : Tree κ h} {T' : Tree κ h'} {M' : IxMem κ}
    (hT : ChainedTree M order T) (hlinks : KeepsLinks M M') (hh : Held M' order .top T')
    (hleaves : T'.leaves = T.leaves) : ChainedTree M' order T' := by
  refine ⟨hh, ?_, ?_, ?_⟩
  · rw [hleaves, hlinks.nextOf_eq, hlinks.prevOf_eq]
    exact hT.ring
  · rw [hleaves, hlinks.hdr]
    exact hT.first
  · rw [hleaves, hlinks.hdr]
    exact hT.last

/-- How the call sees a leaf that is too small, and the leaf beside it. -/
structure SmallLeaf (M : IxMem κ) (no : Int) (pre : List (κ × Tree κ 0)) (L R : Tree κ 0)
    (parentPage : IxPage κ) (leaf brother : Tree κ 0) (pos : Nat) (page brotherPage : IxPage κ) :
    Prop where
  leaf_page : M.pages leaf.no = some page
  parent : page.parent = no
  numKey : page.numKey = leaf.slots.size
  find : parentPage.findChild leaf.no = some (pos : Int)
  link : (if (pos : Int) ≠ 0 then page.prevLeaf else page.nextLeaf) = brother.no
  brother_page : M.pages brother.no = some brotherPage
  brother_numKey : brotherPage.numKey = brother.slots.size
  sum : leaf.slots.size + brother.slots.size = L.slots.size + R.slots.size
  swap : (if (pos : Int) = 0 then (leaf.no, brother.no, (pos : Int) + 1)
    else (brother.no, leaf.no, (pos : Int))) = (L.no, R.no, ((pre.length + 1 : Nat) : Int))

omit [LinearOrder κ] in
theorem TwinPages.smallLeaf {parentPage pageL pageR next : IxPage κ} {x : Int}
    (hp : TwinPages M no pre L R parentPage pageL pageR)
    (hl : TwinLinks M no L R pageL pageR x next) {leaf brother : Tree κ 0}
    (hleaf : leaf = R ∧ brother = L ∨ leaf = L ∧ brother = R ∧ pre = []) :
    ∃ pos page brotherPage, SmallLeaf M no pre L R parentPage leaf brother pos page brotherPage := by
  rcases hleaf with ⟨rfl, rfl⟩ | ⟨rfl, rfl, rfl⟩
  · have hpos : ((pre.length + 1 : Nat) : Int) ≠ 0 := by omega
    refine ⟨pre.length + 1, pageR, pageL, hp.right, hp.right_parent, hp.right_shows.numKey,
      hp.right_find, ?_, hp.left, hp.left_shows.numKey, Nat.add_comm .., ?_⟩
    · rw [if_pos hpos]
      exact hl.right_prev
    · rw [if_neg hpos]
  · refine ⟨0, pageL, pageR, hp.left, hp.left_parent, hp.left_shows.numKey, hp.left_find, ?_, hp.right,
      hp.right_shows.numKey, rfl, rfl⟩
    exact hl.left_next

/-- One entry has moved between two leaves, to the one that is too small. -/
def Moved (L R leaf L' R' : Tree κ 0) : Prop :=
  (leaf = R ∧ ∃ e, L.slots.entries = L'.slots.entries ++ [e] ∧
    R'.slots.entries = e :: R.slots.entries) ∨
  (leaf = L ∧ ∃ e, R.slots.entries = e :: R'.slots.entries ∧
    L'.slots.entries = L.slots.entries ++ [e])

omit [LinearOrder κ] in
theorem Moved.entries {leaf L' R' : Tree κ 0} (hm : Moved L R leaf L' R') :
    L'.slots.entries ++ R'.slots.entries = L.slots.entries ++ R.slots.entries := by
  rcases hm with ⟨-, e, hl, hr⟩ | ⟨-, e, hr, hl⟩
  · rw [hl, hr, List.append_assoc, List.singleton_append]
  · rw [hl, hr, List.append_assoc, List.singleton_append]

omit [LinearOrder κ] in
theorem Moved.sizes {leaf L' R' : Tree κ 0} (hm : Moved L R leaf L' R') :
    (leaf = R ∧ L.slots.size = L'.slots.size + 1 ∧ R'.slots.size = R.slots.size + 1) ∨
      (leaf = L ∧ L'.slots.size = L.slots.size + 1 ∧ R.slots.size = R'.slots.size + 1) := by
  unfold Slots.size
  rcases hm with ⟨hleaf, e, hl, hr⟩ | ⟨hleaf, e, hr, hl⟩
  · refine Or.inl ⟨hleaf, ?_, ?_⟩
    · rw [hl, List.length_append, List.length_singleton]
    · rw [hr, List.length_cons]
  · refine Or.inr ⟨hleaf, ?_, ?_⟩
    · rw [hl, List.length_append, List.length_singleton]
    · rw [hr, List.length_cons]

/-- Both variants of `Redistribute`. -/
theorem redistribute_leaf (hh : Held M order c (twins no pre kl L kr R post stale))
    {parentPage pageL pageR : IxPage κ} (hp : TwinPages M no pre L R parentPage pageL pageR)
    {leaf brother : Tree κ 0}
    (hleaf : leaf = R ∧ brother = L ∨ leaf = L ∧ brother = R ∧ pre = [])
    (hne : brother.slots.size ≠ 0) {pos : Nat}
    (hpos : parentPage.findChild leaf.no = some (pos : Int)) {fuel : Nat}
    (hfuel : c.depth + 1 < fuel) :
    ∃ (M' : IxMem κ) (L' R' : Tree κ 0),
      IxDoes (redistribute fuel brother.no leaf.no pos) M () M' ∧ KeepsLinks M M' ∧
      Held M' order (c.carry pre kl kr (R'.slots.keyAt 0))
        (twins no pre kl L' (R'.slots.keyAt 0) R' post stale) ∧
      L'.no = L.no ∧ R'.no = R.no ∧ Moved L R leaf L' R' := by
  rcases hleaf with ⟨rfl, rfl⟩ | ⟨rfl, rfl, rfl⟩
  · -- the last entry of the left leaf moves
    have hnil : brother.slots.entries ≠ [] := fun h => hne (congrArg List.length h)
    have hsplit := (List.dropLast_append_getLast hnil).symm
    obtain rfl : pos = pre.length + 1 := by
      rw [hp.right_find] at hpos
      exact_mod_cast (Option.some.inj hpos).symm
    obtain ⟨M', L', R', hdoes, hlinks, hheld, hL, hR, hl, hr⟩ :=
      redistribute_right hh hp hsplit (show ((pre.length + 1 : Nat) : Int) ≠ 0 by omega) hfuel
    refine ⟨M', L', R', hdoes, hlinks, hheld, hL, hR, Or.inl ⟨rfl, _, ?_, hr⟩⟩
    rw [hl]
    exact hsplit
  · -- the first entry of the right leaf moves
    obtain ⟨e, r, hcons⟩ := List.exists_cons_of_ne_nil
      (show brother.slots.entries ≠ [] from fun h => hne (congrArg List.length h))
    obtain rfl : pos = 0 := by
      rw [hp.left_find] at hpos
      exact_mod_cast (Option.some.inj hpos).symm
    obtain ⟨M', L', R', hdoes, hlinks, hheld, hL, hR, hl, hr⟩ :=
      redistribute_left hh hp hcons hfuel
    refine ⟨M', L', R', hdoes, hlinks, hheld, hL, hR, Or.inr ⟨rfl, e, ?_, hl⟩⟩
    rw [hr]
    exact hcons

/-- A leaf with one entry less than the minimum, and the leaf beside it. -/
structure Underfull (order : Nat) (pre : List (κ × Tree κ 0)) (L R leaf brother : Tree κ 0) :
    Prop where
  beside : leaf = R ∧ brother = L ∨ leaf = L ∧ brother = R ∧ pre = []
  leaf_size : leaf.slots.size + 1 = (order + 1) / 2
  brother_size : (order + 1) / 2 ≤ brother.slots.size ∧ brother.slots.size ≤ order

omit [LinearOrder κ] in
theorem Underfull.sum {leaf brother : Tree κ 0} (hu : Underfull order pre L R leaf brother) :
    leaf.slots.size + brother.slots.size = L.slots.size + R.slots.size := by
  rcases hu.beside with ⟨rfl, rfl⟩ | ⟨rfl, rfl, -⟩
  · exact Nat.add_comm ..
  · rfl

omit [LinearOrder κ] in
theorem Held.minSize {h : Nat} {c : Ctx κ h H} {t : Tree κ h} (hh : Held M order c t) :
    M.fileHdr.getMinSize = (((order + 1) / 2 : Nat) : Int) := by
  show (M.fileHdr.btreeOrder + 1) / 2 = _
  rw [hh.order]
  norm_cast

/-- The search for the brother along the leaf links, which comes before both cases. -/
theorem Underfull.reaches {leaf brother : Tree κ 0} (hu : Underfull order pre L R leaf brother)
    (hh : Held M order c (twins no pre kl L kr R post stale)) {parentPage pageL pageR next : IxPage κ}
    {x : Int} (hp : TwinPages M no pre L R parentPage pageL pageR)
    (hl : TwinLinks M no L R pageL pageR x next) (fuel : Nat) :
    ∃ pos page brotherPage, SmallLeaf M no pre L R parentPage leaf brother pos page brotherPage ∧
      Reaches IxIndex.mem (coalesceOrRedistribute (fuel + 1) leaf.no) M
        (if 2 * ((order + 1) / 2) ≤ L.slots.size + R.slots.size then do
          redistribute (fuel + 1) brother.no leaf.no pos
          let _ ← unpinPage no
          let _ ← unpinPage brother.no
          return false
        else do
          let (b', _) ← coalesce brother.no leaf.no no pos (coalesceOrRedistribute fuel)
          let _ ← unpinPage no
          let _ ← unpinPage b'
          return true) M := by
  obtain ⟨pos, page, brotherPage, hs⟩ := hp.smallLeaf hl hu.beside
  have hinvalid : no ≠ invalidPageId := by
    have := hp.ge
    have hval : invalidPageId = -1 := rfl
    omega
  have hnum := hs.numKey
  have hnum' := hs.brother_numKey
  have hsize := hu.leaf_size
  have hsum := hu.sum
  have hfront := coalesceOrRedistribute_reaches hs.leaf_page hs.parent hinvalid
    (by rw [hnum, hh.minSize]; omega) hp.parent hs.find hs.link hs.brother_page fuel
  rw [hnum, hnum', hh.minSize] at hfront
  refine ⟨pos, page, brotherPage, hs, ?_⟩
  by_cases henough : 2 * ((order + 1) / 2) ≤ L.slots.size + R.slots.size
  · rw [if_pos (by omega)] at hfront
    rwa [if_pos henough]
  · rw [if_neg (by omega)] at hfront
    rwa [if_neg henough]

/-- **Borrowing.**  The two leaves have enough entries for both: one entry moves. -/
theorem ChainedTree.borrow (hT : ChainedTree M order (c.plug (twins no pre kl L kr R post stale)))
    {leaf brother : Tree κ 0} (hu : Underfull order pre L R leaf brother)
    (henough : 2 * ((order + 1) / 2) ≤ L.slots.size + R.slots.size) {fuel : Nat}
    (hfuel : c.depth < fuel) :
    ∃ (M' : IxMem κ) (L' R' : Tree κ 0),
      IxDoes (coalesceOrRedistribute (fuel + 1) leaf.no) M false M' ∧ KeepsLinks M M' ∧
      ChainedTree M' order ((c.carry pre kl kr (R'.slots.keyAt 0)).plug
        (twins no pre kl L' (R'.slots.keyAt 0) R' post stale)) ∧
      L'.no = L.no ∧ R'.no = R.no ∧ Moved L R leaf L' R' := by
  have hh := Held.plug_iff.mpr hT.held
  obtain ⟨parentPage, pageL, pageR, hp⟩ := hh.twinPages
  obtain ⟨x, next, hl⟩ := hT.twinLinks hp
  obtain ⟨pos, page, brotherPage, hs, hfront⟩ := hu.reaches hh hp hl fuel
  rw [if_pos henough] at hfront
  have hsize := hu.leaf_size
  have hsum := hu.sum
  -- one entry moves, and the keys above the right leaf follow it
  obtain ⟨M', L', R', hdoes, hlinks, hheld, hL, hR, hmoved⟩ :=
    redistribute_leaf hh hp hu.beside (by omega) hs.find (Nat.succ_lt_succ hfuel)
  have hrest : IxDoes (do
      redistribute (fuel + 1) brother.no leaf.no pos
      let _ ← unpinPage no
      let _ ← unpinPage brother.no
      return false) M false M' :=
    hdoes.bind (unpinPage_bind_does fun _ => unpinPage_bind_does fun _ => Does.pure)
  refine ⟨M', L', R', Reaches.pure_iff.mp (hfront.trans (Reaches.pure_iff.mpr hrest)), hlinks,
    hT.of_leaves hlinks (Held.plug_iff.mp hheld) ?_, hL, hR, hmoved⟩
  have hkeep := (c.rekeyed_carry pre kl kr (R'.slots.keyAt 0)).collect_eq (fun leaf => [leaf.no])
    (twins no pre kl L' (R'.slots.keyAt 0) R' post stale)
  refine hkeep.trans (leaves_twins.trans ?_)
  rw [hL, hR, ← leaves_twins]

/-- **Merging.**  The right leaf goes into the left one, and the call goes on with the parent. -/
theorem ChainedTree.mergeInto (hT : ChainedTree M order (c.plug (twins no pre kl L kr R post stale)))
    {leaf brother : Tree κ 0} (hu : Underfull order pre L R leaf brother)
    (hfew : L.slots.size + R.slots.size < 2 * ((order + 1) / 2)) (fuel : Nat) :
    ∃ (x : Int) (parentPage pageL pageR next : IxPage κ),
      TwinPages M no pre L R parentPage pageL pageR ∧ TwinLinks M no L R pageL pageR x next ∧
      Reaches IxIndex.mem (coalesceOrRedistribute (fuel + 1) leaf.no) M
        (do
          let _ ← coalesceOrRedistribute fuel no
          let _ ← unpinPage no
          let _ ← unpinPage L.no
          return true)
        (M.merge no (pre.length + 1) L.no R.no x parentPage pageL pageR next) := by
  have hh := Held.plug_iff.mpr hT.held
  obtain ⟨parentPage, pageL, pageR, hp⟩ := hh.twinPages
  obtain ⟨x, next, hl⟩ := hT.twinLinks hp
  obtain ⟨pos, page, brotherPage, hs, hfront⟩ := hu.reaches hh hp hl fuel
  rw [if_neg (not_le.mpr hfew)] at hfront
  have hco := coalesce_reaches hp.parent hp.left hp.right hl.page hp.left_leaf hp.right_leaf
    hl.right_prev hl.right_next hp.ne hl.ne_left hp.left_ne hl.ne_parent hs.swap
    (coalesceOrRedistribute fuel)
  refine ⟨x, parentPage, pageL, pageR, next, hp, hl, hfront.trans ?_⟩
  -- the caller unpins the left leaf, which is the neighbour after the swap
  have hbind := hco.bind (f := fun r => do
    let _ ← unpinPage no
    let _ ← unpinPage r.1
    return true)
  simp only [bind_assoc, pure_bind] at hbind
  exact hbind

/-- **The leaf step of `CoalesceOrRedistribute`.**  A leaf with one entry less than the minimum is the
right one of two neighbours, or the left one if it is the first child.  If the two have enough
entries for both, one entry moves and the call returns; otherwise they are merged into the left
one, and the call goes on with the parent. -/
theorem coalesceOrRedistribute_leaf (M : IxMem κ) (order : Nat) (c : Ctx κ 1 H) (no : Int)
    (pre : List (κ × Tree κ 0)) (kl : κ) (L : Tree κ 0) (kr : κ) (R : Tree κ 0)
    (post : List (κ × Tree κ 0)) (stale : Nat → κ)
    (hT : ChainedTree M order (c.plug (twins no pre kl L kr R post stale)))
    (leaf brother : Tree κ 0)
    (hleaf : leaf = R ∧ brother = L ∨ leaf = L ∧ brother = R ∧ pre = [])
    (hsize : leaf.slots.size + 1 = (order + 1) / 2)
    (hbrother : (order + 1) / 2 ≤ brother.slots.size ∧ brother.slots.size ≤ order) (fuel : Nat)
    (hfuel : c.depth < fuel) :
    (2 * ((order + 1) / 2) ≤ L.slots.size + R.slots.size →
      ∃ (M' : IxMem κ) (c' : Ctx κ 1 H) (L' R' : Tree κ 0),
        IxDoes (coalesceOrRedistribute (fuel + 1) leaf.no) M false M' ∧
        Redistributed M M' order c c' no pre kl L R L' R' post stale) ∧
    (L.slots.size + R.slots.size < 2 * ((order + 1) / 2) →
      ∃ (M' : IxMem κ) (L' : Tree κ 0) (stale' : Nat → κ),
        Reaches IxIndex.mem (coalesceOrRedistribute (fuel + 1) leaf.no) M
          (do
            let _ ← coalesceOrRedistribute fuel no
            let _ ← unpinPage no
            let _ ← unpinPage L.no
            return true) M' ∧
        Coalesced M M' order c no pre kl L kr R L' post stale stale') := by
  have hu : Underfull order pre L R leaf brother := ⟨hleaf, hsize, hbrother⟩
  have hsum := hu.sum
  constructor
  · intro henough
    obtain ⟨M', L', R', hdoes, hlinks, htree, hL, hR, hmoved⟩ := hT.borrow hu henough hfuel
    refine ⟨M', _, L', R', hdoes, htree, c.rekeyed_carry .., hL, hR, hmoved.entries, ?_, ?_, ?_,
      hlinks.hdr⟩
    · rcases hmoved.sizes with ⟨-, hl, -⟩ | ⟨-, hl, -⟩
      · exact Or.inr hl
      · exact Or.inl hl
    · rcases hmoved.sizes with ⟨rfl, hl, hr⟩ | ⟨rfl, hl, hr⟩
      · omega
      · omega
    · rcases hmoved.sizes with ⟨rfl, hl, hr⟩ | ⟨rfl, hl, hr⟩
      · omega
      · omega
  · intro hfew
    obtain ⟨x, parentPage, pageL, pageR, next, hp, hl, hreach⟩ := hT.mergeInto hu hfew fuel
    refine ⟨_, ⟨L.no, L.slots.append R.slots⟩, fun j => stale (j - 1), hreach, hT.merge hp hl, rfl, rfl,
      ?_, ⟨_, _, leaves_twins, leaves_mergedTree⟩, rfl⟩
    rw [Slots.size_append]
    omega

end Step

/-- A page that shows the given entries. -/
def pageWith (parent prevLeaf nextLeaf : Int) (isLeaf : Bool) (entries : List (Int × Rid)) :
    IxPage Int where
  parent
  numKey := entries.length
  isLeaf
  prevLeaf
  nextLeaf
  keys := (⟨entries, fun _ => 0⟩ : Slots Int Rid).keyAt
  rids := fun i => (entries[i]?.map Prod.snd).getD ⟨0, 0⟩

theorem pageWith_shows (parent prevLeaf nextLeaf : Int) (isLeaf : Bool)
    (entries : List (Int × Rid)) :
    (pageWith parent prevLeaf nextLeaf isLeaf entries).Shows ⟨entries, fun _ => 0⟩ := by
  refine ⟨rfl, rfl, fun {i e} he => ?_⟩
  show ((entries[i]?.map Prod.snd).getD ⟨0, 0⟩ : Rid) = e.2
  have he' : entries[i]? = some e := he
  rw [he']
  rfl

/-- A leaf with the key 1 and a leaf with the keys 4, 5 and 6 under a root, in an index of order 3. -/
def shortLeaf : IxMem Int where
  fd := 3
  fileHdr := { IxFileHdr.init .int 4 with
    btreeOrder := 3, keysSize := 16, numPages := 5, rootPage := 4, firstLeaf := 2, lastLeaf := 3 }
  pages := fun q =>
    if q = 1 then some (pageWith ixNoPage 3 2 true [])
    else if q = 2 then some (pageWith 4 1 3 true [(1, ⟨1, 0⟩)])
    else if q = 3 then some (pageWith 4 2 1 true [(4, ⟨4, 0⟩), (5, ⟨5, 0⟩), (6, ⟨6, 0⟩)])
    else if q = 4 then some (pageWith ixNoPage 0 0 false [(1, ⟨2, -1⟩), (4, ⟨3, -1⟩)])
    else none
  counter := 5

theorem shortLeaf_chained : ChainedTree shortLeaf 3
    ((Ctx.top : Ctx Int 1 1).plug (twins 4 [] 1 ⟨2, ⟨[(1, ⟨1, 0⟩)], fun _ => 0⟩⟩ 4
      ⟨3, ⟨[(4, ⟨4, 0⟩), (5, ⟨5, 0⟩), (6, ⟨6, 0⟩)], fun _ => 0⟩⟩ [] fun _ => 0)) := by
  refine ⟨⟨trivial, ⟨⟨_, rfl, rfl, rfl, pageWith_shows ..⟩, fun e he => ?_⟩, by decide, by decide, rfl,
    rfl⟩, ⟨by decide, ?_⟩, rfl, rfl⟩
  · rcases List.mem_cons.mp he with rfl | he
    · exact ⟨_, rfl, rfl, rfl, pageWith_shows ..⟩
    · obtain rfl := List.mem_singleton.mp he
      exact ⟨_, rfl, rfl, rfl, pageWith_shows ..⟩
  · exact .cons_cons ⟨rfl, rfl⟩ (.cons_cons ⟨rfl, rfl⟩ (.cons_cons ⟨rfl, rfl⟩ (.singleton _)))

/-- The leaf with the key 1 gets 4 from the leaf beside it. -/
theorem coalesceOrRedistribute_leaf_short :
    ∃ (M' : IxMem Int) (c' : Ctx Int 1 1) (L' R' : Tree Int 0),
      IxDoes (coalesceOrRedistribute 2 2) shortLeaf false M' ∧
      Redistributed shortLeaf M' 3 .top c' 4 [] 1 ⟨2, ⟨[(1, ⟨1, 0⟩)], fun _ => 0⟩⟩
        ⟨3, ⟨[(4, ⟨4, 0⟩), (5, ⟨5, 0⟩), (6, ⟨6, 0⟩)], fun _ => 0⟩⟩ L' R' [] fun _ => 0 := by
  exact (coalesceOrRedistribute_leaf shortLeaf 3 .top 4 [] 1 ⟨2, ⟨[(1, ⟨1, 0⟩)], fun _ => 0⟩⟩ 4
    ⟨3, ⟨[(4, ⟨4, 0⟩), (5, ⟨5, 0⟩), (6, ⟨6, 0⟩)], fun _ => 0⟩⟩ [] (fun _ => 0) shortLeaf_chained _ _
    (Or.inr ⟨rfl, rfl, rfl⟩) rfl ⟨by decide, by decide⟩ 1 Nat.one_pos).1 (by decide)

end Rucbase
