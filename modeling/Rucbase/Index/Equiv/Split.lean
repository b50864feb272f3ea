import Rucbase.Index.Equiv.Insert

/-!
# Splitting a node

What `Split` does to the pages of an index, for a node of any size and kind (`split_spec`): the
entries are shared between the node and a new one, the links of a leaf go through the new leaf, and
the children that moved get the new node as their parent.  All other pages keep their contents.

The page that follows a leaf is patched after the leaf itself, so that the links come out right also
if it is the leaf.
-/

namespace Rucbase

open EStateM IxIndexHandle

variable {κ : Type} {M M' : IxMem κ} {p : Int} {page : IxPage κ}

/-- The children that `Split` moves to the new node. -/
def IxPage.moved (page : IxPage κ) : List Int :=
  (page.live.drop (page.numKey.toNat / 2)).map fun e => e.2.pageNo

/-- A full node, and what `Split` needs of the pages around it: the number that `AllocatePage` hands
out is not in use, the page that a leaf links to exists, and so do the children that move. -/
structure IxMem.Splittable (M : IxMem κ) (p : Int) (page : IxPage κ) : Prop where
  node : M.pages p = some page
  full : page.numKey = M.fileHdr.getMaxSize
  nonneg : 0 ≤ page.numKey
  fresh : M.pages M.counter = none
  next : page.isLeaf = true → page.nextLeaf ≠ invalidPageId → ∃ next, M.pages page.nextLeaf = some next
  kids : page.isLeaf = false → ∀ c ∈ page.moved, c ≠ p ∧ ∃ child, M.pages c = some child

/-- What `Split` of the node `p` does to the pages; the new node is `M.counter`. -/
structure IxMem.Splits (M M' : IxMem κ) (p : Int) (page old new : IxPage κ) : Prop where
  old_eq : M'.pages p = some old
  new_eq : M'.pages M.counter = some new
  size : old.numKey = page.numKey / 2 ∧ new.numKey = page.numKey - page.numKey / 2
  entries : old.live ++ new.live = page.live
  isLeaf : old.isLeaf = page.isLeaf ∧ new.isLeaf = page.isLeaf
  parent : old.parent = page.parent ∧ new.parent = page.parent
  next : page.isLeaf = true → ∀ q, nextOf M'.pages q =
    if q = p then some M.counter else if q = M.counter then some page.nextLeaf
    else nextOf M.pages q
  prev : page.isLeaf = true → ∀ q, prevOf M'.pages q =
    if q = M.counter then some p
    else if q = page.nextLeaf ∧ q ≠ invalidPageId then some M.counter
    else prevOf M.pages q
  leaf : page.isLeaf = true → ∀ q, q ≠ p → q ≠ M.counter →
    SameBody M.pages M'.pages q ∧ (q ≠ page.nextLeaf → M'.pages q = M.pages q)
  kids : page.isLeaf = false → ∀ c ∈ page.moved,
    M'.pages c = (M.pages c).map fun child => { child with parent := M.counter }
  inner : page.isLeaf = false → ∀ q, q ≠ p → q ≠ M.counter → q ∉ page.moved →
    M'.pages q = M.pages q
  links : page.isLeaf = false → old.prevLeaf = page.prevLeaf ∧ old.nextLeaf = page.nextLeaf

theorem IxMem.Splittable.ne (h : M.Splittable p page) : p ≠ M.counter := by
  rintro rfl
  have hnode := h.node
  rw [h.fresh] at hnode
  cases hnode

/-- The page that follows the leaf gets its new predecessor. -/
def IxPage.follow (page : IxPage κ) (q next newNode : Int) : IxPage κ :=
  { page with prevLeaf := if q = next ∧ q ≠ invalidPageId then newNode else page.prevLeaf }

theorem IxPage.follow_of_not {q next : Int} (hq : ¬(q = next ∧ q ≠ invalidPageId))
    (page : IxPage κ) (newNode : Int) : page.follow q next newNode = page := by
  rw [follow, if_neg hq]

variable [Inhabited κ]

/-- The two halves of a node. -/
theorem live_evenlyDistributePairs (hn : 0 ≤ page.numKey) :
    (evenlyDistributePairs .zero page).2.live ++ (evenlyDistributePairs .zero page).1.live =
      page.live := by
  obtain ⟨hright, hleft⟩ := (IxPage.Shows.of_nonneg hn).evenlyDistributePairs
    (show (IxPage.zero : IxPage κ).keys = fun _ => default from rfl)
  rw [hright.live, hleft.live]
  exact List.take_append_drop _ _

/-! ### A leaf -/

section Leaf

/-- The memory after the two leaves have been linked to each other. -/
def IxMem.halved (M : IxMem κ) (p : Int) (page : IxPage κ) : IxMem κ :=
  (M.shared p page).linked p M.counter (evenlyDistributePairs .zero page).2
    (evenlyDistributePairs .zero page).1

/-- The node and the new leaf. -/
def splitOld (page : IxPage κ) (newNode : Int) : IxPage κ :=
  { (evenlyDistributePairs .zero page).2 with nextLeaf := newNode }

def splitNew (page : IxPage κ) (p : Int) : IxPage κ :=
  { (evenlyDistributePairs .zero page).1 with prevLeaf := p, nextLeaf := page.nextLeaf }

theorem IxMem.halved_pages (q : Int) :
    (M.halved p page).pages q =
      if q = p then some (splitOld page M.counter)
      else if q = M.counter then some (splitNew page p) else M.pages q := by
  unfold halved linked
  by_cases hq : q = p
  · rw [if_pos hq, hq, set_pages_self]
    rfl
  · rw [if_neg hq, set_pages_of_ne _ hq]
    by_cases hqc : q = M.counter
    · rw [if_pos hqc, hqc, set_pages_self]
      rfl
    · rw [if_neg hqc, set_pages_of_ne _ hqc, shared_pages_of_ne hq hqc]

/-- The pages after the links have been patched. -/
theorem split_leaf_does (h : M.Splittable p page) (hleaf : page.isLeaf = true) :
    ∃ M', IxDoes (split p) M M.counter M' ∧ ∀ q, M'.pages q =
      ((M.halved p page).pages q).map fun pg => pg.follow q page.nextLeaf M.counter := by
  have hlink : ∀ {M'}, IxDoes (linkNext M.counter page.nextLeaf) (M.halved p page) () M' →
      IxDoes (split p) M M.counter M' := by
    intro M' hrest
    refine split_does h.node h.fresh ?_
    rw [hleaf, if_pos rfl]
    exact insertLeaf_linked_does IxMem.shared_pages_self (IxMem.shared_pages_counter h.ne) h.ne
      hrest
  by_cases hx : page.nextLeaf = invalidPageId
  · refine ⟨M.halved p page, hlink (by rw [hx]; exact linkNext_invalid_does), fun q => ?_⟩
    simp only [IxPage.follow_of_not fun hq => hq.2 (hq.1.trans hx), Option.map_id']
  · -- the page that follows exists, also if it is the leaf itself
    obtain ⟨next, hnext⟩ : ∃ next, (M.halved p page).pages page.nextLeaf = some next := by
      obtain ⟨next, hnext⟩ := h.next hleaf hx
      rw [IxMem.halved_pages]
      split_ifs
      · exact ⟨_, rfl⟩
      · exact ⟨_, rfl⟩
      · exact ⟨next, hnext⟩
    refine ⟨_, hlink (linkNext_does hx hnext), fun q => ?_⟩
    by_cases hq : q = page.nextLeaf
    · rw [hq, IxMem.set_pages_self, hnext]
      simp [IxPage.follow, hx]
    · rw [IxMem.set_pages_of_ne _ hq]
      simp only [IxPage.follow_of_not fun hq' => hq hq'.1, Option.map_id']

/-- **`Split`** of a leaf. -/
theorem splits_leaf (h : M.Splittable p page) (hleaf : page.isLeaf = true) :
    ∃ M' old new, IxDoes (split p) M M.counter M' ∧ M.Splits M' p page old new := by
  obtain ⟨M', hdoes, hpages⟩ := split_leaf_does h hleaf
  have hpc := h.ne
  have hinner : ∀ {P : Prop}, page.isLeaf = false → P := fun hf => by rw [hleaf] at hf; cases hf
  -- the new leaf does not follow the node, so it keeps the node as its predecessor
  have hnew : ¬(M.counter = page.nextLeaf ∧ M.counter ≠ invalidPageId) := by
    rintro ⟨heq, hx⟩
    obtain ⟨next, hnext⟩ := h.next hleaf (heq ▸ hx)
    rw [← heq, h.fresh] at hnext
    cases hnext
  have hother : ∀ {q}, q ≠ p → q ≠ M.counter →
      M'.pages q = (M.pages q).map fun pg => pg.follow q page.nextLeaf M.counter := by
    intro q hq hqc
    rw [hpages, IxMem.halved_pages, if_neg hq, if_neg hqc]
  have hold : M'.pages p = some ((splitOld page M.counter).follow p page.nextLeaf M.counter) := by
    rw [hpages, IxMem.halved_pages, if_pos rfl]
    rfl
  have hnew_eq : M'.pages M.counter = some (splitNew page p) := by
    rw [hpages, IxMem.halved_pages, if_neg hpc.symm, if_pos rfl, Option.map_some,
      IxPage.follow_of_not hnew]
  refine ⟨M', _, _, hdoes, hold, hnew_eq, ⟨rfl, rfl⟩, live_evenlyDistributePairs h.nonneg, ⟨rfl, rfl⟩,
    ⟨rfl, rfl⟩, fun _ q => ?_, fun _ q => ?_, fun _ q hq hqc => ⟨?_, fun hqx => ?_⟩,
    hinner, hinner, hinner⟩
  · unfold nextOf
    by_cases hq : q = p
    · rw [if_pos hq, hq, hold]
      rfl
    · rw [if_neg hq]
      by_cases hqc : q = M.counter
      · rw [if_pos hqc, hqc, hnew_eq]
        rfl
      · rw [if_neg hqc, hother hq hqc, Option.map_map]
        rfl
  · unfold prevOf
    by_cases hqc : q = M.counter
    · rw [if_pos hqc, hqc, hnew_eq]
      rfl
    · rw [if_neg hqc]
      by_cases hq : q = p
      · rw [hq, hold, h.node, Option.map_some, Option.map_some]
        exact apply_ite some _ _ _
      · rw [hother hq hqc, Option.map_map]
        cases hget : M.pages q with
        | none =>
          -- there is no page to follow
          rw [if_neg]
          · rfl
          · rintro ⟨rfl, hx⟩
            obtain ⟨next, hnext⟩ := h.next hleaf hx
            rw [hget] at hnext
            cases hnext
        | some pg => exact apply_ite some _ _ _
  · rw [SameBody, hother hq hqc, Option.map_map]
    rfl
  · rw [hother hq hqc]
    simp only [IxPage.follow_of_not fun hq' => hqx hq'.1, Option.map_id']

end Leaf

/-! ### An inner node -/

/-- **`Split`** of an inner node. -/
theorem splits_inner (h : M.Splittable p page) (hinner : page.isLeaf = false) :
    ∃ M' old new, IxDoes (split p) M M.counter M' ∧ M.Splits M' p page old new := by
  have hpc := h.ne
  have hleaf : ∀ {P : Prop}, page.isLeaf = true → P := fun ht => by rw [hinner] at ht; cases ht
  have hlive : page.live.length = page.numKey.toNat := by
    rw [IxPage.live, List.length_map, List.length_range]
  have hlen : page.moved.length = (page.numKey - page.numKey / 2).toNat := by
    have hn := h.nonneg
    rw [IxPage.moved, List.length_map, List.length_drop, hlive]
    omega
  have hpmoved : p ∉ page.moved := fun hmem => (h.kids hinner p hmem).1 rfl
  have hcmoved : M.counter ∉ page.moved := by
    intro hmem
    obtain ⟨child, hchild⟩ := (h.kids hinner _ hmem).2
    rw [h.fresh] at hchild
    cases hchild
  have hkids : IxDoes (maintainChildren M.counter page.moved.length ((0 : Nat) : Int))
      (M.shared p page) () ((M.shared p page).adopt M.counter page.moved) := by
    refine maintainChildren_does (IxMem.shared_pages_counter hpc) hinner (fun i c hc => ?_)
      (fun c hc => ?_) hcmoved
    · obtain ⟨hright, -⟩ := (IxPage.Shows.of_nonneg h.nonneg).evenlyDistributePairs
        (show (IxPage.zero : IxPage κ).keys = fun _ => default from rfl)
      rw [IxPage.moved, List.getElem?_map] at hc
      obtain ⟨e, he, rfl⟩ := Option.map_eq_some_iff.mp hc
      have hget : page.slots.rightHalf.entries[i]? = some e := by
        show (page.live.drop (page.live.length / 2))[i]? = _
        rw [hlive, he]
      rw [Nat.zero_add, hright.rids hget]
    · obtain ⟨hcp, child, hchild⟩ := h.kids hinner c hc
      refine ⟨child, (IxMem.shared_pages_of_ne hcp ?_).trans hchild⟩
      rintro rfl
      exact hcmoved hc
  have hdoes : IxDoes (split p) M M.counter ((M.shared p page).adopt M.counter page.moved) := by
    refine split_does h.node h.fresh ?_
    rw [hinner, if_neg (by decide), ← hlen]
    exact hkids
  have hpages : ∀ {q}, q ∉ page.moved → ((M.shared p page).adopt M.counter page.moved).pages q =
      (M.shared p page).pages q := fun hq => IxMem.adopt_pages_of_notMem _ hq
  refine ⟨_, _, _, hdoes, (hpages hpmoved).trans IxMem.shared_pages_self,
    (hpages hcmoved).trans (IxMem.shared_pages_counter hpc), ⟨rfl, rfl⟩,
    live_evenlyDistributePairs h.nonneg, ⟨rfl, rfl⟩, ⟨rfl, rfl⟩, hleaf, hleaf, hleaf,
    fun _ c hc => ?_, fun _ q hq hqc hqm => ?_, fun _ => ⟨rfl, rfl⟩⟩
  · have hcp := (h.kids hinner c hc).1
    have hcc : c ≠ M.counter := fun heq => hcmoved (heq ▸ hc)
    show (if c ∈ page.moved then ((M.shared p page).pages c).map _ else _) = _
    rw [if_pos hc, IxMem.shared_pages_of_ne hcp hcc]
  · rw [hpages hqm, IxMem.shared_pages_of_ne hq hqc]

/-! ### Any node -/

/-- **`Split`.**  Half of the entries stay in the node, the rest moves to the new node in order; both
have the leaf flag and the parent of the node.  Behind a leaf the new leaf is put into the chain and
no other link changes; of the children of an inner node those that moved get the new node as their
parent; all other pages stay as they are. -/
theorem split_spec (s : IxIndex κ) (p : Int) (page : IxPage κ) (h : s.mem.Splittable p page) :
    ∃ s' old new, split p s = .ok s.mem.counter s' ∧ s.mem.Splits s'.mem p page old new := by
  have hsplit : ∃ M' old new, IxDoes (split p) s.mem s.mem.counter M' ∧
      s.mem.Splits M' p page old new := by
    cases hleaf : page.isLeaf with
    | true => exact splits_leaf h hleaf
    | false => exact splits_inner h hleaf
  obtain ⟨M', old, new, hdoes, hsplits⟩ := hsplit
  obtain ⟨s', hrun, rfl⟩ := hdoes s rfl
  exact ⟨s', old, new, hrun, hsplits⟩

/-- An index of order 2 whose only leaf is full. -/
def fullLeaf : IxIndex Int where
  fd := 0
  fileHdr := { IxFileHdr.init .int 4 with btreeOrder := 2 }
  store :=
    { pool := fun _ => none
      pinCount := fun _ => 0
      disk := fun q =>
        if q = 1 then some { (IxPage.zero : IxPage Int) with isLeaf := true, prevLeaf := 2, nextLeaf := 2 }
        else if q = 2 then some
          { (IxPage.zero : IxPage Int) with
            parent := -1, isLeaf := true, numKey := 3, prevLeaf := 1, nextLeaf := 1
            keys := fun i => i }
        else none
      fd2pageno := fun _ => 3 }
  diskHdr := IxFileHdr.init .int 4

theorem split_spec_fullLeaf : ∃ s' old new, split 2 fullLeaf = .ok 3 s' ∧
    fullLeaf.mem.Splits s'.mem 2
      { (IxPage.zero : IxPage Int) with
        parent := -1, isLeaf := true, numKey := 3, prevLeaf := 1, nextLeaf := 1
        keys := fun i => i } old new :=
  split_spec fullLeaf 2 _
    ⟨rfl, rfl, by decide, rfl, fun _ _ => ⟨_, rfl⟩, fun hinner => Bool.noConfusion hinner⟩

end Rucbase
