import Rucbase.Index.Equiv.NodeUpdates
import Rucbase.Index.Equiv.RangeScan
import Rucbase.Index.IxNodeBytes

/-!
# Searching for a key

Point search on the pages of an index, for trees of any shape: the leaves may be at different
depths, inner nodes may have a single child, and the first key of an inner node is arbitrary
(`IxMem.SearchTree`).  `FindLeafPage` ends in the only leaf that the keys of the inner nodes leave
for the key (`IxMem.CanHold`), and `GetValue` returns what the leaves hold (`point_search`), for keys
that `ix_compare` orders linearly.  A NaN is not one of them (`not_point_search_nan`).
-/

namespace Rucbase

open EStateM IxIndexHandle

variable {κ : Type}

/-- The pages below a page are a search tree with these leaves: by `ix_compare`, nodes are strictly
sorted, and the key of a child with a left neighbour separates the entries below the two. -/
inductive IxMem.SearchTree [IxKey κ] (M : IxMem κ) : Int → LeafChunks κ → Prop where
  | leaf {q : Int} {page : IxPage κ} : M.pages q = some page → page.isLeaf = true →
      0 ≤ page.numKey → page.live.Pairwise (fun e e' => ixCompare e.1 e'.1 < 0) →
      M.SearchTree q [(q, page.live)]
  | inner {q : Int} {page : IxPage κ} {kids : Nat → LeafChunks κ} : M.pages q = some page →
      page.isLeaf = false → 0 < page.numKey →
      (∀ i j, 1 ≤ i → i < j → j < page.numKey.toNat →
        ixCompare (page.keys i) (page.keys j) < 0) →
      (∀ i < page.numKey.toNat, M.SearchTree (page.valueAt i) (kids i)) →
      (∀ i, i + 1 < page.numKey.toNat →
        (∀ e ∈ chunkEntries (kids i), ixCompare e.1 (page.keys (i + 1)) < 0) ∧
          ∀ e ∈ chunkEntries (kids (i + 1)), ixCompare (page.keys (i + 1)) e.1 ≤ 0) →
      M.SearchTree q ((List.range page.numKey.toNat).flatMap kids)

theorem IxMem.SearchTree.exists_page [IxKey κ] {M : IxMem κ} {q : Int} {chunks : LeafChunks κ}
    (h : M.SearchTree q chunks) : ∃ page, M.pages q = some page := by
  cases h with
  | leaf hp => exact ⟨_, hp⟩
  | inner hp => exact ⟨_, hp⟩

section Ordered

variable [LinearOrder κ]

/-- A leaf below a page that can hold the key: at every inner node on the way the key is not below
the key of the child, unless it is the first, and below the key of the next. -/
inductive IxMem.CanHold (M : IxMem κ) (k : κ) : Int → Int → Prop where
  | leaf {q : Int} {page : IxPage κ} : M.pages q = some page → page.isLeaf = true →
      M.CanHold k q q
  | child {q r : Int} {page : IxPage κ} {i : Nat} : M.pages q = some page →
      page.isLeaf = false → i < page.numKey.toNat → (1 ≤ i → page.keys i ≤ k) →
      (i + 1 < page.numKey.toNat → k < page.keys (i + 1)) → M.CanHold k (page.valueAt i) r →
      M.CanHold k q r

namespace IxPage

variable {page : IxPage κ} {k : κ}

/-- The child that `InternalLookup` chooses: the last one whose key is not above the key. -/
theorem internalLookup_spec (hnum : 0 < page.numKey)
    (hsorted : ∀ i j, 1 ≤ i → i < j → j < page.numKey.toNat → page.keys i < page.keys j) (k : κ) :
    ∃ i : Nat, i < page.numKey.toNat ∧ page.internalLookup k = page.valueAt i ∧
      (∀ j, 1 ≤ j → j ≤ i → page.keys j ≤ k) ∧
        ∀ j, i < j → j < page.numKey.toNat → k < page.keys j := by
  have hshows := Shows.of_nonneg hnum.le
  have hsize : page.slots.size = page.numKey.toNat := hshows.toNat_numKey.symm
  have hslots : page.slots.SortedFrom 1 := by
    intro i j hi hij hj
    rw [← hshows.keys]
    exact hsorted i j hi hij (by omega)
  obtain ⟨hle, hlt⟩ := hslots.upperBound_spec (le_refl 1) k
  have hub := hshows.upperBound k
  have hrange := (page.slots.boundLoop_upperBound k).2
  refine ⟨page.slots.upperBound k - 1, by omega, ?_, fun j h1 h2 => ?_, fun j h1 h2 => ?_⟩
  · have hindex : (if page.upperBound k ≠ 0 then page.upperBound k - 1 else page.upperBound k) =
        ((page.slots.upperBound k - 1 : Nat) : Int) := by
      rw [hub]
      split_ifs with hzero
      · omega
      · omega
    exact congrArg page.valueAt hindex
  · rw [hshows.keys]
    exact hle j h1 (by omega)
  · rw [hshows.keys]
    exact hlt j (by omega) (by omega) (by omega)

end IxPage

namespace IxMem.SearchTree

variable {M : IxMem κ} {q : Int} {chunks : LeafChunks κ}

/-- **The loop of `FindLeafPage`** ends, in the only leaf that can hold the key and that holds it if
any leaf does. -/
theorem findLeafFrom (h : M.SearchTree q chunks) (k : κ) :
    ∃ (rounds : Nat) (leaf : Int) (page : IxPage κ),
      (∀ fuel, rounds ≤ fuel → IxDoes (IxIndexHandle.findLeafFrom k fuel q) M leaf M) ∧
      M.pages leaf = some page ∧ page.LiveSorted ∧ (leaf, page.live) ∈ chunks ∧
      M.CanHold k q leaf ∧ (∀ r, M.CanHold k q r → r = leaf) ∧
      ∀ r l e, (r, l) ∈ chunks → e ∈ l → e.1 = k → r = leaf ∧ l = page.live := by
  induction h with
  | @leaf q page hp hleaf hnum hpairs =>
    have hsorted : page.LiveSorted := by
      constructor
      · exact hnum
      · simpa only [ixCompare_neg_iff] using hpairs
    refine ⟨1, q, page, fun fuel hfuel => ?_, hp, hsorted, List.mem_singleton_self _,
      .leaf hp hleaf, fun r hr => ?_, fun r l e hl _ _ => Prod.mk.inj (List.mem_singleton.mp hl)⟩
    · obtain ⟨fuel, rfl⟩ := Nat.exists_eq_add_of_le' hfuel
      unfold IxIndexHandle.findLeafFrom
      apply Does.bind (node_does hp)
      rw [hleaf, if_pos rfl]
      exact Does.pure
    · cases hr with
      | leaf => rfl
      | child hp' hinner =>
        obtain rfl := Option.some.inj (hp.symm.trans hp')
        rw [hleaf] at hinner
        cases hinner
  | @inner q page kids hp hinner hnum hsorted hkids hsep ih =>
    simp only [ixCompare_neg_iff, ixCompare_nonpos_iff] at hsorted hsep
    -- the child that the search chooses is the only one with room for the key
    obtain ⟨i, hi, hlookup, hle, hlt⟩ := IxPage.internalLookup_spec hnum hsorted k
    obtain ⟨rounds, leaf, page', hfind, hp', hsorted', hmem, hhold, honly, hkey⟩ := ih i hi
    obtain ⟨child, hchild⟩ := (hkids i hi).exists_page
    refine ⟨rounds + 1, leaf, page', fun fuel hfuel => ?_, hp', hsorted',
      List.mem_flatMap.mpr ⟨i, List.mem_range.mpr hi, hmem⟩,
      .child hp hinner hi (fun h1 => hle i h1 le_rfl) (hlt (i + 1) (Nat.lt_succ_self i)) hhold,
      fun r hr => ?_, fun r l e hl he hek => ?_⟩
    · obtain ⟨fuel, rfl⟩ : ∃ m, fuel = m + 1 := ⟨fuel - 1, by omega⟩
      unfold IxIndexHandle.findLeafFrom
      apply Does.bind (node_does hp)
      rw [hinner, if_neg (by decide), hlookup]
      apply Does.bind (fetchNode_does hchild)
      exact hfind fuel (Nat.le_of_succ_le_succ hfuel)
    · cases hr with
      | leaf hp₁ hleaf =>
        obtain rfl := Option.some.inj (hp.symm.trans hp₁)
        rw [hinner] at hleaf
        cases hleaf
      | @child _ _ _ j hp₁ _ hj hlow hhigh hrest =>
        obtain rfl := Option.some.inj (hp.symm.trans hp₁)
        rcases Nat.lt_trichotomy j i with hji | rfl | hij
        · -- the key is not below the next key
          exact absurd (hle (j + 1) (by omega) hji) (not_le.mpr (hhigh (by omega)))
        · exact honly r hrest
        · exact absurd (hlow (by omega)) (not_le.mpr (hlt j hij hj))
    · obtain ⟨j, hj, hl⟩ := List.mem_flatMap.mp hl
      rw [List.mem_range] at hj
      have he' : e ∈ chunkEntries (kids j) := List.mem_flatMap.mpr ⟨_, hl, he⟩
      rcases Nat.lt_trichotomy j i with hji | rfl | hij
      · have hbelow := (hsep j (by omega)).1 e he'
        have hkeys := hle (j + 1) (by omega) hji
        exact absurd hek (hbelow.trans_le hkeys).ne
      · exact hkey r l e hl he hek
      · obtain ⟨j, rfl⟩ : ∃ m, j = m + 1 := ⟨j - 1, by omega⟩
        have habove := (hsep j hj).2 e he'
        exact absurd hek ((hlt (j + 1) hij hj).trans_le habove).ne'

end IxMem.SearchTree

/-- **Point search.**  Where `ix_compare` is a linear order, in a search tree of any height
`FindLeafPage` ends in the only leaf that can
hold the key, and `GetValue` returns a rid exactly if a leaf holds the key with that rid. -/
theorem point_search {s : IxIndex κ} {chunks : LeafChunks κ}
    (htree : s.mem.SearchTree s.fileHdr.rootPage chunks) (k : κ) :
    ∃ (rounds : Nat) (leaf : Int) (found : Option Rid),
      (∀ fuel, rounds ≤ fuel → ∃ s', findLeafPage fuel k s = .ok leaf s' ∧ s'.mem = s.mem) ∧
      s.mem.CanHold k s.fileHdr.rootPage leaf ∧
      (∀ r, s.mem.CanHold k s.fileHdr.rootPage r → r = leaf) ∧
      (∀ r l e, (r, l) ∈ chunks → e ∈ l → e.1 = k → r = leaf) ∧
      (∀ fuel, rounds ≤ fuel → ∃ s', getValue fuel k s = .ok found s' ∧ s'.mem = s.mem) ∧
      ∀ r, found = some r ↔ (k, r) ∈ chunkEntries chunks := by
  obtain ⟨rounds, leaf, page, hfind, hp, hsorted, hmem, hhold, honly, hkey⟩ := htree.findLeafFrom k
  obtain ⟨root, hroot⟩ := htree.exists_page
  have hpage : ∀ fuel, rounds ≤ fuel → IxDoes (findLeafPage fuel k) s.mem leaf s.mem := by
    intro fuel hfuel
    unfold findLeafPage
    apply Does.get_bind
    intro t ht
    have hrootPage : t.fileHdr.rootPage = s.fileHdr.rootPage := congrArg (·.fileHdr.rootPage) ht
    rw [hrootPage]
    exact (fetchNode_does hroot).bind (hfind fuel hfuel)
  refine ⟨rounds, leaf, page.leafLookup k, fun fuel hfuel => hpage fuel hfuel s rfl, hhold, honly,
    fun r l e hl he hek => (hkey r l e hl he hek).1, fun fuel hfuel => ?_, fun r => ?_⟩
  · have hget : IxDoes (getValue fuel k) s.mem (page.leafLookup k) s.mem := by
      unfold getValue
      apply (hpage fuel hfuel).bind
      apply Does.bind (node_does hp)
      cases page.leafLookup k with
      | some rid => exact Does.pure
      | none => exact unpinPage_bind_does fun _ => Does.pure
    exact hget s rfl
  · rw [hsorted.leafLookup_eq_some_iff]
    constructor
    · exact fun hr => List.mem_flatMap.mpr ⟨_, hmem, hr⟩
    · -- no other leaf holds the key
      intro hr
      obtain ⟨⟨q, l⟩, hl, hr⟩ := List.mem_flatMap.mp hr
      obtain ⟨-, rfl⟩ := hkey q l (k, r) hl hr rfl
      exact hr

/-! ### The trees that inserts build -/

theorem flatMap_range_length {α β : Type} (l : List α) (f : α → List β) :
    ((List.range l.length).flatMap fun i => (l[i]?.map f).getD []) = l.flatMap f := by
  induction l with
  | nil => rfl
  | cons a l ih =>
    rw [List.length_cons, List.range_succ_eq_map, List.flatMap_cons, List.flatMap_map,
      List.flatMap_cons, ← ih]
    rfl

/-- A tree in memory whose keys separate its entries is a search tree of its pages. -/
theorem Tree.searchTree {M : IxMem κ} : {h : Nat} → {t : Tree κ h} → {parent : Int} →
    t.Holds M.pages parent → t.Inner → t.SearchOrdered → M.SearchTree t.no t.chunks
  | 0, t, _, ht, _, hord => by
    obtain ⟨page, hp, -, hleaf, hshows⟩ := ht
    rw [Tree.row_leaf] at hshows
    have hlive : page.live = t.slots.entries := hshows.live
    have hnum : 0 ≤ page.numKey := by
      rw [hshows.numKey]
      exact Int.natCast_nonneg _
    have hsorted : page.live.Pairwise fun e e' => ixCompare e.1 e'.1 < 0 := by
      simp only [ixCompare_neg_iff]
      rw [hlive]
      exact Tree.SearchOrdered.pairwise hord
    have htree := IxMem.SearchTree.leaf hp hleaf hnum hsorted
    rwa [hlive] at htree
  | h + 1, t, _, ht, hinner, hord => by
    obtain ⟨⟨page, hp, -, hleaf, hshows⟩, hkids⟩ := ht
    have hsize : page.numKey.toNat = t.kids.length := by
      rw [hshows.toNat_numKey]
      exact Slots.size_map _
    have hkeys : page.keys = t.slots.keyAt := by
      rw [hshows.keys]
      exact Slots.keyAt_map _
    -- slot `i` of the page points at child `i`
    have hget : ∀ i < t.kids.length, ∃ e, t.kids[i]? = some e ∧ page.valueAt i = e.2.no := by
      intro i hi
      have he := List.getElem?_eq_getElem hi
      refine ⟨_, he, ?_⟩
      have hrow : t.row.entries[i]? = some (t.kids[i].1, Item.rid (h := h + 1) t.kids[i].2) := by
        show (t.kids.map _)[i]? = _
        rw [List.getElem?_map, he]
        rfl
      show (page.rids _).pageNo = _
      rw [Int.toNat_natCast, hshows.rids hrow]
      rfl
    -- the leaves of the tree are those of the children, in the order of the slots
    have hchunks : t.chunks = (List.range page.numKey.toNat).flatMap
        fun i => (t.kids[i]?.map fun e => e.2.chunks).getD [] := by
      rw [hsize, flatMap_range_length]
      rfl
    have hbelow : ∀ (i : Nat) (e : κ × Tree κ h), t.kids[i]? = some e →
        chunkEntries ((t.kids[i]?.map fun e => e.2.chunks).getD []) = e.2.toList := by
      intro i e he
      rw [he]
      exact Tree.chunkEntries_chunks e.2
    rw [hchunks]
    refine .inner hp hleaf ?_ ?_ ?_ ?_
    · have hne : t.kids.length ≠ 0 := hinner.1
      omega
    · intro i j hi hij hj
      rw [ixCompare_neg_iff, hkeys]
      exact hord.1 i j hi hij (by rw [hsize] at hj; exact hj)
    · intro i hi
      obtain ⟨e, he, hno⟩ := hget i (by omega)
      have hmem := List.mem_of_getElem? he
      rw [hno, he]
      exact Tree.searchTree (hkids e hmem) (hinner.2 e hmem) (hord.2 i e he).1
    · intro i hi
      obtain ⟨e, he, -⟩ := hget i (by omega)
      obtain ⟨e', he', -⟩ := hget (i + 1) (by omega)
      have hlt : i + 1 < t.slots.size := by
        rw [hsize] at hi
        exact hi
      simp only [ixCompare_neg_iff, ixCompare_nonpos_iff]
      rw [hkeys, hbelow i e he, hbelow (i + 1) e' he']
      constructor
      · intro x hx
        exact ((hord.2 i e he).2 x hx).2 hlt
      · intro x hx
        exact ((hord.2 (i + 1) e' he').2 x hx).1 (Nat.le_add_left 1 i)

theorem IxMem.Represents.searchTree {s : IxIndex κ} {H : Nat} {T : Tree κ H}
    (hT : s.mem.Represents T) : s.mem.SearchTree s.fileHdr.rootPage T.chunks := by
  have hroot : s.fileHdr.rootPage = T.no := hT.root
  rw [hroot]
  exact Tree.searchTree hT.tree hT.inner hT.order

end Ordered

/-- Searching an index of two leaves. -/
theorem point_search_two_leaves : ∃ chunks,
    twoLeaves.mem.SearchTree twoLeaves.fileHdr.rootPage chunks ∧
      ∃ (rounds : Nat) (found : Option Rid),
        (∀ fuel, rounds ≤ fuel → ∃ s', getValue fuel 4 twoLeaves = .ok found s' ∧
          s'.mem = twoLeaves.mem) ∧
        ∀ r, found = some r ↔ ((4 : Int), r) ∈ chunkEntries chunks := by
  obtain ⟨H, T, hT⟩ := twoLeaves_represents
  obtain ⟨rounds, leaf, found, -, -, -, -, hget, hfound⟩ := point_search hT.searchTree 4
  exact ⟨T.chunks, hT.searchTree, rounds, found, hget, hfound⟩

/-! ### Keys without an order -/

/-- A page with two `float` keys. -/
def floatPage (isLeaf : Bool) (parent prevLeaf nextLeaf : Int) (e₀ e₁ : FloatKey × Rid) :
    IxPage FloatKey where
  parent
  numKey := 2
  isLeaf
  prevLeaf
  nextLeaf
  keys := fun i => if i = 0 then e₀.1 else e₁.1
  rids := fun i => if i = 0 then e₀.2 else e₁.2

/-- The keys 1.0 and 2.0. -/
def floatLeft : IxPage FloatKey :=
  floatPage true 4 1 3 (⟨0x3f800000⟩, ⟨7, 1⟩) (⟨0x40000000⟩, ⟨7, 2⟩)

/-- The keys 3.0 and 4.0. -/
def floatRight : IxPage FloatKey :=
  floatPage true 4 2 1 (⟨0x40400000⟩, ⟨7, 3⟩) (⟨0x40800000⟩, ⟨7, 4⟩)

/-- The keys 1.0 and 3.0. -/
def floatRoot : IxPage FloatKey :=
  floatPage false (-1) 0 0 (⟨0x3f800000⟩, ⟨2, -1⟩) (⟨0x40400000⟩, ⟨3, -1⟩)

/-- An index of order 3 after inserting 1.0, 2.0, 3.0 and 4.0. -/
def floatIndex : IxIndex FloatKey :=
  let hdr := { IxFileHdr.init .float 4 with
    btreeOrder := 3, numPages := 5, rootPage := 4, lastLeaf := 3 }
  { fd := 3
    fileHdr := hdr
    diskHdr := hdr
    store :=
      { pool := fun _ => none
        pinCount := fun _ => 0
        disk := fun pageNo =>
          if pageNo = 2 then some floatLeft
          else if pageNo = 3 then some floatRight
          else if pageNo = 4 then some floatRoot
          else none
        fd2pageno := fun _ => 5 } }

theorem floatIndex_searchTree : floatIndex.mem.SearchTree floatIndex.fileHdr.rootPage
    [(2, floatLeft.live), (3, floatRight.live)] := by
  have hkids : ∀ i : Nat, i < 2 → floatIndex.mem.SearchTree (floatRoot.valueAt i)
      (if i = 0 then [(2, floatLeft.live)] else [(3, floatRight.live)]) := by
    intro i hi
    obtain rfl | rfl : i = 0 ∨ i = 1 := by omega
    · exact .leaf rfl rfl (by decide) (by decide)
    · exact .leaf rfl rfl (by decide) (by decide)
  refine .inner (show _ = some floatRoot from rfl) rfl (by decide) (fun i j h1 hij hj => ?_) hkids
    fun i hi => ?_
  · have : j < 2 := hj
    omega
  · obtain rfl : i = 0 := by
      have : i + 1 < 2 := hi
      omega
    exact ⟨by decide, by decide⟩

/-- **A NaN is found where there is none.**  `ix_compare` takes it for equal to every key: the search
goes to the last leaf, stops at the first entry, and `GetValue` returns the rid of 3.0. -/
theorem not_point_search_nan : ∃ chunks,
    floatIndex.mem.SearchTree floatIndex.fileHdr.rootPage chunks ∧
      (∀ e ∈ chunkEntries chunks, e.1 ≠ ⟨0x7fc00000⟩) ∧
      ∃ s', getValue 2 ⟨0x7fc00000⟩ floatIndex = .ok (some ⟨7, 3⟩) s' :=
  ⟨_, floatIndex_searchTree, by decide, _, rfl⟩

end Rucbase
