import Mathlib.Order.Interval.Set.OrdConnected
import Rucbase.Index.Equiv.DeadPages
import Rucbase.Index.Equiv.Links
import Rucbase.Index.Equiv.SearchRuns
import Rucbase.Index.Equiv.WellFormed

/-!
# Inserting after deleting

`insert_entry` on a well-formed tree (`IxMem.WellFormed`), whatever was deleted before: pages that
are no longer used are out of reach, and the keys of inner nodes that deleting has left lie between
the entries that they separate.  The call keeps the tree well formed where new nodes go in behind
those they were split from (`IxMem.WellFormed.insertEntry`).
-/

namespace Rucbase

open EStateM IxIndexHandle

variable {κ : Type} {h H : Nat}

/-! ### Leaves among the pages -/

section Leaves

variable {pages : Int → Option (IxPage κ)} {t : Tree κ h} {parent q : Int}

theorem Tree.leaves_subset_nos (hq : q ∈ t.leaves) : q ∈ t.nos := by
  induction h with
  | zero => exact hq
  | succ h ih =>
    obtain ⟨e, he, hqe⟩ := List.mem_flatMap.mp hq
    exact Tree.nos_subset_of_kid he q (ih hqe)

theorem Tree.Holds.isLeaf_of_mem_leaves (ht : t.Holds pages parent) (hq : q ∈ t.leaves) :
    ∃ page, pages q = some page ∧ page.isLeaf = true := by
  induction h generalizing parent with
  | zero =>
    obtain rfl := List.mem_singleton.mp hq
    obtain ⟨page, hp, -, hleaf, -⟩ := ht
    exact ⟨page, hp, hleaf⟩
  | succ h ih =>
    obtain ⟨e, he, hqe⟩ := List.mem_flatMap.mp hq
    exact ih (ht.2 e he) hqe

theorem Tree.Holds.mem_leaves (ht : t.Holds pages parent) (hq : q ∈ t.nos) {page : IxPage κ}
    (hp : pages q = some page) (hleaf : page.isLeaf = true) : q ∈ t.leaves := by
  induction h generalizing parent with
  | zero => exact hq
  | succ h ih =>
    obtain ⟨⟨page', hp', -, hinner, -⟩, hkids⟩ := ht
    rcases List.mem_cons.mp hq with rfl | hq
    · -- an inner node is no leaf
      obtain rfl : page = page' := Option.some.inj (hp.symm.trans hp')
      rw [hleaf] at hinner
      cases hinner
    · obtain ⟨e, he, hqe⟩ := List.mem_flatMap.mp hq
      exact List.mem_flatMap.mpr ⟨e, he, ih (hkids e he) hqe⟩

theorem Tree.Holds.exists_page (ht : t.Holds pages parent) (hq : q ∈ t.nos) :
    ∃ page, pages q = some page := by
  induction h generalizing parent with
  | zero =>
    obtain rfl := List.mem_singleton.mp hq
    obtain ⟨page, hp, -⟩ := ht
    exact ⟨page, hp⟩
  | succ h ih =>
    obtain ⟨⟨page, hp, -⟩, hkids⟩ := ht
    rcases List.mem_cons.mp hq with rfl | hq
    · exact ⟨page, hp⟩
    · obtain ⟨e, he, hqe⟩ := List.mem_flatMap.mp hq
      exact ih (hkids e he) hqe

end Leaves

/-! ### Keys between entries -/

section Within

theorem Tree.Sized.exists_mem {order lo hi : Nat} {t : Tree κ h} (horder : 2 < order)
    (ht : t.Sized order lo hi) (hlo : lo ≠ 0) : ∃ x, x ∈ t.toList := by
  induction h generalizing lo hi with
  | zero =>
    have hsize : t.slots.entries.length ≠ 0 := by
      have := ht.size.1
      show t.slots.size ≠ 0
      omega
    exact List.exists_mem_of_length_pos (Nat.pos_of_ne_zero hsize)
  | succ h ih =>
    have hsize : t.kids.length ≠ 0 := by
      have := ht.size.1
      show t.slots.size ≠ 0
      omega
    obtain ⟨e, he⟩ := List.exists_mem_of_length_pos (Nat.pos_of_ne_zero hsize)
    obtain ⟨x, hx⟩ := ih (ht.2 e he) (by omega)
    exact ⟨x, List.mem_flatMap.mpr ⟨e, he, hx⟩⟩

variable [LinearOrder κ]

theorem Slots.ordConnected_range {α : Type} (s : Slots κ α) {S : Set κ} (hS : S.OrdConnected)
    (i : Nat) : (s.range S i).OrdConnected := by
  refine ⟨fun x hx y hy z hz => ?_⟩
  refine ⟨hS.out hx.1 hy.1 hz, fun hi => (hx.2.1 hi).trans hz.1, fun hi => ?_⟩
  exact lt_of_le_of_lt hz.2 (hy.2.2 hi)

/-- In a search-ordered tree without empty nodes every key of an inner node lies between two
entries. -/
theorem Tree.SearchOrdered.within {order lo hi : Nat} {t : Tree κ h} (horder : 2 < order)
    (ht : t.SearchOrdered) (hsized : t.Sized order lo hi) {S : Set κ} (hS : S.OrdConnected)
    (hmem : ∀ x ∈ t.toList, x.1 ∈ S) : t.Within 1 S := by
  induction h generalizing S lo hi with
  | zero =>
    refine ⟨ht, fun i _ hi => ?_⟩
    have he : t.slots.entries[i]? = some (t.slots.entries.get ⟨i, hi⟩) :=
      List.getElem?_eq_getElem hi
    rw [Slots.keyAt_of_getElem? he]
    exact hmem _ (List.mem_of_getElem? he)
  | succ h ih =>
    obtain ⟨hsorted, hkids⟩ := ht
    have hentry : ∀ {i : Nat} {e : κ × Tree κ h}, t.kids[i]? = some e →
        ∃ x ∈ e.2.toList, x ∈ t.toList := by
      intro i e he
      have hmem' := List.mem_of_getElem? he
      obtain ⟨x, hx⟩ := (hsized.2 e hmem').exists_mem horder (by omega)
      exact ⟨x, hx, List.mem_flatMap.mpr ⟨e, hmem', hx⟩⟩
    refine ⟨⟨hsorted, fun i hi hlt => ?_⟩, fun i e he => ?_⟩
    · -- an entry of the child before it and one of its own child
      have hlt' : i - 1 < t.kids.length := by
        show i - 1 < t.slots.size
        omega
      have he : t.kids[i]? = some (t.kids.get ⟨i, hlt⟩) := List.getElem?_eq_getElem hlt
      have hd : t.kids[i - 1]? = some (t.kids.get ⟨i - 1, hlt'⟩) := List.getElem?_eq_getElem hlt'
      obtain ⟨y, hye, hy⟩ := hentry he
      obtain ⟨x, hxd, hx⟩ := hentry hd
      have hbelow := ((hkids _ _ hd).2 x hxd).2
      rw [Nat.sub_add_cancel hi] at hbelow
      exact hS.out (hmem x hx) (hmem y hy) ⟨(hbelow hlt).le, ((hkids _ _ he).2 y hye).1 hi⟩
    · refine ih (hkids i e he).1 (hsized.2 e (List.mem_of_getElem? he))
        (t.slots.ordConnected_range hS i) fun x hx => ?_
      exact ⟨hmem x (List.mem_flatMap.mpr ⟨e, List.mem_of_getElem? he, hx⟩), (hkids i e he).2 x hx⟩

end Within

/-! ### Pages out of reach -/

/-- The pages before the counter that belong neither to the tree nor to the headers. -/
def IxMem.Dead (M : IxMem κ) (T : Tree κ H) (q : Int) : Prop :=
  2 ≤ q ∧ q < M.counter ∧ q ∉ T.nos

instance (M : IxMem κ) (T : Tree κ H) : DecidablePred (M.Dead T) :=
  fun _ => inferInstanceAs (Decidable (_ ∧ _ ∧ _))

section Hidden

variable {order : Nat} {T : Tree κ H} {s t : IxIndex κ}

theorem IxMem.not_dead_of_mem {M : IxMem κ} {q : Int} (hq : q ∈ ixLeafHeaderPage :: T.leaves) :
    ¬M.Dead T q := by
  rintro ⟨htwo, -, hnos⟩
  rcases List.mem_cons.mp hq with rfl | hq
  · exact absurd htwo (by decide)
  · exact hnos (Tree.leaves_subset_nos hq)

/-- The chain of the leaves does not depend on pages out of reach. -/
theorem Hides.linkRing {leaves : List Int} {D : Int → Prop} (hR : Hides D s t)
    (hD : ∀ q ∈ ixLeafHeaderPage :: leaves, ¬D q) :
    LinkRing (nextOf t.mem.pages) (prevOf t.mem.pages) ixLeafHeaderPage leaves ↔
      LinkRing (nextOf s.mem.pages) (prevOf s.mem.pages) ixLeafHeaderPage leaves := by
  have hnext : ∀ q ∈ ixLeafHeaderPage :: leaves, nextOf t.mem.pages q = nextOf s.mem.pages q := by
    intro q hq
    rw [nextOf, nextOf, hR.pages (hD q hq)]
  have hprev : ∀ q ∈ ixLeafHeaderPage :: leaves, prevOf t.mem.pages q = prevOf s.mem.pages q := by
    intro q hq
    rw [prevOf, prevOf, hR.pages (hD q hq)]
  constructor
  · intro h
    exact h.congr (fun q hq => (hnext q hq).symm) fun q hq => (hprev q hq).symm
  · intro h
    exact h.congr hnext hprev

/-- Without the pages out of reach, the chain is that of all leaf pages. -/
theorem IxMem.Formed.indexOk_hide (hF : s.mem.Formed order T) (hok : s.links.Ok)
    (hfresh : s.links.Fresh) : IndexOk (s.hide (s.mem.Dead T)).mem order T T.leaves := by
  have hR : Hides (s.mem.Dead T) s (s.hide (s.mem.Dead T)) := s.hides_hide fun q hq => hq.2.1
  have hh := hF.chained.held
  have hnos : ∀ q ∈ T.nos, ¬s.mem.Dead T q := fun q hq hdead => hdead.2.2 hq
  have hnone : ∀ q, s.mem.counter ≤ q → (s.hide (s.mem.Dead T)).mem.pages q = none := by
    intro q hq
    rw [hR.pages fun hdead => absurd hdead.2.1 (not_lt.mpr hq)]
    exact Option.map_eq_none_iff.mp (hfresh q hq)
  refine ⟨⟨trivial, ?_, hh.nodup, fun q hq => ⟨hh.range q hq, ?_⟩, hnone, hh.order, hh.root⟩,
    ⟨?_, fun q hq => ?_, fun q => ⟨fun hq => ?_, ?_⟩⟩, hF.chained.first, hF.chained.last⟩
  · exact Tree.Holds.congr hh.tree fun q hq => .of_eq (hR.pages (hnos q hq))
  · have hq' : q ∈ T.nos := by simpa [Ctx.nos] using hq
    obtain ⟨page, hp⟩ := Tree.Holds.exists_page hh.tree hq'
    exact hfresh.lt (show s.links.link q = some page.link from congrArg (Option.map _) hp)
  · exact (hR.linkRing fun q hq => IxMem.not_dead_of_mem hq).mpr hF.chained.ring
  · exact hh.range q (List.mem_append_left _ (Tree.leaves_subset_nos hq))
  · rw [hR.pages (IxMem.not_dead_of_mem hq)]
    rcases List.mem_cons.mp hq with rfl | hq
    · obtain ⟨links, hlink⟩ := hok.leafHeader
      obtain ⟨page, hp, hpage⟩ := Option.map_eq_some_iff.mp hlink
      exact ⟨page, hp, congrArg Prod.fst hpage⟩
    · exact Tree.Holds.isLeaf_of_mem_leaves hh.tree hq
  · rintro ⟨page, hp, hleaf⟩
    have hdead := hR.notMem hp
    rw [hR.pages hdead] at hp
    have hlink : s.links.link q = some page.link := congrArg (Option.map _) hp
    have hge := hok.leafHeader_le hlink
    by_cases hone : q = ixLeafHeaderPage
    · rw [hone]
      exact List.mem_cons_self
    · refine List.mem_cons_of_mem _ (Tree.Holds.mem_leaves hh.tree ?_ hp hleaf)
      by_contra hmem
      have hge' : 1 ≤ q := hge
      have hone' : q ≠ 1 := hone
      exact hdead ⟨by omega, hfresh.lt hlink, hmem⟩

theorem ChainedTree.formed (hT : ChainedTree s.mem order T) (hok : s.links.Ok) :
    s.mem.Formed order T := by
  refine ⟨hT, fun q _ page hp hleaf => ?_, ?_⟩
  · have hlink : s.links.link q = some (false, page.prevLeaf, page.nextLeaf) := by
      rw [← hleaf]
      exact congrArg (Option.map _) hp
    exact Prod.mk.inj (hok.inner hlink)
  · exact Option.map_eq_none_iff.mp (hok.below ixFileHdrPage (by decide))

/-- A tree in the memory without some pages is a tree in the memory with them. -/
theorem Hides.formed {D : Int → Prop} {T : Tree κ H} (hR : Hides D s t)
    (hD : ∀ q, D q → 2 ≤ q) (hI : IndexOk t.mem order T T.leaves) (hok : s.links.Ok) :
    s.mem.Formed order T := by
  have hf := hI.focus
  have hlive : ∀ q ∈ T.nos, ¬D q := by
    intro q hq
    obtain ⟨page, hp⟩ := Tree.Holds.exists_page hf.tree hq
    exact hR.notMem hp
  have hhdr : t.mem.fileHdr = s.mem.fileHdr := hR.fileHdr
  refine ChainedTree.formed ⟨⟨trivial, ?_, hf.nodup, fun q hq => (hf.range q hq).1, ?_, ?_⟩, ?_, ?_,
    ?_⟩ hok
  · exact Tree.Holds.congr hf.tree fun q hq => .of_eq (hR.pages (hlive q hq)).symm
  · rw [← hhdr]
    exact hf.order
  · rw [← hhdr]
    exact hf.root
  · refine (hR.linkRing fun q hq => ?_).mp hI.chain.ring
    rcases List.mem_cons.mp hq with rfl | hq
    · exact fun hdead => absurd (hD _ hdead) (by decide)
    · exact hlive q (Tree.leaves_subset_nos hq)
  · rw [← hhdr]
    exact hI.first
  · rw [← hhdr]
    exact hI.last

end Hidden

/-! ### `insert_entry` -/

section InsertEntry

variable [LinearOrder κ] [Inhabited κ] {order fuel : Nat} {M : IxMem κ} {s : IxIndex κ}
  {c : Ctx κ 0 H} {t : Tree κ 0} {key : κ} {value : Rid}

/-- The tree after an insert whose new nodes go in behind the old ones. -/
theorem IxMem.WellFormed.splitUp (horder : 2 < order) (hM : M.WellFormed order (c.plug t))
    (hleads : c.Leads key t) {counter : Int}
    (hplaces : PlacesRight order c (t.insert key value) counter) :
    PlacesBehind order c (t.insert key value) counter ∧
      (Rucbase.splitUp order c (t.insert key value) counter).tree.Sorted ∧
      (Rucbase.splitUp order c (t.insert key value) counter).tree.SearchOrdered := by
  have hwithin : (c.plug t).Within 1 Set.univ :=
    hM.search.within horder hM.sized Set.ordConnected_univ fun _ _ => trivial
  have hkey := hleads.mem_span (le_refl 1) hwithin
  have hleaf : (t.insert key value).Within 1 c.span :=
    Slots.KeysIn.insert hwithin.of_plug hkey value
  have hsorted : (t.insert key value).Sorted :=
    Slots.SortedFrom.insert (Tree.Sorted.of_plug hM.sorted) key value
  obtain ⟨hbehind, hwithin'⟩ := hplaces.within horder (le_refl 1) hwithin hleaf
  exact ⟨hbehind, sorted_splitUp horder hM.sorted hsorted, hwithin'.searchOrdered (le_refl 1)⟩

/-- A node that is not full is left alone. -/
theorem splitNodeIfFull_notFull_does {p : Int} {page : IxPage κ} (hp : M.pages p = some page)
    (hsize : page.numKey ≠ M.fileHdr.btreeOrder + 1) :
    IxDoes (splitNodeIfFull (fuel + 1) p) M () M := by
  unfold splitNodeIfFull
  apply Does.get_bind
  rintro s rfl
  apply Does.bind (node_does hp)
  have hfull : page.isFull s.fileHdr = false := decide_eq_false hsize
  rw [hfull, if_neg (by decide)]
  exact Does.pure

/-- `insert_entry` into a leaf that has room. -/
theorem IxMem.WellFormed.insertEntry_room (horder : 2 < order) (hM : M.WellFormed order (c.plug t))
    (hleads : c.Leads key t) (hroom : (t.insert key value).slots.size ≠ order + 1)
    (hfuel : H < fuel) :
    ∃ M', IxDoes (insertEntry fuel key value) M
        (decide (t.slots.keyAt (t.slots.lowerBound key) ≠ key)) M' ∧
      M'.Formed order (c.plug (t.insert key value)) ∧ KeepsLinks M M' ∧ M'.counter = M.counter := by
  have hh : Held M order c t := Held.plug_iff.mpr hM.formed.chained.held
  obtain ⟨c', t', hplug, hleads', hfind⟩ := findLeafPage_does hM.formed.chained.held.tree
    hM.formed.chained.held.root (hM.inner horder) hfuel key
  obtain ⟨rfl, rfl⟩ := hleads.unique hleads' hplug.symm
  obtain ⟨page, hp, -, -, hshows⟩ := hh.tree
  rw [Tree.row_leaf] at hshows
  obtain ⟨hlink, hparent⟩ := page.insert_fields key value
  have hshows' : (page.insert key value).Shows (t.slots.insert key value) :=
    hshows.insert key value
  have hheld := hh.set_leaf hp hparent (congrArg Prod.fst hlink) hshows'
  have hlinks : KeepsLinks M (M.set t.no (page.insert key value)) := .set hp hlink
  have hleaves : (c.plug (t.insert key value)).leaves = (c.plug t).leaves := by
    unfold Tree.leaves
    rw [Ctx.collect_plug, Ctx.collect_plug]
    rfl
  have hT := hM.formed.chained.of_leaves hlinks (Held.plug_iff.mp hheld) hleaves
  refine ⟨M.set t.no (page.insert key value), ?_, hM.formed.of_links hlinks.link hT ?_, hlinks, rfl⟩
  · -- the number of keys tells whether the key went in
    have hsize : (page.insert key value).numKey > page.numKey ↔
        t.slots.keyAt (t.slots.lowerBound key) ≠ key := by
      rw [hshows'.numKey, hshows.numKey, Slots.size_insert]
      split_ifs with hk
      · simp [hk]
      · simp only [ne_eq, hk, not_false_eq_true, iff_true]
        omega
    unfold insertEntry
    apply hfind.bind
    apply Does.bind (node_does hp)
    apply Does.bind (setNode_does _ _)
    by_cases hk : t.slots.keyAt (t.slots.lowerBound key) = key
    · rw [if_neg fun h => hsize.mp h hk, decide_eq_false (not_not.mpr hk)]
      exact Does.pure
    · rw [if_pos (hsize.mpr hk), decide_eq_true hk]
      obtain ⟨fuel, rfl⟩ := Nat.exists_eq_succ_of_ne_zero (show fuel ≠ 0 by omega)
      refine (splitNodeIfFull_notFull_does (IxMem.set_pages_self _) ?_).bind Does.pure
      rw [hshows'.numKey, IxMem.set_fileHdr, hh.order]
      have hroom' : (t.slots.insert key value).size ≠ order + 1 := hroom
      omega
  · intro q hq
    rw [(c.nos_plug _).mem_iff] at hq ⊢
    exact hq

/-- **`insert_entry` keeps a tree well formed** where new nodes go in behind the old ones, and an
insert that splits the leaf finds unused page numbers. -/
theorem IxMem.WellFormed.insertEntry (horder : 2 < order)
    (hM : s.mem.WellFormed order (c.plug t)) (hok : s.links.Ok) (hleads : c.Leads key t)
    (hplaces : PlacesRight order c (t.insert key value) s.mem.counter)
    (hfresh : (t.insert key value).slots.size = order + 1 → s.links.Fresh) (hfuel : H < fuel) :
    ∃ s', IxIndexHandle.insertEntry fuel key value s =
        .ok (decide (t.slots.keyAt (t.slots.lowerBound key) ≠ key)) s' ∧
      s'.mem.WellFormed order
        (Rucbase.splitUp order c (t.insert key value) s.mem.counter).tree ∧ s'.links.Ok := by
  obtain ⟨hbehind, hsorted, hsearch⟩ := hM.splitUp horder hleads hplaces
  have hsized : (Rucbase.splitUp order c (t.insert key value) s.mem.counter).tree.Sized order
      (rootMin _) order :=
    sized_splitUp horder hM.sized (hM.sized.of_plug.insert key value)
  by_cases hfull : (t.insert key value).slots.size = order + 1
  · -- without the pages that are out of reach
    let D := s.mem.Dead (c.plug t)
    have hI := hM.formed.indexOk_hide hok (hfresh hfull)
    obtain ⟨c', t', A, B, M', hplug, hleads', hleaves, hdoes, -, hI'⟩ := insertEntry_does hI
      (hM.inner horder) hfuel key value fun c' t' hplug => by
        have hsized' := hM.sized
        rw [← hplug] at hsized'
        exact hsized'.of_plug.size.2
    obtain ⟨rfl, rfl⟩ := hleads.unique hleads' hplug.symm
    have hnodup : (A ++ t.no :: B).Nodup := by
      rw [← hleaves]
      exact (List.nodup_cons.mp hI.chain.ring.nodup).2
    have hno : (t.insert key value).no = t.no := rfl
    have hcounter : (s.hide D).mem.counter = s.mem.counter := rfl
    rw [hcounter, chainAfter_eq_leaves hleaves hnodup hno hbehind] at hI'
    obtain ⟨u, hrun, rfl⟩ := hdoes (s.hide D) rfl
    -- and with them
    have hR : Hides D s (s.hide D) := s.hides_hide fun q hq => hq.2.1
    obtain ⟨s', hrun', hR'⟩ := insertEntry_mimics fuel key value s _ _ _ hR hrun
    have hok' := (insertEntry_ensures fuel key value hok (hfresh hfull) s _ _ rfl hrun').1
    exact ⟨s', hrun', ⟨hR'.formed (fun q hq => hq.1) hI' hok', hsorted, hsearch, hsized⟩, hok'⟩
  · obtain ⟨M', hdoes, hF, hlinks, hcounter⟩ := hM.insertEntry_room horder hleads hfull hfuel
    obtain ⟨s', hrun, rfl⟩ := hdoes s rfl
    refine ⟨s', hrun, ?_, ?_⟩
    · rw [splitUp_of_not_full hfull] at hsorted hsearch hsized ⊢
      exact ⟨hF, hsorted, hsearch, hsized⟩
    · have heq : s'.links = s.links := by
        ext1
        · exact hcounter
        · ext1 q
          exact hlinks.link q
      rw [heq]
      exact hok

end InsertEntry

end Rucbase
