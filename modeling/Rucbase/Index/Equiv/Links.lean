import Rucbase.Index.Equiv.Insert
import Rucbase.Index.IxRuns
import Rucbase.Lib.Ensures

/-!
# Links in every run

Leaf flags, leaf links and the page counter are all that the chain of leaves is made of (`IxLinks`).
Whatever keys a run inserts and deletes, and whatever becomes of the tree above: inner nodes keep
zeros in their links, the links of a leaf lead to leaves, and no page from the counter on is in use
(`IxLinks.Ok`, `IxLinks.Fresh`).  The calls of a run are those that return, so none of them has
fetched the file header as a node.
-/

namespace Rucbase

open EStateM IxIndexHandle

variable {κ : Type}

/-- The page counter, and the leaf flag and the leaf links of every page. -/
@[ext]
structure IxLinks where
  counter : Int
  link : Int → Option (Bool × Int × Int)

/-- The links under an index. -/
def IxIndex.links (s : IxIndex κ) : IxLinks where
  counter := s.mem.counter
  link := fun q => (s.mem.pages q).map IxPage.link

namespace IxLinks

variable {v : IxLinks} {q r prev next : Int} {l l' : Bool × Int × Int}

/-- A page is written. -/
def set (v : IxLinks) (q : Int) (l : Bool × Int × Int) : IxLinks :=
  { v with link := Function.update v.link q (some l) }

/-- `CreateNode`. -/
def create (v : IxLinks) : IxLinks where
  counter := v.counter + 1
  link := Function.update v.link v.counter (some (false, 0, 0))

/-- The page is a leaf. -/
def Leaf (v : IxLinks) (q : Int) : Prop := ∃ links, v.link q = some (true, links)

/-- Inner nodes have no links, and those of leaves lead to leaves; page 1 counts as a leaf, and no
page before it, such as the file header, as a node. -/
structure Ok (v : IxLinks) : Prop where
  inner : ∀ {q links}, v.link q = some (false, links) → links = (0, 0)
  prev : ∀ {q prev next}, v.link q = some (true, prev, next) → v.Leaf prev
  next : ∀ {q prev next}, v.link q = some (true, prev, next) → v.Leaf next
  below : ∀ q, q < ixLeafHeaderPage → v.link q = none
  leafHeader : v.Leaf ixLeafHeaderPage

/-- No page from the counter on is in use. -/
def Fresh (v : IxLinks) : Prop := ∀ q, v.counter ≤ q → v.link q = none

theorem set_link_self : (v.set q l).link q = some l := Function.update_self ..

theorem set_link_of_ne (h : r ≠ q) : (v.set q l).link r = v.link r := Function.update_of_ne h ..

theorem set_set : (v.set q l).set q l' = v.set q l' := by
  unfold set
  simp

theorem set_of_eq (h : v.link q = some l) : v.set q l = v := by
  ext1
  · rfl
  · show Function.update v.link q (some l) = v.link
    rw [← h, Function.update_eq_self]

theorem leaf_set_iff : (v.set q l).Leaf r ↔ if r = q then l.1 = true else v.Leaf r := by
  unfold Leaf
  by_cases hr : r = q
  · subst hr
    rw [set_link_self, if_pos rfl]
    constructor
    · rintro ⟨links, h⟩
      rw [Option.some.inj h]
    · intro h
      exact ⟨l.2, by rw [← h]⟩
  · rw [set_link_of_ne hr, if_neg hr]

/-- A leaf gets other links, or a new page becomes a leaf. -/
theorem Ok.set_leaf (hv : v.Ok) (hq : ixLeafHeaderPage ≤ q) (hprev : v.Leaf prev ∨ prev = q)
    (hnext : v.Leaf next ∨ next = q) : (v.set q (true, prev, next)).Ok := by
  have hleaf : ∀ {r}, v.Leaf r ∨ r = q → (v.set q (true, prev, next)).Leaf r := by
    intro r hr
    rw [leaf_set_iff]
    split_ifs with h
    · rfl
    · exact hr.resolve_right h
  -- a link of the new state is one of the old state or one of the two
  refine ⟨fun {r links} h => ?_, fun {r p n} h => ?_, fun {r p n} h => ?_, fun r hr => ?_,
    hleaf (.inl hv.leafHeader)⟩
  · by_cases hr : r = q
    · subst hr
      rw [set_link_self] at h
      cases h
    · exact hv.inner ((set_link_of_ne hr).symm.trans h)
  · by_cases hr : r = q
    · subst hr
      rw [set_link_self] at h
      cases h
      exact hleaf hprev
    · exact hleaf (.inl (hv.prev ((set_link_of_ne hr).symm.trans h)))
  · by_cases hr : r = q
    · subst hr
      rw [set_link_self] at h
      cases h
      exact hleaf hnext
    · exact hleaf (.inl (hv.next ((set_link_of_ne hr).symm.trans h)))
  · rw [set_link_of_ne (by omega), hv.below r hr]

theorem Ok.leafHeader_le (hv : v.Ok) (hq : v.link q = some l) : ixLeafHeaderPage ≤ q := by
  by_contra hlt
  rw [hv.below q (not_le.mp hlt)] at hq
  cases hq

theorem Fresh.lt (hv : v.Fresh) (hq : v.link q = some l) : q < v.counter := by
  by_contra hge
  rw [hv q (not_lt.mp hge)] at hq
  cases hq

theorem Fresh.set (hv : v.Fresh) (hq : q < v.counter) : (v.set q l).Fresh := by
  intro r hr
  have hr' : v.counter ≤ r := hr
  rw [set_link_of_ne (by omega), hv r hr']

theorem create_link_counter : v.create.link v.counter = some (false, 0, 0) :=
  Function.update_self ..

theorem create_link_of_ne (h : r ≠ v.counter) : v.create.link r = v.link r :=
  Function.update_of_ne h ..

theorem Fresh.create (hv : v.Fresh) : v.create.Fresh := by
  intro r hr
  have hr' : v.counter + 1 ≤ r := hr
  rw [create_link_of_ne (by omega), hv r (by omega)]

theorem Fresh.leaf_create (hv : v.Fresh) (hq : v.Leaf q) : v.create.Leaf q := by
  obtain ⟨links, hlink⟩ := hq
  exact ⟨links, (create_link_of_ne (hv.lt hlink).ne).trans hlink⟩

theorem Ok.create (hv : v.Ok) (hfresh : v.Fresh) : v.create.Ok := by
  have hcounter : ixLeafHeaderPage < v.counter := by
    obtain ⟨links, hlink⟩ := hv.leafHeader
    exact hfresh.lt hlink
  refine ⟨fun {r links} h => ?_, fun {r p n} h => ?_, fun {r p n} h => ?_, fun r hr => ?_,
    hfresh.leaf_create hv.leafHeader⟩
  · by_cases hr : r = v.counter
    · subst hr
      rw [create_link_counter] at h
      cases h
      rfl
    · exact hv.inner ((create_link_of_ne hr).symm.trans h)
  · by_cases hr : r = v.counter
    · subst hr
      rw [create_link_counter] at h
      cases h
    · exact hfresh.leaf_create (hv.prev ((create_link_of_ne hr).symm.trans h))
  · by_cases hr : r = v.counter
    · subst hr
      rw [create_link_counter] at h
      cases h
    · exact hfresh.leaf_create (hv.next ((create_link_of_ne hr).symm.trans h))
  · rw [create_link_of_ne (by omega), hv.below r hr]

end IxLinks

/-! ### Primitive operations -/

section Primitive

variable {v : IxLinks} {q : Int} {β : Type} {R : β → IxLinks → Prop}

/-- What an operation of the index does to the links. -/
abbrev IxEnsures {α : Type} (x : IxM κ α) (v : IxLinks) (Q : α → IxLinks → Prop) : Prop :=
  Ensures IxIndex.links x v Q

theorem links_of_mem {s s' : IxIndex κ} (h : s'.mem = s.mem) : s'.links = s.links := by
  unfold IxIndex.links
  rw [h]

theorem fetchNode_bind_ensures {f : Int → IxM κ β} (h : IxEnsures (f q) v R) :
    IxEnsures (fetchNode q >>= f) v R := by
  refine Ensures.bind (Q := fun r v' => r = q ∧ v' = v) ?_ ?_
  · rintro s a s' rfl hrun
    cases hview : s.store.view ⟨s.fd, q⟩ with
    | none =>
      simp only [fetchNode, get_bind_apply, PageStore.fetchPage, hview] at hrun
      cases hrun
    | some page =>
      have hpage : s.mem.pages q = some page := hview
      obtain ⟨s₁, hrun', hmem⟩ := fetchNode_does hpage s rfl
      rw [hrun] at hrun'
      cases hrun'
      exact ⟨rfl, links_of_mem hmem⟩
  · rintro r v' ⟨rfl, rfl⟩
    exact h

theorem node_bind_ensures {f : IxPage κ → IxM κ β}
    (h : ∀ page, v.link q = some page.link → IxEnsures (f page) v R) :
    IxEnsures (node q >>= f) v R := by
  refine Ensures.bind (Q := fun page v' => v.link q = some page.link ∧ v' = v) ?_ ?_
  · rintro s a s' rfl hrun
    cases hview : s.store.view ⟨s.fd, q⟩ with
    | none =>
      simp only [node, get_bind_apply, hview] at hrun
      cases hrun
    | some page =>
      simp only [node, get_bind_apply, hview] at hrun
      cases hrun
      refine ⟨?_, rfl⟩
      show (s.store.view ⟨s.fd, q⟩).map IxPage.link = _
      rw [hview]
      rfl
  · rintro page v' ⟨hpage, rfl⟩
    exact h page hpage

theorem setNode_bind_ensures {f : Unit → IxM κ β} {page : IxPage κ}
    (h : IxEnsures (f ()) (v.set q page.link) R) : IxEnsures (setNode q page >>= f) v R := by
  refine Ensures.bind (Q := fun _ v' => v' = v.set q page.link) ?_ ?_
  · rintro s a s' rfl hrun
    obtain ⟨s₁, hrun', hmem⟩ := setNode_does (M := s.mem) q page s rfl
    rw [hrun] at hrun'
    cases hrun'
    unfold IxIndex.links
    rw [hmem]
    ext1
    · rfl
    · ext1 r
      by_cases hr : r = q
      · subst hr
        simp only [IxMem.set_pages_self, IxLinks.set_link_self]
        rfl
      · simp only [IxMem.set_pages_of_ne _ hr, IxLinks.set_link_of_ne hr]
  · rintro _ v' rfl
    exact h

/-- A page is written that keeps its flag and links. -/
theorem setNode_bind_keeps {f : Unit → IxM κ β} {page : IxPage κ} (hq : v.link q = some page.link)
    (h : IxEnsures (f ()) v R) : IxEnsures (setNode q page >>= f) v R := by
  apply setNode_bind_ensures
  rwa [IxLinks.set_of_eq hq]

theorem unpinPage_bind_ensures {f : Bool → IxM κ β} (h : ∀ ok, IxEnsures (f ok) v R) :
    IxEnsures (unpinPage q >>= f) v R := by
  refine Ensures.bind (Q := fun _ v' => v' = v) ?_ ?_
  · rintro s a s' rfl hrun
    cases hrun
    refine links_of_mem ?_
    simp only [IxIndex.mem, PageStore.view_unpinPage, PageStore.fd2pageno_unpinPage]
  · rintro ok v' rfl
    exact h ok

theorem createNode_bind_ensures [Inhabited κ] {f : Int → IxM κ β}
    (h : IxEnsures (f v.counter) v.create R) : IxEnsures (createNode >>= f) v R := by
  refine Ensures.bind (Q := fun r v' => r = v.counter ∧ v' = v.create) ?_ ?_
  · rintro s a s' rfl hrun
    cases hpool : s.store.pool ⟨s.fd, s.store.fd2pageno s.fd⟩ with
    | some page =>
      simp only [createNode, modify_bind_apply, get_bind_apply, hpool] at hrun
      cases hrun
    | none =>
      simp only [createNode, modify_bind_apply, get_bind_apply, hpool] at hrun
      cases hrun
      refine ⟨rfl, ?_⟩
      ext1
      · show Function.update s.store.fd2pageno s.fd _ s.fd = _
        rw [Function.update_self]
        rfl
      · ext1 r
        show ((s.store.newPage .zero s.fd).view ⟨s.fd, r⟩).map IxPage.link = _
        rw [PageStore.view_newPage]
        by_cases hr : r = s.links.counter
        · subst hr
          rw [IxLinks.create_link_counter]
          exact congrArg (Option.map IxPage.link) (if_pos rfl)
        · rw [IxLinks.create_link_of_ne hr, if_neg]
          · rfl
          · intro heq
            exact hr (congrArg PageId.pageNo heq)
  · rintro r v' ⟨rfl, rfl⟩
    exact h

/-- The program leaves the links alone. -/
def KeepsIxLinks {α : Type} (x : IxM κ α) : Prop := ∀ v, IxEnsures x v fun _ v' => v' = v

theorem KeepsIxLinks.bind_ensures {α : Type} {x : IxM κ α} {f : α → IxM κ β} (hx : KeepsIxLinks x)
    (h : ∀ a, IxEnsures (f a) v R) : IxEnsures (x >>= f) v R := by
  refine (hx v).bind ?_
  rintro a v' rfl
  exact h a

theorem keepsIxLinks_modify {g : IxIndex κ → IxIndex κ} (h : ∀ s, (g s).links = s.links) :
    KeepsIxLinks (modify g : IxM κ PUnit) := by
  intro v
  apply Ensures.modifies
  rintro s rfl
  exact h s

theorem updateRootPageNo_keeps (root : Int) : KeepsIxLinks (updateRootPageNo root : IxM κ Unit) :=
  keepsIxLinks_modify fun _ => rfl

theorem setLastLeaf_keeps (pageNo : Int) : KeepsIxLinks (setLastLeaf pageNo : IxM κ Unit) :=
  keepsIxLinks_modify fun _ => rfl

theorem releaseNodeHandle_keeps : KeepsIxLinks (releaseNodeHandle : IxM κ Unit) :=
  keepsIxLinks_modify fun _ => rfl

end Primitive

/-! ### Functions that leave the links alone -/

section Keeps

variable {v : IxLinks} {p : Int}

theorem maintainChild_keeps (idx : Int) : KeepsIxLinks (maintainChild p idx : IxM κ Unit) := by
  intro v
  unfold maintainChild
  apply node_bind_ensures
  intro page _
  split_ifs
  · exact .pure rfl
  · apply fetchNode_bind_ensures
    apply node_bind_ensures
    intro child hchild
    refine setNode_bind_keeps hchild ?_
    exact unpinPage_bind_ensures fun _ => .pure rfl

theorem maintainChildren_keeps : ∀ (n : Nat) (lo : Int),
    KeepsIxLinks (maintainChildren p n lo : IxM κ Unit)
  | 0, _ => fun _ => .pure rfl
  | n + 1, lo => fun v =>
    (maintainChild_keeps lo).bind_ensures fun _ => maintainChildren_keeps n (lo + 1) v

theorem setNewRoot_ensures {root left right : Int} {links : Int × Int}
    (hroot : v.link root = some (false, links)) :
    IxEnsures (setNewRoot root left right : IxM κ Unit) v fun _ v' => v' = v := by
  unfold setNewRoot
  apply node_bind_ensures
  intro page hpage
  have hlink : page.link = (false, links) := Option.some.inj (hpage.symm.trans hroot)
  have hflag : page.isLeaf = false := congrArg Prod.fst hlink
  have hkeep : v.link root = some { page with
      isLeaf := false, numKey := 2, parent := invalidPageId }.link := by
    rw [hpage, IxPage.link, hflag]
    rfl
  refine setNode_bind_keeps hkeep ?_
  refine (updateRootPageNo_keeps root).bind_ensures fun _ => ?_
  apply node_bind_ensures
  intro leftPage _
  apply node_bind_ensures
  intro rightPage _
  apply node_bind_ensures
  intro page hpage
  refine setNode_bind_keeps hpage ?_
  refine (maintainChildren_keeps 2 0).bind_ensures fun _ => ?_
  exact unpinPage_bind_ensures fun _ => .pure rfl

theorem updateLastLeaf_keeps (p q : Int) : KeepsIxLinks (updateLastLeaf p q : IxM κ Unit) := by
  intro v
  unfold updateLastLeaf
  apply Ensures.get_bind
  intro s _
  split_ifs
  · exact setLastLeaf_keeps q v
  · exact .pure rfl

theorem assertUnpinPage_keeps (p : Int) : KeepsIxLinks (assertUnpinPage p : IxM κ Unit) := by
  intro v
  unfold assertUnpinPage
  apply unpinPage_bind_ensures
  intro ok
  split_ifs
  · exact .pure rfl
  · exact .throw

theorem maintainParent_keeps [DecidableEq κ] :
    ∀ (fuel : Nat) (p : Int), KeepsIxLinks (maintainParent fuel p : IxM κ Unit)
  | 0, _ => fun _ => .throw
  | fuel + 1, p => by
    intro v
    unfold maintainParent
    apply node_bind_ensures
    intro page _
    split_ifs
    · apply fetchNode_bind_ensures
      apply node_bind_ensures
      intro parentPage hparent
      cases parentPage.findChild p with
      | none => exact .throw
      | some rank =>
        simp only
        split_ifs
        · exact assertUnpinPage_keeps _ v
        · refine setNode_bind_keeps hparent ?_
          refine (assertUnpinPage_keeps _).bind_ensures fun _ => ?_
          exact maintainParent_keeps fuel _ v
    · exact .pure rfl

theorem adjustRoot_keeps (p : Int) : KeepsIxLinks (adjustRoot p : IxM κ Bool) := by
  intro v
  unfold adjustRoot
  apply node_bind_ensures
  intro page _
  split_ifs
  · refine releaseNodeHandle_keeps.bind_ensures fun _ => ?_
    exact (updateRootPageNo_keeps _).bind_ensures fun _ => .pure rfl
  · exact .pure rfl
  · apply fetchNode_bind_ensures
    apply node_bind_ensures
    intro newPage hnew
    refine setNode_bind_keeps hnew ?_
    refine (updateRootPageNo_keeps _).bind_ensures fun _ => ?_
    refine releaseNodeHandle_keeps.bind_ensures fun _ => ?_
    exact unpinPage_bind_ensures fun _ => .pure rfl
  · exact .pure rfl

variable [LinearOrder κ]

theorem findLeafFrom_keeps (key : κ) :
    ∀ (fuel : Nat) (p : Int), KeepsIxLinks (findLeafFrom key fuel p)
  | 0, _ => fun _ => .throw
  | fuel + 1, p => by
    intro v
    unfold findLeafFrom
    apply node_bind_ensures
    intro page _
    split_ifs
    · exact .pure rfl
    · apply fetchNode_bind_ensures
      exact findLeafFrom_keeps key fuel _ v

theorem findLeafPage_keeps (fuel : Nat) (key : κ) : KeepsIxLinks (findLeafPage fuel key) := by
  intro v
  unfold findLeafPage
  apply Ensures.get_bind
  intro s _
  apply fetchNode_bind_ensures
  exact findLeafFrom_keeps key fuel _ v

theorem getValue_keeps (fuel : Nat) (key : κ) : KeepsIxLinks (getValue fuel key) := by
  intro v
  unfold getValue
  refine (findLeafPage_keeps fuel key).bind_ensures fun leaf => ?_
  apply node_bind_ensures
  intro page _
  cases page.leafLookup key with
  | some rid => exact .pure rfl
  | none => exact unpinPage_bind_ensures fun _ => .pure rfl

theorem redistribute_keeps (fuel : Nat) (neighbor p index : Int) :
    KeepsIxLinks (redistribute fuel neighbor p index : IxM κ Unit) := by
  intro v
  unfold redistribute
  apply node_bind_ensures
  intro nb hnb
  apply node_bind_ensures
  intro page hpage
  split_ifs
  · refine setNode_bind_keeps (hpage.trans (congrArg some (page.insertPairs_fields ..).1.symm)) ?_
    refine setNode_bind_keeps hnb ?_
    refine (maintainChild_keeps _).bind_ensures fun _ => ?_
    exact maintainParent_keeps fuel p v
  · refine setNode_bind_keeps (hpage.trans (congrArg some (page.insertPairs_fields ..).1.symm)) ?_
    refine setNode_bind_keeps hnb ?_
    refine (maintainChild_keeps _).bind_ensures fun _ => ?_
    exact maintainParent_keeps fuel neighbor v

end Keeps

/-! ### Inserting -/

theorem IxPage.link_eq_iff {page : IxPage κ} {isLeaf : Bool} {prev next : Int} :
    page.link = (isLeaf, prev, next) ↔
      page.isLeaf = isLeaf ∧ page.prevLeaf = prev ∧ page.nextLeaf = next := by
  unfold link
  rw [Prod.mk.injEq, Prod.mk.injEq]

section Insert

variable {v : IxLinks} {p q : Int}

/-- `insertLeaf` of a new leaf behind a leaf. -/
theorem insertLeaf_ensures {prev next : Int} (hv : v.Ok) (hfresh : v.Fresh)
    (hq : ixLeafHeaderPage ≤ q) (hlt : q < v.counter) (hpq : p ≠ q)
    (hp : v.link p = some (true, prev, next)) :
    IxEnsures (insertLeaf p q true : IxM κ Unit) (v.set q (true, 0, 0))
      fun _ v' => v'.Ok ∧ v'.Fresh := by
  unfold insertLeaf
  apply node_bind_ensures
  intro origin horigin
  rw [IxLinks.set_link_of_ne hpq, hp, Option.some.injEq, eq_comm, IxPage.link_eq_iff] at horigin
  apply node_bind_ensures
  intro new hnew
  rw [IxLinks.set_link_self, Option.some.injEq, eq_comm, IxPage.link_eq_iff] at hnew
  apply setNode_bind_ensures
  rw [IxLinks.set_set]
  simp only [if_true]
  apply node_bind_ensures
  intro new' hnew'
  rw [IxLinks.set_link_self, Option.some.injEq, eq_comm] at hnew'
  obtain ⟨hflag, -, hnext⟩ := IxPage.link_eq_iff.mp hnew'
  apply setNode_bind_ensures
  have hlink : ({ new' with prevLeaf := p } : IxPage κ).link = (true, p, next) :=
    IxPage.link_eq_iff.mpr ⟨hflag.trans hnew.1, rfl, hnext.trans horigin.2.2⟩
  rw [IxLinks.set_set, hlink]
  -- the new leaf is linked to its neighbours
  have hok₁ : (v.set q (true, p, next)).Ok :=
    hv.set_leaf hq (.inl ⟨_, hp⟩) (.inl (hv.next hp))
  have hp₁ : (v.set q (true, p, next)).link p = some (true, prev, next) := by
    rw [IxLinks.set_link_of_ne hpq, hp]
  apply node_bind_ensures
  intro origin' horigin'
  rw [hp₁, Option.some.injEq, eq_comm, IxPage.link_eq_iff] at horigin'
  apply setNode_bind_ensures
  have hlink' : ({ origin' with nextLeaf := q } : IxPage κ).link = (true, prev, q) :=
    IxPage.link_eq_iff.mpr ⟨horigin'.1, horigin'.2.1, rfl⟩
  rw [hlink']
  have hok₂ : ((v.set q (true, p, next)).set p (true, prev, q)).Ok :=
    hok₁.set_leaf (hok₁.leafHeader_le hp₁) (.inl (hok₁.prev hp₁)) (.inl ⟨_, IxLinks.set_link_self⟩)
  have hfresh₂ : ((v.set q (true, p, next)).set p (true, prev, q)).Fresh :=
    (hfresh.set hlt).set (hfresh.lt hp)
  have hq₂ : ((v.set q (true, p, next)).set p (true, prev, q)).link q = some (true, p, next) := by
    rw [IxLinks.set_link_of_ne hpq.symm, IxLinks.set_link_self]
  apply node_bind_ensures
  intro page hpage
  rw [hq₂, Option.some.injEq, eq_comm, IxPage.link_eq_iff] at hpage
  rw [hpage.2.2]
  split_ifs
  · -- the leaf after it, which may be the old one
    apply fetchNode_bind_ensures
    apply node_bind_ensures
    intro nextPage hnextPage
    obtain ⟨links, hleaf⟩ := hok₂.next hq₂
    obtain ⟨prev', next'⟩ := links
    have hfields := hnextPage
    rw [hleaf, Option.some.injEq, eq_comm, IxPage.link_eq_iff] at hfields
    apply setNode_bind_ensures
    have hlink'' : ({ nextPage with prevLeaf := q } : IxPage κ).link = (true, q, next') :=
      IxPage.link_eq_iff.mpr ⟨hfields.1, rfl, hfields.2.2⟩
    rw [hlink'']
    apply unpinPage_bind_ensures
    intro _
    refine .pure ⟨?_, hfresh₂.set (hfresh₂.lt hleaf)⟩
    exact hok₂.set_leaf (hok₂.leafHeader_le hleaf) (.inl ⟨_, hq₂⟩) (.inl (hok₂.next hleaf))
  · exact .pure ⟨hok₂, hfresh₂⟩

variable [Inhabited κ]

theorem split_ensures (hv : v.Ok) (hfresh : v.Fresh) :
    IxEnsures (split p : IxM κ Int) v fun _ v' => v'.Ok ∧ v'.Fresh := by
  have hcreate := hv.create hfresh
  have hcounter : v.create.link v.counter = some (false, 0, 0) := IxLinks.create_link_counter
  unfold split
  apply createNode_bind_ensures
  apply node_bind_ensures
  intro new hnew
  rw [hcounter, Option.some.injEq, eq_comm, IxPage.link_eq_iff] at hnew
  apply node_bind_ensures
  intro page hpage
  apply setNode_bind_ensures
  apply setNode_bind_ensures
  show IxEnsures (if page.isLeaf then insertLeaf p v.counter true >>= fun _ => pure v.counter
    else maintainChildren v.counter (page.numKey - page.numKey / 2).toNat 0 >>= fun _ =>
      pure v.counter)
    ((v.create.set v.counter (page.isLeaf, new.prevLeaf, new.nextLeaf)).set p page.link) _
  rw [hnew.2.1, hnew.2.2]
  cases hleaf : page.isLeaf with
  | true =>
    have hpc : p ≠ v.counter := by
      rintro rfl
      rw [hcounter, Option.some.injEq, eq_comm, IxPage.link_eq_iff, hleaf] at hpage
      cases hpage.1
    have hpage' : (v.create.set v.counter (true, 0, 0)).link p = some page.link := by
      rw [IxLinks.set_link_of_ne hpc, hpage]
    have hlt : v.counter < v.create.counter := by
      show v.counter < v.counter + 1
      omega
    have hp : v.create.link p = some (true, page.prevLeaf, page.nextLeaf) := by
      rw [hpage, IxPage.link, hleaf]
    rw [IxLinks.set_of_eq hpage', if_pos rfl]
    have hge := hcreate.leafHeader_le hcounter
    refine (insertLeaf_ensures hcreate hfresh.create hge hlt hpc hp).bind fun _ v' hv' => ?_
    exact .pure hv'
  | false =>
    rw [IxLinks.set_of_eq hcounter, IxLinks.set_of_eq hpage, if_neg (by decide)]
    refine (maintainChildren_keeps _ _).bind_ensures fun _ => ?_
    exact .pure ⟨hcreate, hfresh.create⟩

variable [LinearOrder κ]

/-- `InsertIntoParent`, if the recursive call is all right. -/
theorem insertIntoParent_ensures {old new : Int} {key : κ} {rec : Int → IxM κ Unit} (hv : v.Ok)
    (hfresh : v.Fresh)
    (hrec : ∀ p {v : IxLinks}, v.Ok → v.Fresh → IxEnsures (rec p) v fun _ v' => v'.Ok ∧ v'.Fresh) :
    IxEnsures (insertIntoParent old key new rec) v fun _ v' => v'.Ok ∧ v'.Fresh := by
  unfold insertIntoParent
  apply node_bind_ensures
  intro page _
  split_ifs
  · apply createNode_bind_ensures
    refine (setNewRoot_ensures IxLinks.create_link_counter).mono ?_
    rintro _ v' rfl
    exact ⟨hv.create hfresh, hfresh.create⟩
  · apply fetchNode_bind_ensures
    apply node_bind_ensures
    intro parentPage hparent
    have hlink := congrArg some (parentPage.insert_fields key ⟨new, -1⟩).1.symm
    refine setNode_bind_keeps (hparent.trans hlink) ?_
    refine (hrec _ hv hfresh).bind fun _ v' hv' => ?_
    exact unpinPage_bind_ensures fun _ => .pure hv'

theorem splitNodeIfFull_ensures (fuel : Nat) (p : Int) {v : IxLinks} (hv : v.Ok)
    (hfresh : v.Fresh) :
    IxEnsures (splitNodeIfFull fuel p : IxM κ Unit) v fun _ v' => v'.Ok ∧ v'.Fresh := by
  induction fuel generalizing p v with
  | zero => exact .throw
  | succ fuel ih =>
    unfold splitNodeIfFull
    apply Ensures.get_bind
    intro s _
    apply node_bind_ensures
    intro page _
    split_ifs
    · refine (split_ensures hv hfresh).bind fun new v₁ hv₁ => ?_
      apply node_bind_ensures
      intro newPage _
      refine (insertIntoParent_ensures hv₁.1 hv₁.2 fun p v hv hfresh => ih p hv hfresh).bind
        fun _ v₂ hv₂ => ?_
      apply node_bind_ensures
      intro page' _
      split_ifs
      · refine (updateLastLeaf_keeps p new).bind_ensures fun _ => ?_
        apply unpinPage_bind_ensures
        intro _
        exact unpinPage_bind_ensures fun _ => .pure hv₂
      · exact .pure hv₂
    · exact .pure ⟨hv, hfresh⟩

/-- **`insert_entry`** keeps the links in order. -/
theorem insertEntry_ensures (fuel : Nat) (key : κ) (value : Rid) (hv : v.Ok) (hfresh : v.Fresh) :
    IxEnsures (insertEntry fuel key value) v fun _ v' => v'.Ok ∧ v'.Fresh := by
  unfold insertEntry
  refine (findLeafPage_keeps fuel key).bind_ensures fun leaf => ?_
  apply node_bind_ensures
  intro page hpage
  refine setNode_bind_keeps (hpage.trans (congrArg some (page.insert_fields key value).1.symm)) ?_
  split_ifs
  · refine (splitNodeIfFull_ensures fuel leaf hv hfresh).bind fun _ v' hv' => ?_
    exact .pure hv'
  · exact .pure ⟨hv, hfresh⟩

end Insert

/-! ### Deleting -/

/-- Links are changed: the counter and the leaf flags stay, and so does their order. -/
structure IxLinks.Rewires (v v' : IxLinks) : Prop where
  counter : v'.counter = v.counter
  flag : ∀ q, (v'.link q).map Prod.fst = (v.link q).map Prod.fst
  ok : v.Ok → v'.Ok

namespace IxLinks.Rewires

variable {v v' v'' : IxLinks} {q : Int}

theorem refl (v : IxLinks) : v.Rewires v := ⟨rfl, fun _ => rfl, id⟩

theorem trans (h1 : v.Rewires v') (h2 : v'.Rewires v'') : v.Rewires v'' :=
  ⟨h2.counter.trans h1.counter, fun q => (h2.flag q).trans (h1.flag q), h2.ok ∘ h1.ok⟩

theorem fresh (h : v.Rewires v') (hv : v.Fresh) : v'.Fresh := by
  intro q hq
  have hflag := h.flag q
  rw [hv q (h.counter ▸ hq)] at hflag
  simpa using hflag

/-- A page gets other links, and if all is in order it is a leaf and they lead to leaves. -/
theorem set {page : IxPage κ} {prev next : Int} (hq : v.link q = some page.link)
    (hleaf : v.Ok → v.Leaf q ∧ v.Leaf prev ∧ v.Leaf next) :
    v.Rewires (v.set q (page.isLeaf, prev, next)) := by
  refine ⟨rfl, fun r => ?_, fun hv => ?_⟩
  · by_cases hr : r = q
    · subst hr
      rw [set_link_self, hq]
      rfl
    · rw [set_link_of_ne hr]
  · obtain ⟨⟨links, hlink⟩, hprev, hnext⟩ := hleaf hv
    have hflag : page.isLeaf = true := by
      rw [hq, Option.some.injEq] at hlink
      exact congrArg Prod.fst hlink
    rw [hflag]
    exact hv.set_leaf (hv.leafHeader_le hq) (.inl hprev) (.inl hnext)

end IxLinks.Rewires

section Delete

variable {v : IxLinks}

theorem eraseLeaf_ensures (leaf : Int) :
    IxEnsures (eraseLeaf leaf : IxM κ Unit) v fun _ v' => v.Rewires v' := by
  unfold eraseLeaf
  apply node_bind_ensures
  intro page hpage
  split_ifs with hleaf
  · rw [IxPage.link, hleaf] at hpage
    apply fetchNode_bind_ensures
    apply node_bind_ensures
    intro prevPage hprev
    apply setNode_bind_ensures
    -- the leaf before it is linked to the leaf after it
    have h1 : v.Rewires
        (v.set page.prevLeaf (prevPage.isLeaf, prevPage.prevLeaf, page.nextLeaf)) := by
      refine .set hprev fun hv => ?_
      obtain ⟨⟨prev, next⟩, hlink⟩ := hv.prev hpage
      have hfields := hprev
      rw [hlink, Option.some.injEq, eq_comm, IxPage.link_eq_iff] at hfields
      refine ⟨⟨_, hlink⟩, ?_, hv.next hpage⟩
      rw [hfields.2.1]
      exact hv.prev hlink
    show IxEnsures _ (v.set page.prevLeaf (prevPage.isLeaf, prevPage.prevLeaf, page.nextLeaf)) _
    generalize v.set page.prevLeaf (prevPage.isLeaf, prevPage.prevLeaf, page.nextLeaf) = v₁ at h1 ⊢
    apply unpinPage_bind_ensures
    intro _
    apply node_bind_ensures
    intro page' hpage'
    apply fetchNode_bind_ensures
    apply node_bind_ensures
    intro nextPage hnext
    apply setNode_bind_ensures
    -- the leaf after it is linked to the leaf before it
    have h2 : v₁.Rewires
        (v₁.set page'.nextLeaf (nextPage.isLeaf, page'.prevLeaf, nextPage.nextLeaf)) := by
      refine .set hnext fun hv => ?_
      have hflag : page'.isLeaf = true := by
        have hkept := h1.flag leaf
        rw [hpage, hpage'] at hkept
        exact Option.some.inj hkept
      rw [IxPage.link, hflag] at hpage'
      obtain ⟨⟨prev, next⟩, hlink⟩ := hv.next hpage'
      have hfields := hnext
      rw [hlink, Option.some.injEq, eq_comm, IxPage.link_eq_iff] at hfields
      refine ⟨⟨_, hlink⟩, hv.prev hpage', ?_⟩
      rw [hfields.2.2]
      exact hv.next hlink
    apply unpinPage_bind_ensures
    intro _
    exact .pure (h1.trans h2)
  · exact .throw

/-- `Coalesce`, if the recursive call is all right. -/
theorem coalesce_ensures (neighbor p parent index : Int) {rec : Int → IxM κ Bool}
    (hrec : ∀ p {v : IxLinks}, IxEnsures (rec p) v fun _ v' => v.Rewires v') :
    IxEnsures (coalesce neighbor p parent index rec) v fun _ v' => v.Rewires v' := by
  -- after the choice of the left node
  have hmain : ∀ (neighbor p index : Int), IxEnsures (do
      let nb ← node neighbor
      let page ← node p
      setNode neighbor (nb.insertPairs nb.numKey page.keys page.rids page.numKey)
      maintainChildren neighbor page.numKey.toNat nb.numKey
      let s ← get
      if p = s.fileHdr.lastLeaf then setLastLeaf neighbor
      eraseLeaf p
      releaseNodeHandle
      let parentPage ← node parent
      setNode parent (parentPage.erasePair index)
      let r ← rec parent
      return (neighbor, r) : IxM κ (Int × Bool)) v fun _ v' => v.Rewires v' := by
    intro neighbor p index
    apply node_bind_ensures
    intro nb hnb
    apply node_bind_ensures
    intro page _
    refine setNode_bind_keeps (hnb.trans (congrArg some (nb.insertPairs_fields ..).1.symm)) ?_
    refine (maintainChildren_keeps _ _).bind_ensures fun _ => ?_
    apply Ensures.get_bind
    intro s _
    have hrest : IxEnsures (do
        eraseLeaf p
        releaseNodeHandle
        let parentPage ← node parent
        setNode parent (parentPage.erasePair index)
        let r ← rec parent
        return (neighbor, r) : IxM κ (Int × Bool)) v fun _ v' => v.Rewires v' := by
      refine (eraseLeaf_ensures p).bind fun _ v₁ hv₁ => ?_
      refine releaseNodeHandle_keeps.bind_ensures fun _ => ?_
      apply node_bind_ensures
      intro parentPage hparent
      refine setNode_bind_keeps hparent ?_
      refine (hrec parent).bind fun _ v₂ hv₂ => ?_
      exact .pure (hv₁.trans hv₂)
    split_ifs
    · exact (setLastLeaf_keeps neighbor).bind_ensures fun _ => hrest
    · exact hrest
  unfold coalesce
  split_ifs
  · exact hmain _ _ _
  · exact hmain _ _ _

variable [LinearOrder κ]

theorem coalesceOrRedistribute_ensures (fuel : Nat) (p : Int) {v : IxLinks} :
    IxEnsures (coalesceOrRedistribute fuel p : IxM κ Bool) v fun _ v' => v.Rewires v' := by
  induction fuel generalizing p v with
  | zero => exact .throw
  | succ fuel ih =>
    unfold coalesceOrRedistribute
    apply Ensures.get_bind
    intro s _
    apply node_bind_ensures
    intro page _
    split_ifs
    · refine (adjustRoot_keeps p v).mono ?_
      rintro _ v' rfl
      exact .refl v'
    · exact (maintainParent_keeps _ p).bind_ensures fun _ => .pure (.refl v)
    · apply fetchNode_bind_ensures
      apply node_bind_ensures
      intro parentPage _
      cases parentPage.findChild p with
      | none => exact .throw
      | some pos =>
        simp only
        generalize (if pos ≠ 0 then page.prevLeaf else page.nextLeaf) = brother
        apply fetchNode_bind_ensures
        apply node_bind_ensures
        intro brotherPage _
        split_ifs
        · refine (redistribute_keeps _ _ _ _).bind_ensures fun _ => ?_
          apply unpinPage_bind_ensures
          intro _
          exact unpinPage_bind_ensures fun _ => .pure (.refl v)
        · refine (coalesce_ensures _ _ _ _ fun p v => ih p).bind fun r v' hv' => ?_
          apply unpinPage_bind_ensures
          intro _
          exact unpinPage_bind_ensures fun _ => .pure hv'

/-- **`delete_entry`** keeps the links in order. -/
theorem deleteEntry_ensures (fuel : Nat) (key : κ) :
    IxEnsures (deleteEntry fuel key) v fun _ v' => v.Rewires v' := by
  unfold deleteEntry
  refine (findLeafPage_keeps fuel key).bind_ensures fun leaf => ?_
  apply node_bind_ensures
  intro page hpage
  have hlink : v.link leaf = some (page.remove key).link := by
    rw [hpage]
    unfold IxPage.remove
    simp only
    split_ifs
    · rfl
    · rfl
  refine setNode_bind_keeps hlink ?_
  split_ifs
  · exact unpinPage_bind_ensures fun _ => .pure (.refl v)
  · refine (coalesceOrRedistribute_ensures fuel leaf).bind fun _ v' hv' => ?_
    exact unpinPage_bind_ensures fun _ => .pure hv'

end Delete

/-! ### Runs -/

section Reopen

variable {s : IxIndex κ}

/-- What the pool holds under the descriptor are pages of this index. -/
def IxIndex.OwnPages (s : IxIndex κ) (fd : Int) : Prop :=
  ∀ q page, s.store.pool ⟨fd, q⟩ = some page → s.mem.pages q = some page

theorem IxIndex.ownPages_fd (s : IxIndex κ) : s.OwnPages s.fd :=
  fun _ _ h => PageStore.view_of_pool h

theorem IxIndex.disk_flushAllPages (hs : s.mem.pages invalidPageId = none) (q : Int) :
    (s.store.flushAllPages s.fd).disk q = s.mem.pages q := by
  by_cases hq : q = invalidPageId
  · subst hq
    rw [hs]
    exact PageStore.disk_flushAllPages_of_view_none hs
  · exact PageStore.disk_flushAllPages s.store s.fd hq

/-- The pages of a reopened index are those it had. -/
theorem IxIndex.pages_reopen (hs : s.mem.pages invalidPageId = none) {fd : Int}
    (hown : s.OwnPages fd) (q : Int) :
    PageStore.view ((s.store.flushAllPages s.fd).setFd2pageno fd (s.store.fd2pageno fd + 1))
      ⟨fd, q⟩ = s.mem.pages q := by
  let store := (s.store.flushAllPages s.fd).setFd2pageno fd (s.store.fd2pageno fd + 1)
  cases hpool : s.store.pool ⟨fd, q⟩ with
  | some page =>
    have hview : store.view ⟨fd, q⟩ = some page := PageStore.view_of_pool hpool
    exact hview.trans (hown q page hpool).symm
  | none =>
    have hview : store.view ⟨fd, q⟩ = store.disk q := PageStore.view_of_pool_none hpool
    exact hview.trans (IxIndex.disk_flushAllPages hs q)

end Reopen

section Runs

variable [LinearOrder κ] [Inhabited κ] {s s' : IxIndex κ}

/-- The pool serves a reopened index its own pages. -/
def IxIndex.Serves (s : IxIndex κ) : IxCall κ → Prop
  | .reopen fd => s.OwnPages fd
  | _ => True

/-- The page counter of a reopened index is behind its pages. -/
def IxIndex.CountsOn (s : IxIndex κ) : IxCall κ → Prop
  | .reopen fd => ∀ q page, s.mem.pages q = some page → q ≤ s.store.fd2pageno fd
  | .restart _ => False
  | _ => True

/-- **One call** keeps the links in order, and unused page numbers, exactly if it counts on. -/
theorem IxIndex.links_call_iff (hok : s.links.Ok) (hfresh : s.links.Fresh) {a : IxCall κ × IxAnswer}
    (hserves : s.Serves a.1) (hstep : s.Step a s') :
    s'.links.Ok ∧ s'.links.Fresh ↔ s.CountsOn a.1 := by
  have hnone : ∀ q, s.links.link q = none → s.mem.pages q = none := fun q h =>
    Option.map_eq_none_iff.mp h
  obtain ⟨a, b⟩ := a
  obtain ⟨rounds, hrun⟩ := hstep
  cases a with
  | insertEntry key value =>
    obtain ⟨_, s₁, h1, h2⟩ := bind_eq_ok_iff.mp hrun
    cases h2
    exact ⟨fun _ => trivial, fun _ => insertEntry_ensures rounds key value hok hfresh s _ _ rfl h1⟩
  | deleteEntry key =>
    obtain ⟨_, s₁, h1, h2⟩ := bind_eq_ok_iff.mp hrun
    cases h2
    have hrewires := deleteEntry_ensures rounds key s _ _ rfl h1
    exact ⟨fun _ => trivial, fun _ => ⟨hrewires.ok hok, hrewires.fresh hfresh⟩⟩
  | getValue key =>
    obtain ⟨_, s₁, h1, h2⟩ := bind_eq_ok_iff.mp hrun
    cases h2
    have hkeeps := getValue_keeps rounds key _ s _ _ rfl h1
    rw [hkeeps]
    exact ⟨fun _ => trivial, fun _ => ⟨hok, hfresh⟩⟩
  | reopen fd =>
    cases hrun
    have hpages := IxIndex.pages_reopen (hnone _ (hok.below _ (by decide))) hserves
    have hlinks : IxIndex.links ⟨fd, s.fileHdr,
        (s.store.flushAllPages s.fd).setFd2pageno fd (s.store.fd2pageno fd + 1), s.fileHdr⟩ =
        { s.links with counter := s.store.fd2pageno fd + 1 } := by
      ext1
      · exact Function.update_self ..
      · ext1 q
        exact congrArg (Option.map IxPage.link) (hpages q)
    show IxLinks.Ok (IxIndex.links ⟨fd, _, _, _⟩) ∧ IxLinks.Fresh (IxIndex.links ⟨fd, _, _, _⟩) ↔ _
    rw [hlinks]
    constructor
    · rintro ⟨-, hfresh'⟩ q page hq
      by_contra hlt
      have hnone' := hnone q (hfresh' q (show s.store.fd2pageno fd + 1 ≤ q by omega))
      rw [hq] at hnone'
      cases hnone'
    · intro hcount
      refine ⟨⟨hok.inner, hok.prev, hok.next, hok.below, hok.leafHeader⟩, fun q hq => ?_⟩
      have hq' : s.store.fd2pageno fd + 1 ≤ q := hq
      show (s.mem.pages q).map IxPage.link = none
      rw [Option.map_eq_none_iff, Option.eq_none_iff_forall_ne_some]
      intro page hpage
      have := hcount q page hpage
      omega
  | restart fd =>
    cases hrun
    refine ⟨fun h => ?_, False.elim⟩
    -- the leaf header is on disk, under the number that comes next
    obtain ⟨links, hlink⟩ := hok.leafHeader
    obtain ⟨page, hpage, -⟩ := Option.map_eq_some_iff.mp hlink
    have hdisk := IxIndex.disk_flushAllPages (hnone _ (hok.below _ (by decide))) ixLeafHeaderPage
    have hcounter : Function.update (fun _ : Int => (0 : Int)) fd 1 fd ≤ ixLeafHeaderPage := by
      rw [Function.update_self]
    have hfresh' := h.2 ixLeafHeaderPage hcounter
    change ((s.store.flushAllPages s.fd).disk ixLeafHeaderPage).map IxPage.link = none at hfresh'
    rw [hdisk, hpage] at hfresh'
    cases hfresh'

omit [LinearOrder κ] [Inhabited κ] in
theorem IxIndex.create_links_ok {fd : Int} {colType : ColType} {colLen order : Int}
    {keys : Nat → κ} {rids : Nat → Rid} {pool : PageId → Option (IxPage κ)}
    {pinCount : PageId → Nat} {fd2pageno : Int → Int} (hpool : ∀ q, pool ⟨fd, q⟩ = none) :
    let s := IxIndex.create fd colType colLen order keys rids pool pinCount fd2pageno
    s.links.Ok ∧ s.links.Fresh := by
  intro s
  have hpages : ∀ q, s.mem.pages q = s.store.disk q := fun q =>
    PageStore.view_of_pool_none (hpool q)
  have h1 : s.links.link 1 = some (true, 2, 2) := congrArg (Option.map IxPage.link) (hpages 1)
  have h2 : s.links.link 2 = some (true, 1, 1) := congrArg (Option.map IxPage.link) (hpages 2)
  have h3 : ∀ q, q ≠ 1 → q ≠ 2 → s.links.link q = none := by
    intro q hq1 hq2
    refine (congrArg (Option.map IxPage.link) (hpages q)).trans ?_
    show Option.map IxPage.link (if q = 1 then some _ else if q = 2 then some _ else none) = none
    rw [if_neg hq1, if_neg hq2]
    rfl
  have hcases : ∀ {q l}, s.links.link q = some l → l = (true, 2, 2) ∨ l = (true, 1, 1) := by
    intro q l h
    by_cases hq1 : q = 1
    · subst hq1
      exact .inl (Option.some.inj (h.symm.trans h1))
    · by_cases hq2 : q = 2
      · subst hq2
        exact .inr (Option.some.inj (h.symm.trans h2))
      · rw [h3 q hq1 hq2] at h
        cases h
  have hleaf : ∀ {q prev next}, s.links.link q = some (true, prev, next) →
      s.links.Leaf prev ∧ s.links.Leaf next := by
    intro q prev next h
    rcases hcases h with heq | heq
    · cases heq
      exact ⟨⟨_, h2⟩, ⟨_, h2⟩⟩
    · cases heq
      exact ⟨⟨_, h1⟩, ⟨_, h1⟩⟩
  refine ⟨⟨fun {q links} h => ?_, fun h => (hleaf h).1, fun h => (hleaf h).2, fun q hq => ?_,
    ⟨_, h1⟩⟩, fun q hq => ?_⟩
  · rcases hcases h with heq | heq
    · cases heq
    · cases heq
  · have hq' : q < 1 := hq
    exact h3 q (by omega) (by omega)
  · have hcounter : s.links.counter = 3 := Function.update_self ..
    rw [hcounter] at hq
    exact h3 q (by omega) (by omega)

/-- **Page numbers.**  In a run of any calls from a new index that return, none of them by way of
the file header, and in which the pool serves a reopened index its own pages: the links are in order
and no page from the counter on is in use after every call, exactly if the index is never reopened
under a counter that is not behind its pages.  In a new process it always is. -/
theorem index_numbers_fresh_iff (fd : Int) (colType : ColType) (colLen order : Int)
    (keys : Nat → κ) (rids : Nat → Rid) (pool : PageId → Option (IxPage κ))
    (pinCount : PageId → Nat) (fd2pageno : Int → Int) (hpool : ∀ q, pool ⟨fd, q⟩ = none)
    (run : List ((IxCall κ × IxAnswer) × IxIndex κ))
    (hrun : Run (fun s a s' => s.Serves a.1 ∧ IxIndex.Step s a s')
      (IxIndex.create fd colType colLen order keys rids pool pinCount fd2pageno) run) :
    (∀ s ∈ run.map Prod.snd, s.links.Ok ∧ s.links.Fresh) ↔
      Along (fun s a _ => s.CountsOn a.1)
        (IxIndex.create fd colType colLen order keys rids pool pinCount fd2pageno) run := by
  have hiff := hrun.forall_iff_along (J := fun _ => True)
    (I := fun s : IxIndex κ => s.links.Ok ∧ s.links.Fresh) (C := fun s a _ => s.CountsOn a.1)
    (fun s a s' _ hs h => ⟨trivial, IxIndex.links_call_iff hs.1 hs.2 h.1 h.2⟩) trivial
    (IxIndex.create_links_ok hpool)
  rw [← hiff]
  simp only [List.forall_mem_map]

/-- The pool serves the index its own pages when it is reopened under the descriptor it had. -/
theorem IxIndex.run_trace_serves (rounds : Nat) {l : List (IxCall κ)} {s : IxIndex κ}
    (hl : s.checkTrace rounds (fun s a => match a with
      | .reopen fd => decide (fd = s.fd)
      | _ => true) l = true) :
    Run (fun s a s' => s.Serves a.1 ∧ IxIndex.Step s a s') s (s.trace rounds l) := by
  have hserves : Along (fun s a _ => IxIndex.Serves s a.1) s (s.trace rounds l) := by
    refine IxIndex.along_trace (fun s a h => ?_) hl
    cases a with
    | reopen fd =>
      rw [show fd = s.fd from of_decide_eq_true h]
      exact s.ownPages_fd
    | _ => trivial
  have hsteps := IxIndex.run_trace rounds (P := fun _ => True) (l := l) (fun _ _ => trivial) s
  refine (hsteps.and_of_along hserves).imp ?_
  exact fun s a s' h => ⟨h.1, h.2.2⟩

/-- Keys are inserted and deleted, and the index is reopened under its old descriptor. -/
theorem index_numbers_fresh_five :
    let calls : List (IxCall Int) := insertAll [1, 2, 3, 4, 5] ++ [.deleteEntry 2, .reopen 3]
    let run := (intIndex 3).trace 8 calls
    run.length = 7 ∧ ((∀ s ∈ run.map Prod.snd, s.links.Ok ∧ s.links.Fresh) ↔
      Along (fun s a _ => s.CountsOn a.1) (intIndex 3) run) := by
  intro calls run
  refine ⟨by decide +kernel, ?_⟩
  exact index_numbers_fresh_iff 3 .int 4 3 _ _ _ _ _ (fun _ => rfl) run
    (IxIndex.run_trace_serves 8 (by decide +kernel))

end Runs

end Rucbase
