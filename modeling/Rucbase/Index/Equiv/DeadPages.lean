import Rucbase.Index.Equiv.Descent
import Rucbase.Lib.Ensures

/-!
# Pages that are no longer used

`Coalesce` takes a leaf out of the tree and out of the chain, but leaves its page behind.  Inserting
never comes to such a page: whatever `insert_entry` does without some pages (`IxIndex.hide`) it does
with them as well (`insertEntry_mimics`).
-/

namespace Rucbase

open EStateM IxIndexHandle

variable {κ : Type}

/-- `t` is the index `s` without the pages `D`, all of them before the page counter.  Pin counts may
differ. -/
structure Hides (D : Int → Prop) (s t : IxIndex κ) : Prop where
  fd : t.fd = s.fd
  fileHdr : t.fileHdr = s.fileHdr
  counter : t.store.fd2pageno t.fd = s.store.fd2pageno s.fd
  below : ∀ q, D q → q < s.store.fd2pageno s.fd
  hidden : ∀ q, D q → t.mem.pages q = none
  pool : ∀ q, ¬D q → t.store.pool ⟨t.fd, q⟩ = s.store.pool ⟨s.fd, q⟩
  disk : ∀ q, ¬D q → t.store.disk q = s.store.disk q

namespace Hides

variable {D : Int → Prop} {s t : IxIndex κ} {q : Int}

theorem pages (h : Hides D s t) (hq : ¬D q) : t.mem.pages q = s.mem.pages q := by
  cases hpool : s.store.pool ⟨s.fd, q⟩ with
  | some page =>
    have hpool' : t.store.pool ⟨t.fd, q⟩ = some page := (h.pool q hq).trans hpool
    exact (PageStore.view_of_pool hpool').trans (PageStore.view_of_pool hpool).symm
  | none =>
    have hpool' : t.store.pool ⟨t.fd, q⟩ = none := (h.pool q hq).trans hpool
    refine (PageStore.view_of_pool_none hpool').trans ((h.disk q hq).trans ?_)
    exact (PageStore.view_of_pool_none hpool).symm

theorem notMem (h : Hides D s t) {page : IxPage κ} (hq : t.mem.pages q = some page) : ¬D q := by
  intro hD
  rw [h.hidden q hD] at hq
  cases hq

/-- A page that is not hidden is put into the pool on both sides. -/
theorem put (h : Hides D s t) (hq : ¬D q) {page : IxPage κ} {S T : PageStore (IxPage κ)}
    (hS : S.pool = Function.update s.store.pool ⟨s.fd, q⟩ (some page) ∧ S.disk = s.store.disk ∧
      S.fd2pageno = s.store.fd2pageno)
    (hT : T.pool = Function.update t.store.pool ⟨t.fd, q⟩ (some page) ∧ T.disk = t.store.disk ∧
      T.fd2pageno = t.store.fd2pageno) : Hides D { s with store := S } { t with store := T } := by
  obtain ⟨hpool, hdisk, hcount⟩ := hS
  obtain ⟨hpool', hdisk', hcount'⟩ := hT
  refine ⟨h.fd, h.fileHdr, ?_, ?_, fun r hr => ?_, fun r hr => ?_, fun r hr => ?_⟩
  · show T.fd2pageno t.fd = S.fd2pageno s.fd
    rw [hcount, hcount', h.counter]
  · show ∀ r, D r → r < S.fd2pageno s.fd
    rw [hcount]
    exact h.below
  · have hne : (⟨t.fd, r⟩ : PageId) ≠ ⟨t.fd, q⟩ := by
      intro heq
      cases heq
      exact hq hr
    have hold : t.store.pool ⟨t.fd, r⟩ = none := PageStore.pool_eq_none_of_view (h.hidden r hr)
    have hpool'' : T.pool ⟨t.fd, r⟩ = none := by rw [hpool', Function.update_of_ne hne, hold]
    refine (PageStore.view_of_pool_none hpool'').trans ?_
    rw [hdisk']
    exact (PageStore.view_of_pool_none hold).symm.trans (h.hidden r hr)
  · show T.pool ⟨t.fd, r⟩ = S.pool ⟨s.fd, r⟩
    rw [hpool, hpool']
    by_cases hrq : r = q
    · subst hrq
      rw [Function.update_self, Function.update_self]
    · have hne : ∀ fd, (⟨fd, r⟩ : PageId) ≠ ⟨fd, q⟩ := fun fd heq =>
        hrq (congrArg PageId.pageNo heq)
      rw [Function.update_of_ne (hne _), Function.update_of_ne (hne _), h.pool r hr]
  · show T.disk r = S.disk r
    rw [hdisk, hdisk', h.disk r hr]

end Hides

/-- The index without some of its pages. -/
def IxIndex.hide (s : IxIndex κ) (D : Int → Prop) [DecidablePred D] : IxIndex κ :=
  { s with store := { s.store with
      pool := fun p => if D p.pageNo then none else s.store.pool p
      disk := fun q => if D q then none else s.store.disk q } }

theorem IxIndex.hides_hide (s : IxIndex κ) {D : Int → Prop} [DecidablePred D]
    (hD : ∀ q, D q → q < s.store.fd2pageno s.fd) : Hides D s (s.hide D) := by
  refine ⟨rfl, rfl, rfl, hD, fun q hq => ?_, fun q hq => if_neg hq, fun q hq => if_neg hq⟩
  have hpool : (s.hide D).store.pool ⟨s.fd, q⟩ = none := if_pos hq
  exact (PageStore.view_of_pool_none hpool).trans (if_pos hq)

/-! ### Primitive operations -/

section Primitive

variable {D : Int → Prop} {q : Int} {β : Type}

theorem PageStore.fetchPage_eq {P : Type} {s : PageStore P} {p : PageId} {x : P}
    (h : s.view p = some x) : ∃ s', s.fetchPage p = some (x, s') ∧
      s'.pool = Function.update s.pool p (some x) ∧ s'.disk = s.disk ∧
      s'.fd2pageno = s.fd2pageno := by
  rw [fetchPage, h]
  exact ⟨_, rfl, rfl, rfl, rfl⟩

/-- What an operation returns without the pages `D` it returns with them. -/
abbrev IxMimics (D : Int → Prop) {α : Type} (x y : IxM κ α) : Prop := Mimics (Hides D) x y

theorem fetchNode_bind_mimics {f g : Int → IxM κ β} (h : ¬D q → IxMimics D (f q) (g q)) :
    IxMimics D (fetchNode q >>= f) (fetchNode q >>= g) := by
  intro s t b t' hR hrun
  obtain ⟨r, t₁, h1, h2⟩ := bind_eq_ok_iff.mp hrun
  cases hview : t.store.view ⟨t.fd, q⟩ with
  | none =>
    simp only [fetchNode, get_bind_apply, PageStore.fetchPage, hview] at h1
    cases h1
  | some page =>
    have hq : ¬D q := hR.notMem hview
    have hview' : s.store.view ⟨s.fd, q⟩ = some page := (hR.pages hq).symm.trans hview
    obtain ⟨S, hS, hS'⟩ := PageStore.fetchPage_eq hview'
    obtain ⟨T, hT, hT'⟩ := PageStore.fetchPage_eq hview
    simp only [fetchNode, get_bind_apply, hT] at h1
    cases h1
    have hfetch : fetchNode q s = .ok q { s with store := S } := by
      simp only [fetchNode, get_bind_apply, hS]
      rfl
    obtain ⟨s', hs', hR'⟩ := h hq _ _ b t' (hR.put hq hS' hT') h2
    exact ⟨s', by rw [bind_of_ok hfetch, hs'], hR'⟩

theorem node_bind_mimics {f g : IxPage κ → IxM κ β}
    (h : ∀ page, ¬D q → IxMimics D (f page) (g page)) :
    IxMimics D (node q >>= f) (node q >>= g) := by
  intro s t b t' hR hrun
  obtain ⟨page, t₁, h1, h2⟩ := bind_eq_ok_iff.mp hrun
  cases hview : t.store.view ⟨t.fd, q⟩ with
  | none =>
    simp only [node, get_bind_apply, hview] at h1
    cases h1
  | some page =>
    have hq : ¬D q := hR.notMem hview
    have hview' : s.store.view ⟨s.fd, q⟩ = some page := (hR.pages hq).symm.trans hview
    simp only [node, get_bind_apply, hview] at h1
    cases h1
    have hnode : node q s = .ok page s := by
      simp only [node, get_bind_apply, hview']
      rfl
    obtain ⟨s', hs', hR'⟩ := h page hq s t b t' hR h2
    exact ⟨s', by rw [bind_of_ok hnode, hs'], hR'⟩

theorem setNode_mimics (hq : ¬D q) (page : IxPage κ) :
    IxMimics D (setNode q page) (setNode q page) := by
  apply Mimics.modifies
  intro s t hR
  exact hR.put hq ⟨rfl, rfl, rfl⟩ ⟨rfl, rfl, rfl⟩

theorem PageStore.pool_unpinPage {P : Type} (s : PageStore P) (p : PageId) :
    (s.unpinPage p).2.pool = s.pool ∧ (s.unpinPage p).2.disk = s.disk := by
  unfold unpinPage
  split
  · exact ⟨rfl, rfl⟩
  · split_ifs
    · exact ⟨rfl, rfl⟩
    · exact ⟨rfl, rfl⟩

/-- Nobody looks at what `UnpinPage` returns. -/
theorem unpinPage_bind_mimics {x y : IxM κ β} (h : IxMimics D x y) :
    IxMimics D (unpinPage q >>= fun _ => x) (unpinPage q >>= fun _ => y) := by
  intro s t b t' hR hrun
  let s₁ : IxIndex κ := { s with store := (s.store.unpinPage ⟨s.fd, q⟩).2 }
  let t₁ : IxIndex κ := { t with store := (t.store.unpinPage ⟨t.fd, q⟩).2 }
  have hR₁ : Hides D s₁ t₁ := by
    refine ⟨hR.fd, hR.fileHdr, ?_, ?_, fun r hr => ?_, fun r hr => ?_, fun r hr => ?_⟩
    · show (t.store.unpinPage _).2.fd2pageno _ = (s.store.unpinPage _).2.fd2pageno _
      rw [PageStore.fd2pageno_unpinPage, PageStore.fd2pageno_unpinPage]
      exact hR.counter
    · show ∀ q, D q → q < (s.store.unpinPage _).2.fd2pageno _
      rw [PageStore.fd2pageno_unpinPage]
      exact hR.below
    · show (t.store.unpinPage _).2.view _ = none
      rw [PageStore.view_unpinPage]
      exact hR.hidden r hr
    · show (t.store.unpinPage _).2.pool _ = (s.store.unpinPage _).2.pool _
      rw [(PageStore.pool_unpinPage ..).1, (PageStore.pool_unpinPage ..).1]
      exact hR.pool r hr
    · show (t.store.unpinPage _).2.disk _ = (s.store.unpinPage _).2.disk _
      rw [(PageStore.pool_unpinPage ..).2, (PageStore.pool_unpinPage ..).2]
      exact hR.disk r hr
  exact h s₁ t₁ b t' hR₁ hrun

theorem createNode_mimics [Inhabited κ] : IxMimics D (createNode : IxM κ Int) createNode := by
  intro s t b t' hR hrun
  have hcounter : ¬D (s.store.fd2pageno s.fd) := fun hD => absurd (hR.below _ hD) (lt_irrefl _)
  cases hpool : t.store.pool ⟨t.fd, t.store.fd2pageno t.fd⟩ with
  | some page =>
    simp only [createNode, modify_bind_apply, get_bind_apply, hpool] at hrun
    cases hrun
  | none =>
    simp only [createNode, modify_bind_apply, get_bind_apply, hpool] at hrun
    cases hrun
    have hpool' : s.store.pool ⟨s.fd, s.store.fd2pageno s.fd⟩ = none := by
      rw [← hR.pool _ hcounter, ← hR.counter]
      exact hpool
    refine ⟨{ s with
      fileHdr := { s.fileHdr with numPages := s.fileHdr.numPages + 1 }
      store := s.store.newPage .zero s.fd }, ?_, ?_⟩
    · simp only [createNode, modify_bind_apply, get_bind_apply, hpool']
      rw [hR.counter]
      rfl
    · have hne : ∀ {r : Int} (fd), r ≠ s.store.fd2pageno s.fd →
          (⟨fd, r⟩ : PageId) ≠ ⟨fd, s.store.fd2pageno s.fd⟩ := fun fd hr heq =>
        hr (congrArg PageId.pageNo heq)
      refine ⟨hR.fd, ?_, ?_, fun r hr => ?_, fun r hr => ?_, fun r hr => ?_, hR.disk⟩
      · show { t.fileHdr with numPages := t.fileHdr.numPages + 1 } = _
        rw [hR.fileHdr]
      · show Function.update t.store.fd2pageno t.fd _ t.fd =
          Function.update s.store.fd2pageno s.fd _ s.fd
        rw [Function.update_self, Function.update_self, hR.counter]
      · show r < Function.update s.store.fd2pageno s.fd _ s.fd
        rw [Function.update_self]
        have := hR.below r hr
        omega
      · show (t.store.newPage .zero t.fd).view _ = none
        rw [PageStore.view_newPage, if_neg]
        · exact hR.hidden r hr
        · intro heq
          have hr' : r = t.store.fd2pageno t.fd := congrArg PageId.pageNo heq
          rw [hr', hR.counter] at hr
          exact hcounter hr
      · show Function.update t.store.pool _ _ _ = Function.update s.store.pool _ _ _
        rw [hR.counter]
        by_cases hrc : r = s.store.fd2pageno s.fd
        · subst hrc
          rw [Function.update_self, Function.update_self]
        · rw [Function.update_of_ne (hne _ hrc), Function.update_of_ne (hne _ hrc), hR.pool r hr]

/-- Both headers are changed in the same way. -/
theorem modifyHdr_mimics (g : IxFileHdr → IxFileHdr) :
    IxMimics D (modify fun s => { s with fileHdr := g s.fileHdr } : IxM κ PUnit)
      (modify fun s => { s with fileHdr := g s.fileHdr }) := by
  apply Mimics.modifies
  intro s t hR
  exact ⟨hR.fd, congrArg g hR.fileHdr, hR.counter, hR.below, hR.hidden, hR.pool, hR.disk⟩

/-- The rest of the program depends on the header only. -/
theorem hdr_bind_mimics {f : IxFileHdr → IxM κ β} (h : ∀ hdr, IxMimics D (f hdr) (f hdr)) :
    IxMimics D ((get : IxM κ (IxIndex κ)) >>= fun s => f s.fileHdr)
      (get >>= fun s => f s.fileHdr) := by
  apply Mimics.get_bind
  intro s t hR
  rw [hR.fileHdr]
  exact h s.fileHdr

end Primitive

/-! ### Inserting -/

section Insert

variable {D : Int → Prop} {p q : Int}

theorem maintainChild_mimics (idx : Int) :
    IxMimics D (maintainChild p idx : IxM κ Unit) (maintainChild p idx) := by
  unfold maintainChild
  apply node_bind_mimics
  intro page _
  split_ifs
  · exact .pure ()
  · apply fetchNode_bind_mimics
    intro hchild
    apply node_bind_mimics
    intro child _
    refine (setNode_mimics hchild _).bind fun _ => ?_
    exact unpinPage_bind_mimics (.pure ())

theorem maintainChildren_mimics : ∀ (n : Nat) (lo : Int),
    IxMimics D (maintainChildren p n lo : IxM κ Unit) (maintainChildren p n lo)
  | 0, _ => .pure ()
  | n + 1, lo => (maintainChild_mimics lo).bind fun _ => maintainChildren_mimics n (lo + 1)

theorem insertLeaf_mimics : IxMimics D (insertLeaf p q true : IxM κ Unit) (insertLeaf p q true) := by
  unfold insertLeaf
  apply node_bind_mimics
  intro origin hp
  apply node_bind_mimics
  intro new hq
  refine (setNode_mimics hq _).bind fun _ => ?_
  simp only [if_true]
  apply node_bind_mimics
  intro new _
  refine (setNode_mimics hq _).bind fun _ => ?_
  apply node_bind_mimics
  intro origin _
  refine (setNode_mimics hp _).bind fun _ => ?_
  apply node_bind_mimics
  intro new _
  split_ifs
  · apply fetchNode_bind_mimics
    intro hnext
    apply node_bind_mimics
    intro next _
    refine (setNode_mimics hnext _).bind fun _ => ?_
    exact unpinPage_bind_mimics (.pure ())
  · exact .pure ()

theorem updateLastLeaf_mimics :
    IxMimics D (updateLastLeaf p q : IxM κ Unit) (updateLastLeaf p q) := by
  refine hdr_bind_mimics (f := fun hdr => if p = hdr.lastLeaf then setLastLeaf q else pure ()) ?_
  intro hdr
  split_ifs
  · exact modifyHdr_mimics fun hdr => { hdr with lastLeaf := q }
  · exact .pure ()

theorem setNewRoot_mimics {root left right : Int} :
    IxMimics D (setNewRoot root left right : IxM κ Unit) (setNewRoot root left right) := by
  unfold setNewRoot
  apply node_bind_mimics
  intro page hroot
  refine (setNode_mimics hroot _).bind fun _ => ?_
  refine (modifyHdr_mimics fun hdr => { hdr with rootPage := root }).bind fun _ => ?_
  apply node_bind_mimics
  intro leftPage _
  apply node_bind_mimics
  intro rightPage _
  apply node_bind_mimics
  intro page _
  refine (setNode_mimics hroot _).bind fun _ => ?_
  refine (maintainChildren_mimics 2 0).bind fun _ => ?_
  exact unpinPage_bind_mimics (.pure ())

theorem split_mimics [Inhabited κ] : IxMimics D (split p : IxM κ Int) (split p) := by
  unfold split
  refine createNode_mimics.bind fun new => ?_
  apply node_bind_mimics
  intro newPage hnew
  apply node_bind_mimics
  intro page hp
  refine (setNode_mimics hnew _).bind fun _ => ?_
  refine (setNode_mimics hp _).bind fun _ => ?_
  split_ifs
  · exact insertLeaf_mimics.bind fun _ => .pure new
  · exact (maintainChildren_mimics _ _).bind fun _ => .pure new

variable [LinearOrder κ]

theorem findLeafFrom_mimics (key : κ) : ∀ (fuel : Nat) (p : Int),
    IxMimics D (findLeafFrom key fuel p) (findLeafFrom key fuel p)
  | 0, _ => .throw
  | fuel + 1, p => by
    unfold findLeafFrom
    apply node_bind_mimics
    intro page _
    split_ifs
    · exact .pure p
    · apply fetchNode_bind_mimics
      exact fun _ => findLeafFrom_mimics key fuel _

theorem findLeafPage_mimics (fuel : Nat) (key : κ) :
    IxMimics D (findLeafPage fuel key) (findLeafPage fuel key) := by
  refine hdr_bind_mimics (f := fun hdr => fetchNode hdr.rootPage >>= findLeafFrom key fuel) ?_
  intro hdr
  apply fetchNode_bind_mimics
  exact fun _ => findLeafFrom_mimics key fuel _

variable [Inhabited κ]

theorem splitNodeIfFull_mimics (fuel : Nat) (p : Int) :
    IxMimics D (splitNodeIfFull fuel p : IxM κ Unit) (splitNodeIfFull fuel p) := by
  induction fuel generalizing p with
  | zero => exact .throw
  | succ fuel ih =>
    unfold splitNodeIfFull
    apply Mimics.get_bind
    intro s t hR
    rw [hR.fileHdr]
    apply node_bind_mimics
    intro page _
    split_ifs
    · refine split_mimics.bind fun new => ?_
      apply node_bind_mimics
      intro newPage _
      have hparent : IxMimics D (insertIntoParent p (newPage.keys 0) new (splitNodeIfFull fuel))
          (insertIntoParent p (newPage.keys 0) new (splitNodeIfFull fuel)) := by
        unfold insertIntoParent
        apply node_bind_mimics
        intro old _
        split_ifs
        · exact createNode_mimics.bind fun _ => setNewRoot_mimics
        · apply fetchNode_bind_mimics
          intro hq
          apply node_bind_mimics
          intro parentPage _
          refine (setNode_mimics hq _).bind fun _ => ?_
          refine (ih _).bind fun _ => ?_
          exact unpinPage_bind_mimics (.pure ())
      refine hparent.bind fun _ => ?_
      apply node_bind_mimics
      intro page _
      split_ifs
      · refine updateLastLeaf_mimics.bind fun _ => ?_
        exact unpinPage_bind_mimics (unpinPage_bind_mimics (.pure ()))
      · exact .pure ()
    · exact .pure ()

/-- **`insert_entry`** does with unused pages what it does without them. -/
theorem insertEntry_mimics (fuel : Nat) (key : κ) (value : Rid) :
    IxMimics D (insertEntry fuel key value) (insertEntry fuel key value) := by
  unfold insertEntry
  refine (findLeafPage_mimics fuel key).bind fun leaf => ?_
  apply node_bind_mimics
  intro page hleaf
  refine (setNode_mimics hleaf _).bind fun _ => ?_
  split_ifs
  · exact (splitNodeIfFull_mimics fuel leaf).bind fun _ => .pure true
  · exact .pure false

end Insert

end Rucbase
