import Mathlib.Data.List.Nodup
import Mathlib.Data.List.Pairwise
import Mathlib.Data.List.Perm.Basic
import Rucbase.Index.Equiv.Memory
import Rucbase.Index.Tree

/-!
# Trees in memory

`Tree.Holds pages parent t`: the pages hold the tree `t` whose root has the parent field `parent`.
What the pages of a tree hold depends only on those pages, and on nothing but their bodies: leaf
links may change (`Tree.Holds.congr`).  `Ctx.Holds` is the same for a tree with a hole.
-/

namespace Rucbase

variable {κ : Type} {h H : Nat}

/-- A page without its leaf links. -/
def IxPage.body (page : IxPage κ) : IxPage κ := { page with prevLeaf := 0, nextLeaf := 0 }

/-- The page of the number is a node with this parent and these slots. -/
def NodeAt (pages : Int → Option (IxPage κ)) (parent : Int) (isLeaf : Bool) (no : Int)
    (s : Slots κ Rid) : Prop :=
  ∃ page, pages no = some page ∧ page.parent = parent ∧ page.isLeaf = isLeaf ∧ page.Shows s

/-- The slots of a node as they stand in its page. -/
def Tree.row (t : Tree κ h) : Slots κ Rid := t.slots.map Item.rid

/-- The pages hold the tree. -/
def Tree.Holds (pages : Int → Option (IxPage κ)) : {h : Nat} → Int → Tree κ h → Prop
  | 0, parent, t => NodeAt pages parent true t.no t.row
  | _ + 1, parent, t => NodeAt pages parent false t.no t.row ∧
      ∀ e ∈ t.kids, Tree.Holds pages t.no e.2

/-- The slots of the node above a hole that is filled by a node with the given page number. -/
def Ctx.row (left : List (κ × Tree κ h)) (key : κ) (right : List (κ × Tree κ h)) (stale : Nat → κ)
    (q : Int) : Slots κ Rid where
  entries := (left.map fun e => (e.1, (⟨e.2.no, -1⟩ : Rid))) ++
    (key, ⟨q, -1⟩) :: right.map fun e => (e.1, (⟨e.2.no, -1⟩ : Rid))
  stale

/-- The pages hold the tree around a hole filled by the page `q`. -/
def Ctx.Holds (pages : Int → Option (IxPage κ)) : {h H : Nat} → Ctx κ h H → Int → Prop
  | _, _, .top, _ => True
  | _, _, .down up no left key right stale, q =>
    NodeAt pages up.parentNo false no (Ctx.row left key right stale q) ∧
      (∀ e ∈ left ++ right, Tree.Holds pages no e.2) ∧ Ctx.Holds pages up no

theorem Tree.Holds.nodeAt {pages : Int → Option (IxPage κ)} {parent : Int} {t : Tree κ h}
    (ht : t.Holds pages parent) : NodeAt pages parent (decide (h = 0)) t.no t.row := by
  cases h with
  | zero => exact ht
  | succ h => exact ht.1

/-! ### Filling the hole -/

theorem Ctx.row_fill (no : Int) (left : List (κ × Tree κ h)) (key : κ)
    (right : List (κ × Tree κ h)) (stale : Nat → κ) (t : Tree κ h) :
    (fill no left key right stale t).row = Ctx.row left key right stale t.no := by
  show Slots.mk ((left ++ (key, t) :: right).map fun e => (e.1, Item.rid (h := h + 1) e.2)) stale = _
  rw [List.map_append, List.map_cons]
  rfl

theorem Ctx.holds_fill {pages : Int → Option (IxPage κ)} {parent no : Int}
    {left : List (κ × Tree κ h)} {key : κ} {right : List (κ × Tree κ h)} {stale : Nat → κ}
    {t : Tree κ h} :
    (fill no left key right stale t).Holds pages parent ↔
      NodeAt pages parent false no (Ctx.row left key right stale t.no) ∧
        (∀ e ∈ left ++ right, Tree.Holds pages no e.2) ∧ t.Holds pages no := by
  show (NodeAt pages parent false no (fill no left key right stale t).row ∧
    ∀ e ∈ left ++ (key, t) :: right, Tree.Holds pages no e.2) ↔ _
  rw [Ctx.row_fill]
  constructor
  · rintro ⟨hnode, hkids⟩
    refine ⟨hnode, fun e he => hkids e ?_, hkids (key, t) ?_⟩
    · rcases List.mem_append.mp he with he | he
      · exact List.mem_append_left _ he
      · exact List.mem_append_right _ (List.mem_cons_of_mem _ he)
    · exact List.mem_append_right _ List.mem_cons_self
  · rintro ⟨hnode, hkids, ht⟩
    refine ⟨hnode, fun e he => ?_⟩
    rcases List.mem_append.mp he with he | he
    · exact hkids e (List.mem_append_left _ he)
    · rcases List.mem_cons.mp he with rfl | he
      · exact ht
      · exact hkids e (List.mem_append_right _ he)

/-- **A tree in memory** is the part around a hole and the part in it. -/
theorem Ctx.holds_plug {pages : Int → Option (IxPage κ)} (c : Ctx κ h H) (t : Tree κ h) :
    (c.plug t).Holds pages invalidPageId ↔ c.Holds pages t.no ∧ t.Holds pages c.parentNo := by
  induction c with
  | top =>
    show Tree.Holds pages invalidPageId t ↔ True ∧ Tree.Holds pages invalidPageId t
    rw [true_and]
  | down up no left key right stale ih =>
    show (up.plug (fill no left key right stale t)).Holds pages invalidPageId ↔ _
    rw [ih, Ctx.holds_fill]
    show up.Holds pages no ∧ _ ↔ (_ ∧ _ ∧ up.Holds pages no) ∧ t.Holds pages no
    tauto

/-- The page numbers of a filled tree. -/
theorem Ctx.nos_plug (c : Ctx κ h H) (t : Tree κ h) : (c.plug t).nos.Perm (t.nos ++ c.nos) := by
  induction c with
  | top =>
    show t.nos.Perm (t.nos ++ [])
    rw [List.append_nil]
  | down up no left key right stale ih =>
    refine (ih _).trans ?_
    show List.Perm (no :: (left ++ (key, t) :: right).flatMap (fun e => Tree.nos e.2) ++ up.nos)
      (t.nos ++ (no :: ((left ++ right).flatMap fun e => Tree.nos e.2) ++ up.nos))
    rw [List.perm_iff_count]
    intro q
    simp only [List.flatMap_append, List.flatMap_cons, List.count_append, List.count_cons,
      List.cons_append]
    omega

/-! ### Frames -/

section Frame

variable {pages pages' : Int → Option (IxPage κ)}

/-- The page is the same up to its leaf links. -/
def SameBody (pages pages' : Int → Option (IxPage κ)) (q : Int) : Prop :=
  (pages' q).map IxPage.body = (pages q).map IxPage.body

theorem SameBody.of_eq {q : Int} (h : pages' q = pages q) : SameBody pages pages' q := by
  rw [SameBody, h]

theorem NodeAt.congr {parent no : Int} {isLeaf : Bool} {s : Slots κ Rid}
    (hn : NodeAt pages parent isLeaf no s) (hq : SameBody pages pages' no) :
    NodeAt pages' parent isLeaf no s := by
  obtain ⟨page, hp, hparent, hleaf, hshows⟩ := hn
  rw [SameBody, hp] at hq
  obtain ⟨page', hp', hbody⟩ := Option.map_eq_some_iff.mp hq
  -- only the links differ
  simp only [IxPage.body, IxPage.mk.injEq, true_and] at hbody
  obtain ⟨hp1, hp3, hp2, hp4, hp5⟩ := hbody
  refine ⟨page', hp', hp1.trans hparent, hp2.trans hleaf, ?_, ?_, fun {i e} he => ?_⟩
  · rw [hp3, hshows.numKey]
  · rw [hp4, hshows.keys]
  · rw [hp5, hshows.rids he]

theorem Tree.no_mem_nos (t : Tree κ h) : t.no ∈ t.nos := by
  cases h with
  | zero => exact List.mem_singleton_self _
  | succ h => exact List.mem_cons_self

theorem Tree.nos_subset_of_kid {t : Tree κ (h + 1)} {e : κ × Tree κ h} (he : e ∈ t.kids) :
    ∀ q ∈ e.2.nos, q ∈ t.nos := by
  intro q hq
  exact List.mem_cons_of_mem _ (List.mem_flatMap.mpr ⟨e, he, hq⟩)

/-- **Frame rule.**  A tree depends on the bodies of its own pages only. -/
theorem Tree.Holds.congr {t : Tree κ h} {parent : Int} (ht : t.Holds pages parent)
    (hq : ∀ q ∈ t.nos, SameBody pages pages' q) : t.Holds pages' parent := by
  induction h generalizing parent with
  | zero => exact NodeAt.congr ht (hq _ t.no_mem_nos)
  | succ h ih =>
    obtain ⟨hnode, hkids⟩ := ht
    refine ⟨hnode.congr (hq _ t.no_mem_nos), fun e he => ?_⟩
    exact ih (hkids e he) fun q hqe => hq q (Tree.nos_subset_of_kid he q hqe)

theorem Ctx.Holds.congr {c : Ctx κ h H} {r : Int} (hc : c.Holds pages r)
    (hq : ∀ q ∈ c.nos, SameBody pages pages' q) : c.Holds pages' r := by
  induction c generalizing r with
  | top => trivial
  | down up no left key right stale ih =>
    obtain ⟨hnode, hkids, hup⟩ := hc
    have hmem : ∀ q, q ∈ (Ctx.down up no left key right stale).nos ↔
        q = no ∨ (∃ e ∈ left ++ right, q ∈ e.2.nos) ∨ q ∈ up.nos := by
      intro q
      show q ∈ no :: ((left ++ right).flatMap fun e => Tree.nos e.2) ++ up.nos ↔ _
      rw [List.mem_append, List.mem_cons, List.mem_flatMap, or_assoc]
    refine ⟨hnode.congr (hq no ?_), fun e he => ?_, ih hup fun q hqu => hq q ?_⟩
    · exact (hmem no).mpr (Or.inl rfl)
    · exact (hkids e he).congr fun q hqe => hq q ((hmem q).mpr (Or.inr (Or.inl ⟨e, he, hqe⟩)))
    · exact (hmem q).mpr (Or.inr (Or.inr hqu))

theorem NodeAt.set_parent {parent parent' no : Int} {isLeaf : Bool} {s : Slots κ Rid}
    (hn : NodeAt pages parent isLeaf no s)
    (hself : pages' no = (pages no).map fun page => { page with parent := parent' }) :
    NodeAt pages' parent' isLeaf no s := by
  obtain ⟨page, hp, -, hleaf, hshows⟩ := hn
  rw [hp] at hself
  exact ⟨_, hself, rfl, hleaf, hshows.numKey, hshows.keys, fun he => hshows.rids he⟩

/-- The root of a tree gets a new parent. -/
theorem Tree.Holds.set_parent {t : Tree κ h} {parent parent' : Int} (ht : t.Holds pages parent)
    (hnodup : t.nos.Nodup)
    (hself : pages' t.no = (pages t.no).map fun page => { page with parent := parent' })
    (hq : ∀ q ∈ t.nos, q ≠ t.no → SameBody pages pages' q) : t.Holds pages' parent' := by
  cases h with
  | zero => exact NodeAt.set_parent ht hself
  | succ h =>
    obtain ⟨hnode, hkids⟩ := ht
    refine ⟨hnode.set_parent hself, fun e he => (hkids e he).congr fun q hqe => ?_⟩
    have hmem : q ∈ t.kids.flatMap fun e => Tree.nos e.2 := List.mem_flatMap.mpr ⟨e, he, hqe⟩
    refine hq q (List.mem_cons_of_mem _ hmem) ?_
    rintro rfl
    exact (List.nodup_cons.mp hnodup).1 hmem

end Frame

/-! ### Page numbers -/

/-- The page numbers of different children are different. -/
theorem Tree.eq_of_mem_nos {t : Tree κ (h + 1)} (hn : t.nos.Nodup) {e e' : κ × Tree κ h}
    (he : e ∈ t.kids) (he' : e' ∈ t.kids) {q : Int} (hq : q ∈ e.2.nos) (hq' : q ∈ e'.2.nos) :
    e = e' := by
  by_contra hne
  have hflat : (t.kids.flatMap fun e => Tree.nos e.2).Nodup := (List.nodup_cons.mp hn).2
  have hdisjoint := (List.nodup_flatMap.mp hflat).2
  have hsymm : Std.Symm (Function.onFun List.Disjoint fun e : κ × Tree κ h => Tree.nos e.2) :=
    ⟨fun _ _ hab q h1 h2 => hab h2 h1⟩
  exact hdisjoint.forall he he' hne hq hq'

theorem Tree.kid_nos_nodup {t : Tree κ (h + 1)} (hn : t.nos.Nodup) {e : κ × Tree κ h}
    (he : e ∈ t.kids) : e.2.nos.Nodup :=
  (List.nodup_flatMap.mp (List.nodup_cons.mp hn).2).1 e he

theorem Tree.ne_no_of_mem_kid {t : Tree κ (h + 1)} (hn : t.nos.Nodup) {e : κ × Tree κ h}
    (he : e ∈ t.kids) {q : Int} (hq : q ∈ e.2.nos) : q ≠ t.no := by
  rintro rfl
  exact (List.nodup_cons.mp hn).1 (List.mem_flatMap.mpr ⟨e, he, hq⟩)

/-- A split adds one page number. -/
theorem Tree.nos_split [Inhabited κ] (t : Tree κ h) (q : Int) :
    (t.splitLeft.nos ++ (t.splitRight q).nos).Perm (q :: t.nos) := by
  cases h with
  | zero => exact List.Perm.swap q t.no []
  | succ h =>
    have hkids : t.kids.flatMap (fun e => Tree.nos e.2) =
        (t.kids.take (t.slots.size / 2)).flatMap (fun e => Tree.nos e.2) ++
          (t.kids.drop (t.slots.size / 2)).flatMap fun e => Tree.nos e.2 := by
      rw [← List.flatMap_append, List.take_append_drop]
    show List.Perm ((t.no :: (t.kids.take (t.slots.size / 2)).flatMap fun e => Tree.nos e.2) ++
      q :: (t.kids.drop (t.slots.size / 2)).flatMap fun e => Tree.nos e.2)
      (q :: t.no :: t.kids.flatMap fun e : κ × Tree κ h => Tree.nos e.2)
    rw [hkids, List.perm_iff_count]
    intro r
    simp only [List.count_append, List.count_cons, List.cons_append]
    omega

/-- Inserting a child adds its page numbers, or nothing. -/
theorem Tree.nos_insertAt (t : Tree κ (h + 1)) {i : Nat} (hi : i ≤ t.slots.size) (key : κ)
    (child : Tree κ h) :
    (Tree.nos (⟨t.no, t.slots.insertAt i key child⟩ : Tree κ (h + 1))).Perm
      (child.nos ++ t.nos) := by
  have hperm : ((t.kids.insertIdx i (key, child)).flatMap fun e => Tree.nos e.2).Perm
      (child.nos ++ t.kids.flatMap fun e => Tree.nos e.2) :=
    (List.perm_insertIdx (key, child) t.kids hi).flatMap_right _
  refine (hperm.cons t.no).trans ?_
  exact List.perm_middle.symm

end Rucbase
