import Rucbase.Index.Equiv.Descent
import Rucbase.Index.Equiv.Sorted

/-!
# The shape of a tree

Every node is sorted (`Tree.Sorted`), and every node below the root holds at least `GetMinSize` and
at most `btree_order` entries (`Tree.Sized`).  Inserting keeps both, whatever the keys are and
wherever a new node ends up (`sorted_splitUp`, `sized_splitUp`): a split leaves two halves that are
large enough, and a parent only gains entries.
-/

namespace Rucbase

variable {κ : Type} {h H : Nat}

/-- Every node is sorted. -/
def Tree.Sorted [LinearOrder κ] : {h : Nat} → Tree κ h → Prop
  | 0, t => t.slots.SortedFrom 0
  | _ + 1, t => t.slots.SortedFrom 0 ∧ ∀ e ∈ t.kids, Tree.Sorted e.2

/-- The root has from `lo` to `hi` entries, the other nodes from `GetMinSize` to `btree_order`. -/
def Tree.Sized (order : Nat) : {h : Nat} → Nat → Nat → Tree κ h → Prop
  | 0, lo, hi, t => lo ≤ t.slots.size ∧ t.slots.size ≤ hi
  | _ + 1, lo, hi, t => (lo ≤ t.slots.size ∧ t.slots.size ≤ hi) ∧
      ∀ e ∈ t.kids, Tree.Sized order ((order + 1) / 2) order e.2

/-- The least number of entries of a root: an inner one has two children. -/
def rootMin (h : Nat) : Nat := if h = 0 then 0 else 2

/-- The least number of entries of the node in the hole. -/
def Ctx.minSize (order : Nat) : {h H : Nat} → Ctx κ h H → Nat
  | h, _, .top => rootMin h
  | _, _, .down .. => (order + 1) / 2

theorem Tree.Sized.size {order lo hi : Nat} {t : Tree κ h} (ht : t.Sized order lo hi) :
    lo ≤ t.slots.size ∧ t.slots.size ≤ hi := by
  cases h with
  | zero => exact ht
  | succ h => exact ht.1

theorem Tree.Sized.mono {order lo hi lo' hi' : Nat} {t : Tree κ h} (ht : t.Sized order lo hi)
    (hlo : lo' ≤ lo) (hhi : hi ≤ hi') : t.Sized order lo' hi' := by
  cases h with
  | zero => exact ⟨hlo.trans ht.1, ht.2.trans hhi⟩
  | succ h => exact ⟨⟨hlo.trans ht.1.1, ht.1.2.trans hhi⟩, ht.2⟩

/-- Only the size of the root counts for its bounds. -/
theorem Tree.Sized.with_size {order lo hi lo' hi' : Nat} {t : Tree κ h} (ht : t.Sized order lo hi)
    (hlo : lo' ≤ t.slots.size) (hhi : t.slots.size ≤ hi') : t.Sized order lo' hi' := by
  cases h with
  | zero => exact ⟨hlo, hhi⟩
  | succ h => exact ⟨⟨hlo, hhi⟩, ht.2⟩

theorem Tree.Sorted.node [LinearOrder κ] {t : Tree κ h} (ht : t.Sorted) :
    t.slots.SortedFrom 0 := by
  cases h with
  | zero => exact ht
  | succ h => exact ht.1

/-! ### The node in the hole -/

/-- The node above the hole has the same keys, whatever fills the hole. -/
theorem Ctx.keyAt_fill {no : Int} {left : List (κ × Tree κ h)} {key : κ}
    {right : List (κ × Tree κ h)} {stale : Nat → κ} (t t' : Tree κ h) :
    (fill no left key right stale t).slots.keyAt = (fill no left key right stale t').slots.keyAt := by
  have hrow : ∀ t : Tree κ h, (fill no left key right stale t).slots.keyAt =
      ((fill no left key right stale t).slots.map fun _ => ()).keyAt :=
    fun t => (Slots.keyAt_map _).symm
  rw [hrow, hrow t']
  congr 1
  show Slots.mk _ _ = Slots.mk _ _
  rw [List.map_append, List.map_append]
  rfl

theorem Ctx.size_fill {no : Int} {left : List (κ × Tree κ h)} {key : κ}
    {right : List (κ × Tree κ h)} {stale : Nat → κ} (t : Tree κ h) :
    (fill no left key right stale t).slots.size = left.length + right.length + 1 := by
  show (left ++ (key, t) :: right).length = _
  rw [List.length_append, List.length_cons]
  omega

/-- A child of the node above the hole: the one in the hole, or one beside it. -/
theorem Ctx.mem_fill {no : Int} {left : List (κ × Tree κ h)} {key : κ}
    {right : List (κ × Tree κ h)} {stale : Nat → κ} {t : Tree κ h} {e : κ × Tree κ h} :
    e ∈ (fill no left key right stale t).kids ↔ e = (key, t) ∨ e ∈ left ++ right := by
  show e ∈ left ++ (key, t) :: right ↔ _
  simp only [List.mem_append, List.mem_cons]
  tauto

theorem mem_kids_newRoot [Inhabited κ] {no : Int} {l r : Tree κ h} {e : κ × Tree κ h}
    (he : e ∈ (newRoot no l r).kids) : e = (l.slots.keyAt 0, l) ∨ e = (r.slots.keyAt 0, r) := by
  rcases List.mem_cons.mp he with he | he
  · exact Or.inl he
  · exact Or.inr (List.mem_singleton.mp he)

section Sized

variable {order : Nat}

/-- The sizes of a tree, seen from one of its nodes. -/
theorem Tree.Sized.of_plug {c : Ctx κ h H} {t : Tree κ h}
    (hT : (c.plug t).Sized order (rootMin H) order) : t.Sized order (c.minSize order) order := by
  induction c with
  | top => exact hT
  | down up no left key right stale ih =>
    exact (ih hT).2 (key, t) (Ctx.mem_fill.mpr (Or.inl rfl))

/-- Another node of the right size in the hole. -/
theorem Tree.Sized.replace {c : Ctx κ h H} {t t' : Tree κ h}
    (hT : (c.plug t).Sized order (rootMin H) order) (ht' : t'.Sized order (c.minSize order) order) :
    (c.plug t').Sized order (rootMin H) order := by
  induction c with
  | top => exact ht'
  | down up no left key right stale ih =>
    have hfill := Tree.Sized.of_plug (c := up) hT
    refine ih hT ⟨?_, fun e he => ?_⟩
    · rw [Ctx.size_fill]
      have := hfill.1
      rwa [Ctx.size_fill] at this
    · rcases Ctx.mem_fill.mp he with rfl | he
      · exact ht'
      · exact hfill.2 e (Ctx.mem_fill.mpr (Or.inr he))

variable [Inhabited κ]

/-- Both halves of a full node are large enough. -/
theorem Tree.Sized.split {lo hi : Nat} {t : Tree κ h} (ht : t.Sized order lo hi)
    (hfull : t.slots.size = order + 1) (horder : 2 < order) (q : Int) :
    t.splitLeft.Sized order ((order + 1) / 2) order ∧
      (t.splitRight q).Sized order ((order + 1) / 2) order := by
  have hleft : t.splitLeft.slots.size = (order + 1) / 2 := by
    show t.slots.leftHalf.size = _
    rw [Slots.size_leftHalf, hfull]
  have hright : (t.splitRight q).slots.size = order + 1 - (order + 1) / 2 := by
    show t.slots.rightHalf.size = _
    rw [Slots.size_rightHalf, hfull]
  cases h with
  | zero => exact ⟨⟨by omega, by omega⟩, by omega, by omega⟩
  | succ h =>
    refine ⟨⟨⟨by omega, by omega⟩, fun e he => ?_⟩, ⟨by omega, by omega⟩, fun e he => ?_⟩
    · exact ht.2 e (List.mem_of_mem_take he)
    · exact ht.2 e (List.mem_of_mem_drop he)

variable [LinearOrder κ]

omit [Inhabited κ] in
/-- A leaf takes one more entry. -/
theorem Tree.Sized.insert {t : Tree κ 0} {lo : Nat}
    (ht : t.Sized order lo order) (key : κ) (value : Rid) :
    (t.insert key value).Sized order lo (order + 1) := by
  have hsize := ht.size
  show _ ≤ (t.slots.insert key value).size ∧ (t.slots.insert key value).size ≤ order + 1
  rw [Slots.size_insert]
  split_ifs
  · exact ⟨hsize.1, by omega⟩
  · exact ⟨by omega, by omega⟩

/-- **Inserting keeps the sizes.** -/
theorem sized_splitUp (horder : 2 < order) {c : Ctx κ h H} {t₀ t : Tree κ h} {counter : Int}
    (hT : (c.plug t₀).Sized order (rootMin H) order)
    (ht : t.Sized order (c.minSize order) (order + 1)) :
    (splitUp order c t counter).tree.Sized order (rootMin (splitUp order c t counter).height)
      order := by
  induction c generalizing counter with
  | top =>
    by_cases hfull : t.slots.size = order + 1
    · rw [splitUp_of_full hfull]
      obtain ⟨hleft, hright⟩ := ht.split hfull horder counter
      refine ⟨⟨?_, ?_⟩, fun e he => ?_⟩
      · exact le_refl 2
      · exact horder.le
      · rcases mem_kids_newRoot he with rfl | rfl
        · exact hleft
        · exact hright
    · rw [splitUp_of_not_full hfull]
      exact ht.with_size ht.size.1 (by have := ht.size.2; omega)
  | down up no left key right stale ih =>
    by_cases hfull : t.slots.size = order + 1
    · rw [splitUp_of_full hfull]
      obtain ⟨hleft, hright⟩ := ht.split hfull horder counter
      have hfill := Tree.Sized.of_plug (c := up) hT
      obtain ⟨hlo, hhi⟩ := hfill.1
      refine ih hT ⟨?_, fun e he => ?_⟩
      · -- the parent has as many entries as before, or one more
        rw [show (Tree.insert _ _ _).slots = Slots.insert _ _ _ from rfl, Slots.size_insert,
          Ctx.size_fill]
        rw [Ctx.size_fill] at hlo hhi
        split_ifs
        · exact ⟨hlo, by omega⟩
        · exact ⟨by omega, by omega⟩
      · rcases Tree.mem_kids_insert he with he | rfl
        · rcases Ctx.mem_fill.mp he with rfl | he
          · exact hleft
          · exact hfill.2 e (Ctx.mem_fill.mpr (Or.inr he))
        · exact hright
    · rw [splitUp_of_not_full hfull]
      exact hT.replace (ht.with_size ht.size.1 (by have := ht.size.2; omega))

end Sized

section Sorted

variable [LinearOrder κ]

theorem Tree.Sorted.of_plug {c : Ctx κ h H} {t : Tree κ h} (hT : (c.plug t).Sorted) : t.Sorted := by
  induction c with
  | top => exact hT
  | down up no left key right stale ih =>
    exact (ih hT).2 (key, t) (Ctx.mem_fill.mpr (Or.inl rfl))

/-- The node above the hole, with another node in the hole. -/
theorem Tree.Sorted.fill {no : Int} {left : List (κ × Tree κ h)} {key : κ}
    {right : List (κ × Tree κ h)} {stale : Nat → κ} {t t' : Tree κ h}
    (ht : (Ctx.fill no left key right stale t).Sorted) (ht' : t'.Sorted) :
    (Ctx.fill no left key right stale t').Sorted := by
  refine ⟨fun i j hi hij hj => ?_, fun e he => ?_⟩
  · rw [Ctx.keyAt_fill t' t]
    rw [Ctx.size_fill] at hj
    exact ht.1 i j hi hij (by rwa [Ctx.size_fill])
  · rcases Ctx.mem_fill.mp he with rfl | he
    · exact ht'
    · exact ht.2 e (Ctx.mem_fill.mpr (Or.inr he))

theorem Tree.Sorted.replace {c : Ctx κ h H} {t t' : Tree κ h} (hT : (c.plug t).Sorted)
    (ht' : t'.Sorted) : (c.plug t').Sorted := by
  induction c with
  | top => exact ht'
  | down up no left key right stale ih => exact ih hT ((Tree.Sorted.of_plug (c := up) hT).fill ht')

theorem Tree.Sorted.insert {t : Tree κ (h + 1)} {child : Tree κ h} (ht : t.Sorted)
    (hchild : child.Sorted) (key : κ) : (t.insert key child).Sorted := by
  refine ⟨ht.1.insert key child, fun e he => ?_⟩
  rcases Tree.mem_kids_insert he with he | rfl
  · exact ht.2 e he
  · exact hchild

variable [Inhabited κ] {order : Nat}

theorem Tree.Sorted.split {t : Tree κ h} (ht : t.Sorted) (q : Int) :
    t.splitLeft.Sorted ∧ (t.splitRight q).Sorted := by
  cases h with
  | zero => exact ⟨ht.leftHalf, ht.rightHalf (Nat.zero_le _)⟩
  | succ h =>
    refine ⟨⟨ht.1.leftHalf, fun e he => ?_⟩, ht.1.rightHalf (Nat.zero_le _), fun e he => ?_⟩
    · exact ht.2 e (List.mem_of_mem_take he)
    · exact ht.2 e (List.mem_of_mem_drop he)

/-- **Inserting keeps all nodes sorted.** -/
theorem sorted_splitUp {c : Ctx κ h H} {t₀ t : Tree κ h} {counter : Int} (horder : 2 < order)
    (hT : (c.plug t₀).Sorted) (ht : t.Sorted) : (splitUp order c t counter).tree.Sorted := by
  induction c generalizing counter with
  | top =>
    by_cases hfull : t.slots.size = order + 1
    · rw [splitUp_of_full hfull]
      obtain ⟨hleft, hright⟩ := ht.split counter
      refine ⟨fun i j _ hij hj => ?_, fun e he => ?_⟩
      · -- the first key of the right half is the larger one
        have hj' : j < 2 := hj
        obtain ⟨rfl, rfl⟩ : i = 0 ∧ j = 1 := ⟨by omega, by omega⟩
        show t.slots.leftHalf.keyAt 0 < t.slots.rightHalf.keyAt 0
        rw [Slots.keyAt_leftHalf, Slots.keyAt_rightHalf, hfull, if_pos (by omega)]
        exact ht.node 0 _ (le_refl _) (by omega) (by omega)
      · rcases mem_kids_newRoot he with rfl | rfl
        · exact hleft
        · exact hright
    · rwa [splitUp_of_not_full hfull]
  | down up no left key right stale ih =>
    by_cases hfull : t.slots.size = order + 1
    · rw [splitUp_of_full hfull]
      obtain ⟨hleft, hright⟩ := ht.split counter
      exact ih hT (((Tree.Sorted.of_plug (c := up) hT).fill hleft).insert hright _)
    · rw [splitUp_of_not_full hfull]
      exact hT.replace ht

end Sorted

/-- A tree whose nodes are large enough has children everywhere. -/
theorem Tree.Sized.inner {order lo hi : Nat} {t : Tree κ h} (horder : 2 < order)
    (ht : t.Sized order lo hi) (hlo : h ≠ 0 → lo ≠ 0) : t.Inner := by
  induction h generalizing lo hi with
  | zero => trivial
  | succ h ih =>
    have := hlo (Nat.succ_ne_zero h)
    exact ⟨by have := ht.1.1; omega, fun e he => ih (ht.2 e he) fun _ => by omega⟩

end Rucbase
