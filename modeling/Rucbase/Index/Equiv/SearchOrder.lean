import Mathlib.Data.Set.Basic
import Rucbase.Index.Equiv.Shape

/-!
# Search order

`Tree.Within n S t`: the keys of `t` lie in the set `S`, and the keys of an inner node divide `S`
among its children: child `i` has the part from key `i` up to key `i + 1`.  Key 0 divides nothing.
With `n = 0` it lies in `S` as well and below the other keys; with `n = 1` nothing is said about it.

`FindLeafPage` then ends at the leaf to which a key belongs (`Ctx.Leads.mem_span`).  Splitting keeps
the order if the new node goes in directly behind the old one, and the key of the new node decides
about that (`PlacesRight`, `within_splitUp`).
-/

namespace Rucbase

variable {κ : Type} [LinearOrder κ] {h H n : Nat}

/-- The part of `S` that belongs to child `i`. -/
def Slots.range {α : Type} (s : Slots κ α) (S : Set κ) (i : Nat) : Set κ :=
  {k | k ∈ S ∧ (1 ≤ i → s.keyAt i ≤ k) ∧ (i + 1 < s.size → k < s.keyAt (i + 1))}

/-- The keys of a node from slot `n` on increase and lie in `S`. -/
structure Slots.KeysIn {α : Type} (n : Nat) (S : Set κ) (s : Slots κ α) : Prop where
  sorted : s.SortedFrom n
  mem : ∀ i, n ≤ i → i < s.size → s.keyAt i ∈ S

/-- The keys of the tree lie in the set, and in the parts of it to which they belong. -/
def Tree.Within (n : Nat) : {h : Nat} → Set κ → Tree κ h → Prop
  | 0, S, t => t.slots.KeysIn 0 S
  | _ + 1, S, t => t.slots.KeysIn n S ∧
      ∀ i e, t.kids[i]? = some e → Tree.Within n (t.slots.range S i) e.2

theorem Slots.KeysIn.mono {α : Type} {S S' : Set κ} {s : Slots κ α} (hs : s.KeysIn n S)
    (hsub : S ⊆ S') : s.KeysIn n S' := ⟨hs.sorted, fun i hi hlt => hsub (hs.mem i hi hlt)⟩

theorem Slots.range_mono {α : Type} {S S' : Set κ} (s : Slots κ α) (hsub : S ⊆ S') (i : Nat) :
    s.range S i ⊆ s.range S' i := fun _ hk => ⟨hsub hk.1, hk.2⟩

theorem Tree.Within.mono {S S' : Set κ} {t : Tree κ h} (ht : t.Within n S) (hsub : S ⊆ S') :
    t.Within n S' := by
  induction h generalizing S S' with
  | zero => exact Slots.KeysIn.mono ht hsub
  | succ h ih =>
    refine ⟨ht.1.mono hsub, fun i e he => ?_⟩
    exact ih (ht.2 i e he) (t.slots.range_mono hsub i)

/-- The keys of the root of a tree. -/
theorem Tree.Within.node {S : Set κ} {t : Tree κ h} (ht : t.Within n S) : t.slots.KeysIn n S := by
  cases h with
  | zero =>
    have ht' : t.slots.KeysIn 0 S := ht
    exact ⟨ht'.sorted.mono (Nat.zero_le n), fun i _ hlt => ht'.mem i (Nat.zero_le i) hlt⟩
  | succ h => exact ht.1

/-- A leaf in order stays in order when a key goes in that belongs there. -/
theorem Slots.KeysIn.insert {α : Type} {S : Set κ} {s : Slots κ α} (hs : s.KeysIn 0 S) {key : κ}
    (hkey : key ∈ S) (value : α) : (s.insert key value).KeysIn 0 S := by
  refine ⟨hs.sorted.insert key value, fun i _ hlt => ?_⟩
  by_cases hk : s.keyAt (s.lowerBound key) = key
  · rw [insert_of_eq hk] at hlt ⊢
    exact hs.mem i (Nat.zero_le _) hlt
  · rw [insert_of_ne hk, size_insertAt (s.lowerBound_le key)] at hlt
    rw [insert_of_ne hk, keyAt_insertAt (s.lowerBound_le key)]
    have hle := s.lowerBound_le key
    split_ifs with h1 h2
    · exact hs.mem i (Nat.zero_le _) (by omega)
    · exact hkey
    · exact hs.mem (i - 1) (Nat.zero_le _) (by omega)

/-! ### The path to a leaf -/

/-- The part of `S` between two children: from the key of the hole, unless it is the first child,
up to the next key. -/
def Ctx.gap (left : List (κ × Tree κ h)) (key : κ) (right : List (κ × Tree κ h)) (S : Set κ) :
    Set κ :=
  {k | k ∈ S ∧ (left ≠ [] → key ≤ k) ∧ ∀ e ∈ right.head?, k < e.1}

/-- The keys that belong to the hole. -/
def Ctx.span : {h H : Nat} → Ctx κ h H → Set κ
  | _, _, .top => Set.univ
  | _, _, .down up _ left key right _ => gap left key right up.span

section Fill

variable {no : Int} {left right : List (κ × Tree κ h)} {key : κ} {stale : Nat → κ}

omit [LinearOrder κ] in
/-- The child in the hole. -/
theorem Ctx.getElem?_fill_self (t : Tree κ h) :
    (fill no left key right stale t).kids[left.length]? = some (key, t) := by
  show (left ++ (key, t) :: right)[left.length]? = _
  rw [List.getElem?_append_right (le_refl _), Nat.sub_self]
  rfl

omit [LinearOrder κ] in
/-- The other children. -/
theorem Ctx.getElem?_fill_of_ne {i : Nat} (hi : i ≠ left.length) (t t' : Tree κ h) :
    (fill no left key right stale t).kids[i]? = (fill no left key right stale t').kids[i]? := by
  show (left ++ (key, t) :: right)[i]? = (left ++ (key, t') :: right)[i]?
  rcases Nat.lt_or_gt_of_ne hi with hlt | hgt
  · rw [List.getElem?_append_left hlt, List.getElem?_append_left hlt]
  · obtain ⟨j, hj⟩ := Nat.exists_eq_add_of_lt hgt
    rw [List.getElem?_append_right (by omega), List.getElem?_append_right (by omega),
      show i - left.length = j + 1 by omega]
    rfl

omit [LinearOrder κ] in
theorem Ctx.keyAt_fill_self (t : Tree κ h) :
    (fill no left key right stale t).slots.keyAt left.length = key :=
  Slots.keyAt_of_getElem? (getElem?_fill_self t)

/-- The part that belongs to the hole. -/
theorem Ctx.range_fill_self (t : Tree κ h) (S : Set κ) :
    (fill no left key right stale t).slots.range S left.length = gap left key right S := by
  ext k
  show (k ∈ S ∧ _ ∧ _) ↔ k ∈ S ∧ _ ∧ _
  rw [keyAt_fill_self, size_fill, ← List.length_pos_iff_ne_nil, Nat.succ_le_iff]
  refine and_congr_right fun _ => and_congr_right fun _ => ?_
  cases right with
  | nil => simp
  | cons e right =>
    have hnext : (fill no left key (e :: right) stale t).slots.keyAt (left.length + 1) = e.1 := by
      apply Slots.keyAt_of_getElem?
      show (left ++ (key, t) :: e :: right)[left.length + 1]? = some e
      rw [List.getElem?_append_right (by omega), Nat.add_sub_cancel_left]
      rfl
    rw [hnext]
    simp

/-- The parts do not depend on what is in the hole. -/
theorem Ctx.range_fill (t t' : Tree κ h) (S : Set κ) (i : Nat) :
    (fill no left key right stale t).slots.range S i =
      (fill no left key right stale t').slots.range S i := by
  unfold Slots.range
  rw [keyAt_fill t t', size_fill, size_fill]

theorem Slots.KeysIn.fill {S : Set κ} {t : Tree κ h} (t' : Tree κ h)
    (ht : (Ctx.fill no left key right stale t).slots.KeysIn n S) :
    (Ctx.fill no left key right stale t').slots.KeysIn n S := by
  have hsize : (Ctx.fill no left key right stale t').slots.size =
      (Ctx.fill no left key right stale t).slots.size := by
    rw [Ctx.size_fill, Ctx.size_fill]
  constructor
  · intro i j hi hij hj
    rw [Ctx.keyAt_fill t' t]
    exact ht.sorted i j hi hij (hsize ▸ hj)
  · intro i hi hlt
    rw [Ctx.keyAt_fill t' t]
    exact ht.mem i hi (hsize ▸ hlt)

/-- Another tree in the hole of a node. -/
theorem Tree.Within.fill {S : Set κ} {t t' : Tree κ h}
    (ht : (Ctx.fill no left key right stale t).Within n S)
    (ht' : t'.Within n (Ctx.gap left key right S)) :
    (Ctx.fill no left key right stale t').Within n S := by
  refine ⟨ht.1.fill t', fun i e he => ?_⟩
  by_cases hi : i = left.length
  · subst hi
    rw [Ctx.getElem?_fill_self] at he
    obtain rfl := Option.some.inj he
    rwa [Ctx.range_fill_self]
  · rw [Ctx.getElem?_fill_of_ne hi t' t] at he
    rw [Ctx.range_fill t' t]
    exact ht.2 i e he

end Fill

/-- The tree in the hole has the keys that belong there. -/
theorem Tree.Within.of_plug {c : Ctx κ h H} {t : Tree κ h} (hT : (c.plug t).Within n Set.univ) :
    t.Within n c.span := by
  induction c with
  | top => exact hT
  | down up no left key right stale ih =>
    have hkid := (ih hT).2 left.length (key, t) (Ctx.getElem?_fill_self t)
    rwa [Ctx.range_fill_self] at hkid

theorem Tree.Within.replace {c : Ctx κ h H} {t t' : Tree κ h} (hT : (c.plug t).Within n Set.univ)
    (ht' : t'.Within n c.span) : (c.plug t').Within n Set.univ := by
  induction c with
  | top => exact ht'
  | down up no left key right stale ih =>
    exact ih hT ((Tree.Within.of_plug (c := up) hT).fill ht')

/-- **The search goes where the key belongs.** -/
theorem Ctx.Leads.mem_span {c : Ctx κ h H} {t : Tree κ h} {key : κ} (hn : n ≤ 1)
    (hleads : c.Leads key t) (hT : (c.plug t).Within n Set.univ) : key ∈ c.span := by
  induction c with
  | top => exact Set.mem_univ key
  | down up no left k right stale ih =>
    obtain ⟨hindex, hup⟩ := hleads
    have hnode := (Tree.Within.of_plug (c := up) hT).1
    obtain ⟨hle, hlt⟩ := hnode.sorted.upperBound_spec hn key
    have hidx : (Ctx.fill no left k right stale t).slots.upperBound key - 1 = left.length := hindex
    have hgap : (Ctx.fill no left k right stale t).slots.range up.span left.length =
        Ctx.gap left k right up.span := Ctx.range_fill_self t up.span
    show key ∈ Ctx.gap left k right up.span
    rw [← hgap]
    refine ⟨ih hup hT, fun h1 => ?_, fun h1 => ?_⟩
    · exact hle _ (hn.trans h1) (by omega)
    · exact hlt _ (by omega) (by omega) h1

/-! ### Splitting a node -/

section Split

variable {α : Type} {S : Set κ} {s : Slots κ α}

theorem Slots.KeysIn.leftHalf (hs : s.KeysIn n S) :
    s.leftHalf.KeysIn n {k | k ∈ S ∧ k < s.keyAt (s.size / 2)} := by
  refine ⟨hs.sorted.leftHalf, fun i hi hlt => ?_⟩
  rw [size_leftHalf] at hlt
  rw [keyAt_leftHalf]
  exact ⟨hs.mem i hi (by omega), hs.sorted i _ hi hlt (by omega)⟩

theorem Slots.KeysIn.rightHalf [Inhabited κ] (hs : s.KeysIn n S) (hn : n ≤ s.size / 2) :
    s.rightHalf.KeysIn 0 {k | k ∈ S ∧ s.keyAt (s.size / 2) ≤ k} := by
  refine ⟨hs.sorted.rightHalf hn, fun i _ hlt => ?_⟩
  rw [size_rightHalf] at hlt
  rw [keyAt_rightHalf, if_pos hlt]
  exact ⟨hs.mem _ (by omega) (by omega), hs.sorted.le hn (by omega) (by omega)⟩

/-- **Both halves of a node** are in order, on the two sides of its middle key. -/
theorem Tree.Within.split [Inhabited κ] {t : Tree κ h} (ht : t.Within n S) (hn : n ≤ 1)
    (hmid : 1 ≤ t.slots.size / 2) (q : Int) :
    t.splitLeft.Within n {k | k ∈ S ∧ k < t.slots.keyAt (t.slots.size / 2)} ∧
      (t.splitRight q).Within n {k | k ∈ S ∧ t.slots.keyAt (t.slots.size / 2) ≤ k} := by
  cases h with
  | zero => exact ⟨Slots.KeysIn.leftHalf ht, Slots.KeysIn.rightHalf ht (Nat.zero_le _)⟩
  | succ h =>
    obtain ⟨hkeys, hkids⟩ := ht
    have hnmid : n ≤ t.slots.size / 2 := hn.trans hmid
    have hright := hkeys.rightHalf hnmid
    refine ⟨⟨hkeys.leftHalf, fun i e he => ?_⟩,
      ⟨hright.sorted.mono (Nat.zero_le n), fun i _ hlt => hright.mem i (Nat.zero_le i) hlt⟩,
      fun i e he => ?_⟩
    · -- a child that stays
      obtain ⟨hlt, he⟩ : i < t.slots.size / 2 ∧ t.kids[i]? = some e := by
        have he' : (t.kids.take (t.slots.size / 2))[i]? = some e := he
        rw [List.getElem?_take] at he'
        split_ifs at he' with hlt
        exact ⟨hlt, he'⟩
      refine (hkids i e he).mono fun k hk => ⟨⟨hk.1, ?_⟩, fun h1 => ?_, fun h1 => ?_⟩
      · have hnext := hk.2.2 (by omega)
        exact hnext.trans_le (hkeys.sorted.le (by omega) (by omega) (by omega))
      · show t.slots.leftHalf.keyAt i ≤ k
        rw [Slots.keyAt_leftHalf]
        exact hk.2.1 h1
      · have h1' : i + 1 < t.slots.leftHalf.size := h1
        rw [Slots.size_leftHalf] at h1'
        show k < t.slots.leftHalf.keyAt (i + 1)
        rw [Slots.keyAt_leftHalf]
        exact hk.2.2 (by omega)
    · -- a child that moves
      have he' : t.kids[t.slots.size / 2 + i]? = some e := by
        rw [← List.getElem?_drop]
        exact he
      have hlt := (List.getElem?_eq_some_iff.mp he').1
      have hsize : t.slots.size = t.kids.length := rfl
      refine (hkids _ e he').mono fun k hk => ⟨⟨hk.1, ?_⟩, fun h1 => ?_, fun h1 => ?_⟩
      · have hfirst := hk.2.1 (by omega)
        exact (hkeys.sorted.le hnmid (by omega) (by omega)).trans hfirst
      · show t.slots.rightHalf.keyAt i ≤ k
        rw [Slots.keyAt_rightHalf, if_pos (by omega)]
        exact hk.2.1 (by omega)
      · have h1' : i + 1 < t.slots.rightHalf.size := h1
        rw [Slots.size_rightHalf] at h1'
        show k < t.slots.rightHalf.keyAt (i + 1)
        rw [Slots.keyAt_rightHalf, if_pos h1']
        exact hk.2.2 (by omega)

/-- **A node goes in behind the one it was split from**, and the node above is in order. -/
theorem Tree.Within.insertAt {no : Int} {s : Slots κ (Tree κ h)} {i : Nat} {key K : κ}
    {old new : Tree κ h} (ht : Tree.Within n S (⟨no, s⟩ : Tree κ (h + 1))) (hn : n ≤ 1)
    (hi : s.entries[i]? = some (key, old)) (hK : K ∈ s.range S i) (hkey : n ≤ i → s.keyAt i < K)
    (hold : old.Within n {k | k ∈ s.range S i ∧ k < K})
    (hnew : new.Within n {k | k ∈ s.range S i ∧ K ≤ k}) :
    Tree.Within n S (⟨no, s.insertAt (i + 1) K new⟩ : Tree κ (h + 1)) := by
  obtain ⟨⟨hsorted, hmem⟩, hkids⟩ : s.KeysIn n S ∧
    ∀ (j : Nat) (e : κ × Tree κ h), s.entries[j]? = some e → e.2.Within n (s.range S j) := ht
  have hlen : s.size = s.entries.length := rfl
  have hidx : i + 1 ≤ s.size := (List.getElem?_eq_some_iff.mp hi).1
  have hkeyAt : ∀ j, (s.insertAt (i + 1) K new).keyAt j = if j < i + 1 then s.keyAt j
      else if j < i + 1 + 1 then K else if j < s.size + 1 then s.keyAt (j - 1) else s.keyAt j :=
    Slots.keyAt_insertAt hidx
  have hsize : (s.insertAt (i + 1) K new).size = s.size + 1 := Slots.size_insertAt hidx
  refine ⟨⟨hsorted.insertAt hidx (by omega) (fun j hj hlt => ?_) (fun j hj hlt => ?_),
    fun j hj hlt => ?_⟩, fun j e he => ?_⟩
  · rcases Nat.eq_or_lt_of_le (Nat.le_of_lt_succ hlt) with rfl | hlt
    · exact hkey hj
    · exact (hsorted j i hj hlt (by omega)).trans (hkey (by omega))
  · exact (hK.2.2 (by omega)).trans_le (hsorted.le (by omega) hj hlt)
  · show (s.insertAt (i + 1) K new).keyAt j ∈ S
    have hlt' : j < (s.insertAt (i + 1) K new).size := hlt
    rw [hsize] at hlt'
    rw [hkeyAt]
    split_ifs with h1 h2
    · exact hmem j hj (by omega)
    · exact hK.1
    · exact hmem (j - 1) (by omega) (by omega)
  · have he' : (s.entries.insertIdx (i + 1) (K, new))[j]? = some e := he
    show e.2.Within n ((s.insertAt (i + 1) K new).range S j)
    rw [List.getElem?_insertIdx] at he'
    -- children before the old node keep their place; those behind it move by one
    rcases Nat.lt_trichotomy j i with hlt | rfl | hgt
    · rw [if_pos (by omega)] at he'
      refine (hkids j e he').mono fun k hk => ⟨hk.1, fun h1 => ?_, fun h1 => ?_⟩
      · rw [hkeyAt, if_pos (by omega)]
        exact hk.2.1 h1
      · rw [hkeyAt, if_pos (by omega)]
        exact hk.2.2 (by omega)
    · -- the old half: its keys are below the new key
      rw [if_pos (by omega), hi] at he'
      obtain rfl := Option.some.inj he'
      refine hold.mono fun k hk => ⟨hk.1.1, fun h1 => ?_, fun h1 => ?_⟩
      · rw [hkeyAt, if_pos (by omega)]
        exact hk.1.2.1 h1
      · rw [hkeyAt, if_neg (by omega), if_pos (by omega)]
        exact hk.2
    · rw [if_neg (by omega)] at he'
      by_cases hj : j = i + 1
      · -- the new node
        subst hj
        rw [if_pos rfl, if_pos (hlen ▸ hidx)] at he'
        obtain rfl := Option.some.inj he'
        refine hnew.mono fun k hk => ⟨hk.1.1, fun h1 => ?_, fun h1 => ?_⟩
        · rw [hkeyAt, if_neg (by omega), if_pos (by omega)]
          exact hk.2
        · rw [hsize] at h1
          rw [hkeyAt, if_neg (by omega), if_neg (by omega), if_pos (by omega)]
          exact hk.1.2.2 (by omega)
      · rw [if_neg hj] at he'
        have hlt := (List.getElem?_eq_some_iff.mp he').1
        refine (hkids (j - 1) e he').mono fun k hk => ⟨hk.1, fun h1 => ?_, fun h1 => ?_⟩
        · rw [hkeyAt, if_neg (by omega), if_neg (by omega), if_pos (by omega)]
          exact hk.2.1 (by omega)
        · rw [hsize] at h1
          have hnext := hk.2.2 (by omega)
          rw [hkeyAt, if_neg (by omega), if_neg (by omega), if_pos (by omega)]
          rwa [show j - 1 + 1 = j + 1 - 1 by omega] at hnext

/-- Where `Insert` puts the key of a new node: behind the child to which it belongs. -/
theorem Slots.KeysIn.lowerBound_eq (hs : s.KeysIn n S) (hn : n ≤ 1) {i : Nat} {K : κ}
    (hi : i < s.size) (hK : K ∈ s.range S i) (hkey : s.keyAt i < K) : s.lowerBound K = i + 1 := by
  obtain ⟨hleft, hright⟩ := hs.sorted.lowerBound_spec hn K
  have hle := s.lowerBound_le K
  rcases Nat.lt_trichotomy (s.lowerBound K) (i + 1) with hlt | heq | hgt
  · -- the key of the child would not be below the new key
    exfalso
    by_cases hzero : i = 0
    · have hb := hs.sorted.isBound hn true K
      rw [hzero] at hkey hlt
      exact hb.zero (Nat.lt_one_iff.mp hlt) (by omega) hkey
    · exact absurd (hright i (by omega) (by omega) hi) (not_le.mpr hkey)
  · exact heq
  · exact absurd (hK.2.2 (by omega)) (hleft (i + 1) (by omega) hgt).not_gt

end Split

/-! ### Splitting upwards -/

section SplitUp

variable [Inhabited κ]

/-- At every node that splits, down from the one in the hole: if it is the first child, its middle
key is above the first key of the parent; if it is the last child, the slot behind the entries of
the parent does not hold its middle key. -/
def PlacesRight (order : Nat) : {h H : Nat} → Ctx κ h H → Tree κ h → Int → Prop
  | _, _, .top, _, _ => True
  | _, _, .down up no left key right stale, t, counter =>
    t.slots.size = order + 1 →
      let parent := Ctx.fill no left key right stale t.splitLeft
      let new := t.splitRight counter
      (left = [] → key < new.slots.keyAt 0) ∧ (right = [] → stale 0 ≠ new.slots.keyAt 0) ∧
        PlacesRight order up (parent.insert (new.slots.keyAt 0) new) (counter + 1)

/-- At every node that splits, the new node goes in directly behind the old one. -/
def PlacesBehind (order : Nat) : {h H : Nat} → Ctx κ h H → Tree κ h → Int → Prop
  | _, _, .top, _, _ => True
  | _, _, .down up no left key right stale, t, counter =>
    t.slots.size = order + 1 →
      let parent := Ctx.fill no left key right stale t.splitLeft
      let new := t.splitRight counter
      (parent.insert (new.slots.keyAt 0) new).kids =
          left ++ (key, t.splitLeft) :: (new.slots.keyAt 0, new) :: right ∧
        PlacesBehind order up (parent.insert (new.slots.keyAt 0) new) (counter + 1)

variable {order : Nat}

omit [LinearOrder κ] in
/-- The middle key of a full node, which becomes the key of its right half. -/
theorem Tree.keyAt_splitRight {t : Tree κ h} (hfull : t.slots.size = order + 1) (q : Int) :
    (t.splitRight q).slots.keyAt 0 = t.slots.keyAt (t.slots.size / 2) := by
  show t.slots.rightHalf.keyAt 0 = _
  rw [Slots.keyAt_rightHalf, if_pos (by omega), Nat.add_zero]

omit [Inhabited κ] in
/-- The key of a node below the root is not the middle key of the node. -/
theorem Tree.Within.key_lt {S : Set κ} {left right : List (κ × Tree κ h)} {key : κ} {t : Tree κ h}
    (ht : t.Within n (Ctx.gap left key right S)) (hn : n ≤ 1) (hmid : 2 ≤ t.slots.size / 2)
    (hleft : left ≠ []) : key < t.slots.keyAt (t.slots.size / 2) := by
  have hkeys := ht.node
  have hone := (hkeys.mem 1 hn (by omega)).2.1 hleft
  exact hone.trans_lt (hkeys.sorted 1 _ hn hmid (by omega))

/-- A new root above two halves. -/
theorem Tree.Within.newRoot (horder : 2 < order) (hn : n ≤ 1) {t : Tree κ h} {no q : Int}
    (ht : t.Within n Set.univ) (hfull : t.slots.size = order + 1) :
    (newRoot no t.splitLeft (t.splitRight q)).Within n Set.univ := by
  obtain ⟨hleft, hright⟩ := ht.split hn (by omega) q
  have hkey : ∀ i, (Rucbase.newRoot no t.splitLeft (t.splitRight q)).slots.keyAt (i + 1) =
      if i = 0 then t.slots.keyAt (t.slots.size / 2) else default := by
    intro i
    cases i with
    | zero => exact Tree.keyAt_splitRight hfull q
    | succ i => rfl
  refine ⟨⟨fun i j hi hij hj => ?_, fun i _ _ => Set.mem_univ _⟩, fun i e he => ?_⟩
  · have hj' : j < 2 := hj
    obtain ⟨rfl, rfl⟩ : i = 0 ∧ j = 1 := ⟨by omega, by omega⟩
    rw [hkey, if_pos rfl]
    show t.slots.leftHalf.keyAt 0 < _
    rw [Slots.keyAt_leftHalf]
    exact ht.node.sorted 0 _ hi (by omega) (by omega)
  · cases i with
    | zero =>
      obtain rfl := Option.some.inj he
      refine hleft.mono fun k hk => ⟨hk.1, fun h1 => absurd h1 (by decide), fun _ => ?_⟩
      rw [hkey, if_pos rfl]
      exact hk.2
    | succ i =>
      cases i with
      | zero =>
        obtain rfl := Option.some.inj he
        refine hright.mono fun k hk => ⟨hk.1, fun _ => ?_, fun h1 => absurd h1 (lt_irrefl 2)⟩
        rw [hkey, if_pos rfl]
        exact hk.2
      | succ i => cases he

theorem insertIdx_length_succ {α : Type} (left : List α) (a b : α) (right : List α) :
    (left ++ a :: right).insertIdx (left.length + 1) b = left ++ a :: b :: right := by
  induction left with
  | nil => rfl
  | cons x left ih =>
    show x :: (left ++ a :: right).insertIdx (left.length + 1) b = _
    rw [ih]
    rfl

/-- One level: where the right half of a node ends up in the parent. -/
theorem Tree.Within.insert_behind (horder : 2 < order) (hn : n ≤ 1) {S : Set κ} {no : Int}
    {left right : List (κ × Tree κ h)} {key : κ} {stale : Nat → κ} {t₀ t : Tree κ h} {q : Int}
    (hparent : (Ctx.fill no left key right stale t₀).Within n S)
    (ht : t.Within n (Ctx.gap left key right S)) (hfull : t.slots.size = order + 1)
    (hkey : left = [] → key < (t.splitRight q).slots.keyAt 0)
    (hstale : right = [] → stale 0 ≠ (t.splitRight q).slots.keyAt 0) :
    ((Ctx.fill no left key right stale t.splitLeft).insert ((t.splitRight q).slots.keyAt 0)
        (t.splitRight q)).kids =
        left ++ (key, t.splitLeft) :: ((t.splitRight q).slots.keyAt 0, t.splitRight q) :: right ∧
      ((Ctx.fill no left key right stale t.splitLeft).insert ((t.splitRight q).slots.keyAt 0)
        (t.splitRight q)).Within n S := by
  have hmid : 2 ≤ t.slots.size / 2 := by omega
  have hK := Tree.keyAt_splitRight hfull q
  rw [hK] at hkey hstale ⊢
  let K := t.slots.keyAt (t.slots.size / 2)
  obtain ⟨hold, hnew⟩ := ht.split hn (by omega) q
  -- the parent with the left half in the hole
  have hleft := hparent.fill (hold.mono fun k hk => hk.1)
  have hgap : (Ctx.fill no left key right stale t.splitLeft).slots.range S left.length =
      Ctx.gap left key right S := Ctx.range_fill_self t.splitLeft S
  have hkeyAt : (Ctx.fill no left key right stale t.splitLeft).slots.keyAt left.length = key :=
    Ctx.keyAt_fill_self t.splitLeft
  have hsize : (Ctx.fill no left key right stale t.splitLeft).slots.size =
      left.length + right.length + 1 := Ctx.size_fill t.splitLeft
  have hmem : K ∈ (Ctx.fill no left key right stale t.splitLeft).slots.range S left.length := by
    rw [hgap]
    exact ht.node.mem _ (by omega) (by omega)
  have hlt : key < K := by
    by_cases hl : left = []
    · exact hkey hl
    · exact ht.key_lt hn hmid hl
  have hbound : (Ctx.fill no left key right stale t.splitLeft).slots.lowerBound K =
      left.length + 1 :=
    hleft.1.lowerBound_eq hn (by omega) hmem (by rwa [hkeyAt])
  -- the slot at that position holds another key, live or not
  have hne : (Ctx.fill no left key right stale t.splitLeft).slots.keyAt
      ((Ctx.fill no left key right stale t.splitLeft).slots.lowerBound K) ≠ K := by
    rw [hbound]
    cases right with
    | nil =>
      have hsize' : (Ctx.fill no left key [] stale t.splitLeft).slots.size = left.length + 1 := hsize
      rw [Slots.keyAt_of_ge hsize'.le, hsize', Nat.sub_self]
      exact hstale rfl
    | cons e right =>
      rw [List.length_cons] at hsize
      exact (hmem.2.2 (by omega)).ne'
  rw [Tree.insert_of_ne hne, hbound]
  refine ⟨insertIdx_length_succ left _ _ right, ?_⟩
  have hself : (Ctx.fill no left key right stale t.splitLeft).kids[left.length]? =
      some (key, t.splitLeft) := Ctx.getElem?_fill_self t.splitLeft
  refine hleft.insertAt hn hself hmem (fun _ => ?_) ?_ ?_
  · rwa [hkeyAt]
  · rwa [hgap]
  · rwa [hgap]

/-- **Splitting keeps the search order** if the middle keys are right. -/
theorem PlacesRight.within (horder : 2 < order) (hn : n ≤ 1) {c : Ctx κ h H} {t₀ t : Tree κ h}
    {counter : Int} (hT : (c.plug t₀).Within n Set.univ) (ht : t.Within n c.span)
    (hp : PlacesRight order c t counter) :
    PlacesBehind order c t counter ∧ (splitUp order c t counter).tree.Within n Set.univ := by
  induction c generalizing counter with
  | top =>
    refine ⟨trivial, ?_⟩
    by_cases hfull : t.slots.size = order + 1
    · rw [splitUp_of_full hfull]
      exact Tree.Within.newRoot horder hn ht hfull
    · rwa [splitUp_of_not_full hfull]
  | down up no left key right stale ih =>
    by_cases hfull : t.slots.size = order + 1
    · obtain ⟨hkey, hstale, hup⟩ := hp hfull
      obtain ⟨hkids, hparent⟩ := Tree.Within.insert_behind horder hn
        (Tree.Within.of_plug (c := up) hT) ht hfull hkey hstale
      obtain ⟨hbehind, hwithin⟩ := ih hT hparent hup
      rw [splitUp_of_full hfull]
      exact ⟨fun _ => ⟨hkids, hbehind⟩, hwithin⟩
    · rw [splitUp_of_not_full hfull]
      exact ⟨fun h => absurd h hfull, hT.replace ht⟩

end SplitUp

/-! ### The leaves from left to right -/

section Collect

omit [LinearOrder κ]

variable {β : Type} (f : Tree κ 0 → List β)

/-- What the leaves to the left of the hole hold. -/
def Ctx.before : {h H : Nat} → Ctx κ h H → List β
  | _, _, .top => []
  | _, _, .down up _ left _ _ _ => before up ++ left.flatMap fun e => e.2.collect f

/-- What the leaves to the right of the hole hold. -/
def Ctx.after : {h H : Nat} → Ctx κ h H → List β
  | _, _, .top => []
  | _, _, .down up _ _ _ right _ => (right.flatMap fun e => e.2.collect f) ++ after up

theorem Ctx.collect_plug (c : Ctx κ h H) (t : Tree κ h) :
    (c.plug t).collect f = c.before f ++ t.collect f ++ c.after f := by
  induction c with
  | top =>
    show t.collect f = [] ++ t.collect f ++ []
    rw [List.nil_append, List.append_nil]
  | down up no left key right stale ih =>
    rw [show ((Ctx.down up no left key right stale).plug t) =
      up.plug (Ctx.fill no left key right stale t) from rfl, ih]
    show up.before f ++ (left ++ (key, t) :: right).flatMap (fun e => e.2.collect f) ++ up.after f = _
    rw [List.flatMap_append, List.flatMap_cons]
    simp only [before, after, List.append_assoc]

variable [Inhabited κ] {order : Nat}

theorem Tree.collect_split (t : Tree κ (h + 1)) (q : Int) :
    t.splitLeft.collect f ++ (t.splitRight q).collect f = t.collect f := by
  show (t.kids.take (t.slots.size / 2)).flatMap (fun e => e.2.collect f) ++
    (t.kids.drop (t.slots.size / 2)).flatMap (fun e => e.2.collect f) = _
  rw [← List.flatMap_append, List.take_append_drop]
  rfl

variable [LinearOrder κ]

/-- **The leaves after a split**: the leaf in the hole was perhaps split in two. -/
theorem PlacesBehind.collect {c : Ctx κ h H} {t : Tree κ h} {counter : Int}
    (hp : PlacesBehind order c t counter) :
    (splitUp order c t counter).tree.collect f = c.before f ++
      (if t.slots.size = order + 1 then t.splitLeft.collect f ++ (t.splitRight counter).collect f
        else t.collect f) ++ c.after f := by
  induction c generalizing counter with
  | top =>
    by_cases hfull : t.slots.size = order + 1
    · rw [splitUp_of_full hfull, if_pos hfull]
      show t.splitLeft.collect f ++ ((t.splitRight counter).collect f ++ []) = [] ++ _ ++ []
      rw [List.append_nil, List.append_nil, List.nil_append]
    · rw [splitUp_of_not_full hfull, if_neg hfull]
      exact Ctx.collect_plug f .top t
  | down up no left key right stale ih =>
    by_cases hfull : t.slots.size = order + 1
    · obtain ⟨hkids, hup⟩ := hp hfull
      rw [splitUp_of_full hfull, if_pos hfull]
      refine (ih hup).trans ?_
      -- an inner node has the same leaves in two halves
      rw [Tree.collect_split, ite_self]
      show up.before f ++ List.flatMap (fun e => e.2.collect f) (Tree.kids _) ++ up.after f = _
      rw [hkids, List.flatMap_append, List.flatMap_cons, List.flatMap_cons]
      simp only [Ctx.before, Ctx.after, List.append_assoc]
    · rw [splitUp_of_not_full hfull, if_neg hfull]
      exact Ctx.collect_plug f _ t

end Collect

end Rucbase
