import Rucbase.Index.Equiv.MaintainParent
import Rucbase.Index.Equiv.RangeScan
import Rucbase.Lib.Separators

/-!
# Keys and separators of a tree

The keys of an inner node are separators between the keys below its children (`Tree.Ordered`, which
is `Tree.Sorted` and `Tree.SearchOrdered`: `Tree.ordered_iff`).  Seen from one of its nodes, a tree is
in order if the node is and the path above divides the keys around those of the node
(`Ctx.ordered_plug`).

`maintain_parent` writes keys on this path.  The order is kept exactly if every key that it writes
fits into its place (`Ctx.Takes`, `Ctx.ordered_maintain_iff`).
-/

namespace Rucbase

open Separators

variable {κ : Type} {h H : Nat}

/-- The keys in the leaves, from left to right. -/
def Tree.leafKeys (t : Tree κ h) : List κ := t.toList.map Prod.fst

/-- The keys below some children. -/
def keysBelow (l : List (κ × Tree κ h)) : List κ := l.flatMap fun e => e.2.leafKeys

/-- Some children as separators, each with the keys below it. -/
def groups (l : List (κ × Tree κ h)) : List (κ × List κ) := l.map fun e => (e.1, e.2.leafKeys)

theorem Tree.leafKeys_inner (t : Tree κ (h + 1)) : t.leafKeys = keysBelow t.kids := by
  show (t.kids.flatMap fun e => e.2.toList).map Prod.fst = _
  rw [List.map_flatMap]
  rfl

theorem keysBelow_append (l r : List (κ × Tree κ h)) :
    keysBelow (l ++ r) = keysBelow l ++ keysBelow r := List.flatMap_append

theorem keysBelow_cons (e : κ × Tree κ h) (l : List (κ × Tree κ h)) :
    keysBelow (e :: l) = e.2.leafKeys ++ keysBelow l := List.flatMap_cons

theorem groups_append (l r : List (κ × Tree κ h)) : groups (l ++ r) = groups l ++ groups r :=
  List.map_append

theorem Ctx.leafKeys_fill (no : Int) (left : List (κ × Tree κ h)) (key : κ)
    (right : List (κ × Tree κ h)) (stale : Nat → κ) (t : Tree κ h) :
    (fill no left key right stale t).leafKeys = keysBelow left ++ t.leafKeys ++ keysBelow right := by
  rw [Tree.leafKeys_inner]
  show keysBelow (left ++ (key, t) :: right) = _
  rw [keysBelow_append, keysBelow_cons, List.append_assoc]

variable [LinearOrder κ]

/-- Every node is strictly sorted, and the keys of an inner node separate the keys below its
children. -/
def Tree.Ordered : {h : Nat} → Tree κ h → Prop
  | 0, t => t.slots.SortedFrom 0
  | _ + 1, t => Separated (groups t.kids) ∧ ∀ e ∈ t.kids, Tree.Ordered e.2

/-- Separators, position by position. -/
theorem separated_groups_iff {s : Slots κ (Tree κ h)} :
    Separated (groups s.entries) ↔ s.SortedFrom 0 ∧ ∀ i e, s.entries[i]? = some e →
      ∀ x ∈ e.2.toList, (1 ≤ i → s.keyAt i ≤ x.1) ∧ (i + 1 < s.size → x.1 < s.keyAt (i + 1)) := by
  have hlen : (groups s.entries).length = s.size := List.length_map _
  have hget : ∀ {i : Nat} {e : κ × Tree κ h}, s.entries[i]? = some e →
      (groups s.entries)[i]? = some (s.keyAt i, e.2.leafKeys) := by
    intro i e he
    unfold groups
    rw [List.getElem?_map, he, Slots.keyAt_of_getElem? he]
    rfl
  constructor
  · rintro ⟨hbelow, habove⟩
    have hpair : ∀ {i j : Nat} {e : κ × Tree κ h}, s.entries[i]? = some e → i < j → j < s.size →
        Below (s.keyAt i, e.2.leafKeys) (s.keyAt j) := by
      intro i j e he hij hj
      have hi := (List.getElem?_eq_some_iff.mp (hget he)).2
      have hj' := (List.getElem?_eq_some_iff.mp (hget (List.getElem?_eq_getElem hj))).2
      have := List.pairwise_iff_getElem.mp hbelow i j (by omega) (by omega) hij
      rwa [hi, hj'] at this
    refine ⟨fun i j _ hij hj => ?_, fun i e he x hx => ⟨fun h1 => ?_, fun h1 => ?_⟩⟩
    · exact (hpair (List.getElem?_eq_getElem (hij.trans hj)) hij hj).1
    · have hmem : (s.keyAt i, e.2.leafKeys) ∈ (groups s.entries).tail := by
        refine List.mem_of_getElem? (i := i - 1) ?_
        rw [List.getElem?_tail, Nat.sub_add_cancel h1]
        exact hget he
      exact habove _ hmem x.1 (List.mem_map_of_mem hx)
    · exact (hpair he (Nat.lt_succ_self i) h1).2 x.1 (List.mem_map_of_mem hx)
  · rintro ⟨hsorted, hkids⟩
    constructor
    · rw [List.pairwise_iff_getElem]
      intro i j hi hj hij
      rw [hlen] at hi hj
      have he : s.entries[i]? = some (s.entries.get ⟨i, hi⟩) := List.getElem?_eq_getElem hi
      rw [(List.getElem?_eq_some_iff.mp (hget he)).2,
        (List.getElem?_eq_some_iff.mp (hget (List.getElem?_eq_getElem hj))).2]
      refine ⟨hsorted i j (Nat.zero_le i) hij hj, fun x hx => ?_⟩
      obtain ⟨y, hy, rfl⟩ := List.mem_map.mp hx
      exact ((hkids i _ he y hy).2 (by omega)).trans_le (hsorted.le (Nat.zero_le _) hij hj)
    · intro d hd x hx
      obtain ⟨i, hi⟩ := List.getElem?_of_mem hd
      rw [List.getElem?_tail] at hi
      obtain ⟨e, he, rfl⟩ := Option.map_eq_some_iff.mp ((List.getElem?_map ..).symm.trans hi)
      obtain ⟨y, hy, rfl⟩ := List.mem_map.mp hx
      have := (hkids (i + 1) e he y hy).1 (by omega)
      rwa [Slots.keyAt_of_getElem? he] at this

/-- **The order of a tree** in the words of the search. -/
theorem Tree.ordered_iff {t : Tree κ h} : t.Ordered ↔ t.Sorted ∧ t.SearchOrdered := by
  induction h with
  | zero => exact ⟨fun ht => ⟨ht, ht⟩, fun ht => ht.1⟩
  | succ h ih =>
    constructor
    · rintro ⟨hsep, hkids⟩
      obtain ⟨hsorted, hpos⟩ := separated_groups_iff.mp hsep
      refine ⟨⟨hsorted, fun e he => (ih.mp (hkids e he)).1⟩, hsorted.mono (Nat.zero_le 1),
        fun i e he => ⟨?_, hpos i e he⟩⟩
      exact (ih.mp (hkids e (List.mem_of_getElem? he))).2
    · rintro ⟨⟨hsorted, hkids⟩, -, hpos⟩
      refine ⟨separated_groups_iff.mpr ⟨hsorted, fun i e he => (hpos i e he).2⟩, fun e he => ?_⟩
      obtain ⟨i, hi⟩ := List.getElem?_of_mem he
      exact ih.mpr ⟨hkids e he, (hpos i e hi).1⟩

/-- The keys of an ordered tree ascend. -/
theorem Tree.Ordered.pairwise {t : Tree κ h} (ht : t.Ordered) : t.leafKeys.Pairwise (· < ·) := by
  unfold Tree.leafKeys
  rw [List.pairwise_map]
  exact (Tree.ordered_iff.mp ht).2.pairwise

/-! ### Around a node -/

/-- The path above a node whose leaves have the keys `l` divides the keys. -/
def Ctx.Ordered : {h H : Nat} → Ctx κ h H → List κ → Prop
  | _, _, .top, _ => True
  | _, _, .down up _ left key right _, l =>
    Separated (groups left ++ (key, l) :: groups right) ∧ (∀ e ∈ left ++ right, e.2.Ordered) ∧
      up.Ordered (keysBelow left ++ l ++ keysBelow right)

theorem Ctx.ordered_fill {no : Int} {left right : List (κ × Tree κ h)} {key : κ} {stale : Nat → κ}
    {t : Tree κ h} : (fill no left key right stale t).Ordered ↔
      Separated (groups left ++ (key, t.leafKeys) :: groups right) ∧
        (∀ e ∈ left ++ right, e.2.Ordered) ∧ t.Ordered := by
  have hgroups : groups (left ++ (key, t) :: right) =
      groups left ++ (key, t.leafKeys) :: groups right := groups_append _ _
  show Separated (groups (left ++ (key, t) :: right)) ∧
    (∀ e ∈ (fill no left key right stale t).kids, e.2.Ordered) ↔ _
  rw [hgroups]
  refine and_congr_right fun _ => ?_
  constructor
  · intro hkids
    refine ⟨fun e he => hkids e ?_, hkids (key, t) ?_⟩
    · exact mem_fill.mpr (Or.inr he)
    · exact mem_fill.mpr (Or.inl rfl)
  · rintro ⟨hkids, ht⟩ e he
    rcases mem_fill.mp he with rfl | he
    · exact ht
    · exact hkids e he

/-- **The order of a tree, seen from one of its nodes.** -/
theorem Ctx.ordered_plug (c : Ctx κ h H) {t : Tree κ h} :
    (c.plug t).Ordered ↔ t.Ordered ∧ c.Ordered t.leafKeys := by
  induction c with
  | top => exact (and_iff_left trivial).symm
  | down up no left key right stale ih =>
    show (up.plug (fill no left key right stale t)).Ordered ↔ _
    rw [ih, ordered_fill, leafKeys_fill]
    show _ ↔ t.Ordered ∧ _ ∧ _ ∧ _
    tauto

/-- The node may lose keys. -/
theorem Ctx.Ordered.mono {c : Ctx κ h H} {l l' : List κ} (hc : c.Ordered l) (hl : ∀ x ∈ l', x ∈ l) :
    c.Ordered l' := by
  induction c generalizing l l' with
  | top => trivial
  | down up no left key right stale ih =>
    obtain ⟨hsep, hkids, hup⟩ := hc
    refine ⟨hsep.mono hl, hkids, ih hup fun x hx => ?_⟩
    simp only [List.mem_append] at hx ⊢
    rcases hx with (hx | hx) | hx
    · exact Or.inl (Or.inl hx)
    · exact Or.inl (Or.inr (hl x hx))
    · exact Or.inr hx

/-! ### Keys on the path -/

/-- Every key that `maintain_parent` writes fits: a node with the keys `l` in its leaves has the first
key `k`.  At a place with a left neighbour, `k` is above the neighbour's key and keys, and not above
the keys of the node. -/
def Ctx.Takes : {h H : Nat} → Ctx κ h H → κ → List κ → Prop
  | _, _, .top, _, _ => True
  | _, _, .down up _ left key right _, k, l =>
    key = k ∨ ((∀ a ∈ (groups left).getLast?, Below a k) ∧ (left ≠ [] → ∀ x ∈ l, k ≤ x)) ∧
      up.Takes (firstKey left k) (keysBelow left ++ l ++ keysBelow right)

/-- **`maintain_parent` keeps the order** exactly if every key that it writes fits. -/
theorem Ctx.ordered_maintain_iff {c : Ctx κ h H} {l : List κ} (hc : c.Ordered l) {k x : κ}
    (hx : x ∈ l) (hk : k ≤ x) : (c.maintain k).Ordered l ↔ c.Takes k l := by
  induction c generalizing l k with
  | top => exact Iff.rfl
  | down up no left key right stale ih =>
    obtain ⟨hsep, hkids, hup⟩ := hc
    rw [maintain, Takes]
    by_cases hkey : key = k
    · rw [if_pos hkey]
      exact iff_of_true ⟨hsep, hkids, hup⟩ (Or.inl hkey)
    · rw [if_neg hkey]
      have hnil : groups left ≠ [] ↔ left ≠ [] := not_congr List.map_eq_nil_iff
      -- the key that goes further up is not above the keys either
      have hfirst : firstKey left k ≤ x := by
        cases left with
        | nil => exact hk
        | cons e left =>
          have hF := (separated_iff.mp hsep).2
          have hlt := (hF.left (e.1, e.2.leafKeys) List.mem_cons_self).1
          exact hlt.le.trans (hF.own (by simp [groups]) x hx)
      have hmem : x ∈ keysBelow left ++ l ++ keysBelow right := by simp [hx]
      have hup' := ih hup hmem hfirst
      show Separated _ ∧ _ ∧ _ ↔ _
      rw [hsep.rekey_iff hx hk, hup', hnil]
      constructor
      · rintro ⟨hfits, -, htakes⟩
        exact Or.inr ⟨hfits, htakes⟩
      · rintro (heq | ⟨hfits, htakes⟩)
        · exact absurd heq hkey
        · exact ⟨hfits, hkids, htakes⟩

end Rucbase
