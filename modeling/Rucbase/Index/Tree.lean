import Rucbase.Index.Slots

/-!
# B+ trees

The tree that the pages of an index form: a tree of height `h` is a node whose values are rids
(`h = 0`) or trees of height `h - 1`, so all leaves are at one depth.  A node carries its page
number and its slots, stale keys included.  `Ctx` is a tree with a hole, the path from the root to a
node; `splitUp` is `splitNodeIfFull` on the path.

Nothing here depends on page numbers being right: they are labels that the pages give the nodes.
-/

namespace Rucbase

variable {κ : Type}

/-- A node: its page number and its slots. -/
structure TreeNode (κ α : Type) where
  no : Int
  slots : Slots κ α

/-- The values in the nodes of height `h`. -/
@[reducible]
def Item (κ : Type) : Nat → Type
  | 0 => Rid
  | h + 1 => TreeNode κ (Item κ h)

/-- A tree of height `h`. -/
abbrev Tree (κ : Type) (h : Nat) := TreeNode κ (Item κ h)

/-- A value as it stands in the page. -/
def Item.rid : {h : Nat} → Item κ h → Rid
  | 0, rid => rid
  | _ + 1, child => ⟨TreeNode.no child, -1⟩

namespace Tree

variable {h : Nat}

/-- The children of an inner node, with their keys. -/
abbrev kids (t : Tree κ (h + 1)) : List (κ × Tree κ h) := t.slots.entries

/-- The page numbers of a tree. -/
def nos : {h : Nat} → Tree κ h → List Int
  | 0, t => [t.no]
  | _ + 1, t => t.no :: t.kids.flatMap fun e => nos e.2

/-- What the leaves hold, from left to right. -/
def collect {β : Type} (f : Tree κ 0 → List β) : {h : Nat} → Tree κ h → List β
  | 0, t => f t
  | _ + 1, t => t.kids.flatMap fun e => collect f e.2

/-- The page numbers of the leaves, from left to right. -/
def leaves (t : Tree κ h) : List Int := t.collect fun leaf => [leaf.no]

/-- The entries of the leaves, from left to right. -/
def toList (t : Tree κ h) : List (κ × Rid) := t.collect fun leaf => leaf.slots.entries

end Tree

/-- A tree of height `H` with a hole of height `h`: the nodes above the hole, each with the entries
to the left of the hole, the key of the hole, and the entries to its right. -/
inductive Ctx (κ : Type) : Nat → Nat → Type where
  | top {H : Nat} : Ctx κ H H
  | down {h H : Nat} (up : Ctx κ (h + 1) H) (no : Int) (left : List (κ × Tree κ h)) (key : κ)
      (right : List (κ × Tree κ h)) (stale : Nat → κ) : Ctx κ h H

namespace Ctx

/-- The node above the hole, filled. -/
abbrev fill {h : Nat} (no : Int) (left : List (κ × Tree κ h)) (key : κ)
    (right : List (κ × Tree κ h)) (stale : Nat → κ) (t : Tree κ h) : Tree κ (h + 1) :=
  ⟨no, ⟨left ++ (key, t) :: right, stale⟩⟩

/-- The tree with the hole filled. -/
def plug : {h H : Nat} → Ctx κ h H → Tree κ h → Tree κ H
  | _, _, .top, t => t
  | _, _, .down up no left key right stale, t => plug up (fill no left key right stale t)

/-- The page number above the hole. -/
def parentNo : {h H : Nat} → Ctx κ h H → Int
  | _, _, .top => invalidPageId
  | _, _, .down _ no _ _ _ _ => no

/-- The page numbers around the hole. -/
def nos : {h H : Nat} → Ctx κ h H → List Int
  | _, _, .top => []
  | _, _, .down up no left _ right _ =>
    no :: ((left ++ right).flatMap fun e => Tree.nos e.2) ++ nos up

/-- The number of nodes above the hole. -/
def depth : {h H : Nat} → Ctx κ h H → Nat
  | _, _, .top => 0
  | _, _, .down up _ _ _ _ _ => depth up + 1

variable [LinearOrder κ]

/-- `FindLeafPage` takes the path to the hole. -/
def Leads (key : κ) : {h H : Nat} → Ctx κ h H → Tree κ h → Prop
  | _, _, .top, _ => True
  | _, _, .down up no left k right stale, t =>
    (fill no left k right stale t).slots.lookupIndex key = left.length ∧
      Leads key up (fill no left k right stale t)

end Ctx

namespace Tree

variable {h : Nat}

/-- `Split`: what stays. -/
def splitLeft (t : Tree κ h) : Tree κ h := ⟨t.no, t.slots.leftHalf⟩

/-- `Split`: the new node. -/
def splitRight [Inhabited κ] (t : Tree κ h) (no : Int) : Tree κ h := ⟨no, t.slots.rightHalf⟩

/-- `Insert`. -/
def insert [LinearOrder κ] (t : Tree κ h) (key : κ) (value : Item κ h) : Tree κ h :=
  ⟨t.no, t.slots.insert key value⟩

end Tree

/-- A tree of some height, and the next page number. -/
structure Grown (κ : Type) where
  height : Nat
  tree : Tree κ height
  counter : Int

section SplitUp

variable [LinearOrder κ] [Inhabited κ]

/-- `setNewRoot`. -/
def newRoot {h : Nat} (no : Int) (left right : Tree κ h) : Tree κ (h + 1) :=
  ⟨no, ⟨[(left.slots.keyAt 0, left), (right.slots.keyAt 0, right)], fun _ => default⟩⟩

/-- **`splitNodeIfFull`** and `InsertIntoParent` at the node in the hole.  The new node goes to the
parent by key, wherever that is; if the parent has the key already, the new node is lost. -/
def splitUp (order : Nat) : {h H : Nat} → Ctx κ h H → Tree κ h → Int → Grown κ
  | _, H, .top, t, counter =>
    if t.slots.size = order + 1 then
      ⟨H + 1, newRoot (counter + 1) t.splitLeft (t.splitRight counter), counter + 2⟩
    else ⟨H, t, counter⟩
  | _, H, .down up no left key right stale, t, counter =>
    if t.slots.size = order + 1 then
      let parent := Ctx.fill no left key right stale t.splitLeft
      let new := t.splitRight counter
      splitUp order up (parent.insert (new.slots.keyAt 0) new) (counter + 1)
    else ⟨H, (Ctx.down up no left key right stale).plug t, counter⟩

/-- `InsertIntoParent`: the node in the hole was split into two, and the new one goes into the tree. -/
def attach (order : Nat) : {h H : Nat} → Ctx κ h H → Tree κ h → Tree κ h → Int → Grown κ
  | _, H, .top, old, new, counter => ⟨H + 1, newRoot counter old new, counter + 1⟩
  | _, _, .down up no left key right stale, old, new, counter =>
    splitUp order up ((Ctx.fill no left key right stale old).insert (new.slots.keyAt 0) new) counter

variable {h H : Nat} {order : Nat} {c : Ctx κ h H} {t : Tree κ h} {counter : Int}

theorem splitUp_of_full (hfull : t.slots.size = order + 1) :
    splitUp order c t counter =
      attach order c t.splitLeft (t.splitRight counter) (counter + 1) := by
  cases c with
  | top =>
    rw [splitUp, if_pos hfull, attach, show counter + 1 + 1 = counter + 2 by omega]
  | down up no left key right stale =>
    rw [splitUp, if_pos hfull, attach]

theorem splitUp_of_not_full (hfull : t.slots.size ≠ order + 1) :
    splitUp order c t counter = ⟨H, c.plug t, counter⟩ := by
  cases c with
  | top =>
    rw [splitUp, if_neg hfull]
    rfl
  | down up no left key right stale => rw [splitUp, if_neg hfull]

end SplitUp

end Rucbase
