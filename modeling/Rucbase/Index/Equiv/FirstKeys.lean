import Rucbase.Index.Equiv.MaintainParent

/-!
# First keys

In an inner node the entry of a child has the first key of the child.  When the first key of one
node has changed, `maintain_parent` restores this in the whole tree (`maintainParent_restores`): it
stops at the first entry that is right already, and from there on nothing above depends on what was
changed, since the first key of that node is the same as before.
-/

namespace Rucbase

open EStateM IxIndexHandle

variable {κ : Type} {h H : Nat}

/-- The entry of each node in its parent has the first key of the node, for the nodes whose page
number is in `P`. -/
def Tree.EntriesMatch (P : Int → Prop) : {h : Nat} → Tree κ h → Prop
  | 0, _ => True
  | _ + 1, t => ∀ e ∈ t.kids, (P e.2.no → e.1 = e.2.slots.keyAt 0) ∧ EntriesMatch P e.2

/-- The same around a hole, which a node with the page number `q` and the first key `k` fills. -/
def Ctx.EntriesMatch (P : Int → Prop) : {h H : Nat} → Ctx κ h H → Int → κ → Prop
  | _, _, .top, _, _ => True
  | _, _, .down up no left key right _, q, k =>
    (P q → key = k) ∧
      (∀ e ∈ left ++ right, (P e.2.no → e.1 = e.2.slots.keyAt 0) ∧ e.2.EntriesMatch P) ∧
      up.EntriesMatch P no (firstKey left key)

variable {P : Int → Prop}

theorem Tree.EntriesMatch.all {t : Tree κ h} (ht : t.EntriesMatch P) (hP : ∀ q ∈ t.nos, P q) :
    t.EntriesMatch fun _ => True := by
  induction h with
  | zero => trivial
  | succ h ih =>
    intro e he
    obtain ⟨hkey, hsub⟩ := ht e he
    have hkid : ∀ q ∈ e.2.nos, P q := fun q hq => hP q (Tree.nos_subset_of_kid he q hq)
    exact ⟨fun _ => hkey (hkid _ e.2.no_mem_nos), ih hsub hkid⟩

/-- Whether the root of the tree counts does not matter, since its entry is not in the tree. -/
theorem Tree.EntriesMatch.all_of_ne {t : Tree κ h} (ht : t.EntriesMatch (· ≠ t.no))
    (hn : t.nos.Nodup) : t.EntriesMatch fun _ => True := by
  cases h with
  | zero => trivial
  | succ h =>
    intro e he
    obtain ⟨hkey, hsub⟩ := ht e he
    have hkid : ∀ q ∈ e.2.nos, q ≠ t.no := fun q hq => Tree.ne_no_of_mem_kid hn he hq
    exact ⟨fun _ => hkey (hkid _ e.2.no_mem_nos), hsub.all hkid⟩

namespace Ctx

theorem entriesMatch_fill {no : Int} {left right : List (κ × Tree κ h)} {key : κ}
    {stale : Nat → κ} {t : Tree κ h} :
    (fill no left key right stale t).EntriesMatch P ↔
      ((P t.no → key = t.slots.keyAt 0) ∧ t.EntriesMatch P) ∧
        ∀ e ∈ left ++ right, (P e.2.no → e.1 = e.2.slots.keyAt 0) ∧ e.2.EntriesMatch P := by
  show (∀ e ∈ left ++ (key, t) :: right, _) ↔ _
  constructor
  · intro hnode
    refine ⟨hnode (key, t) (by simp), fun e he => hnode e ?_⟩
    rw [List.mem_append, List.mem_cons]
    exact (List.mem_append.mp he).imp_right Or.inr
  · rintro ⟨hself, hsiblings⟩ e he
    rw [List.mem_append, List.mem_cons] at he
    rcases he with he | rfl | he
    · exact hsiblings e (List.mem_append_left _ he)
    · exact hself
    · exact hsiblings e (List.mem_append_right _ he)

/-- The entries of a tree, seen from one of its nodes. -/
theorem entriesMatch_plug (c : Ctx κ h H) (t : Tree κ h) :
    (c.plug t).EntriesMatch P ↔ c.EntriesMatch P t.no (t.slots.keyAt 0) ∧ t.EntriesMatch P := by
  induction c with
  | top => exact ⟨fun ht => ⟨trivial, ht⟩, fun ht => ht.2⟩
  | down up no left key right stale ih =>
    show (up.plug (fill no left key right stale t)).EntriesMatch P ↔
      (_ ∧ _ ∧ up.EntriesMatch P no (firstKey left key)) ∧ _
    rw [ih, keyAt_zero_fill, entriesMatch_fill]
    tauto

variable {q : Int} {k : κ}

theorem EntriesMatch.siblings {up : Ctx κ (h + 1) H} {no : Int} {left right : List (κ × Tree κ h)}
    {key : κ} {stale : Nat → κ} (hc : (down up no left key right stale).EntriesMatch P q k)
    (hP : ∀ r ∈ (down up no left key right stale).nos, P r) :
    ∀ e ∈ left ++ right,
      (True → e.1 = e.2.slots.keyAt 0) ∧ e.2.EntriesMatch fun _ => True := by
  intro e he
  obtain ⟨hkey, hsub⟩ := hc.2.1 e he
  have hkid : ∀ r ∈ e.2.nos, P r := fun r hr =>
    hP r (List.mem_append_left _ (List.mem_cons_of_mem _ (List.mem_flatMap.mpr ⟨e, he, hr⟩)))
  exact ⟨fun _ => hkey (hkid _ e.2.no_mem_nos), hsub.all hkid⟩

theorem EntriesMatch.all {c : Ctx κ h H} (hc : c.EntriesMatch P q k) (hq : P q)
    (hP : ∀ r ∈ c.nos, P r) : c.EntriesMatch (fun _ => True) q k := by
  induction c generalizing q k with
  | top => trivial
  | down up no left key right stale ih =>
    refine ⟨fun _ => hc.1 hq, hc.siblings hP, ?_⟩
    exact ih hc.2.2 (hP no List.mem_cons_self) fun r hr => hP r (List.mem_append_right _ hr)

/-- **Restoring the keys of the path.**  Where only the entry of the hole may be wrong,
`maintain_parent` makes all entries right: each entry it writes changes at most the first key of the
node it is in, and where that is not the case the entries above are right as they are. -/
theorem EntriesMatch.maintain [DecidableEq κ] {c : Ctx κ h H} {k₀ : κ}
    (hc : c.EntriesMatch P q k₀) (hP : ∀ r ∈ c.nos, P r) (k : κ) :
    (c.maintain k).EntriesMatch (fun _ => True) q k := by
  induction c generalizing q k₀ k with
  | top => trivial
  | down up no left key right stale ih =>
    have hno : P no := hP no List.mem_cons_self
    have hup : ∀ r ∈ up.nos, P r := fun r hr => hP r (List.mem_append_right _ hr)
    unfold Ctx.maintain
    split_ifs with hkey
    · exact ⟨fun _ => hkey, hc.siblings hP, hc.2.2.all hno hup⟩
    · exact ⟨fun _ => rfl, hc.siblings hP, ih hc.2.2 hup (firstKey left k)⟩

end Ctx

/-! ### `maintain_parent` -/

/-- **`maintain_parent`.**  If every entry has the first key of its child, except possibly that of
the node `t`, then `maintain_parent` returns after at most one round for each node above `t`, all
entries have the first key of their child, and nothing has changed but keys on the path from `t` to
the root. -/
theorem maintainParent_restores [DecidableEq κ] (s : IxIndex κ) (order : Nat) (c : Ctx κ h H)
    (t : Tree κ h) (hh : Held s.mem order c t)
    (hkeys : (c.plug t).EntriesMatch (· ≠ t.no)) (fuel : Nat) (hfuel : c.depth < fuel) :
    ∃ s' c', maintainParent fuel t.no s = .ok () s' ∧ Held s'.mem order c' t ∧
      ((c'.plug t).EntriesMatch fun _ => True) ∧ c.Rekeyed c' ∧ c.ChangesKeys s.mem s'.mem := by
  obtain ⟨M', hdoes, hchanges, hheld⟩ := maintainParent_does c hh hfuel
  obtain ⟨s', hrun, rfl⟩ := hdoes s rfl
  obtain ⟨hctx, htree⟩ := (c.entriesMatch_plug t).mp hkeys
  -- the node itself is the only exception, and it is not around itself
  have haround : ∀ r ∈ c.nos, r ≠ t.no := by
    rintro r hr rfl
    exact hh.notMem_ctx t.no_mem_nos hr
  refine ⟨s', c.maintain (t.slots.keyAt 0), hrun, hheld, ?_, c.rekeyed_maintain _, hchanges⟩
  rw [Ctx.entriesMatch_plug]
  exact ⟨hctx.maintain haround _, htree.all_of_ne hh.nodup_tree⟩

/-! ### A tree whose first key has changed -/

/-- A page that shows some slots. -/
def IxPage.ofSlots (parent : Int) (isLeaf : Bool) (s : Slots κ Rid) : IxPage κ where
  parent
  numKey := s.size
  isLeaf
  prevLeaf := 0
  nextLeaf := 0
  keys := s.keyAt
  rids := fun i => (s.entries[i]?).elim ⟨0, 0⟩ Prod.snd

theorem IxPage.shows_ofSlots (parent : Int) (isLeaf : Bool) (s : Slots κ Rid) :
    (IxPage.ofSlots parent isLeaf s).Shows s := by
  refine ⟨rfl, rfl, fun {i e} he => ?_⟩
  show (s.entries[i]?).elim _ _ = _
  rw [he]
  rfl

/-- A leaf with two entries. -/
def pairLeaf (no a b : Int) : Tree Int 0 := ⟨no, ⟨[(a, ⟨a, 0⟩), (b, ⟨b, 0⟩)], fun _ => 0⟩⟩

/-- Two leaves under a root; the first one is the hole, whose entry has the key 1. -/
def besideLeaf : Ctx Int 0 1 := .down .top 3 [] 1 [(5, pairLeaf 4 5 6)] fun _ => 0

/-- The first key of the leaf in page 2 is 2 now. -/
def changedKey : IxIndex Int where
  fd := 0
  fileHdr := { IxFileHdr.init .int 4 with btreeOrder := 2, rootPage := 3 }
  store :=
    { pool := fun _ => none
      pinCount := fun _ => 0
      disk := fun q =>
        if q = 2 then some (.ofSlots 3 true (pairLeaf 2 2 3).row)
        else if q = 3 then some (.ofSlots (-1) false (Ctx.row [] 1 [(5, pairLeaf 4 5 6)] (fun _ => 0) 2))
        else if q = 4 then some (.ofSlots 3 true (pairLeaf 4 5 6).row)
        else none
      fd2pageno := fun _ => 5 }
  diskHdr := IxFileHdr.init .int 4

theorem held_changedKey : Held changedKey.mem 2 besideLeaf (pairLeaf 2 2 3) := by
  refine ⟨⟨⟨_, rfl, rfl, rfl, IxPage.shows_ofSlots _ _ _⟩, fun e he => ?_, trivial⟩,
    ⟨_, rfl, rfl, rfl, IxPage.shows_ofSlots _ _ _⟩, by decide, by decide, rfl, rfl⟩
  obtain rfl := List.mem_singleton.mp he
  exact ⟨_, rfl, rfl, rfl, IxPage.shows_ofSlots _ _ _⟩

theorem entriesMatch_changedKey : (besideLeaf.plug (pairLeaf 2 2 3)).EntriesMatch (· ≠ 2) := by
  intro e he
  have hmem : e ∈ [(1, pairLeaf 2 2 3), (5, pairLeaf 4 5 6)] := he
  rw [List.mem_cons, List.mem_singleton] at hmem
  rcases hmem with rfl | rfl
  · exact ⟨fun hne => absurd rfl hne, trivial⟩
  · exact ⟨fun _ => rfl, trivial⟩

theorem maintainParent_restores_changedKey :
    ¬(besideLeaf.plug (pairLeaf 2 2 3)).EntriesMatch (fun _ => True) ∧
      ∃ s' c', maintainParent 2 2 changedKey = .ok () s' ∧ Held s'.mem 2 c' (pairLeaf 2 2 3) ∧
        ((c'.plug (pairLeaf 2 2 3)).EntriesMatch fun _ => True) ∧ besideLeaf.Rekeyed c' ∧
        besideLeaf.ChangesKeys changedKey.mem s'.mem := by
  refine ⟨fun hall => ?_, maintainParent_restores changedKey 2 besideLeaf (pairLeaf 2 2 3)
    held_changedKey entriesMatch_changedKey 2 (by decide)⟩
  have hfirst := (hall (1, pairLeaf 2 2 3) (List.mem_cons_self ..)).1 trivial
  exact absurd hfirst (by decide)

end Rucbase
