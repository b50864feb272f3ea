import Rucbase.Index.Equiv.Insert

/-!
# From the root to a leaf

`FindLeafPage` ends at the leaf to which the keys of the inner nodes lead (`Ctx.Leads`), in as many
rounds as the tree is high.  With that, `GetValue` and `insert_entry` are operations on the leaf at
the end of the path (`getValue_does`, `insertEntry_does`).
-/

namespace Rucbase

open EStateM IxIndexHandle

variable {κ : Type} {h H : Nat}

/-- Every inner node has a child. -/
def Tree.Inner : {h : Nat} → Tree κ h → Prop
  | 0, _ => True
  | _ + 1, t => t.slots.size ≠ 0 ∧ ∀ e ∈ t.kids, Tree.Inner e.2

theorem Ctx.depth_add (c : Ctx κ h H) : h + c.depth = H := by
  induction c with
  | top => rfl
  | down up no left key right stale ih =>
    show _ + (up.depth + 1) = _
    omega

/-- An inner node, seen from the child at a position. -/
theorem Tree.eq_fill {t : Tree κ (h + 1)} {i : Nat} {e : κ × Tree κ h} (he : t.kids[i]? = some e) :
    t = Ctx.fill t.no (t.kids.take i) e.1 (t.kids.drop (i + 1)) t.slots.stale e.2 := by
  obtain ⟨hlt, hget⟩ := List.getElem?_eq_some_iff.mp he
  have hsplit : t.kids = t.kids.take i ++ (e.1, e.2) :: t.kids.drop (i + 1) := by
    have hdrop := List.drop_eq_getElem_cons hlt
    rw [hget] at hdrop
    rw [← hdrop, List.take_append_drop]
  unfold Ctx.fill
  rw [← hsplit]

/-- The values of a leaf are rids. -/
theorem Tree.row_leaf (t : Tree κ 0) : t.row = t.slots := by
  show Slots.mk (t.slots.entries.map fun e => (e.1, e.2)) t.slots.stale = t.slots
  rw [List.map_id'']
  intro e
  rfl

/-- A leaf gets other slots; its parent field, its flag and its links stay. -/
theorem Focus.set_leaf {M : IxMem κ} {order : Nat} {c : Ctx κ 0 H} {t : Tree κ 0}
    (hf : Focus M order c t) {page page' : IxPage κ} {s : Slots κ Rid}
    (hp : M.pages t.no = some page) (hparent : page'.parent = page.parent)
    (hlink : page'.link = page.link) (hshows : page'.Shows s) :
    Focus (M.set t.no page') order c ⟨t.no, s⟩ := by
  obtain ⟨page₀, hp₀, hparent₀, hleaf₀, -⟩ := hf.tree
  obtain rfl : page = page₀ := Option.some.inj (hp.symm.trans hp₀)
  have hkeep := KeepsLeaves.set hf.fresh hp hlink
  have hno : (c.plug ⟨t.no, s⟩).no = (c.plug t).no := c.no_plug rfl
  refine ⟨hf.ctx.congr fun q hq => .of_eq (IxMem.set_pages_of_ne _ ?_),
    ⟨page', IxMem.set_pages_self _, hparent.trans hparent₀,
      (congrArg Prod.fst hlink).trans hleaf₀, ?_⟩, hf.nodup, hf.range, hkeep.fresh, hf.order,
    hf.root.trans hno.symm⟩
  · rintro rfl
    exact hf.notMem_ctx t.no_mem_nos hq
  · rw [Tree.row_leaf]
    exact hshows

section Descent

variable [LinearOrder κ] {M : IxMem κ} {order : Nat}

/-- The loop of `FindLeafPage`. -/
theorem findLeafFrom_does (key : κ) : ∀ {h : Nat} {c : Ctx κ h H} {t : Tree κ h} {parent : Int}
    {fuel : Nat}, t.Holds M.pages parent → t.Inner → c.Leads key t → h < fuel →
    ∃ (c' : Ctx κ 0 H) (t' : Tree κ 0), c'.plug t' = c.plug t ∧ c'.Leads key t' ∧
      IxDoes (findLeafFrom key fuel t.no) M t'.no M
  | _, _, _, _, 0, _, _, _, hfuel => absurd hfuel (Nat.not_lt_zero _)
  | 0, c, t, _, fuel + 1, ht, _, hleads, _ => by
    obtain ⟨page, hp, -, hleaf, -⟩ := ht
    refine ⟨c, t, rfl, hleads, ?_⟩
    unfold findLeafFrom
    apply Does.bind (node_does hp)
    rw [hleaf, if_pos rfl]
    exact Does.pure
  | h + 1, c, t, _, fuel + 1, ht, hinner, hleads, hfuel => by
    obtain ⟨⟨page, hp, -, hleaf, hshows⟩, hkids⟩ := ht
    -- the child that `InternalLookup` chooses
    have hlt := Slots.lookupIndex_lt hinner.1 key
    have hget : t.kids[t.slots.lookupIndex key]? = some (t.kids.get ⟨_, hlt⟩) :=
      List.getElem?_eq_getElem hlt
    let e := t.kids.get ⟨_, hlt⟩
    have hmem : e ∈ t.kids := List.mem_of_getElem? hget
    have hfill := Tree.eq_fill hget
    let left := t.kids.take (t.slots.lookupIndex key)
    let right := t.kids.drop (t.slots.lookupIndex key + 1)
    have hlen : left.length = t.slots.lookupIndex key := by
      show (t.kids.take _).length = _
      rw [List.length_take]
      exact Nat.min_eq_left hlt.le
    have hleads' : (Ctx.down c t.no left e.1 right t.slots.stale).Leads key e.2 := by
      show (Ctx.fill t.no left e.1 right t.slots.stale e.2).slots.lookupIndex key = left.length ∧
        c.Leads key (Ctx.fill t.no left e.1 right t.slots.stale e.2)
      rw [← hfill]
      exact ⟨hlen.symm, hleads⟩
    obtain ⟨c', t', hplug, hleads'', hdoes⟩ :=
      findLeafFrom_does key (hkids e hmem) (hinner.2 e hmem) hleads' (Nat.lt_of_succ_lt_succ hfuel)
    have hlookup : page.internalLookup key = e.2.no := by
      have hrow : t.row.entries[t.row.lookupIndex key]? = some (e.1, Item.rid (h := h + 1) e.2) := by
        rw [Tree.row, Slots.lookupIndex_map]
        show (t.kids.map fun e => (e.1, Item.rid (h := h + 1) e.2))[t.slots.lookupIndex key]? = _
        rw [List.getElem?_map, hget]
        rfl
      rw [hshows.internalLookup hrow]
      rfl
    obtain ⟨child, hchild, -⟩ := (hkids e hmem).nodeAt
    refine ⟨c', t', ?_, hleads'', ?_⟩
    · rw [hplug]
      show c.plug (Ctx.fill t.no left e.1 right t.slots.stale e.2) = _
      rw [← hfill]
    · unfold findLeafFrom
      apply Does.bind (node_does hp)
      rw [hleaf, if_neg (by decide), hlookup]
      apply Does.bind (fetchNode_does hchild)
      exact hdoes

/-- **`FindLeafPage`** ends at the leaf to which the keys lead. -/
theorem findLeafPage_does {T : Tree κ H} {fuel : Nat} (hT : T.Holds M.pages invalidPageId)
    (hroot : M.fileHdr.rootPage = T.no) (hinner : T.Inner) (hfuel : H < fuel) (key : κ) :
    ∃ (c : Ctx κ 0 H) (t : Tree κ 0), c.plug t = T ∧ c.Leads key t ∧
      IxDoes (findLeafPage fuel key) M t.no M := by
  obtain ⟨page, hp, -⟩ := hT.nodeAt
  have hleads : Ctx.Leads key .top T := trivial
  obtain ⟨c, t, hplug, hleads, hdoes⟩ := findLeafFrom_does key hT hinner hleads hfuel
  refine ⟨c, t, hplug, hleads, ?_⟩
  unfold findLeafPage
  apply Does.get_bind
  rintro s rfl
  have hroot' : s.fileHdr.rootPage = T.no := hroot
  rw [hroot']
  exact (fetchNode_does hp).bind hdoes

/-- **`GetValue`** looks the key up in that leaf. -/
theorem getValue_does {T : Tree κ H} {fuel : Nat} (hT : T.Holds M.pages invalidPageId)
    (hroot : M.fileHdr.rootPage = T.no) (hinner : T.Inner) (hfuel : H < fuel) (key : κ) :
    ∃ (c : Ctx κ 0 H) (t : Tree κ 0), c.plug t = T ∧ c.Leads key t ∧
      IxDoes (getValue fuel key) M (t.slots.leafLookup key) M := by
  obtain ⟨c, t, rfl, hleads, hdoes⟩ := findLeafPage_does hT hroot hinner hfuel key
  obtain ⟨page, hp, -, -, hshows⟩ := ((Ctx.holds_plug c t).mp hT).2
  refine ⟨c, t, rfl, hleads, ?_⟩
  have hlookup : page.leafLookup key = t.slots.leafLookup key := by
    rw [hshows.leafLookup, Tree.row_leaf]
  unfold getValue
  apply hdoes.bind
  apply Does.bind (node_does hp)
  rw [hlookup]
  cases t.slots.leafLookup key with
  | some rid => exact Does.pure
  | none => exact unpinPage_bind_does fun _ => Does.pure

variable [Inhabited κ]

/-- **`insert_entry`** is `Insert` at the leaf to which the keys lead, and `splitUp` from there.  It
returns true exactly if the slot at the position of the key, live or not, holds another key. -/
theorem insertEntry_does {T : Tree κ H} {leaves : List Int} {fuel : Nat}
    (hok : IndexOk M order T leaves) (hinner : T.Inner) (hfuel : H < fuel) (key : κ) (value : Rid)
    (hroom : ∀ (c : Ctx κ 0 H) (t : Tree κ 0), c.plug t = T → t.slots.size ≤ order) :
    ∃ (c : Ctx κ 0 H) (t : Tree κ 0) (A B : List Int) (M' : IxMem κ),
      c.plug t = T ∧ c.Leads key t ∧ leaves = A ++ t.no :: B ∧
      IxDoes (insertEntry fuel key value) M
        (decide (t.slots.keyAt (t.slots.lowerBound key) ≠ key)) M' ∧
      M'.counter = (splitUp order c (t.insert key value) M.counter).counter ∧
      IndexOk M' order (splitUp order c (t.insert key value) M.counter).tree
        (chainAfter order (t.insert key value) M.counter A B) := by
  obtain ⟨c, t, rfl, hleads, hdoes⟩ := findLeafPage_does hok.focus.tree hok.focus.root hinner
    hfuel key
  have hf := hok.focus.of_plug
  obtain ⟨A, B, rfl⟩ := List.append_of_mem (hok.chain.mem_of_focus hf)
  obtain ⟨page, hp, -, -, hshows⟩ := hf.tree
  obtain ⟨hlink, hparent⟩ := page.insert_fields key value
  have hshows' : (page.insert key value).Shows (t.slots.insert key value) := by
    rw [Tree.row_leaf] at hshows
    exact hshows.insert key value
  have hf' : Focus (M.set t.no (page.insert key value)) order c (t.insert key value) :=
    hf.set_leaf hp hparent hlink hshows'
  have hchain' := hok.chain.keep hf.fresh (.set hf.fresh hp hlink)
  obtain ⟨M', hsplit, hcounter, hok'⟩ := splitNodeIfFull_leaf hf' hchain' hok.first hok.last
    (show c.depth < fuel by have := c.depth_add; omega)
  -- the number of keys tells whether the key went in
  have hsize : (page.insert key value).numKey > page.numKey ↔
      t.slots.keyAt (t.slots.lowerBound key) ≠ key := by
    rw [hshows'.numKey, hshows.numKey, Tree.row_leaf, Slots.size_insert]
    by_cases hk : t.slots.keyAt (t.slots.lowerBound key) = key
    · simp [hk]
    · rw [if_neg hk]
      simp only [ne_eq, hk, not_false_eq_true, iff_true]
      omega
  by_cases hk : t.slots.keyAt (t.slots.lowerBound key) = key
  · have hsame : t.insert key value = t := by
      unfold Tree.insert
      rw [Slots.insert_of_eq hk]
    have hnot : (t.insert key value).slots.size ≠ order + 1 := by
      rw [hsame]
      have := hroom c t rfl
      omega
    refine ⟨c, t, A, B, M.set t.no (page.insert key value), rfl, hleads, rfl, ?_, ?_⟩
    swap
    · rw [splitUp_of_not_full hnot, chainAfter, if_neg hnot]
      exact ⟨rfl, hf'.plug, hchain', hok.first, hok.last⟩
    rw [decide_eq_false (not_not.mpr hk)]
    unfold insertEntry
    apply hdoes.bind
    apply Does.bind (node_does hp)
    apply Does.bind (setNode_does _ _)
    rw [if_neg fun h => hsize.mp h hk]
    exact Does.pure
  · refine ⟨c, t, A, B, M', rfl, hleads, rfl, ?_, hcounter, hok'⟩
    rw [decide_eq_true hk]
    unfold insertEntry
    apply hdoes.bind
    apply Does.bind (node_does hp)
    apply Does.bind (setNode_does _ _)
    rw [if_pos (hsize.mpr hk)]
    exact hsplit.bind Does.pure

end Descent

end Rucbase
