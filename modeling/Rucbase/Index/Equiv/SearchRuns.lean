import Mathlib.Logic.Relation
import Rucbase.Index.Equiv.InsertRuns
import Rucbase.Index.Equiv.SearchOrder

/-!
# Search order in runs that insert

A tree is search-ordered and complete (`IxMem.SearchOrdered`) if keys divide subtrees and the leaf
chain lists the leaves of the tree from left to right.  `InsertIntoParent` looks for the place of a
new node by its key, so a run keeps the order as long as that is the place behind the old node
(`insert_runs_searchOrdered`).  Keys that come in descending order break it: the first child of the
root is split, its middle key is the first key of the root, and the new leaf is not linked into the
tree (`not_searchOrdered_descending`).
-/

namespace Rucbase

open EStateM IxIndexHandle

variable {κ : Type} {h H n : Nat}

/-- The page `r` is a child of the page `q`. -/
def IsChild (M : IxMem κ) (q r : Int) : Prop :=
  ∃ (page : IxPage κ) (i : Nat), M.pages q = some page ∧ page.isLeaf = false ∧ i < page.numKey ∧
    page.valueAt i = r

/-- The leaves below a page from left to right, down to some depth. -/
def IxMem.leavesFrom (M : IxMem κ) : Nat → Int → List Int
  | 0, _ => []
  | depth + 1, q =>
    match M.pages q with
    | none => []
    | some page =>
      if page.isLeaf then [q]
      else (List.range page.numKey.toNat).flatMap fun i : Nat => leavesFrom M depth (page.valueAt i)

/-- Keys divide subtrees, and the leaf chain lists the leaves of the tree from left to right. -/
structure IxMem.SearchOrdered [LinearOrder κ] (M : IxMem κ) : Prop where
  below : ∀ {d q page} {i : Nat}, Reach M d q → M.pages q = some page → page.isLeaf = false →
    i + 1 < page.numKey → ∀ {r page'} {j : Nat},
      Relation.ReflTransGen (IsChild M) (page.valueAt i) r → M.pages r = some page' →
      j < page'.numKey → page'.keys j < page.keys (i + 1)
  above : ∀ {d q page} {i : Nat}, Reach M d q → M.pages q = some page → page.isLeaf = false →
    i + 1 < page.numKey → ∀ {r page'} {j : Nat},
      Relation.ReflTransGen (IsChild M) (page.valueAt (i + 1 : Nat)) r → M.pages r = some page' →
      j < page'.numKey → page.keys (i + 1) ≤ page'.keys j
  complete : ∃ leaves, LinkRing (nextOf M.pages) (prevOf M.pages) ixLeafHeaderPage leaves ∧
    ∃ N, ∀ depth ≥ N, M.leavesFrom depth M.fileHdr.rootPage = leaves

/-! ### From trees to pages -/

section Pages

variable {M : IxMem κ} {order : Nat}

/-- The leaves below the root of a tree. -/
theorem Tree.Holds.leavesFrom {t : Tree κ h} {parent : Int} {depth : Nat}
    (ht : t.Holds M.pages parent) (hlt : h < depth) : M.leavesFrom depth t.no = t.leaves := by
  induction h generalizing parent depth with
  | zero =>
    obtain ⟨depth, rfl⟩ := Nat.exists_eq_succ_of_ne_zero (show depth ≠ 0 by omega)
    obtain ⟨page, hp, -, hleaf, -⟩ := ht
    rw [IxMem.leavesFrom, hp]
    simp only [hleaf, if_true]
    rfl
  | succ h ih =>
    obtain ⟨depth, rfl⟩ := Nat.exists_eq_succ_of_ne_zero (show depth ≠ 0 by omega)
    obtain ⟨⟨page, hp, -, hleaf, hshows⟩, hkids⟩ := ht
    have hsize : page.numKey.toNat = t.kids.length := by
      rw [hshows.toNat_numKey, Tree.row, Slots.size_map]
      rfl
    rw [IxMem.leavesFrom, hp]
    simp only [hleaf]
    show ((List.range page.numKey.toNat).flatMap fun i : Nat => M.leavesFrom depth (page.valueAt i)) =
      t.kids.flatMap fun e => e.2.leaves
    -- slot by slot
    rw [hsize, List.flatMap_def, List.flatMap_def]
    congr 1
    apply List.ext_getElem?
    intro i
    rw [List.getElem?_map, List.getElem?_map]
    by_cases hi : i < t.kids.length
    · have hnum : (i : Int) < page.numKey := by
        have := hshows.numKey
        omega
      obtain ⟨e, he, hno⟩ := valueAt_kid hshows hnum
      rw [List.getElem?_range hi, he]
      show some (M.leavesFrom depth (page.valueAt i)) = some e.2.leaves
      rw [hno, ih (hkids e (List.mem_of_getElem? he)) (by omega)]
    · rw [List.getElem?_eq_none (by simpa using hi), List.getElem?_eq_none (by omega)]
      rfl

variable [LinearOrder κ]

/-- The keys below the root of a tree are in its set. -/
theorem Tree.Within.mem_of_reflTransGen {q r : Int}
    (hdesc : Relation.ReflTransGen (IsChild M) q r) {page : IxPage κ} (hp : M.pages r = some page)
    {j : Nat} (hj : j < page.numKey) : ∀ {h : Nat} {t : Tree κ h} {parent : Int} {S : Set κ},
      t.no = q → t.Holds M.pages parent → t.Within 0 S → page.keys j ∈ S := by
  induction hdesc using Relation.ReflTransGen.head_induction_on with
  | refl =>
    rintro h t parent S rfl hholds hwithin
    obtain ⟨page', hp', -, -, hshows⟩ := hholds.nodeAt
    obtain rfl : page = page' := Option.some.inj (hp.symm.trans hp')
    rw [hshows.numKey, Tree.row, Slots.size_map] at hj
    rw [hshows.keys, Tree.row, Slots.keyAt_map]
    exact hwithin.node.mem j (Nat.zero_le _) (by omega)
  | head hchild _ ih =>
    rintro h t parent S rfl hholds hwithin
    obtain ⟨page', i, hp', hleaf, hi, rfl⟩ := hchild
    obtain ⟨page'', hp'', -, hleaf', hshows⟩ := hholds.nodeAt
    obtain rfl : page' = page'' := Option.some.inj (hp'.symm.trans hp'')
    cases h with
    | zero =>
      rw [hleaf'] at hleaf
      cases hleaf
    | succ h =>
      obtain ⟨e, he, hno⟩ := valueAt_kid hshows hi
      have hmem := ih hno.symm (hholds.2 e (List.mem_of_getElem? he)) (hwithin.2 i e he)
      exact hmem.1

/-- **A tree in order** makes the pages search-ordered. -/
theorem IndexOk.searchOrdered {T : Tree κ H} (hok : IndexOk M order T T.leaves)
    (hwithin : T.Within 0 Set.univ) : M.SearchOrdered := by
  have hf := hok.focus
  -- a node of the tree that has the child at a position
  have hnode : ∀ {d q page} {i : Nat}, Reach M d q → M.pages q = some page →
      page.isLeaf = false → i < page.numKey → ∃ (h : Nat) (t : Tree κ (h + 1)) (S : Set κ)
        (e : κ × Tree κ h), page.Shows t.row ∧ t.kids[i]? = some e ∧ e.2.no = page.valueAt i ∧
        e.2.Holds M.pages q ∧ e.2.Within 0 (t.slots.range S i) := by
    intro d q page i hr hp hleaf hi
    obtain ⟨h, c, t, rfl, -, rfl⟩ := hr.exists_ctx hf
    obtain ⟨page', hp', -, hleaf', hshows⟩ := hf.of_plug.nodeAt
    obtain rfl : page = page' := Option.some.inj (hp.symm.trans hp')
    cases h with
    | zero =>
      rw [hleaf'] at hleaf
      cases hleaf
    | succ h =>
      obtain ⟨e, he, hno⟩ := valueAt_kid hshows hi
      exact ⟨h, t, c.span, e, hshows, he, hno.symm,
        hf.of_plug.tree.2 e (List.mem_of_getElem? he), hwithin.of_plug.2 i e he⟩
  refine ⟨?_, ?_, _, hok.chain.ring, H + 1, fun depth hdepth => ?_⟩
  · intro d q page i hr hp hleaf hi r page' j hdesc hp' hj
    obtain ⟨h, t, S, e, hshows, -, hno, hholds, hkid⟩ := hnode (i := i) hr hp hleaf (by omega)
    have hmem := Tree.Within.mem_of_reflTransGen hdesc hp' hj hno hholds hkid
    rw [hshows.numKey, Tree.row, Slots.size_map] at hi
    rw [hshows.keys, Tree.row, Slots.keyAt_map]
    exact hmem.2.2 (by omega)
  · intro d q page i hr hp hleaf hi r page' j hdesc hp' hj
    obtain ⟨h, t, S, e, hshows, -, hno, hholds, hkid⟩ := hnode (i := i + 1) hr hp hleaf
      (by exact_mod_cast hi)
    have hmem := Tree.Within.mem_of_reflTransGen hdesc hp' hj hno hholds hkid
    rw [hshows.keys, Tree.row, Slots.keyAt_map]
    exact hmem.2.1 (by omega)
  · have hroot : M.fileHdr.rootPage = T.no := hf.root
    rw [hroot]
    exact Tree.Holds.leavesFrom hf.tree hdepth

end Pages

/-! ### Runs -/

variable [LinearOrder κ] [Inhabited κ] {order : Nat} {s : IxIndex κ}

/-- The index holds a tree in search order, and the chain lists its leaves. -/
def IxIndex.Ordered (n order : Nat) (s : IxIndex κ) : Prop :=
  ∃ (H : Nat) (T : Tree κ H), IndexOk s.mem order T T.leaves ∧ T.Within n Set.univ ∧
    T.Sized order (rootMin H) order

/-- The chain after an insert is that of the new tree, if new nodes go in behind the old ones. -/
theorem chainAfter_eq_leaves {c : Ctx κ 0 H} {t t' : Tree κ 0} {counter : Int} {A B : List Int}
    (hleaves : (c.plug t).leaves = A ++ t.no :: B) (hnodup : (A ++ t.no :: B).Nodup)
    (hno : t'.no = t.no) (hp : PlacesBehind order c t' counter) :
    chainAfter order t' counter A B = (splitUp order c t' counter).tree.leaves := by
  have hplug := Ctx.collect_plug (fun leaf => [leaf.no]) c t
  have hnew := hp.collect fun leaf => [leaf.no]
  rw [show (c.plug t).collect (fun leaf => [leaf.no]) = A ++ t.no :: B from hleaves,
    show t.collect (fun leaf => [leaf.no]) = [t.no] from rfl, List.append_assoc,
    List.singleton_append] at hplug
  -- the leaf stands at one place of the chain only
  have hnodup' := List.nodup_middle.mp hnodup
  obtain ⟨hA, -, hB⟩ := (List.append_cons_inj_of_notMem
    (fun h => (List.nodup_cons.mp hnodup').1 (List.mem_append_left _ h))
    (fun h => (List.nodup_cons.mp hnodup').1 (List.mem_append_right _ h))).mp hplug
  rw [Tree.leaves, hnew, chainAfter, ← hA, ← hB, hno, List.append_assoc]
  split_ifs
  · show _ = A ++ ([t'.no] ++ [counter] ++ B)
    rw [hno]
    rfl
  · show _ = A ++ ([t'.no] ++ B)
    rw [hno]
    rfl

/-- The condition on `insert_entry`: the nodes it splits have middle keys that go in behind them. -/
def IxIndex.PlacesRight (order : Nat) (s : IxIndex κ) : IxCall κ → Prop
  | .insertEntry key value => ∀ {H : Nat} (c : Ctx κ 0 H) (t : Tree κ 0), Focus s.mem order c t →
      c.Leads key t → Rucbase.PlacesRight order c (t.insert key value) s.mem.counter
  | _ => True

/-- `insert_entry` puts every new node directly behind the one it was split from. -/
def IxIndex.PlacesBehind (order : Nat) (s : IxIndex κ) : IxCall κ → Prop
  | .insertEntry key value => ∃ (H : Nat) (c : Ctx κ 0 H) (t : Tree κ 0), Focus s.mem order c t ∧
      c.Leads key t ∧ Rucbase.PlacesBehind order c (t.insert key value) s.mem.counter
  | _ => True

/-- **One call** that meets the condition keeps the search order. -/
theorem IxIndex.Ordered.call (horder : 2 < order) (hn : n ≤ 1) (hs : s.Ordered n order)
    {a : IxCall κ} (ha : a.InsertsOrGets) (hcond : s.PlacesRight order a) :
    ∃ m b s', a.run m s = .ok b s' ∧ s'.Ordered n order ∧ s.PlacesBehind order a := by
  obtain ⟨H, T, hok, hwithin, hsized⟩ := hs
  have hinner : T.Inner := hsized.inner horder fun hne => by
    rw [rootMin, if_neg hne]
    decide
  cases a with
  | insertEntry key value =>
    obtain ⟨c, t, A, B, M', rfl, hleads, hleaves, hdoes, -, hok'⟩ := insertEntry_does hok hinner
      (Nat.lt_succ_self H) key value fun c t hplug => by
        subst hplug
        exact hsized.of_plug.size.2
    obtain ⟨s', hrun, rfl⟩ := hdoes s rfl
    have hf := hok.focus.of_plug
    have hkey := hleads.mem_span hn hwithin
    have hleaf : (t.insert key value).Within n c.span := Slots.KeysIn.insert hwithin.of_plug hkey value
    obtain ⟨hbehind, hwithin'⟩ := (hcond c t hf hleads).within horder hn hwithin hleaf
    have hnodup : (A ++ t.no :: B).Nodup := by
      rw [← hleaves]
      exact (List.nodup_cons.mp hok.chain.ring.nodup).2
    have hno : (t.insert key value).no = t.no := rfl
    rw [chainAfter_eq_leaves hleaves hnodup hno hbehind] at hok'
    refine ⟨H + 1, _, s', by rw [IxCall.run, bind_of_ok hrun]; rfl,
      ⟨_, _, hok', hwithin', sized_splitUp horder hsized (hsized.of_plug.insert key value)⟩,
      H, c, t, hf, hleads, hbehind⟩
  | getValue key =>
    obtain ⟨c, t, -, -, hdoes⟩ := getValue_does hok.focus.tree hok.focus.root hinner
      (Nat.lt_succ_self H) key
    obtain ⟨s', hrun, hmem⟩ := hdoes s rfl
    exact ⟨H + 1, _, s', by rw [IxCall.run, bind_of_ok hrun]; rfl,
      ⟨H, T, hmem.symm ▸ hok, hwithin, hsized⟩, trivial⟩
  | deleteEntry key => exact ha.elim
  | reopen fd => exact ha.elim
  | restart fd => exact ha.elim

omit [Inhabited κ] in
theorem IxIndex.Ordered.create (fd : Int) (colType : ColType) (colLen : Int) (keys : Nat → κ)
    (rids : Nat → Rid) (pool : PageId → Option (IxPage κ)) (pinCount : PageId → Nat)
    (fd2pageno : Int → Int) (hpool : ∀ q, pool ⟨fd, q⟩ = none) :
    (IxIndex.create fd colType colLen order keys rids pool pinCount fd2pageno).Ordered n order := by
  refine ⟨0, _, create_indexOk hpool, ⟨fun i j _ _ hj => ?_, fun i _ hi => ?_⟩, Nat.zero_le _,
    Nat.zero_le _⟩
  · exact absurd hj (Nat.not_lt_zero _)
  · exact absurd hi (Nat.not_lt_zero _)

/-- **Every run** whose calls meet the condition keeps the search order. -/
theorem IxIndex.Ordered.run (horder : 2 < order) (hn : n ≤ 1) (hs : s.Ordered n order)
    {run : List ((IxCall κ × IxAnswer) × IxIndex κ)}
    (hrun : Run (fun s a s' => a.1.InsertsOrGets ∧ IxIndex.Step s a s') s run)
    (hcond : Along (fun s a _ => IxIndex.PlacesRight order s a.1) s run) :
    (∀ e ∈ run, e.2.Ordered n order) ∧
      Along (fun s a _ => IxIndex.PlacesBehind order s a.1) s run := by
  refine Run.along_of_invariant ?_ hrun hs hcond
  rintro s ⟨a, b⟩ s' hs ⟨ha, hstep⟩ hcond
  obtain ⟨m, b', t, hrun, ht, hbehind⟩ := hs.call horder hn ha hcond
  obtain ⟨-, rfl⟩ := hstep.eq_of_ok hrun
  exact ⟨ht, hbehind⟩

/-- **Search order.**  In every run of `insert_entry` and `GetValue` on a new index whose calls all
meet the condition, the pages are search-ordered and complete after every call, and every new node
goes in directly behind the one it was split from. -/
theorem insert_runs_searchOrdered (fd : Int) (colType : ColType) (colLen : Int) (horder : 2 < order)
    (keys : Nat → κ) (rids : Nat → Rid) (pool : PageId → Option (IxPage κ))
    (pinCount : PageId → Nat) (fd2pageno : Int → Int) (hpool : ∀ q, pool ⟨fd, q⟩ = none)
    (run : List ((IxCall κ × IxAnswer) × IxIndex κ))
    (hrun : Run (fun s a s' => a.1.InsertsOrGets ∧ s.Step a s')
      (IxIndex.create fd colType colLen order keys rids pool pinCount fd2pageno) run)
    (hcond : Along (fun s a _ => s.PlacesRight order a.1)
      (IxIndex.create fd colType colLen order keys rids pool pinCount fd2pageno) run) :
    (∀ e ∈ run, e.2.mem.SearchOrdered) ∧ Along (fun s a _ => s.PlacesBehind order a.1)
      (IxIndex.create fd colType colLen order keys rids pool pinCount fd2pageno) run := by
  have hstart : (IxIndex.create fd colType colLen order keys rids pool pinCount
      fd2pageno).Ordered 0 order :=
    .create fd colType colLen keys rids pool pinCount fd2pageno hpool
  obtain ⟨hall, hbehind⟩ := hstart.run horder (Nat.zero_le 1) hrun hcond
  refine ⟨fun e he => ?_, hbehind⟩
  obtain ⟨H, T, hok, hwithin, -⟩ := hall e he
  exact hok.searchOrdered hwithin

/-- As long as the root is a leaf, no node has a parent. -/
theorem IxIndex.placesRight_of_root_leaf {key : κ} {value : Rid}
    (hleaf : (s.mem.pages s.mem.fileHdr.rootPage).map IxPage.isLeaf = some true) :
    s.PlacesRight order (.insertEntry key value) := by
  intro H c t hf _
  cases c with
  | top => trivial
  | down up no left k right stale =>
    obtain ⟨page, hp, -, hinner, -⟩ := hf.plug.nodeAt
    have hroot : s.mem.fileHdr.rootPage =
        ((Ctx.down up no left k right stale).plug t).no := hf.plug.root
    have hpos : H ≠ 0 := by
      have := Ctx.depth_add (Ctx.down up no left k right stale)
      have : (Ctx.down up no left k right stale).depth = up.depth + 1 := rfl
      omega
    rw [hroot, hp, Option.map_some, hinner, decide_eq_false hpos] at hleaf
    cases hleaf

/-- A trace in which every call finds a root that is a leaf. -/
theorem IxIndex.placesRight_trace {rounds : Nat} {l : List (IxCall κ)}
    (hcheck : s.checkTrace rounds (fun s _ => decide
      ((s.mem.pages s.mem.fileHdr.rootPage).map IxPage.isLeaf = some true)) l = true) :
    Along (fun s a _ => IxIndex.PlacesRight order s a.1) s (s.trace rounds l) := by
  refine IxIndex.along_trace (fun s a ha => ?_) hcheck
  cases a with
  | insertEntry key value => exact IxIndex.placesRight_of_root_leaf (of_decide_eq_true ha)
  | deleteEntry key => trivial
  | getValue key => trivial
  | reopen fd => trivial
  | restart fd => trivial

/-- Four keys that split the root. -/
theorem insert_runs_searchOrdered_four :
    ((intIndex 3).trace 3 (insertAll [1, 2, 3, 4])).map (fun e => e.1.2) =
        List.replicate 4 (.bool true) ∧
      ∀ e ∈ (intIndex 3).trace 3 (insertAll [1, 2, 3, 4]), e.2.mem.SearchOrdered := by
  refine ⟨by decide +kernel, ?_⟩
  refine (insert_runs_searchOrdered 3 .int 4 (show 2 < 3 by decide) (fun _ => 0) (fun _ => ⟨0, 0⟩)
    (fun _ => none) (fun _ => 0) (fun _ => 0) (fun _ => rfl) _
    (IxIndex.run_trace 3 (fun a ha => insertsOrGets_insertAll ha) (intIndex 3)) ?_).1
  exact IxIndex.placesRight_trace (by decide +kernel)

/-! ### Keys in descending order -/

omit [LinearOrder κ] [Inhabited κ] in
/-- The leaves below a page are in every list of pages that has the children of its pages. -/
theorem IxMem.mem_of_mem_leavesFrom {M : IxMem κ} {l : List Int}
    (hl : ∀ q ∈ l, ∀ r, IsChild M q r → r ∈ l) {depth : Nat} {q r : Int} (hq : q ∈ l)
    (hr : r ∈ M.leavesFrom depth q) : r ∈ l := by
  induction depth generalizing q with
  | zero => cases hr
  | succ depth ih =>
    unfold leavesFrom at hr
    cases hp : M.pages q with
    | none =>
      rw [hp] at hr
      cases hr
    | some page =>
      rw [hp] at hr
      cases hleaf : page.isLeaf with
      | true =>
        simp only [hleaf, if_true, List.mem_singleton] at hr
        exact hr ▸ hq
      | false =>
        simp only [hleaf] at hr
        obtain ⟨i, hi, hr⟩ := List.mem_flatMap.mp hr
        refine ih (hl q hq _ ⟨page, i, hp, hleaf, ?_, rfl⟩) hr
        have := List.mem_range.mp hi
        omega

/-- **Descending keys.**  In an index of order 3 the sixth of the keys 10, 9, 8, 7, 6, 5 splits the
leaf 5, 6, 7, 8, which is the first child of the root.  The new leaf has the key 7, as the root has
for its first child, and is not linked into the root. -/
theorem not_searchOrdered_descending :
    Run (fun s a s' => a.1.InsertsOrGets ∧ IxIndex.Step s a s') (intIndex 3)
        ((intIndex 3).trace 3 (insertAll [10, 9, 8, 7, 6, 5])) ∧
      ((intIndex 3).trace 3 (insertAll [10, 9, 8, 7, 6, 5])).map (fun e => e.1.2) =
        List.replicate 6 (.bool true) ∧
      ¬∀ e ∈ (intIndex 3).trace 3 (insertAll [10, 9, 8, 7, 6, 5]), e.2.mem.SearchOrdered := by
  refine ⟨IxIndex.run_trace 3 (fun a ha => insertsOrGets_insertAll ha) (intIndex 3),
    by decide +kernel, fun hall => ?_⟩
  -- the last state: its root, the children of the root, and the leaf chain
  obtain ⟨e, he⟩ : ∃ e, ((intIndex 3).trace 3 (insertAll [10, 9, 8, 7, 6, 5]))[5]? = some e :=
    Option.isSome_iff_exists.mp (by decide +kernel)
  have hlast : ∀ {β : Type} (f : IxIndex Int → β) (b : β),
      (((intIndex 3).trace 3 (insertAll [10, 9, 8, 7, 6, 5]))[5]?.map fun e => f e.2) = some b →
      f e.2 = b := by
    intro β f b hb
    rw [he] at hb
    exact Option.some.inj hb
  have hroot := hlast (fun s => s.mem.fileHdr.rootPage) 4 (by decide +kernel)
  have hfour := hlast (fun s => (s.mem.pages 4).map fun p =>
    (p.isLeaf, p.numKey, p.valueAt 0, p.valueAt 1)) (some (false, 2, 2, 3)) (by decide +kernel)
  have htwo := hlast (fun s => (s.mem.pages 2).map IxPage.isLeaf) (some true) (by decide +kernel)
  have hthree := hlast (fun s => (s.mem.pages 3).map IxPage.isLeaf) (some true) (by decide +kernel)
  have hnext1 := hlast (fun s => nextOf s.mem.pages 1) (some 2) (by decide +kernel)
  have hnext2 := hlast (fun s => nextOf s.mem.pages 2) (some 5) (by decide +kernel)
  obtain ⟨leaves, hring, N, hN⟩ := (hall e (List.mem_of_getElem? he)).complete
  have hmem2 := hring.next_mem List.mem_cons_self hnext1
  have hmem5 := hring.next_mem hmem2 hnext2
  have hclosed : ∀ q ∈ [4, 2, 3], ∀ r, IsChild e.2.mem q r → r ∈ [(4 : Int), 2, 3] := by
    rintro q hq r ⟨page, i, hp, hleaf, hi, rfl⟩
    simp only [List.mem_cons, List.not_mem_nil, or_false] at hq
    rcases hq with rfl | rfl | rfl
    · rw [hp, Option.map_some, Option.some.injEq, Prod.mk.injEq, Prod.mk.injEq,
        Prod.mk.injEq] at hfour
      obtain ⟨-, hnum, h0, h1⟩ := hfour
      obtain rfl | rfl : i = 0 ∨ i = 1 := by omega
      · simp [h0]
      · simp [h1]
    · rw [hp, Option.map_some, hleaf] at htwo
      cases htwo
    · rw [hp, Option.map_some, hleaf] at hthree
      cases hthree
  -- page 5 is on the chain and cannot be reached
  rcases List.mem_cons.mp hmem5 with h | h
  · cases h
  · rw [← hN N (le_refl N)] at h
    have := IxMem.mem_of_mem_leavesFrom hclosed (by rw [hroot]; simp) h
    simp at this

end Rucbase
