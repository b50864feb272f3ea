import Rucbase.Index.Equiv.Reinsert

/-!
# The leaves after an update

What `insert_entry` and `delete_entry` make of the leaves of a well-formed tree, if the tree is well
formed after the call as well.  An insert changes one leaf, or replaces it by its two halves
(`IxMem.WellFormed.insert_leaves`); a delete changes one leaf, which may borrow from the leaf beside it
or be merged with it (`IxMem.WellFormed.delete_leaves`).
-/

namespace Rucbase

open EStateM IxIndexHandle

variable {κ : Type} {h H H' : Nat}

/-- A well-formed tree is one that can be scanned: its leaves are not empty, unless it is a single
leaf. -/
theorem IxMem.WellFormed.represents [LinearOrder κ] {M : IxMem κ} {order : Nat} {T : Tree κ H}
    (horder : 2 < order) (hM : M.WellFormed order T) : M.Represents T := by
  have hT := hM.formed.chained
  refine ⟨hT.held.tree, hT.held.root, hM.inner horder, hM.search, hT.ring, hT.first, hT.last,
    fun hH q l hql => ?_⟩
  obtain ⟨c, t, hplug, hmem⟩ := Tree.exists_leaf_of_mem_collect _ .top hql
  obtain ⟨rfl, rfl⟩ := Prod.mk.inj (List.mem_singleton.mp hmem)
  obtain rfl : c.plug t = T := hplug
  have hsized := hM.sized.of_plug
  cases c with
  | top => exact absurd rfl hH
  | down up no left key right stale =>
    have hmin : (Ctx.down up no left key right stale).minSize order = (order + 1) / 2 := rfl
    obtain ⟨x, hx⟩ := hsized.exists_mem horder (show _ ≠ 0 by rw [hmin]; omega)
    exact List.ne_nil_of_mem hx

/-! ### The leaves of a tree that has grown -/

/-- What becomes of a node in `splitNodeIfFull`. -/
def Tree.parts [Inhabited κ] (order : Nat) (t : Tree κ h) (counter : Int) : List (Tree κ h) :=
  if t.slots.size = order + 1 then [t.splitLeft, t.splitRight counter] else [t]

section SplitUp

variable [LinearOrder κ] [Inhabited κ] {β : Type} {f : Tree κ 0 → List β} {x : β} {order : Nat}

omit [LinearOrder κ] in
/-- The parts of an inner node have its children. -/
theorem Tree.exists_kid_of_mem_parts {t n : Tree κ (h + 1)} {counter : Int}
    (hn : n ∈ t.parts order counter) (hx : x ∈ n.collect f) :
    ∃ e ∈ t.kids, x ∈ e.2.collect f := by
  obtain ⟨e, he, hxe⟩ := List.mem_flatMap.mp hx
  refine ⟨e, ?_, hxe⟩
  unfold parts at hn
  split_ifs at hn
  · rcases List.mem_cons.mp hn with rfl | hn
    · exact List.mem_of_mem_take he
    · obtain rfl := List.mem_singleton.mp hn
      exact List.mem_of_mem_drop he
  · obtain rfl := List.mem_singleton.mp hn
    exact he

/-- Nothing is in the new tree that is not around the node or in its parts. -/
theorem mem_collect_splitUp {c : Ctx κ h H} {t : Tree κ h} {counter : Int}
    (hx : x ∈ (splitUp order c t counter).tree.collect f) :
    x ∈ c.before f ∨ (∃ n ∈ t.parts order counter, x ∈ n.collect f) ∨ x ∈ c.after f := by
  induction c generalizing counter with
  | top =>
    refine Or.inr (Or.inl ?_)
    unfold Tree.parts
    by_cases hfull : t.slots.size = order + 1
    · rw [splitUp_of_full hfull, attach] at hx
      rw [if_pos hfull]
      obtain ⟨e, he, hxe⟩ := List.mem_flatMap.mp hx
      rcases List.mem_cons.mp he with rfl | he
      · exact ⟨_, List.mem_cons_self, hxe⟩
      · obtain rfl := List.mem_singleton.mp he
        exact ⟨_, List.mem_cons_of_mem _ List.mem_cons_self, hxe⟩
    · rw [splitUp_of_not_full hfull] at hx
      rw [if_neg hfull]
      exact ⟨t, List.mem_cons_self, hx⟩
  | down up no left key right stale ih =>
    unfold Ctx.before Ctx.after Tree.parts
    simp only [List.mem_append, List.mem_flatMap]
    by_cases hfull : t.slots.size = order + 1
    · rw [splitUp_of_full hfull, attach] at hx
      rw [if_pos hfull]
      rcases ih hx with hbefore | ⟨n, hn, hxn⟩ | hafter
      · exact Or.inl (Or.inl hbefore)
      · obtain ⟨e, he, hxe⟩ := Tree.exists_kid_of_mem_parts hn hxn
        rcases Tree.mem_kids_insert he with he | rfl
        · rcases Ctx.mem_fill.mp he with rfl | he
          · exact Or.inr (Or.inl ⟨_, List.mem_cons_self, hxe⟩)
          · rcases List.mem_append.mp he with he | he
            · exact Or.inl (Or.inr ⟨e, he, hxe⟩)
            · exact Or.inr (Or.inr (Or.inl ⟨e, he, hxe⟩))
        · exact Or.inr (Or.inl ⟨_, List.mem_cons_of_mem _ List.mem_cons_self, hxe⟩)
      · exact Or.inr (Or.inr (Or.inr hafter))
    · rw [splitUp_of_not_full hfull, Ctx.collect_plug] at hx
      rw [if_neg hfull]
      simp only [Ctx.before, Ctx.after, List.mem_append, List.mem_flatMap] at hx
      rcases hx with (hbefore | hx) | hafter
      · exact Or.inl hbefore
      · exact Or.inr (Or.inl ⟨t, List.mem_cons_self, hx⟩)
      · exact Or.inr (Or.inr hafter)

end SplitUp

/-! ### Inserting -/

section Insert

variable [LinearOrder κ] [Inhabited κ] {order : Nat} {s s' : IxIndex κ} {c : Ctx κ 0 H}
  {t : Tree κ 0} {key : κ} {value : Rid} {answer : IxAnswer}

/-- The leaves with the parts of a leaf in its place. -/
def Ctx.chunksWith (c : Ctx κ 0 H) (parts : List (Tree κ 0)) : LeafChunks κ :=
  c.chunksBefore ++ parts.map (fun n => (n.no, n.slots.entries)) ++ c.chunksAfter

omit [LinearOrder κ] in
/-- The names of the leaves are the chain after the call. -/
theorem chainAfter_eq_map {A B : List Int} (hleaves : (c.plug t).leaves = A ++ t.no :: B)
    (hnodup : (A ++ t.no :: B).Nodup) (t' : Tree κ 0) (counter : Int) :
    chainAfter order t' counter A B = (c.chunksWith (t'.parts order counter)).map Prod.fst := by
  have hplug : c.chunksBefore.map Prod.fst ++ t.no :: c.chunksAfter.map Prod.fst =
      A ++ t.no :: B := by
    rw [← hleaves, ← Tree.map_fst_chunks, c.plug_chunks, List.map_append, List.map_append,
      List.append_assoc]
    rfl
  -- the leaf stands at one place of the chain only
  have hnodup' := List.nodup_middle.mp hnodup
  obtain ⟨hA, -, hB⟩ := (List.append_cons_inj_of_notMem
    (fun h => (List.nodup_cons.mp hnodup').1 (List.mem_append_left _ h))
    (fun h => (List.nodup_cons.mp hnodup').1 (List.mem_append_right _ h))).mp hplug.symm
  unfold chainAfter Ctx.chunksWith Tree.parts
  rw [List.map_append, List.map_append, ← hA, ← hB, List.append_assoc]
  split_ifs
  · rfl
  · rfl

/-- **The leaves after `insert_entry`.** -/
theorem IxMem.WellFormed.insert_leaves (horder : 2 < order)
    (hM : s.mem.WellFormed order (c.plug t)) (hok : s.links.Ok) (hfresh : s.links.Fresh)
    (hleads : c.Leads key t) (hstep : s.Step (.insertEntry key value, answer) s')
    {T' : Tree κ H'} (hT' : s'.mem.WellFormed order T') :
    T'.chunks = c.chunksWith ((t.insert key value).parts order s.mem.counter) := by
  -- without the pages that are out of reach
  let D := s.mem.Dead (c.plug t)
  have hI := hM.formed.indexOk_hide hok hfresh
  obtain ⟨c', t', A, B, M', hplug, hleads', hleaves, hdoes, -, hI'⟩ := insertEntry_does hI
    (hM.inner horder) (Nat.lt_succ_self H) key value fun c' t' hplug => by
      have hsized' := hM.sized
      rw [← hplug] at hsized'
      exact hsized'.of_plug.size.2
  obtain ⟨rfl, rfl⟩ := hleads.unique hleads' hplug.symm
  have hcounter : (s.hide D).mem.counter = s.mem.counter := rfl
  rw [hcounter] at hI'
  obtain ⟨u, hrun, rfl⟩ := hdoes (s.hide D) rfl
  -- and with them
  have hR : Hides D s (s.hide D) := s.hides_hide fun q hq => hq.2.1
  obtain ⟨s'', hrun', hR'⟩ := insertEntry_mimics (H + 1) key value s _ _ _ hR hrun
  have hcall : (IxCall.insertEntry key value).run (H + 1) s =
      .ok (.bool (decide (t.slots.keyAt (t.slots.lowerBound key) ≠ key))) s'' := by
    rw [IxCall.run, bind_of_ok hrun']
    rfl
  obtain ⟨-, rfl⟩ := hstep.eq_of_ok hcall
  let new := Rucbase.splitUp order c (t.insert key value) s.mem.counter
  have hchain := hT'.formed.chained
  have hchunks : T'.chunks = new.tree.chunks := by
    have hsized : new.tree.Sized order (rootMin new.height) order :=
      sized_splitUp horder hM.sized (hM.sized.of_plug.insert key value)
    have hinner : new.tree.Inner := by
      refine hsized.inner horder fun hH => ?_
      rw [rootMin, if_neg hH]
      decide
    have hlive : ∀ q ∈ new.tree.nos, ¬D q := by
      intro q hq
      obtain ⟨page, hp⟩ := Tree.Holds.exists_page hI'.focus.tree hq
      exact hR'.notMem hp
    have hholds := Tree.Holds.congr hI'.focus.tree fun q hq =>
      .of_eq (hR'.pages (hlive q hq)).symm
    have hroot : s'.mem.fileHdr.rootPage = new.tree.no := by
      have hhdr : u.mem.fileHdr = s'.mem.fileHdr := hR'.fileHdr
      rw [← hhdr]
      exact hI'.focus.root
    have heq := Tree.Holds.unique hchain.held.tree hholds (hT'.inner horder) hinner
      (hchain.held.root.symm.trans hroot)
    exact congrArg (fun T : Σ h, Tree κ h => T.2.chunks) heq
  have hnames : T'.leaves = chainAfter order (t.insert key value) s.mem.counter A B := by
    refine hchain.ring.unique ((hR'.linkRing fun q hq hdead => ?_).mp hI'.chain.ring)
    -- a leaf of the tree, or the new one
    have hold : q ∉ ixLeafHeaderPage :: (c.plug t).leaves := fun h => IxMem.not_dead_of_mem h hdead
    rw [hleaves] at hold
    have hne : q ≠ s.mem.counter := fun h => absurd hdead.2.1 (by rw [h]; exact lt_irrefl _)
    unfold chainAfter at hq
    split_ifs at hq
    · refine hold ?_
      have hq' : q ∈ ixLeafHeaderPage :: (A ++ t.no :: s.mem.counter :: B) := hq
      simp only [List.mem_cons, List.mem_append] at hq' ⊢
      tauto
    · exact hold hq
  have hnodup : (A ++ t.no :: B).Nodup := by
    rw [← hleaves]
    exact (List.nodup_cons.mp hI.chain.ring.nodup).2
  rw [chainAfter_eq_map hleaves hnodup] at hnames
  refine chunks_eq_of_subset ((Tree.map_fst_chunks T').trans hnames) ?_ fun e he => ?_
  · rw [← hnames]
    exact (List.nodup_cons.mp hchain.ring.nodup).2
  · rw [hchunks] at he
    unfold Ctx.chunksWith
    rw [List.mem_append, List.mem_append, List.mem_map]
    rcases mem_collect_splitUp he with hbefore | ⟨n, hn, hen⟩ | hafter
    · exact Or.inl (Or.inl hbefore)
    · exact Or.inl (Or.inr ⟨n, hn, (List.mem_singleton.mp hen).symm⟩)
    · exact Or.inr hafter

end Insert

/-! ### Deleting -/

section Delete

variable [LinearOrder κ] {order fuel : Nat} {M : IxMem κ} {c : Ctx κ 0 H} {t : Tree κ 0} {key : κ}

/-- `AdjustRoot` of an empty leaf: no page is the root. -/
theorem IxMem.Formed.emptyRoot (hF : M.Formed order t) (hsize : t.slots.size = 0)
    (hfuel : 0 < fuel) :
    IxDoes (coalesceOrRedistribute fuel t.no) M true (M.release.setRoot invalidPageId) := by
  obtain ⟨fuel, rfl⟩ := Nat.exists_eq_succ_of_ne_zero hfuel.ne'
  obtain ⟨page, hp, hparent, hleaf, hshows⟩ := hF.chained.held.tree
  have hroot : page.parent = invalidPageId := hparent
  have hnum : page.numKey = 0 := by
    rw [hshows.numKey, Tree.row, Slots.size_map, hsize]
    rfl
  rw [coalesceOrRedistribute]
  apply Does.get_bind
  intro s _
  apply Does.bind (node_does hp)
  rw [if_pos hroot, adjustRoot]
  apply Does.bind (node_does hp)
  rw [if_pos hleaf, if_pos hnum]
  apply Does.bind releaseNodeHandle_does
  apply Does.bind (updateRootPageNo_does _)
  exact Does.pure

/-- A leaf that is not the root has two entries. -/
theorem IxMem.WellFormed.two_le (horder : 2 < order) (hM : M.WellFormed order (c.plug t))
    (hc : c.depth ≠ 0) : 2 ≤ (c.plug t).toList.length := by
  have hsize := hM.sized.of_plug.size.1
  have hmin : c.minSize order = (order + 1) / 2 := by
    cases c with
    | top => exact absurd rfl hc
    | down up no left key right stale => rfl
  unfold Tree.toList
  rw [Ctx.collect_plug, List.length_append, List.length_append]
  show 2 ≤ _ + t.slots.size + _
  omega

/-- `delete_entry` of the last key leaves no tree. -/
theorem IxMem.WellFormed.deleteEntry_last {t : Tree κ 0} (horder : 2 < order)
    (hM : M.WellFormed order t) (hkey : key ∈ t.leafKeys) (hsize : t.slots.size = 1)
    (hfuel : 0 < fuel) :
    ∃ M', IxDoes (deleteEntry fuel key) M true M' ∧ M'.fileHdr.rootPage = invalidPageId := by
  have hM' : M.WellFormed order ((Ctx.top : Ctx κ 0 0).plug t) := hM
  obtain ⟨M₁, hreach, hF⟩ := hM'.removes horder hkey hfuel
  have hremoved := Tree.size_removed hM.ordered hkey
  have hempty := IxMem.Formed.emptyRoot (t := t.removed key) hF (by omega) hfuel
  refine ⟨M₁.release.setRoot invalidPageId, ?_, rfl⟩
  have hrest : IxDoes (do
      let _ ← coalesceOrRedistribute fuel t.no
      let _ ← unpinPage t.no
      return true) M₁ true (M₁.release.setRoot invalidPageId) :=
    hempty.bind (unpinPage_bind_does fun _ => Does.pure)
  exact Reaches.pure_iff.mp (hreach.trans (Reaches.pure_iff.mpr hrest))

variable [Inhabited κ] {s s' : IxIndex κ} {answer : IxAnswer}

/-- **The leaves after `delete_entry`** of a key that is stored. -/
theorem IxMem.WellFormed.delete_leaves (horder : 2 < order)
    (hM : s.mem.WellFormed order (c.plug t)) (hkey : key ∈ t.leafKeys)
    (hstep : s.Step (.deleteEntry key, answer) s') {T' : Tree κ H'}
    (hT' : s'.mem.WellFormed order T') : c.Evens order t (t.removed key) T'.chunks := by
  have hroot : s'.mem.fileHdr.rootPage ≠ invalidPageId := by
    have hh := hT'.formed.chained.held
    have hge := hh.range T'.no (List.mem_append_left _ T'.no_mem_nos)
    intro h
    rw [← show s'.mem.fileHdr.rootPage = T'.no from hh.root, h] at hge
    exact absurd hge (by decide)
  -- the call returns, so that no inner node becomes too small
  have hnot : ¬c.Underflows order t := by
    intro hunder
    obtain ⟨rounds, hrun⟩ := hstep
    have hrun' := Below.of_le (IxCall.run_below (.deleteEntry key))
      (Nat.le_add_right rounds (H + 1)) _ _ _ hrun
    obtain ⟨e, s'', hfail⟩ := hM.deleteEntry_fails horder hkey hunder
      (show H < rounds + (H + 1) by omega) s rfl
    rw [IxCall.run, bind_of_error hfail] at hrun'
    cases hrun'
  have htwo : 2 ≤ (c.plug t).toList.length := by
    by_contra hcon
    cases c with
    | down up no left key right stale => exact hcon (hM.two_le horder (Nat.succ_ne_zero _))
    | top =>
      have hpos := List.length_pos_of_mem hkey
      have hone : t.slots.size = 1 := by
        have hlen : t.leafKeys.length = t.slots.size := List.length_map _
        have hcon' : ¬2 ≤ t.slots.size := hcon
        omega
      obtain ⟨M', hdoes, hinvalid⟩ := IxMem.WellFormed.deleteEntry_last horder hM hkey hone
        Nat.one_pos
      obtain ⟨s'', hrun, rfl⟩ := hdoes s rfl
      have hcall : (IxCall.deleteEntry key).run 1 s = .ok (.bool true) s'' := by
        rw [IxCall.run, bind_of_ok hrun]
        rfl
      obtain ⟨-, rfl⟩ := hstep.eq_of_ok hcall
      exact hroot hinvalid
  obtain ⟨M', H'', T'', hdoes, hF, hS, hevens, -⟩ := hM.deleteEntry_does horder htwo hkey hnot
    (Nat.lt_succ_self (H + 1))
  obtain ⟨s'', hrun, rfl⟩ := hdoes s rfl
  have hcall : (IxCall.deleteEntry key).run (H + 2) s = .ok (.bool true) s'' := by
    rw [IxCall.run, bind_of_ok hrun]
    rfl
  obtain ⟨-, rfl⟩ := hstep.eq_of_ok hcall
  have hinner : T''.Inner := by
    refine hS.inner horder fun hH => ?_
    rw [rootMin, if_neg hH]
    decide
  have heq := hT'.formed.unique hF (hT'.inner horder) hinner
  have hchunks : T'.chunks = T''.chunks := congrArg (fun T : Σ h, Tree κ h => T.2.chunks) heq
  rw [hchunks]
  exact hevens

end Delete

end Rucbase
