import Rucbase.Index.Equiv.Reach
import Rucbase.Index.IxRuns

/-!
# Runs that insert

In every run of `insert_entry` and `GetValue` on a new index every call returns, and after every
call the pages are consistent (`insert_runs_treeOk`).
-/

namespace Rucbase

open EStateM IxIndexHandle

variable {κ : Type} {H : Nat}

/-- A new index: an empty leaf, on the chain by itself. -/
theorem create_indexOk {fd : Int} {colType : ColType} {colLen : Int} {order : Nat}
    {keys : Nat → κ} {rids : Nat → Rid} {pool : PageId → Option (IxPage κ)}
    {pinCount : PageId → Nat} {fd2pageno : Int → Int} (hpool : ∀ q, pool ⟨fd, q⟩ = none) :
    IndexOk (IxIndex.create fd colType colLen order keys rids pool pinCount fd2pageno).mem order
      (⟨ixInitRootPage, ⟨[], keys⟩⟩ : Tree κ 0) [ixInitRootPage] := by
  let leaf (link : Int) : IxPage κ :=
    { parent := ixNoPage, numKey := 0, isLeaf := true, prevLeaf := link, nextLeaf := link
      keys, rids }
  let M := (IxIndex.create fd colType colLen order keys rids pool pinCount fd2pageno).mem
  -- nothing is in the pool, so all pages are those on disk
  have hpages : ∀ q, M.pages q = if q = ixLeafHeaderPage then some (leaf ixInitRootPage)
      else if q = ixInitRootPage then some (leaf ixLeafHeaderPage) else none := by
    intro q
    exact PageStore.view_of_pool_none (hpool q)
  have hone : M.pages ixLeafHeaderPage = some (leaf ixInitRootPage) := hpages _
  have htwo : M.pages ixInitRootPage = some (leaf ixLeafHeaderPage) := hpages _
  have hcounter : M.counter = 3 := Function.update_self ..
  refine ⟨⟨trivial, ⟨leaf ixLeafHeaderPage, htwo, rfl, rfl, ?_⟩, ?_, fun q hq => ?_, fun q hq => ?_, rfl,
    rfl⟩, ⟨⟨?_, ?_⟩, fun q hq => ?_, fun q => ?_⟩, rfl, rfl⟩
  · exact ⟨rfl, rfl, fun he => by cases he⟩
  · exact List.nodup_singleton _
  · obtain rfl : q = ixInitRootPage := List.mem_singleton.mp hq
    show 2 ≤ ixInitRootPage ∧ ixInitRootPage < M.counter
    rw [hcounter]
    exact ⟨le_refl _, by decide⟩
  · have hge : M.counter ≤ q := hq
    rw [hcounter] at hge
    refine (hpages q).trans ?_
    rw [if_neg (show q ≠ 1 by omega), if_neg (show q ≠ 2 by omega)]
  · decide
  · -- pages 1 and 2 point at each other
    have hnext : ∀ {q link}, M.pages q = some (leaf link) → nextOf M.pages q = some link ∧
        prevOf M.pages q = some link := by
      intro q link hq
      rw [nextOf, prevOf, hq]
      exact ⟨rfl, rfl⟩
    obtain ⟨h1, h2⟩ := hnext hone
    obtain ⟨h3, h4⟩ := hnext htwo
    exact .cons_cons ⟨h1, h4⟩ (.cons_cons ⟨h3, h2⟩ (.singleton _))
  · obtain rfl : q = ixInitRootPage := List.mem_singleton.mp hq
    exact le_refl _
  · show q ∈ [1, 2] ↔ ∃ page, M.pages q = some page ∧ page.isLeaf = true
    rw [hpages]
    by_cases h1 : q = ixLeafHeaderPage
    · subst h1
      exact ⟨fun _ => ⟨_, rfl, rfl⟩, fun _ => by decide⟩
    · by_cases h2 : q = ixInitRootPage
      · subst h2
        exact ⟨fun _ => ⟨_, rfl, rfl⟩, fun _ => by decide⟩
      · rw [if_neg h1, if_neg h2]
        simp [h1, h2]

variable [LinearOrder κ]

/-- The index holds a tree of the right shape. -/
def IxIndex.Shaped (order : Nat) (s : IxIndex κ) : Prop :=
  ∃ (H : Nat) (T : Tree κ H) (leaves : List Int), IndexOk s.mem order T leaves ∧ T.Sorted ∧
    T.Sized order (rootMin H) order

/-- Pages that are leaves stay leaves. -/
def IxIndex.KeepsLeafPages (s s' : IxIndex κ) : Prop :=
  ∀ q page, s.mem.pages q = some page → page.isLeaf = true →
    ∃ page', s'.mem.pages q = some page' ∧ page'.isLeaf = true

/-- `insert_entry` or `GetValue`. -/
def IxCall.InsertsOrGets : IxCall κ → Prop
  | .insertEntry _ _ => True
  | .getValue _ => True
  | _ => False

variable [Inhabited κ] {order : Nat} {s : IxIndex κ}

/-- **One call** of `insert_entry` or `GetValue` returns and keeps the shape. -/
theorem IxIndex.Shaped.call (horder : 2 < order) (hs : s.Shaped order) {a : IxCall κ}
    (ha : a.InsertsOrGets) :
    ∃ n b s', a.run n s = .ok b s' ∧ s'.Shaped order ∧ s.KeepsLeafPages s' := by
  obtain ⟨H, T, leaves, hok, hsorted, hsized⟩ := hs
  have hinner : T.Inner := hsized.inner horder fun hne => by
    rw [rootMin, if_neg hne]
    decide
  cases a with
  | insertEntry key value =>
    obtain ⟨c, t, A, B, M', rfl, -, rfl, hdoes, -, hok'⟩ := insertEntry_does hok hinner
      (Nat.lt_succ_self H) key value fun c t hplug => by
        subst hplug
        exact hsized.of_plug.size.2
    obtain ⟨s', hrun, rfl⟩ := hdoes s rfl
    refine ⟨H + 1, _, s', by rw [IxCall.run, bind_of_ok hrun]; rfl,
      ⟨_, _, _, hok', sorted_splitUp horder hsorted (hsorted.of_plug.node.insert key value),
        sized_splitUp horder hsized (hsized.of_plug.insert key value)⟩, fun q page hp hleaf => ?_⟩
    -- a leaf stays a leaf: the chain only grows
    refine (hok'.chain.mem_iff q).mp ?_
    have hq := (hok.chain.mem_iff q).mpr ⟨page, hp, hleaf⟩
    rw [chainAfter]
    split_ifs
    · simp only [List.mem_cons, List.mem_append] at hq ⊢
      rcases hq with hq | hq | hq | hq
      · exact Or.inl hq
      · exact Or.inr (Or.inl hq)
      · exact Or.inr (Or.inr (Or.inl hq))
      · exact Or.inr (Or.inr (Or.inr (Or.inr hq)))
    · exact hq
  | getValue key =>
    obtain ⟨c, t, -, -, hdoes⟩ := getValue_does hok.focus.tree hok.focus.root hinner
      (Nat.lt_succ_self H) key
    obtain ⟨s', hrun, hmem⟩ := hdoes s rfl
    refine ⟨H + 1, _, s', by rw [IxCall.run, bind_of_ok hrun]; rfl,
      ⟨H, T, leaves, hmem.symm ▸ hok, hsorted, hsized⟩, fun q page hp hleaf => ?_⟩
    exact ⟨page, by rw [hmem, hp], hleaf⟩
  | deleteEntry key => exact ha.elim
  | reopen fd => exact ha.elim
  | restart fd => exact ha.elim

/-- **Insertion keeps the tree consistent.**  In every run of `insert_entry` and `GetValue` on a new
index, after every call the pages are consistent and the next call returns; leaf pages stay leaf
pages. -/
theorem insert_runs_treeOk (fd : Int) (colType : ColType) (colLen : Int) (horder : 2 < order)
    (keys : Nat → κ) (rids : Nat → Rid) (pool : PageId → Option (IxPage κ))
    (pinCount : PageId → Nat) (fd2pageno : Int → Int) (hpool : ∀ q, pool ⟨fd, q⟩ = none)
    (run : List ((IxCall κ × IxAnswer) × IxIndex κ))
    (hrun : Run (fun s a s' => a.1.InsertsOrGets ∧ s.Step a s')
      (IxIndex.create fd colType colLen order keys rids pool pinCount fd2pageno) run) :
    (∀ s ∈ IxIndex.create fd colType colLen order keys rids pool pinCount fd2pageno ::
        run.map Prod.snd,
      s.mem.TreeOk ∧ ∀ a : IxCall κ, a.InsertsOrGets → ∃ b s', s.Step (a, b) s') ∧
    Along (fun s _ s' => s.KeepsLeafPages s')
      (IxIndex.create fd colType colLen order keys rids pool pinCount fd2pageno) run := by
  have hstep : ∀ (s : IxIndex κ) (a : IxCall κ × IxAnswer) s', s.Shaped order →
      (a.1.InsertsOrGets ∧ s.Step a s') → True → s'.Shaped order ∧ s.KeepsLeafPages s' := by
    rintro s ⟨a, b⟩ s' hs ⟨ha, hstep⟩ -
    obtain ⟨n, b', t, hrun, ht, hkeep⟩ := hs.call horder ha
    obtain ⟨-, rfl⟩ := hstep.eq_of_ok hrun
    exact ⟨ht, hkeep⟩
  have hstart : (IxIndex.create fd colType colLen order keys rids pool pinCount
      fd2pageno).Shaped order := by
    refine ⟨0, _, _, create_indexOk hpool, fun i j _ _ hj => ?_, Nat.zero_le _, Nat.zero_le _⟩
    exact absurd hj (Nat.not_lt_zero _)
  obtain ⟨hall, hkeep⟩ := Run.along_of_invariant hstep hrun hstart
    (Along.of_forall (fun _ _ _ => trivial) _ _)
  refine ⟨fun s hs => ?_, hkeep⟩
  have hshaped : s.Shaped order := by
    rcases List.mem_cons.mp hs with rfl | hs
    · exact hstart
    · obtain ⟨e, he, rfl⟩ := List.mem_map.mp hs
      exact hall e he
  obtain ⟨H, T, leaves, hok, hsorted, hsized⟩ := hshaped
  refine ⟨hok.treeOk hsorted hsized, fun a ha => ?_⟩
  obtain ⟨n, b, s', hcall, -⟩ := IxIndex.Shaped.call horder ⟨H, T, leaves, hok, hsorted, hsized⟩ ha
  exact ⟨b, s', n, hcall⟩

/-- A list of inserts. -/
theorem insertsOrGets_insertAll {keys : List Int} {a : IxCall Int} (ha : a ∈ insertAll keys) :
    a.InsertsOrGets := by
  obtain ⟨k, -, rfl⟩ := List.mem_map.mp ha
  trivial

/-- Five keys in an index of order 3 make a tree of two levels. -/
theorem insert_runs_treeOk_five :
    ((intIndex 3).trace 3 (insertAll [1, 2, 3, 4, 5])).map (fun e => e.1.2) =
        List.replicate 5 (.bool true) ∧
      ∀ s ∈ intIndex 3 :: ((intIndex 3).trace 3 (insertAll [1, 2, 3, 4, 5])).map Prod.snd,
        s.mem.TreeOk := by
  refine ⟨by decide +kernel, fun s hs => ?_⟩
  exact ((insert_runs_treeOk 3 .int 4 (show 2 < 3 by decide) (fun _ => 0) (fun _ => ⟨0, 0⟩)
    (fun _ => none) (fun _ => 0) (fun _ => 0) (fun _ => rfl) _
    (IxIndex.run_trace 3 (fun a ha => insertsOrGets_insertAll ha) (intIndex 3))).1 s hs).1

end Rucbase
