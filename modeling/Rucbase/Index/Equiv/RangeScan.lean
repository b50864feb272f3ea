import Rucbase.Index.Equiv.IxScan
import Rucbase.Index.Equiv.SearchRuns

/-!
# Range scans

A scan from `lower_bound(a)` to `upper_bound(b)`.  Both look at one leaf only, the one to which the
key leads.  If that leaf has no entry from `a` on, `lower_bound` returns the slot behind its last
entry, which is no position of the chain unless the leaf is the last one, and `rid` throws; if it
has no entry above `b`, `upper_bound` returns the end of the whole chain, and the scan goes on to
the end.  In all other cases the scan returns the entries from `a` to `b` (`range_scan_iff`).
-/

namespace Rucbase

open EStateM IxIndexHandle

variable {κ : Type} {h H : Nat}

/-! ### The leaves of a tree -/

/-- The leaves of a tree with their entries, from left to right. -/
def Tree.chunks (t : Tree κ h) : LeafChunks κ := t.collect fun leaf => [(leaf.no, leaf.slots.entries)]

section Collect

variable {β γ : Type} (f : Tree κ 0 → List β)

theorem Tree.map_collect (g : β → γ) (t : Tree κ h) :
    (t.collect f).map g = t.collect fun leaf => (f leaf).map g := by
  induction h with
  | zero => rfl
  | succ h ih =>
    show (t.kids.flatMap fun e => e.2.collect f).map g =
      t.kids.flatMap fun e => e.2.collect fun leaf => (f leaf).map g
    rw [List.map_flatMap]
    simp only [ih]

theorem Tree.flatMap_collect (g : β → List γ) (t : Tree κ h) :
    (t.collect f).flatMap g = t.collect fun leaf => (f leaf).flatMap g := by
  induction h with
  | zero => rfl
  | succ h ih =>
    show (t.kids.flatMap fun e => e.2.collect f).flatMap g =
      t.kids.flatMap fun e => e.2.collect fun leaf => (f leaf).flatMap g
    rw [List.flatMap_assoc]
    simp only [ih]

theorem Ctx.flatMap_before (g : β → List γ) (c : Ctx κ h H) :
    (c.before f).flatMap g = c.before fun leaf => (f leaf).flatMap g := by
  induction c with
  | top => rfl
  | down up no left key right stale ih =>
    simp only [before, List.flatMap_append, ih, List.flatMap_assoc, Tree.flatMap_collect]

theorem Ctx.flatMap_after (g : β → List γ) (c : Ctx κ h H) :
    (c.after f).flatMap g = c.after fun leaf => (f leaf).flatMap g := by
  induction c with
  | top => rfl
  | down up no left key right stale ih =>
    simp only [after, List.flatMap_append, ih, List.flatMap_assoc, Tree.flatMap_collect]

/-- What is collected comes from some leaf. -/
theorem Tree.exists_leaf_of_mem_collect {x : β} (c : Ctx κ h H) {t : Tree κ h}
    (hx : x ∈ t.collect f) :
    ∃ (c' : Ctx κ 0 H) (leaf : Tree κ 0), c'.plug leaf = c.plug t ∧ x ∈ f leaf := by
  induction h with
  | zero => exact ⟨c, t, rfl, hx⟩
  | succ h ih =>
    obtain ⟨e, he, hxe⟩ := List.mem_flatMap.mp hx
    obtain ⟨i, hi⟩ := List.getElem?_of_mem he
    obtain ⟨c', leaf, hplug, hleaf⟩ :=
      ih (.down c t.no (t.kids.take i) e.1 (t.kids.drop (i + 1)) t.slots.stale) hxe
    refine ⟨c', leaf, hplug.trans ?_, hleaf⟩
    show c.plug (Ctx.fill _ _ _ _ _ _) = _
    rw [← Tree.eq_fill hi]

end Collect

theorem Tree.map_fst_chunks (t : Tree κ h) : t.chunks.map Prod.fst = t.leaves :=
  t.map_collect _ _

theorem Tree.chunkEntries_chunks (t : Tree κ h) : chunkEntries t.chunks = t.toList := by
  rw [chunkEntries, chunks, flatMap_collect]
  simp only [List.flatMap_cons, List.flatMap_nil, List.append_nil]
  rfl

/-- The entries to the left of a leaf. -/
abbrev Ctx.entriesBefore (c : Ctx κ h H) : List (κ × Rid) := c.before fun leaf => leaf.slots.entries

/-- The entries to the right of a leaf. -/
abbrev Ctx.entriesAfter (c : Ctx κ h H) : List (κ × Rid) := c.after fun leaf => leaf.slots.entries

/-- The leaves to the left of a node. -/
abbrev Ctx.chunksBefore (c : Ctx κ h H) : LeafChunks κ :=
  c.before fun leaf => [(leaf.no, leaf.slots.entries)]

/-- The leaves to the right of a node. -/
abbrev Ctx.chunksAfter (c : Ctx κ h H) : LeafChunks κ :=
  c.after fun leaf => [(leaf.no, leaf.slots.entries)]

theorem Ctx.plug_chunks (c : Ctx κ h H) (t : Tree κ h) :
    (c.plug t).chunks = c.chunksBefore ++ t.chunks ++ c.chunksAfter := Ctx.collect_plug _ c t

/-- The chunk of a leaf among the others. -/
theorem Ctx.chunks_plug (c : Ctx κ 0 H) (t : Tree κ 0) :
    ∃ A B : LeafChunks κ, (c.plug t).chunks = A ++ (t.no, t.slots.entries) :: B ∧
      chunkEntries A = c.entriesBefore ∧ chunkEntries B = c.entriesAfter := by
  refine ⟨c.chunksBefore, c.chunksAfter, ?_, ?_, ?_⟩
  · rw [c.plug_chunks, List.append_assoc]
    rfl
  · rw [chunkEntries, Ctx.flatMap_before]
    simp only [List.flatMap_cons, List.flatMap_nil, List.append_nil]
  · rw [chunkEntries, Ctx.flatMap_after]
    simp only [List.flatMap_cons, List.flatMap_nil, List.append_nil]

/-- The entries of a tree on both sides of a slot of a leaf. -/
theorem Ctx.toList_plug (c : Ctx κ 0 H) (t : Tree κ 0) (i : Nat) :
    (c.plug t).toList = (c.entriesBefore ++ t.slots.entries.take i) ++
      (t.slots.entries.drop i ++ c.entriesAfter) := by
  rw [Tree.toList, Ctx.collect_plug, List.append_assoc, List.append_assoc,
    ← List.append_assoc (t.slots.entries.take i), List.take_append_drop]
  rfl

/-! ### Search order -/

section SearchOrder

variable [LinearOrder κ]

/-- Every node is strictly sorted, the first key of an inner node apart, and the keys of an inner
node separate the entries below its children. -/
def Tree.SearchOrdered : {h : Nat} → Tree κ h → Prop
  | 0, t => t.slots.SortedFrom 0
  | _ + 1, t => t.slots.SortedFrom 1 ∧ ∀ i e, t.kids[i]? = some e → Tree.SearchOrdered e.2 ∧
      ∀ x ∈ e.2.toList, (1 ≤ i → t.slots.keyAt i ≤ x.1) ∧
        (i + 1 < t.slots.size → x.1 < t.slots.keyAt (i + 1))

theorem Tree.SearchOrdered.of_plug {c : Ctx κ h H} {t : Tree κ h}
    (hT : (c.plug t).SearchOrdered) : t.SearchOrdered := by
  induction c with
  | top => exact hT
  | down up no left key right stale ih =>
    exact ((ih hT).2 left.length (key, t) (Ctx.getElem?_fill_self t)).1

/-- The leaf at which `FindLeafPage` ends. -/
def Tree.leafOf (key : κ) : {h : Nat} → Tree κ h → Option (Tree κ 0)
  | 0, t => some t
  | _ + 1, t => t.kids[t.slots.lookupIndex key]?.bind fun e => leafOf key e.2

theorem Ctx.Leads.leafOf {key : κ} {c : Ctx κ h H} {t : Tree κ h} (hleads : c.Leads key t) :
    (c.plug t).leafOf key = t.leafOf key := by
  induction c with
  | top => rfl
  | down up no left k right stale ih =>
    obtain ⟨hindex, hup⟩ := hleads
    refine (ih hup).trans ?_
    rw [Tree.leafOf, hindex, Ctx.getElem?_fill_self]
    rfl

/-- The entries of a tree lie where its keys lie. -/
theorem Tree.Within.toList_mem {n : Nat} {S : Set κ} {t : Tree κ h} (ht : t.Within n S) :
    ∀ x ∈ t.toList, x.1 ∈ S := by
  induction h generalizing S with
  | zero =>
    intro x hx
    have ht' : t.slots.KeysIn 0 S := ht
    obtain ⟨i, hi⟩ := List.getElem?_of_mem (show x ∈ t.slots.entries from hx)
    rw [← Slots.keyAt_of_getElem? hi]
    exact ht'.mem i (Nat.zero_le i) (List.getElem?_eq_some_iff.mp hi).1
  | succ h ih =>
    intro x hx
    obtain ⟨e, he, hxe⟩ := List.mem_flatMap.mp hx
    obtain ⟨i, hi⟩ := List.getElem?_of_mem he
    exact (ih (ht.2 i e hi) x hxe).1

/-- A tree whose keys divide the key space is search-ordered. -/
theorem Tree.Within.searchOrdered {n : Nat} (hn : n ≤ 1) {S : Set κ} {t : Tree κ h}
    (ht : t.Within n S) : t.SearchOrdered := by
  induction h generalizing S with
  | zero =>
    have ht' : t.slots.KeysIn 0 S := ht
    exact ht'.sorted
  | succ h ih =>
    refine ⟨ht.1.sorted.mono hn, fun i e he => ⟨ih (ht.2 i e he), fun x hx => ?_⟩⟩
    exact ((ht.2 i e he).toList_mem x hx).2

/-- **The search ends between smaller and larger entries.** -/
theorem Ctx.Leads.entries {key : κ} {c : Ctx κ h H} {t : Tree κ h} (hleads : c.Leads key t)
    (hT : (c.plug t).SearchOrdered) :
    (∀ x ∈ c.entriesBefore, x.1 < key) ∧ ∀ x ∈ c.entriesAfter, key < x.1 := by
  induction c with
  | top =>
    constructor
    · intro x hx
      cases hx
    · intro x hx
      cases hx
  | down up no left k right stale ih =>
    obtain ⟨hindex, hup⟩ := hleads
    obtain ⟨hbefore, hafter⟩ := ih hup hT
    obtain ⟨hsorted, hkids⟩ := Tree.SearchOrdered.of_plug (c := up) hT
    obtain ⟨hle, hlt⟩ := hsorted.upperBound_spec (le_refl 1) key
    have hidx : (Ctx.fill no left k right stale t).slots.upperBound key - 1 = left.length := hindex
    have hsize : (Ctx.fill no left k right stale t).slots.size = left.length + right.length + 1 :=
      Ctx.size_fill t
    constructor
    · intro x hx
      rcases List.mem_append.mp hx with hx | hx
      · exact hbefore x hx
      · -- a child to the left: its entries are below the key after it
        obtain ⟨e, he, hxe⟩ := List.mem_flatMap.mp hx
        obtain ⟨i, hi⟩ := List.getElem?_of_mem he
        have hlen := (List.getElem?_eq_some_iff.mp hi).1
        have hkid : (Ctx.fill no left k right stale t).kids[i]? = some e := by
          show (left ++ (k, t) :: right)[i]? = some e
          rw [List.getElem?_append_left hlen, hi]
        have hnext := ((hkids i e hkid).2 x hxe).2 (by omega)
        exact hnext.trans_le (hle (i + 1) (by omega) (by omega))
    · intro x hx
      rcases List.mem_append.mp hx with hx | hx
      · -- a child to the right: its entries are not below its own key
        obtain ⟨e, he, hxe⟩ := List.mem_flatMap.mp hx
        obtain ⟨i, hi⟩ := List.getElem?_of_mem he
        have hlen := (List.getElem?_eq_some_iff.mp hi).1
        have hkid : (Ctx.fill no left k right stale t).kids[left.length + 1 + i]? = some e := by
          show (left ++ (k, t) :: right)[left.length + 1 + i]? = some e
          rw [List.getElem?_append_right (by omega),
            show left.length + 1 + i - left.length = i + 1 by omega, List.getElem?_cons_succ, hi]
        have hfirst := ((hkids _ e hkid).2 x hxe).1 (by omega)
        exact (hlt (left.length + 1 + i) (by omega) (by omega) (by omega)).trans_le hfirst
      · exact hafter x hx

/-- The entries of a search-ordered tree ascend. -/
theorem Tree.SearchOrdered.pairwise {t : Tree κ h} (ht : t.SearchOrdered) :
    t.toList.Pairwise fun e e' => e.1 < e'.1 := by
  induction h with
  | zero =>
    have ht' : t.slots.SortedFrom 0 := ht
    show t.slots.entries.Pairwise _
    rw [List.pairwise_iff_getElem]
    intro i j hi hj hij
    have hlt := ht' i j (Nat.zero_le i) hij hj
    rwa [Slots.keyAt_of_getElem? (List.getElem?_eq_getElem hi),
      Slots.keyAt_of_getElem? (List.getElem?_eq_getElem hj)] at hlt
  | succ h ih =>
    obtain ⟨hsorted, hkids⟩ := ht
    show (t.kids.flatMap fun e => e.2.toList).Pairwise _
    rw [List.flatMap_def, List.pairwise_flatten]
    refine ⟨fun l hl => ?_, ?_⟩
    · obtain ⟨e, he, rfl⟩ := List.mem_map.mp hl
      obtain ⟨i, hi⟩ := List.getElem?_of_mem he
      exact ih (hkids i e hi).1
    · rw [List.pairwise_map, List.pairwise_iff_getElem]
      intro i j hi hj hij x hx y hy
      -- the key of the right child separates them
      have h1 := (hkids i _ (List.getElem?_eq_getElem hi)).2 x hx
      have h2 := (hkids j _ (List.getElem?_eq_getElem hj)).2 y hy
      have hj' : j < t.slots.size := hj
      exact (h1.2 (by omega)).trans_le
        ((hsorted.le (by omega) (by omega) hj').trans (h2.1 (by omega)))

theorem Tree.SearchOrdered.nodup {t : Tree κ h} (ht : t.SearchOrdered) : t.toList.Nodup :=
  ht.pairwise.imp fun hlt heq => hlt.ne (congrArg Prod.fst heq)

end SearchOrder

/-! ### Positions -/

/-- The memory holds the search-ordered tree, and its leaves are chained from left to right.  Only a
root that is a leaf may be empty. -/
structure IxMem.Represents [LinearOrder κ] (M : IxMem κ) (T : Tree κ H) : Prop where
  tree : T.Holds M.pages invalidPageId
  root : M.fileHdr.rootPage = T.no
  inner : T.Inner
  order : T.SearchOrdered
  ring : LinkRing (nextOf M.pages) (prevOf M.pages) ixLeafHeaderPage T.leaves
  first : T.leaves.head? = some M.fileHdr.firstLeaf
  last : T.leaves.getLast? = some M.fileHdr.lastLeaf
  nonempty : H ≠ 0 → ∀ q l, (q, l) ∈ T.chunks → l ≠ []

variable [LinearOrder κ] {M : IxMem κ} {T : Tree κ H}

namespace IxMem.Represents

/-- The page of a leaf. -/
theorem leaf {c : Ctx κ 0 H} {t : Tree κ 0} (hM : M.Represents (c.plug t)) :
    ∃ page, M.pages t.no = some page ∧ page.isLeaf = true ∧ page.Shows t.slots := by
  obtain ⟨page, hp, -, hleaf, hshows⟩ := ((Ctx.holds_plug c t).mp hM.tree).2
  rw [Tree.row_leaf] at hshows
  exact ⟨page, hp, hleaf, hshows⟩

/-- The chain that a scan sees. -/
theorem chain (hM : M.Represents T) : M.Chain T.chunks := by
  refine ⟨?_, fun q l hql => ?_, fun A B q l q' l' hsplit => ?_, ?_, ?_, fun q l hql hne => ?_⟩
  · rw [Tree.map_fst_chunks]
    exact (List.nodup_cons.mp hM.ring.nodup).2
  · obtain ⟨c, t, hplug, hmem⟩ := Tree.exists_leaf_of_mem_collect _ .top hql
    obtain ⟨rfl, rfl⟩ := Prod.mk.inj (List.mem_singleton.mp hmem)
    obtain rfl : c.plug t = T := hplug
    obtain ⟨page, hp, hleaf, hshows⟩ := hM.leaf
    refine ⟨page, hp, hleaf, hshows.numKey, fun i e he => ⟨?_, hshows.rids he⟩⟩
    rw [hshows.keys, Slots.keyAt_of_getElem? he]
  · have hring := hM.ring
    rw [← Tree.map_fst_chunks, hsplit, List.map_append, List.map_cons, List.map_cons] at hring
    obtain ⟨x, C, hC, -, hlinked, -⟩ := hring.split
    obtain rfl : q' = x := (List.cons.inj hC).1
    exact hlinked.1
  · rw [Tree.map_fst_chunks]
    exact hM.first
  · rw [Tree.map_fst_chunks]
    exact hM.last
  · cases H with
    | zero =>
      have hmem := List.mem_singleton.mp (show (q, l) ∈ [(T.no, T.slots.entries)] from hql)
      rw [hmem] at hne
      exact absurd rfl hne
    | succ H => exact hM.nonempty (Nat.succ_ne_zero H) q l hql

/-- A slot of a leaf as a position of the chain. -/
theorem position {c : Ctx κ 0 H} {t : Tree κ 0} (hM : M.Represents (c.plug t)) {i : Nat}
    (hi : i ≤ t.slots.size) (hlast : i < t.slots.size ∨ t.no = M.fileHdr.lastLeaf) :
    (⟨t.no, i⟩ : Iid).At (c.plug t).chunks (c.entriesBefore ++ t.slots.entries.take i)
      (t.slots.entries.drop i ++ c.entriesAfter) := by
  obtain ⟨A, B, hsplit, hA, hB⟩ := c.chunks_plug t
  refine ⟨i, rfl, A, t.slots.entries, B, hsplit, ?_, by rw [hA], by rw [hB]⟩
  rcases Nat.eq_or_lt_of_le hi with heq | hlt
  · rcases hlast with hlt | hlast
    · exact Or.inl hlt
    · refine Or.inr ⟨?_, heq⟩
      by_contra hne
      exact hM.chain.lastLeaf_ne hsplit hne hlast
  · exact Or.inl hlt

/-- `lower_bound` of the index, as a slot of the leaf to which the key leads. -/
theorem lowerBound_does (hM : M.Represents T) {fuel : Nat} (hfuel : H < fuel) (a : κ) :
    ∃ (c : Ctx κ 0 H) (t : Tree κ 0), c.plug t = T ∧ c.Leads a t ∧
      IxDoes (lowerBound fuel a) M ⟨t.no, t.slots.lowerBound a⟩ M := by
  obtain ⟨c, t, rfl, hleads, hdoes⟩ := findLeafPage_does hM.tree hM.root hM.inner hfuel a
  obtain ⟨page, hp, -, hshows⟩ := hM.leaf
  refine ⟨c, t, rfl, hleads, ?_⟩
  unfold lowerBound
  apply Does.bind hdoes
  apply Does.bind (node_does hp)
  rw [hshows.lowerBound]
  exact unpinPage_bind_does fun _ => Does.pure

/-- `upper_bound` of the index: a slot of the leaf to which the key leads, or the end of the
chain. -/
theorem upperBound_does (hM : M.Represents T) {fuel : Nat} (hfuel : H < fuel) (b : κ) :
    ∃ (c : Ctx κ 0 H) (t : Tree κ 0), c.plug t = T ∧ c.Leads b t ∧
      (t.slots.upperBound b < t.slots.size →
        IxDoes (upperBound fuel b) M ⟨t.no, t.slots.upperBound b⟩ M) ∧
      (t.slots.upperBound b = t.slots.size → ∀ iid : Iid, IxDoes leafEnd M iid M →
        IxDoes (upperBound fuel b) M iid M) := by
  obtain ⟨c, t, rfl, hleads, hdoes⟩ := findLeafPage_does hM.tree hM.root hM.inner hfuel b
  obtain ⟨page, hp, -, hshows⟩ := hM.leaf
  refine ⟨c, t, rfl, hleads, fun hlt => ?_, fun heq iid hend => ?_⟩
  · unfold upperBound
    apply Does.bind hdoes
    apply Does.bind (node_does hp)
    rw [hshows.upperBound, hshows.numKey, if_neg (by omega)]
    apply Does.bind Does.pure
    exact unpinPage_bind_does fun _ => Does.pure
  · unfold upperBound
    apply Does.bind hdoes
    apply Does.bind (node_does hp)
    rw [hshows.upperBound, hshows.numKey, if_pos (by rw [heq])]
    apply Does.bind hend
    exact unpinPage_bind_does fun _ => Does.pure

end IxMem.Represents

/-- The leaf to which the key leads has an entry beyond the bound, or there is no other leaf after
it. -/
def IxMem.BoundInLeaf (M : IxMem κ) (T : Tree κ H) (key : κ) (beyond : κ → Prop) : Prop :=
  ∀ t ∈ T.leafOf key, (∃ e ∈ t.slots.entries, beyond e.1) ∨ t.no = M.fileHdr.lastLeaf

omit [LinearOrder κ] in
/-- A list that is divided by a property, filtered. -/
theorem filter_append_of_forall (p : κ → Prop) [DecidablePred p] {l before after : List (κ × Rid)}
    (hl : l = before ++ after) (hbefore : ∀ e ∈ before, p e.1) (hafter : ∀ e ∈ after, ¬p e.1) :
    l.filter (fun e => p e.1) = before ∧ l.filter (fun e => ¬p e.1) = after := by
  subst hl
  constructor
  · rw [List.filter_append, List.filter_eq_self.mpr (by simpa using hbefore),
      List.filter_eq_nil_iff.mpr (by simpa using hafter), List.append_nil]
  · rw [List.filter_append, List.filter_eq_nil_iff.mpr (by simpa using hbefore),
      List.filter_eq_self.mpr (by simpa using hafter), List.nil_append]

namespace IxMem.Represents

/-- **`lower_bound`** returns the position of the first entry from `a` on, if that entry is in the
leaf to which `a` leads or there is none. -/
theorem lowerBound_at (hM : M.Represents T) {a : κ} (hcond : M.BoundInLeaf T a (a ≤ ·))
    {fuel : Nat} (hfuel : H < fuel) :
    ∃ iid : Iid, IxDoes (lowerBound fuel a) M iid M ∧
      iid.At T.chunks (T.toList.filter fun e => e.1 < a) (T.toList.filter fun e => ¬e.1 < a) := by
  obtain ⟨c, t, rfl, hleads, hdoes⟩ := hM.lowerBound_does hfuel a
  have hsorted : t.slots.SortedFrom 0 := Tree.SearchOrdered.of_plug hM.order
  obtain ⟨hleft, hright⟩ := hsorted.lowerBound_entries a
  obtain ⟨hbefore, hafter⟩ := hleads.entries hM.order
  have hlast : t.slots.lowerBound a < t.slots.size ∨ t.no = M.fileHdr.lastLeaf := by
    rcases hcond t hleads.leafOf with ⟨e, he, hle⟩ | hlast
    · -- an entry from `a` on is not among those before the bound
      refine Or.inl (lt_of_le_of_ne (t.slots.lowerBound_le a) fun heq => ?_)
      rw [heq, Slots.size, List.take_length] at hleft
      exact absurd (hleft e he) (not_lt.mpr hle)
    · exact Or.inr hlast
  have hlt : ∀ e ∈ c.entriesBefore ++ t.slots.entries.take (t.slots.lowerBound a), e.1 < a := by
    intro e he
    rcases List.mem_append.mp he with he | he
    · exact hbefore e he
    · exact hleft e he
  have hge : ∀ e ∈ t.slots.entries.drop (t.slots.lowerBound a) ++ c.entriesAfter, ¬e.1 < a := by
    intro e he
    rcases List.mem_append.mp he with he | he
    · exact not_lt.mpr (hright e he)
    · exact not_lt.mpr (hafter e he).le
  obtain ⟨h1, h2⟩ := filter_append_of_forall (· < a) (c.toList_plug t _) hlt hge
  rw [h1, h2]
  exact ⟨_, hdoes, hM.position (t.slots.lowerBound_le a) hlast⟩

/-- **`upper_bound`** returns the position of the first entry above `b`, if that entry is in the
leaf to which `b` leads or there is none. -/
theorem upperBound_at (hM : M.Represents T) {b : κ} (hcond : M.BoundInLeaf T b (b < ·))
    {fuel : Nat} (hfuel : H < fuel) :
    ∃ iid : Iid, IxDoes (upperBound fuel b) M iid M ∧
      iid.At T.chunks (T.toList.filter fun e => e.1 ≤ b) (T.toList.filter fun e => ¬e.1 ≤ b) := by
  obtain ⟨c, t, rfl, hleads, hinside, hend⟩ := hM.upperBound_does hfuel b
  have hsorted : t.slots.SortedFrom 0 := Tree.SearchOrdered.of_plug hM.order
  obtain ⟨hleft, hright⟩ := hsorted.upperBound_entries b
  obtain ⟨hbefore, hafter⟩ := hleads.entries hM.order
  have hle : t.slots.upperBound b ≤ t.slots.size := (t.slots.boundLoop_upperBound b).2
  -- what stands before the position is at most `b`, the rest is above it
  have hbelow : ∀ e ∈ c.entriesBefore ++ t.slots.entries.take (t.slots.upperBound b), e.1 ≤ b := by
    intro e he
    rcases List.mem_append.mp he with he | he
    · exact (hbefore e he).le
    · exact hleft e he
  have habove : ∀ e ∈ t.slots.entries.drop (t.slots.upperBound b) ++ c.entriesAfter, ¬e.1 ≤ b := by
    intro e he
    rcases List.mem_append.mp he with he | he
    · exact not_le.mpr (hright e he)
    · exact not_le.mpr (hafter e he)
  obtain ⟨h1, h2⟩ := filter_append_of_forall (· ≤ b) (c.toList_plug t _) hbelow habove
  rw [h1, h2]
  rcases Nat.eq_or_lt_of_le hle with heq | hlt
  · -- no entry of the leaf is above `b`, so the leaf is the last one
    have hlast : t.no = M.fileHdr.lastLeaf := by
      rcases hcond t hleads.leafOf with ⟨e, he, hlt⟩ | hlast
      · rw [heq, Slots.size, List.take_length] at hleft
        exact absurd (hleft e he) (not_le.mpr hlt)
      · exact hlast
    have hat := hM.position hle (Or.inr hlast)
    obtain ⟨iid, hdoes, hatEnd⟩ := hM.chain.exists_leafEnd
    have hnil : t.slots.entries.drop (t.slots.upperBound b) ++ c.entriesAfter = [] := by
      obtain ⟨A, B, hsplit, -, hB⟩ := c.chunks_plug t
      have hBnil : B = [] := by
        by_contra hne
        exact hM.chain.lastLeaf_ne hsplit hne hlast
      rw [heq, Slots.size, List.drop_length, ← hB, hBnil]
      rfl
    have hsame : iid = ⟨t.no, t.slots.upperBound b⟩ := by
      refine hatEnd.inj hat ?_
      rw [Tree.chunkEntries_chunks, c.toList_plug t (t.slots.upperBound b), hnil, List.append_nil]
    rw [← hsame] at hat
    exact ⟨iid, hend heq iid hdoes, hat⟩
  · exact ⟨_, hinside hlt, hM.position hle (Or.inl hlt)⟩

end IxMem.Represents

/-! ### The scan -/

/-- What lies between the two bounds. -/
theorem filter_between {a b : κ} (hab : a ≤ b) {l : List (κ × Rid)}
    (ha : (l.filter fun e => e.1 < a) ++ (l.filter fun e => ¬e.1 < a) = l)
    (hb : (l.filter fun e => e.1 ≤ b) ++ (l.filter fun e => ¬e.1 ≤ b) = l) :
    (l.filter fun e => ¬e.1 < a) =
        (l.filter fun e => a ≤ e.1 ∧ e.1 ≤ b) ++ (l.filter fun e => ¬e.1 ≤ b) ∧
      (l.filter fun e => e.1 ≤ b) =
        (l.filter fun e => e.1 < a) ++ (l.filter fun e => a ≤ e.1 ∧ e.1 ≤ b) := by
  constructor
  · have habove : ∀ e ∈ l.filter fun e => ¬e.1 ≤ b, decide ¬e.1 < a = true := by
      intro e he
      have hlt := of_decide_eq_true (List.mem_filter.mp he).2
      exact decide_eq_true (not_lt.mpr (hab.trans (not_le.mp hlt).le))
    have hfilter := congrArg (List.filter fun e => ¬e.1 < a) hb
    rw [List.filter_append, List.filter_filter, List.filter_eq_self.mpr habove] at hfilter
    rw [← hfilter]
    simp only [not_lt, Bool.decide_and]
  · have hbelow : ∀ e ∈ l.filter fun e => e.1 < a, decide (e.1 ≤ b) = true := by
      intro e he
      have hlt := of_decide_eq_true (List.mem_filter.mp he).2
      exact decide_eq_true (hlt.le.trans hab)
    have hfilter := congrArg (List.filter fun e => e.1 ≤ b) ha
    rw [List.filter_append, List.filter_eq_self.mpr hbelow, List.filter_filter] at hfilter
    rw [← hfilter]
    simp only [not_lt, Bool.decide_and, Bool.and_comm]

section Below

theorem lowerBound_below (a : κ) (n : Nat) : Below (lowerBound n a) (lowerBound (n + 1) a) := by
  unfold lowerBound
  exact .bind (findLeafPage_below a n) fun leaf => .refl _

theorem upperBound_below (b : κ) (n : Nat) : Below (upperBound n b) (upperBound (n + 1) b) := by
  unfold upperBound
  exact .bind (findLeafPage_below b n) fun leaf => .refl _

omit [LinearOrder κ] in
theorem collect_below (n : Nat) (scan : IxScan) :
    Below (scan.collect (κ := κ) n) (scan.collect (n + 1)) := by
  induction n generalizing scan with
  | zero => exact .throw _ _
  | succ n ih =>
    unfold IxScan.collect
    refine .ite (.refl _) (.bind_right _ fun rid => .bind_right _ fun scan' => ?_)
    exact .bind (ih scan') fun rest => .refl _

theorem range_below (a b : κ) (n : Nat) :
    Below (IxScan.range n a b) (IxScan.range (n + 1) a b) := by
  unfold IxScan.range
  refine .bind (lowerBound_below a n) fun lower => .bind (upperBound_below b n) fun upper => ?_
  exact collect_below n _

end Below

namespace IxMem.Represents

/-- The scan between two bounds that are positions. -/
theorem range_does (hM : M.Represents T) {a b : κ} (hab : a ≤ b)
    (ha : M.BoundInLeaf T a (a ≤ ·)) (hb : M.BoundInLeaf T b (b < ·)) {fuel : Nat}
    (hfuel : H + T.toList.length < fuel) :
    IxDoes (IxScan.range fuel a b) M
      ((T.toList.filter fun e => a ≤ e.1 ∧ e.1 ≤ b).map Prod.snd) M := by
  obtain ⟨lower, hlower, hat⟩ := hM.lowerBound_at ha (show H < fuel by omega)
  obtain ⟨upper, hupper, hat'⟩ := hM.upperBound_at hb (show H < fuel by omega)
  have hl := hat.entries
  have hl' := hat'.entries
  rw [Tree.chunkEntries_chunks] at hl hl'
  obtain ⟨h1, h2⟩ := filter_between hab hl hl'
  rw [h1] at hat
  rw [h2] at hat'
  have hlen := List.length_filter_le (fun e : κ × Rid => decide (a ≤ e.1 ∧ e.1 ≤ b)) T.toList
  unfold IxScan.range
  apply Does.bind hlower
  apply Does.bind hupper
  exact hM.chain.collect_does hat hat' (by omega)

/-- If the leaf to which `a` leads has no entry from `a` on and is not the last one, the first
`rid` throws. -/
theorem range_error (hM : M.Represents T) {a b : κ} (ha : ¬M.BoundInLeaf T a (a ≤ ·)) {fuel : Nat}
    (hfuel : H < fuel) {s : IxIndex κ} (hs : s.mem = M) :
    ∃ s', IxScan.range fuel a b s = .error .indexEntryNotFoundError s' := by
  obtain ⟨c, t, hplug, hleads, hlower⟩ := hM.lowerBound_does hfuel a
  subst hplug
  have hsorted : t.slots.SortedFrom 0 := Tree.SearchOrdered.of_plug hM.order
  -- the leaf of the condition is the leaf of the search
  obtain ⟨hnone, hlast⟩ : (∀ e ∈ t.slots.entries, ¬a ≤ e.1) ∧ t.no ≠ M.fileHdr.lastLeaf := by
    unfold BoundInLeaf at ha
    rw [hleads.leafOf] at ha
    simp only [Tree.leafOf, Option.mem_some_iff, forall_eq', not_or, not_exists, not_and] at ha
    exact ha
  have heq : t.slots.lowerBound a = t.slots.size := by
    by_contra hne
    have hlt := lt_of_le_of_ne (t.slots.lowerBound_le a) hne
    have hmem : t.slots.entries.get ⟨t.slots.lowerBound a, hlt⟩ ∈
        t.slots.entries.drop (t.slots.lowerBound a) := by
      rw [List.drop_eq_getElem_cons hlt]
      exact List.mem_cons_self
    exact hnone _ (List.mem_of_mem_drop hmem) ((hsorted.lowerBound_entries a).2 _ hmem)
  rw [heq] at hlower
  obtain ⟨page, hp, -, hshows⟩ := hM.leaf
  -- `upper_bound` does not return the same slot
  obtain ⟨upper, hupper, hne⟩ : ∃ upper : Iid, IxDoes (upperBound fuel b) M upper M ∧
      upper ≠ ⟨t.no, t.slots.size⟩ := by
    obtain ⟨c', t', hplug', -, hinside, hend⟩ := hM.upperBound_does hfuel b
    rcases Nat.eq_or_lt_of_le (t'.slots.boundLoop_upperBound b).2 with heq' | hlt
    · obtain ⟨iid, hdoes, hat⟩ := hM.chain.exists_leafEnd
      refine ⟨iid, hend heq' iid hdoes, ?_⟩
      rintro rfl
      obtain ⟨A, B, hsplit, -, hB⟩ := c.chunks_plug t
      obtain ⟨i, hi, A', l, B', hsplit', hle, -, hafter⟩ := hat
      obtain ⟨rfl, rfl, rfl⟩ := chunk_split_unique hM.chain.nodup hsplit hsplit'
      have hi' : i = t.slots.entries.length := by
        have : (t.slots.entries.length : Int) = i := hi
        omega
      rcases hle with hlt | ⟨rfl, -⟩
      · omega
      · exact hlast (hM.chain.lastLeaf_eq hsplit).symm
    · refine ⟨_, hinside hlt, fun h => ?_⟩
      obtain ⟨hno, hslot⟩ := Iid.mk.inj h
      have hM' : M.Represents (c'.plug t') := hplug'.symm ▸ hM
      obtain ⟨page', hp', -, hshows'⟩ := hM'.leaf
      rw [hno, hp] at hp'
      obtain rfl := Option.some.inj hp'
      have h1 := hshows.numKey
      have h2 := hshows'.numKey
      omega
  obtain ⟨s₁, hrun₁, hs₁⟩ := hlower s hs
  obtain ⟨s₂, hrun₂, hs₂⟩ := hupper s₁ hs₁
  obtain ⟨fuel, rfl⟩ := Nat.exists_eq_succ_of_ne_zero (Nat.ne_of_gt (Nat.zero_lt_of_lt hfuel))
  rw [IxScan.range, bind_of_ok hrun₁, bind_of_ok hrun₂, IxScan.collect, IxScan.isEnd,
    decide_eq_false (Ne.symm hne), if_neg (by decide)]
  obtain ⟨s₃, hrun₃, hs₃⟩ := fetchNode_does hp s₂ hs₂
  obtain ⟨s₄, hrun₄, hs₄⟩ := node_does hp s₃ hs₃
  refine ⟨s₄, bind_of_error ?_⟩
  rw [IxScan.rid, getRid, bind_of_ok hrun₃, bind_of_ok hrun₄, if_pos hshows.numKey.le]
  rfl

/-- If the leaf to which `b` leads has no entry above `b` and is not the last one, there are entries
above `b`, and the scan returns them. -/
theorem range_too_far (hM : M.Represents T) {a b : κ} (ha : M.BoundInLeaf T a (a ≤ ·))
    (hb : ¬M.BoundInLeaf T b (b < ·)) {fuel : Nat} (hfuel : H + T.toList.length < fuel) :
    IxDoes (IxScan.range fuel a b) M ((T.toList.filter fun e => ¬e.1 < a).map Prod.snd) M ∧
      ∃ e ∈ T.toList, b < e.1 := by
  obtain ⟨lower, hlower, hat⟩ := hM.lowerBound_at ha (show H < fuel by omega)
  obtain ⟨c, t, hplug, hleads, -, hend⟩ := hM.upperBound_does (show H < fuel by omega) b
  obtain ⟨hnone, hlast⟩ : (∀ e ∈ t.slots.entries, ¬b < e.1) ∧ t.no ≠ M.fileHdr.lastLeaf := by
    unfold BoundInLeaf at hb
    rw [← hplug, hleads.leafOf] at hb
    simp only [Tree.leafOf, Option.mem_some_iff, forall_eq', not_or, not_exists, not_and] at hb
    exact hb
  subst hplug
  have hsorted : t.slots.SortedFrom 0 := Tree.SearchOrdered.of_plug hM.order
  -- `upper_bound` finds nothing in its leaf and answers with `leaf_end`
  have heq : t.slots.upperBound b = t.slots.size := by
    by_contra hne
    have hlt := lt_of_le_of_ne (t.slots.boundLoop_upperBound b).2 hne
    have hmem : t.slots.entries.get ⟨t.slots.upperBound b, hlt⟩ ∈
        t.slots.entries.drop (t.slots.upperBound b) := by
      rw [List.drop_eq_getElem_cons hlt]
      exact List.mem_cons_self
    exact hnone _ (List.mem_of_mem_drop hmem) ((hsorted.upperBound_entries b).2 _ hmem)
  obtain ⟨upper, hleafEnd, hat'⟩ := hM.chain.exists_leafEnd
  have hl := hat.entries
  rw [Tree.chunkEntries_chunks] at hl hat'
  have hlen := List.length_filter_le (fun e : κ × Rid => decide ¬e.1 < a) (c.plug t).toList
  constructor
  · unfold IxScan.range
    apply Does.bind hlower
    apply Does.bind (hend heq upper hleafEnd)
    rw [← List.append_nil (List.filter (fun e : κ × Rid => decide ¬e.1 < a) _)] at hat
    rw [← hl] at hat'
    exact hM.chain.collect_does hat hat' (by omega)
  · -- there is a leaf after this one, and it is not empty
    obtain ⟨A, B, hsplit, -, hB⟩ := c.chunks_plug t
    have hBne : B ≠ [] := by
      rintro rfl
      exact hlast (hM.chain.lastLeaf_eq hsplit).symm
    obtain ⟨⟨q, l⟩, B, rfl⟩ := List.exists_cons_of_ne_nil hBne
    have hl' : l ≠ [] := by
      refine hM.chain.nonempty q l ?_ fun h => ?_
      · rw [hsplit]
        exact List.mem_append_right _ (List.mem_cons_of_mem _ List.mem_cons_self)
      · have hlength := congrArg List.length (hsplit.symm.trans h)
        simp only [List.length_append, List.length_cons, List.length_nil] at hlength
        omega
    obtain ⟨e, l, rfl⟩ := List.exists_cons_of_ne_nil hl'
    have he : e ∈ c.entriesAfter := by
      rw [← hB, chunkEntries_cons]
      exact List.mem_append_left _ List.mem_cons_self
    refine ⟨e, ?_, (hleads.entries hM.order).2 e he⟩
    rw [c.toList_plug t 0]
    exact List.mem_append_right _ (List.mem_append_right _ he)

end IxMem.Represents

/-! ### Well-formed indexes -/

/-- The indexes that are built by inserting are well-formed. -/
theorem IxIndex.Ordered.represents {n order : Nat} (horder : 2 < order) (hn : n ≤ 1)
    {s : IxIndex κ} (hs : s.Ordered n order) :
    ∃ (H : Nat) (T : Tree κ H), s.mem.Represents T := by
  obtain ⟨H, T, hok, hwithin, hsized⟩ := hs
  have hinner : T.Inner := hsized.inner horder fun hne => by
    rw [rootMin, if_neg hne]
    decide
  refine ⟨H, T, hok.focus.tree, hok.focus.root, hinner, hwithin.searchOrdered hn, hok.chain.ring,
    hok.first, hok.last, fun hH q l hql => ?_⟩
  obtain ⟨c, t, hplug, hmem⟩ := Tree.exists_leaf_of_mem_collect _ .top hql
  obtain ⟨rfl, rfl⟩ := Prod.mk.inj (List.mem_singleton.mp hmem)
  obtain rfl : c.plug t = T := hplug
  have hsize := hsized.of_plug.size.1
  cases c with
  | top => exact absurd rfl hH
  | down up no left key right stale =>
    -- a leaf below the root has at least half of the entries it can have
    have hmin : (order + 1) / 2 ≤ t.slots.entries.length := hsize
    rintro hnil
    rw [hnil, List.length_nil] at hmin
    omega

/-- The condition on a bound, read off the page at which the search ends. -/
theorem IxMem.Represents.boundInLeaf_iff {s : IxIndex κ} (hM : s.mem.Represents T) {key : κ}
    {n : Nat} {q : Int} {s' : IxIndex κ} (hfind : findLeafPage n key s = .ok q s')
    {page : IxPage κ} (hp : s.mem.pages q = some page) {beyond : κ → Prop} :
    s.mem.BoundInLeaf T key beyond ↔
      (∃ i : Nat, i < page.numKey ∧ beyond (page.keys i)) ∨ q = s.mem.fileHdr.lastLeaf := by
  obtain ⟨c, t, hplug, hleads, hdoes⟩ :=
    findLeafPage_does hM.tree hM.root hM.inner (Nat.lt_succ_self H) key
  obtain ⟨s'', hrun, -⟩ := hdoes s rfl
  obtain ⟨rfl, -⟩ := Returns.eq_of_ok (findLeafPage_below key) ⟨n, hfind⟩ hrun
  subst hplug
  obtain ⟨page', hp', -, hshows⟩ := hM.leaf
  obtain rfl : page = page' := Option.some.inj (hp.symm.trans hp')
  have hleaf : (c.plug t).leafOf key = some t := hleads.leafOf
  unfold BoundInLeaf
  rw [hleaf, hshows.numKey, hshows.keys]
  simp only [Option.mem_some_iff, forall_eq']
  refine or_congr_left ⟨fun ⟨e, he, hbeyond⟩ => ?_, fun ⟨i, hi, hbeyond⟩ => ?_⟩
  · obtain ⟨i, hi⟩ := List.getElem?_of_mem he
    refine ⟨i, by exact_mod_cast (List.getElem?_eq_some_iff.mp hi).1, ?_⟩
    rwa [Slots.keyAt_of_getElem? hi]
  · have hi' : i < t.slots.entries.length := by exact_mod_cast hi
    refine ⟨t.slots.entries.get ⟨i, hi'⟩, List.get_mem _ _, ?_⟩
    rwa [Slots.keyAt_of_getElem? (List.getElem?_eq_getElem hi')] at hbeyond

/-! ### Range scans -/

/-- `lower_bound(a)` is the position of the first entry from `a` on, `upper_bound(b)` that of the
first entry above `b`, and the scan from one to the other returns the entries from `a` to `b`. -/
structure IxIndex.ScansRange (s : IxIndex κ) (T : Tree κ H) (a b : κ) : Prop where
  lower : ∃ n iid s', lowerBound n a s = .ok iid s' ∧
    iid.At T.chunks (T.toList.filter fun e => e.1 < a) (T.toList.filter fun e => a ≤ e.1)
  upper : ∃ n iid s', upperBound n b s = .ok iid s' ∧
    iid.At T.chunks (T.toList.filter fun e => e.1 ≤ b) (T.toList.filter fun e => b < e.1)
  scan : ∃ n s', IxScan.range n a b s =
    .ok ((T.toList.filter fun e => a ≤ e.1 ∧ e.1 ≤ b).map Prod.snd) s'

/-- Enough for a correct scan: both bounds are in the leaves to which their keys lead. -/
theorem IxMem.Represents.scansRange {s : IxIndex κ} (hM : s.mem.Represents T) {a b : κ}
    (hab : a ≤ b) (ha : s.mem.BoundInLeaf T a (a ≤ ·)) (hb : s.mem.BoundInLeaf T b (b < ·)) :
    s.ScansRange T a b := by
  obtain ⟨lower, hlower, hat⟩ := hM.lowerBound_at ha (Nat.lt_succ_self H)
  obtain ⟨upper, hupper, hat'⟩ := hM.upperBound_at hb (Nat.lt_succ_self H)
  obtain ⟨s₁, hrun₁, -⟩ := hlower s rfl
  obtain ⟨s₂, hrun₂, -⟩ := hupper s rfl
  obtain ⟨s₃, hrun₃, -⟩ := hM.range_does hab ha hb (Nat.lt_succ_self _) s rfl
  simp only [not_lt] at hat
  simp only [not_le] at hat'
  exact ⟨⟨_, _, _, hrun₁, hat⟩, ⟨_, _, _, hrun₂, hat'⟩, _, _, hrun₃⟩

/-- A correct scan needs an entry from `a` on in the leaf to which `a` leads. -/
theorem IxIndex.ScansRange.lower_inLeaf {s : IxIndex κ} {a b : κ} (hs : s.ScansRange T a b)
    (hM : s.mem.Represents T) : s.mem.BoundInLeaf T a (a ≤ ·) := by
  obtain ⟨n, s', hrun⟩ := hs.scan
  by_contra ha
  -- with more rounds the scan would throw
  have hmore := Below.of_le (range_below a b) (Nat.le_max_left n (H + 1)) s _ s' hrun
  obtain ⟨s'', herror⟩ :=
    hM.range_error (b := b) ha (lt_of_lt_of_le (Nat.lt_succ_self H) (Nat.le_max_right n _)) rfl
  rw [herror] at hmore
  cases hmore

/-- A correct scan needs an entry above `b` in the leaf to which `b` leads. -/
theorem IxIndex.ScansRange.upper_inLeaf {s : IxIndex κ} {a b : κ} (hab : a ≤ b)
    (hs : s.ScansRange T a b) (hM : s.mem.Represents T) : s.mem.BoundInLeaf T b (b < ·) := by
  have ha := hs.lower_inLeaf hM
  obtain ⟨n, s', hrun⟩ := hs.scan
  by_contra hb
  obtain ⟨hdoes, e, he, hlt⟩ := hM.range_too_far (a := a) ha hb (Nat.lt_succ_self _)
  obtain ⟨s'', hrun', -⟩ := hdoes s rfl
  obtain ⟨heq, -⟩ := Returns.eq_of_ok (range_below a b) ⟨n, hrun⟩ hrun'
  -- the entry above `b` is in one list only, and that list has all entries of the other
  have hlen := congrArg List.length heq
  rw [List.length_map, List.length_map] at hlen
  have hsub : (T.toList.filter fun e => a ≤ e.1 ∧ e.1 ≤ b).Sublist
      (T.toList.filter fun e => ¬e.1 < a) := by
    refine List.monotone_filter_right _ fun e he => ?_
    have := (of_decide_eq_true he).1
    exact decide_eq_true (not_lt.mpr this)
  have hmem : e ∈ T.toList.filter fun e => ¬e.1 < a :=
    List.mem_filter.mpr ⟨he, decide_eq_true (not_lt.mpr (hab.trans hlt.le))⟩
  rw [← hsub.eq_of_length hlen] at hmem
  exact absurd (of_decide_eq_true (List.mem_filter.mp hmem).2).2 (not_le.mpr hlt)

/-- **Range scans.**  On every well-formed and search-ordered index, a range scan is correct exactly
if the leaf to which `a` leads has an entry from `a` on or is the last leaf, and the leaf to which
`b` leads has an entry above `b` or is the last leaf.  The entries come in ascending order. -/
theorem range_scan_iff {s : IxIndex κ} (hM : s.mem.Represents T) {a b : κ} (hab : a ≤ b) :
    (T.toList.Pairwise fun e e' => e.1 < e'.1) ∧
      (s.ScansRange T a b ↔
        s.mem.BoundInLeaf T a (a ≤ ·) ∧ s.mem.BoundInLeaf T b (b < ·)) := by
  refine ⟨hM.order.pairwise, fun hs => ?_, fun hcond => ?_⟩
  · exact ⟨hs.lower_inLeaf hM, hs.upper_inLeaf hab hM⟩
  · exact hM.scansRange hab hcond.1 hcond.2

/-- An index of order 3 after some keys have been inserted. -/
def insertedIndex (keys : List Int) : IxIndex Int :=
  (((intIndex 3).trace 3 (insertAll keys)).getLast?.map Prod.snd).getD (intIndex 3)

/-- Keys that find a root that is a leaf. -/
theorem insertedIndex_ordered {keys : List Int}
    (hroot : (intIndex 3).checkTrace 3 (fun s _ => decide
      ((s.mem.pages s.mem.fileHdr.rootPage).map IxPage.isLeaf = some true))
      (insertAll keys) = true) : (insertedIndex keys).Ordered 0 3 := by
  have hstart : (intIndex 3).Ordered 0 3 :=
    .create 3 .int 4 (fun _ => 0) (fun _ => ⟨0, 0⟩) (fun _ => none) (fun _ => 0) (fun _ => 0)
      fun _ => rfl
  obtain ⟨hall, -⟩ := hstart.run (show 2 < 3 by decide) (Nat.zero_le 1)
    (IxIndex.run_trace 3 (fun a ha => insertsOrGets_insertAll ha) (intIndex 3))
    (IxIndex.placesRight_trace hroot)
  unfold insertedIndex
  cases hlast : ((intIndex 3).trace 3 (insertAll keys)).getLast? with
  | none => exact hstart
  | some e => exact hall e (List.mem_of_getLast? hlast)

/-- The keys 1, 2, 4 and 5 in two leaves. -/
def twoLeaves : IxIndex Int := insertedIndex [1, 2, 4, 5]

theorem twoLeaves_represents : ∃ (H : Nat) (T : Tree Int H), twoLeaves.mem.Represents T :=
  (insertedIndex_ordered (by decide +kernel)).represents (show 2 < 3 by decide) (Nat.zero_le 1)

/-- The condition on a bound of a scan of the four keys. -/
theorem twoLeaves_boundInLeaf_iff {H : Nat} {T : Tree Int H} (hT : twoLeaves.mem.Represents T)
    {key : Int} (q k₀ k₁ : Int) (hfind : (findLeafPage 3 key).value twoLeaves = some q)
    (hpage : (twoLeaves.mem.pages q).map (fun p => (p.numKey, p.keys 0, p.keys 1)) =
      some (2, k₀, k₁)) {beyond : Int → Prop} :
    twoLeaves.mem.BoundInLeaf T key beyond ↔ (beyond k₀ ∨ beyond k₁) ∨ q = 3 := by
  obtain ⟨page, hp, hkeys⟩ := Option.map_eq_some_iff.mp hpage
  simp only [Prod.mk.injEq] at hkeys
  obtain ⟨hnum, rfl, rfl⟩ := hkeys
  have hlast : twoLeaves.mem.fileHdr.lastLeaf = 3 := by decide +kernel
  rw [hT.boundInLeaf_iff (eq_ok_of_value hfind) hp, hnum, hlast]
  refine or_congr_left ⟨fun ⟨i, hi, hbeyond⟩ => ?_, fun hor => ?_⟩
  · obtain rfl | rfl : i = 0 ∨ i = 1 := by omega
    · exact Or.inl hbeyond
    · exact Or.inr hbeyond
  · rcases hor with hbeyond | hbeyond
    · exact ⟨0, by decide, hbeyond⟩
    · exact ⟨1, by decide, hbeyond⟩

/-- From 2 to 4, both in the index. -/
theorem range_scan_iff_two_leaves :
    ∃ (H : Nat) (T : Tree Int H), twoLeaves.mem.Represents T ∧ twoLeaves.ScansRange T 2 4 := by
  obtain ⟨H, T, hT⟩ := twoLeaves_represents
  refine ⟨H, T, hT, (range_scan_iff hT (by decide)).2.mpr ⟨?_, ?_⟩⟩
  · rw [twoLeaves_boundInLeaf_iff hT 2 1 2 (by decide +kernel)
      (by decide +kernel)]
    decide
  · rw [twoLeaves_boundInLeaf_iff hT 3 4 5 (by decide +kernel)
      (by decide +kernel)]
    decide

/-- From 3 on, which is not in the index: the leaf to which 3 leads has only 1 and 2, and the scan
throws.  Up to 3, the scan returns 4 and 5 as well. -/
theorem not_scansRange_two_leaves :
    (∃ (H : Nat) (T : Tree Int H), twoLeaves.mem.Represents T ∧ ¬twoLeaves.ScansRange T 3 5 ∧
      ¬twoLeaves.ScansRange T 1 3) ∧
    (∃ s', IxScan.range 9 3 5 twoLeaves = .error .indexEntryNotFoundError s') ∧
    (IxScan.range 9 1 3).value twoLeaves = some [⟨1, 0⟩, ⟨2, 0⟩, ⟨4, 0⟩, ⟨5, 0⟩] := by
  obtain ⟨H, T, hT⟩ := twoLeaves_represents
  have hbound : ∀ {beyond : Int → Prop}, twoLeaves.mem.BoundInLeaf T 3 beyond ↔
      (beyond 1 ∨ beyond 2) ∨ (2 : Int) = 3 :=
    twoLeaves_boundInLeaf_iff hT 2 1 2 (by decide +kernel) (by decide +kernel)
  refine ⟨⟨H, T, hT, fun h => ?_, fun h => ?_⟩, ?_, by decide +kernel⟩
  · have := hbound.mp (h.lower_inLeaf hT)
    omega
  · have := hbound.mp (h.upper_inLeaf (by decide) hT)
    omega
  · have herror : (match IxScan.range 9 3 5 twoLeaves with
        | .ok _ _ => none
        | .error e _ => some e) = some RedBaseError.indexEntryNotFoundError := by
      decide +kernel
    split at herror
    · cases herror
    · next e s' hrun =>
      obtain rfl := Option.some.inj herror
      exact ⟨s', hrun⟩

end Rucbase
