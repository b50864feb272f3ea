import Rucbase.Index.Equiv.DeleteSteps
import Rucbase.Index.Equiv.FirstKeys

/-!
# Deleting keeps a tree well formed

`delete_entry` of a stored key, on a well-formed tree (`IxMem.WellFormed`) of any height.  The call
completes and leaves a well-formed tree exactly in the cases of `Tree.CanLose`
(`deleteEntry_wellFormed_iff`): no inner node below the root becomes too small, and every key that
`maintain_parent` copies upwards fits into its place.
-/

namespace Rucbase

open EStateM IxIndexHandle Separators

variable {κ : Type} {h H : Nat} [LinearOrder κ] {M : IxMem κ} {order fuel : Nat}

/-! ### Well-formed trees -/

/-- A well-formed B+ tree in memory: nodes are strictly sorted, the keys of inner nodes separate the
entries below their children, parent fields are right, all leaves are at one depth and chained, and
every node holds as many entries as it should. -/
structure IxMem.WellFormed (M : IxMem κ) (order : Nat) (T : Tree κ H) : Prop where
  formed : M.Formed order T
  sorted : T.Sorted
  search : T.SearchOrdered
  sized : T.Sized order (rootMin H) order

/-- The child beside a child with the children `left` and `right` around it: the one before, or the
one after if there is none before. -/
def beside (left right : List (κ × Tree κ h)) : Option (κ × Tree κ h) :=
  left.getLast?.or right.head?

/-- The leaf, the leaf beside it and their parent all have the least size, and the parent is not the
root. -/
def Ctx.Underflows (order : Nat) : {H : Nat} → Ctx κ 0 H → Tree κ 0 → Prop
  | _, .top, _ => False
  | _, .down up no left key right stale, t =>
    t.slots.size = (order + 1) / 2 ∧ (∃ e ∈ beside left right, e.2.slots.size = (order + 1) / 2) ∧
      (fill no left key right stale t).slots.size = (order + 1) / 2 ∧ up.depth ≠ 0

/-- The keys that are written when the leaf loses the key `k` fit into their places.  A leaf above the
least size passes the first key that it keeps upwards.  Otherwise a key that is borrowed from the
left is above the key of the leaf from which it comes, and the parent passes its first key upwards. -/
def Ctx.KeysFit (order : Nat) (k : κ) : {H : Nat} → Ctx κ 0 H → Tree κ 0 → Prop
  | _, .top, _ => True
  | _, .down up no left key right stale, t =>
    if (order + 1) / 2 < t.slots.size then
      (Ctx.down up no left key right stale).Takes ((t.removed k).slots.keyAt 0) (t.removed k).leafKeys
    else
      (∀ e ∈ left.getLast?, (order + 1) / 2 < e.2.slots.size →
        e.1 < e.2.slots.keyAt (e.2.slots.size - 1)) ∧
      up.Takes (firstKey left key)
        ((fill no left key right stale t).leafKeys.filter fun x => x ≠ k)

theorem IxMem.WellFormed.ordered {T : Tree κ H} (hM : M.WellFormed order T) : T.Ordered :=
  Tree.ordered_iff.mpr ⟨hM.sorted, hM.search⟩

theorem IxMem.WellFormed.inner {T : Tree κ H} (horder : 2 < order) (hM : M.WellFormed order T) :
    T.Inner := by
  refine hM.sized.inner horder fun hH => ?_
  rw [rootMin, if_neg hH]
  decide

/-! ### The tree without the key -/

section Removed

variable {c : Ctx κ 0 H} {t : Tree κ 0} {k : κ}

/-- Only the leaf has the key. -/
theorem Ctx.toList_removed (hO : (c.plug t).Ordered) (hk : k ∈ t.leafKeys) :
    (c.plug (t.removed k)).toList = (c.plug t).toList.filter fun e => e.1 ≠ k := by
  have ht : t.Ordered := (c.ordered_plug.mp hO).1
  have hpair := (Tree.ordered_iff.mp hO).2.pairwise
  obtain ⟨e, he, rfl⟩ := List.mem_map.mp hk
  unfold Tree.toList at hpair ⊢
  rw [Ctx.collect_plug, List.pairwise_append, List.pairwise_append] at hpair
  obtain ⟨⟨-, -, hbefore⟩, -, hafter⟩ := hpair
  rw [Ctx.collect_plug, Ctx.collect_plug, List.filter_append, List.filter_append]
  congr 1
  · congr 1
    · refine (List.filter_eq_self.mpr fun a ha => ?_).symm
      exact decide_eq_true (hbefore a ha e he).ne
    · exact Tree.entries_removed ht hk
  · refine (List.filter_eq_self.mpr fun b hb => ?_).symm
    exact decide_eq_true (hafter e (List.mem_append_right _ he) b hb).ne'

theorem Ctx.leafKeys_removed (hO : (c.plug t).Ordered) (hk : k ∈ t.leafKeys) :
    (c.plug (t.removed k)).leafKeys = (c.plug t).leafKeys.filter fun x => x ≠ k := by
  unfold Tree.leafKeys
  rw [Ctx.toList_removed hO hk, List.filter_map]
  rfl

theorem Ctx.ordered_removed (hO : (c.plug t).Ordered) (hk : k ∈ t.leafKeys) :
    (c.plug (t.removed k)).Ordered := by
  obtain ⟨ht, hord⟩ := c.ordered_plug.mp hO
  refine c.ordered_plug.mpr ⟨Tree.ordered_removed ht hk, hord.mono fun x hx => ?_⟩
  rw [Tree.leafKeys_removed ht hk] at hx
  exact List.mem_of_mem_filter hx

end Removed

/-! ### The leaf that has lost the key -/

section Step

variable {up : Ctx κ 1 H} {no : Int} {left right : List (κ × Tree κ 0)} {key k : κ}
  {stale : Nat → κ} {t : Tree κ 0}

omit [LinearOrder κ] in
theorem fill_concat (pre : List (κ × Tree κ 0)) (kl : κ) (L : Tree κ 0) :
    Ctx.fill no (pre ++ [(kl, L)]) key right stale t = twins no pre kl L key t right stale := by
  unfold Ctx.fill
  rw [List.append_assoc, List.singleton_append]

omit [LinearOrder κ] in
/-- What is known around two neighbours in a tree with the right sizes. -/
theorem AroundTwins.of_sized {pre post : List (κ × Tree κ 0)} {kl kr : κ} {L R : Tree κ 0}
    (hS : (up.plug (twins no pre kl L kr R post stale)).Sized order (rootMin H) order) :
    AroundTwins order up pre post := by
  have hparent := Tree.Sized.of_plug (c := up) hS
  have hlen : (twins no pre kl L kr R post stale).slots.size = pre.length + post.length + 2 := by
    show (pre ++ (kl, L) :: (kr, R) :: post).length = _
    rw [List.length_append, List.length_cons, List.length_cons]
    omega
  refine ⟨fun e he => hparent.2 e ?_, hlen ▸ hparent.1, fun P hP => hS.replace hP⟩
  show e ∈ pre ++ (kl, L) :: (kr, R) :: post
  simp only [List.mem_append, List.mem_cons] at he ⊢
  tauto

/-- A leaf of the least size that has lost a key, as one of two neighbours. -/
theorem exists_twins (horder : 2 < order)
    (hS : ((Ctx.down up no left key right stale).plug t).Sized order (rootMin H) order)
    (ht : t.Ordered) (hk : k ∈ t.leafKeys) (hsize : t.slots.size = (order + 1) / 2) :
    ∃ (pre post : List (κ × Tree κ 0)) (kl kr : κ) (L R : Tree κ 0) (e : κ × Tree κ 0),
      beside left right = some e ∧
      Ctx.fill no left key right stale (t.removed k) = twins no pre kl L kr R post stale ∧
      AroundTwins order up pre post ∧ Underfull order pre L R (t.removed k) e.2 ∧
      pre.length + post.length + 1 = left.length + right.length ∧
      Ctx.firstKey pre kl = Ctx.firstKey left key ∧
      (left = pre ++ [e] ∧ right = post ∧ kl = e.1 ∧ L = e.2 ∧ t.removed k = R ∨
        left = [] ∧ pre = [] ∧ right = e :: post ∧ t.removed k = L ∧ e.2 = R) := by
  have hsize' := Tree.size_removed ht hk
  have hparent := Tree.Sized.of_plug (c := up) hS
  rcases List.eq_nil_or_concat left with rfl | ⟨pre, ⟨kl, L⟩, rfl⟩
  · cases right with
    | nil =>
      -- a parent has two children
      have hlen := hparent.1.1
      rw [Ctx.size_fill] at hlen
      cases up with
      | top =>
        have hmin : 2 ≤ 1 := hlen
        omega
      | down up no left key right stale =>
        have hmin : (order + 1) / 2 ≤ 1 := hlen
        omega
    | cons e post =>
      have htwins : (up.plug (twins no [] key t e.1 e.2 post stale)).Sized order (rootMin H) order := hS
      have haround : AroundTwins order up [] post := .of_sized htwins
      have hbrother : e.2.Sized order ((order + 1) / 2) order :=
        hparent.2 e (Ctx.mem_fill.mpr (Or.inr List.mem_cons_self))
      refine ⟨[], post, key, e.1, t.removed k, e.2, e, rfl, rfl, haround,
        ⟨Or.inr ⟨rfl, rfl, rfl⟩, by omega, hbrother⟩, ?_, rfl, Or.inr ⟨rfl, rfl, rfl, rfl, rfl⟩⟩
      rw [List.length_cons, List.length_nil]
      omega
  · rw [List.concat_eq_append] at hparent ⊢
    have htwins : (up.plug (twins no pre kl L key t right stale)).Sized order (rootMin H) order := by
      rw [← fill_concat, ← List.concat_eq_append]
      exact hS
    have haround : AroundTwins order up pre right := .of_sized htwins
    have hbrother : L.Sized order ((order + 1) / 2) order :=
      hparent.2 (kl, L) (Ctx.mem_fill.mpr (Or.inr (by simp)))
    have hlast : (pre ++ [(kl, L)]).getLast? = some (kl, L) := by simp
    refine ⟨pre, right, kl, key, L, t.removed k, (kl, L), ?_, fill_concat pre kl L, haround,
      ⟨Or.inl ⟨rfl, rfl⟩, by omega, hbrother⟩, ?_, (Ctx.firstKey_append pre kl key L).symm,
      Or.inl ⟨rfl, rfl, rfl, rfl, rfl⟩⟩
    · unfold beside
      rw [hlast]
      rfl
    · rw [List.length_append, List.length_singleton]
      omega

/-- A leaf of the size `lo` has lost an entry and is `t` now.  The leaf `b` before it gives its last
entry, or takes all entries if it is not larger. -/
def EvensLeft (lo : Nat) (A : LeafChunks κ) (b t : Tree κ 0) (B l : LeafChunks κ) : Prop :=
  (lo < b.slots.size ∧ ∃ rest e, b.slots.entries = rest ++ [e] ∧
    l = A ++ (b.no, rest) :: (t.no, e :: t.slots.entries) :: B) ∨
  (b.slots.size = lo ∧ l = A ++ (b.no, b.slots.entries ++ t.slots.entries) :: B)

/-- The same with the leaf `b` after it, which gives its first entry or all of them. -/
def EvensRight (lo : Nat) (A : LeafChunks κ) (t b : Tree κ 0) (B l : LeafChunks κ) : Prop :=
  (lo < b.slots.size ∧ ∃ e rest, b.slots.entries = e :: rest ∧
    l = A ++ (t.no, t.slots.entries ++ [e]) :: (b.no, rest) :: B) ∨
  (b.slots.size = lo ∧ l = A ++ (t.no, t.slots.entries ++ b.slots.entries) :: B)

/-- The leaves after `CoalesceOrRedistribute` at the leaf in the hole, which was `t` and is `t'`. -/
def Ctx.Evens (order : Nat) : {H : Nat} → Ctx κ 0 H → Tree κ 0 → Tree κ 0 → LeafChunks κ → Prop
  | _, .top, _, t', l => l = t'.chunks
  | _, .down up no left key right stale, t, t', l =>
    let c := Ctx.down up no left key right stale
    if (order + 1) / 2 < t.slots.size then l = (c.plug t').chunks
    else
      (∃ b A, left.getLast? = some b ∧ c.chunksBefore = A ++ [(b.2.no, b.2.slots.entries)] ∧
        EvensLeft ((order + 1) / 2) A b.2 t' c.chunksAfter l) ∨
      (∃ b B, left = [] ∧ right.head? = some b ∧
        c.chunksAfter = (b.2.no, b.2.slots.entries) :: B ∧
        EvensRight ((order + 1) / 2) c.chunksBefore t' b.2 B l)

section Evens

omit [LinearOrder κ]

variable {lo : Nat} {A B l : LeafChunks κ} {b t' : Tree κ 0}

theorem EvensLeft.entries (h : EvensLeft lo A b t B l) : chunkEntries l =
    chunkEntries (A ++ [(b.no, b.slots.entries)]) ++ (t.slots.entries ++ chunkEntries B) := by
  rcases h with ⟨-, rest, e, hb, rfl⟩ | ⟨-, rfl⟩
  · simp only [chunkEntries_append, chunkEntries_cons, chunkEntries_nil, hb, List.append_assoc,
      List.cons_append, List.nil_append]
  · simp only [chunkEntries_append, chunkEntries_cons, chunkEntries_nil, List.append_assoc,
      List.append_nil]

theorem EvensRight.entries (h : EvensRight lo A t b B l) : chunkEntries l =
    chunkEntries A ++ (t.slots.entries ++ chunkEntries ((b.no, b.slots.entries) :: B)) := by
  rcases h with ⟨-, e, rest, hb, rfl⟩ | ⟨-, rfl⟩
  · simp only [chunkEntries_append, chunkEntries_cons, hb, List.append_assoc, List.cons_append,
      List.nil_append]
  · simp only [chunkEntries_append, chunkEntries_cons, List.append_assoc]

/-- No entry goes. -/
theorem Ctx.Evens.entries {c : Ctx κ 0 H} (h : c.Evens order t t' l) :
    chunkEntries l = (c.plug t').toList := by
  rw [← Tree.chunkEntries_chunks]
  cases c with
  | top => exact congrArg chunkEntries h
  | down up no left key right stale =>
    rw [Ctx.Evens] at h
    split_ifs at h with hlarge
    · rw [h]
    · rw [Ctx.plug_chunks, chunkEntries_append, chunkEntries_append, List.append_assoc]
      have ht' : chunkEntries t'.chunks = t'.slots.entries := List.append_nil _
      rw [ht']
      rcases h with ⟨b, A, -, hbefore, heven⟩ | ⟨b, B, -, -, hafter, heven⟩
      · rw [heven.entries, hbefore]
      · rw [heven.entries, hafter]

end Evens

section Sides

variable {up : Ctx κ 1 H} {no : Int} {left right pre post : List (κ × Tree κ 0)} {key kl kr : κ}
  {stale : Nat → κ} {t t' L R L' R' : Tree κ 0} {e : κ × Tree κ 0}

omit [LinearOrder κ] in
/-- An entry moves between two neighbours. -/
theorem Ctx.Evens.of_moved (hsize : ¬(order + 1) / 2 < t.slots.size)
    (hu : Underfull order pre L R t' e.2)
    (hsides : left = pre ++ [e] ∧ right = post ∧ kl = e.1 ∧ L = e.2 ∧ t' = R ∨
      left = [] ∧ pre = [] ∧ right = e :: post ∧ t' = L ∧ e.2 = R)
    (henough : 2 * ((order + 1) / 2) ≤ L.slots.size + R.slots.size)
    (hm : Moved L R t' L' R') (hL : L'.no = L.no) (hR : R'.no = R.no) :
    (Ctx.down up no left key right stale).Evens order t t'
      (up.plug (twins no pre kl L' kr R' post stale)).chunks := by
  have hsum := hu.sum
  have hleaf := hu.leaf_size
  have hbrother := hu.brother_size
  rw [Ctx.Evens]
  simp only [if_neg hsize]
  rw [chunks_twins, hL, hR]
  rcases hsides with ⟨rfl, rfl, rfl, rfl, rfl⟩ | ⟨rfl, rfl, rfl, rfl, rfl⟩
  · rcases hm with ⟨-, d, hl, hr⟩ | ⟨rfl, -⟩
    · refine Or.inl ⟨e, up.chunksBefore ++ pre.flatMap fun e => e.2.chunks, by simp, ?_,
        Or.inl ⟨by omega, _, d, hl, ?_⟩⟩
      · show up.chunksBefore ++ (pre ++ [e]).flatMap (fun e => e.2.chunks) = _
        rw [List.flatMap_append, ← List.append_assoc]
        rfl
      · rw [hr]
        rfl
    · omega
  · rcases hm with ⟨rfl, -⟩ | ⟨-, d, hr, hl⟩
    · omega
    · refine Or.inr ⟨e, (post.flatMap fun e => e.2.chunks) ++ up.chunksAfter, rfl, rfl, rfl,
        Or.inl ⟨by omega, d, _, hr, ?_⟩⟩
      rw [hl]
      rfl

omit [LinearOrder κ] in
/-- Two neighbours are merged. -/
theorem Ctx.Evens.of_merged (hsize : ¬(order + 1) / 2 < t.slots.size)
    (hbrother : e.2.slots.size = (order + 1) / 2)
    (hsides : left = pre ++ [e] ∧ right = post ∧ kl = e.1 ∧ L = e.2 ∧ t' = R ∨
      left = [] ∧ pre = [] ∧ right = e :: post ∧ t' = L ∧ e.2 = R) :
    (Ctx.down up no left key right stale).Evens order t t'
      (up.plug (mergedTree no pre kl L R post stale)).chunks := by
  have hkids : (mergedTree no pre kl L R post stale).chunks = (pre.flatMap fun e => e.2.chunks) ++
      (L.no, L.slots.entries ++ R.slots.entries) :: post.flatMap fun e => e.2.chunks :=
    List.flatMap_append
  rw [Ctx.Evens]
  simp only [if_neg hsize]
  rw [Ctx.plug_chunks, hkids]
  rcases hsides with ⟨rfl, rfl, rfl, rfl, rfl⟩ | ⟨rfl, rfl, rfl, rfl, rfl⟩
  · refine Or.inl ⟨e, up.chunksBefore ++ pre.flatMap fun e => e.2.chunks, by simp, ?_,
      Or.inr ⟨hbrother, ?_⟩⟩
    · show up.chunksBefore ++ (pre ++ [e]).flatMap (fun e => e.2.chunks) = _
      rw [List.flatMap_append, ← List.append_assoc]
      rfl
    · simp only [List.append_assoc, List.cons_append]
      rfl
  · refine Or.inr ⟨e, (post.flatMap fun e => e.2.chunks) ++ up.chunksAfter, rfl, rfl, rfl,
      Or.inr ⟨hbrother, ?_⟩⟩
    simp only [List.append_assoc, List.cons_append]
    exact (List.append_assoc ..).symm

end Sides

/-- **`CoalesceOrRedistribute` at the leaf that has lost the key**, if no inner node becomes too
small. -/
theorem settles_removed {c : Ctx κ 0 H} (horder : 2 < order)
    (hF : M.Formed order (c.plug (t.removed k))) (hO : (c.plug t).Ordered)
    (hS : (c.plug t).Sized order (rootMin H) order) (hk : k ∈ t.leafKeys)
    (htwo : 2 ≤ (c.plug t).toList.length) (hfuel : c.depth < fuel) (hnot : ¬c.Underflows order t) :
    ∃ l, c.Evens order t (t.removed k) l ∧
      Settles M order (coalesceOrRedistribute (fuel + 1) t.no) l (c.KeysFit order k t) := by
  have ht : t.Ordered := (c.ordered_plug.mp hO).1
  have hO' := Ctx.ordered_removed hO hk
  have hsize' := Tree.size_removed ht hk
  have hleaf := (Tree.Sized.of_plug hS).size
  cases c with
  | top =>
    have hlen : 2 ≤ t.slots.size := htwo
    refine ⟨_, rfl, false, M, 0, t.removed k, hF.keepRoot (Nat.succ_pos _) (fun _ => ?_)
      (fun h => absurd rfl h), hF, ⟨Nat.zero_le _, ?_⟩, rfl, iff_of_true hO' trivial⟩
    · show (t.removed k).slots.size ≠ 0
      omega
    · omega
  | down up no left key right stale =>
    rw [Ctx.KeysFit]
    have hmin : (order + 1) / 2 ≤ t.slots.size := hleaf.1
    by_cases hlarge : (order + 1) / 2 < t.slots.size
    · rw [if_pos hlarge]
      refine ⟨((Ctx.down up no left key right stale).plug (t.removed k)).chunks, ?_, ?_⟩
      · rw [Ctx.Evens]
        simp only [if_pos hlarge]
      have hS' : ((Ctx.down up no left key right stale).plug (t.removed k)).Sized order (rootMin H)
          order := by
        refine hS.replace ⟨?_, ?_⟩
        · show (order + 1) / 2 ≤ (t.removed k).slots.size
          omega
        · omega
      refine settles_maintain hF hO' hS' (Nat.succ_ne_zero _) (by omega) (by omega)
        (Tree.keyAt_zero_mem _ ?_) (le_refl _)
      omega
    · rw [if_neg hlarge]
      have hfill : (Ctx.fill no left key right stale t).Ordered := (up.ordered_plug.mp hO).1
      have hkeys := Ctx.leafKeys_removed (c := .down .top no left key right stale) hfill hk
      obtain ⟨pre, post, kl, kr, L, R, e, hbeside, htwins, haround, hu, hlen, hfirst, hsides⟩ :=
        exists_twins horder hS ht hk (by omega)
      have hplug : (Ctx.down up no left key right stale).plug (t.removed k) =
          up.plug (twins no pre kl L kr R post stale) := congrArg up.plug htwins
      have hkeys' : (Ctx.fill no left key right stale t).leafKeys.filter (fun x => x ≠ k) =
          (twins no pre kl L kr R post stale).leafKeys := by
        rw [← htwins]
        exact hkeys.symm
      rw [hplug] at hF hO'
      rw [← hfirst, hkeys']
      have hdepth : up.depth < fuel := Nat.lt_of_succ_lt hfuel
      have hsum := hu.sum
      have hbrother := hu.brother_size
      by_cases henough : 2 * ((order + 1) / 2) ≤ L.slots.size + R.slots.size
      · obtain ⟨L', R', hm, hLno, hRno, hsettle⟩ :=
          settles_borrow horder hF hO' haround hu henough hdepth
        refine ⟨_, .of_moved hlarge hu hsides henough hm hLno hRno, hsettle.congr ?_⟩
        refine and_congr_left fun _ => ?_
        rcases hsides with ⟨rfl, -, rfl, rfl, hR⟩ | ⟨rfl, -, -, hL, hR⟩
        · have hlt : (order + 1) / 2 < e.2.slots.size := by omega
          simp only [List.getLast?_append, List.getLast?_singleton, Option.some_or,
            Option.mem_some_iff, forall_eq', hR, hlt, true_implies]
        · refine iff_of_true (fun heq => ?_) fun e' he' => absurd he' (by simp)
          rw [hR, ← heq] at hbrother
          omega
      · have hmin' : e.2.slots.size = (order + 1) / 2 := by omega
        have hsettle := settles_merge horder hF hO' haround hu (not_le.mp henough) hdepth ?_
        · refine ⟨_, .of_merged hlarge hmin' hsides, hsettle.congr ?_⟩
          refine (and_iff_right fun e' he' hlt => ?_).symm
          rcases hsides with ⟨rfl, -⟩ | ⟨rfl, -⟩
          · rw [List.getLast?_append, List.getLast?_singleton, Option.some_or] at he'
            obtain rfl := Option.mem_some_iff.mp he'
            omega
          · cases he'
        · by_contra hcon
          obtain ⟨hroot, hsmall⟩ := not_or.mp hcon
          refine hnot ⟨by omega, ⟨e, hbeside, hmin'⟩, ?_, hroot⟩
          have hparent := haround.size.1
          have hval : up.minSize order = (order + 1) / 2 := by
            cases up with
            | top => exact absurd rfl hroot
            | down up no left key right stale => rfl
          rw [Ctx.size_fill]
          omega

/-- **The case in which an inner node becomes too small.** -/
theorem removed_fails {c : Ctx κ 0 H} (horder : 2 < order)
    (hF : M.Formed order (c.plug (t.removed k))) (hO : (c.plug t).Ordered)
    (hS : (c.plug t).Sized order (rootMin H) order) (hk : k ∈ t.leafKeys)
    (hunder : c.Underflows order t) :
    Fails IxIndex.mem (coalesceOrRedistribute (fuel + 1) t.no) M := by
  have ht : t.Ordered := (c.ordered_plug.mp hO).1
  cases c with
  | top => exact hunder.elim
  | down up no left key right stale =>
    obtain ⟨hsize, ⟨e', he', hsize'⟩, hparent, hroot⟩ := hunder
    obtain ⟨pre, post, kl, kr, L, R, e, hbeside, htwins, -, hu, hlen, -, -⟩ :=
      exists_twins horder hS ht hk hsize
    rw [hbeside] at he'
    obtain rfl := Option.mem_some_iff.mp he'
    have hplug : (Ctx.down up no left key right stale).plug (t.removed k) =
        up.plug (twins no pre kl L kr R post stale) := congrArg up.plug htwins
    rw [hplug] at hF
    rw [Ctx.size_fill] at hparent
    have hsum := hu.sum
    have hleaf := hu.leaf_size
    show Fails IxIndex.mem (coalesceOrRedistribute (fuel + 1) (t.removed k).no) M
    exact merge_fails hF hu (by omega) hroot (by omega)

end Step

/-! ### The whole call -/

namespace IxMem.WellFormed

variable {c : Ctx κ 0 H} {t : Tree κ 0} {k : κ}

/-- The tree after the removal, before `CoalesceOrRedistribute`. -/
theorem removes (horder : 2 < order) (hM : M.WellFormed order (c.plug t)) (hk : k ∈ t.leafKeys)
    (hfuel : H < fuel) :
    ∃ M', Reaches IxIndex.mem (deleteEntry fuel k) M (do
        let _ ← coalesceOrRedistribute fuel t.no
        let _ ← unpinPage t.no
        return true) M' ∧ M'.Formed order (c.plug (t.removed k)) := by
  obtain ⟨M', hreach, hlinks, hT'⟩ :=
    deleteEntry_reaches hM.formed.chained (hM.inner horder) hM.ordered hk hfuel
  refine ⟨M', hreach, hM.formed.of_links hlinks.link hT' fun q hq => ?_⟩
  rw [(c.nos_plug _).mem_iff] at hq ⊢
  exact hq

/-- **`delete_entry`** if no inner node becomes too small. -/
theorem deleteEntry_does (horder : 2 < order) (hM : M.WellFormed order (c.plug t))
    (htwo : 2 ≤ (c.plug t).toList.length) (hk : k ∈ t.leafKeys) (hnot : ¬c.Underflows order t)
    (hfuel : H + 1 < fuel) :
    ∃ (M' : IxMem κ) (H' : Nat) (T' : Tree κ H'), IxDoes (deleteEntry fuel k) M true M' ∧
      M'.Formed order T' ∧ T'.Sized order (rootMin H') order ∧
      c.Evens order t (t.removed k) T'.chunks ∧
      (T'.toList = (c.plug t).toList.filter fun e => e.1 ≠ k) ∧ (T'.Ordered ↔ c.KeysFit order k t) := by
  obtain ⟨fuel, rfl⟩ := Nat.exists_eq_succ_of_ne_zero (show fuel ≠ 0 by omega)
  obtain ⟨M₁, hreach, hF⟩ := hM.removes horder hk (show H < fuel + 1 by omega)
  have hdepth : c.depth < fuel := by
    have := c.depth_add
    omega
  obtain ⟨_, hevens, b, M', H', T', hdoes, hF', hS', rfl, hiff⟩ :=
    settles_removed horder hF hM.ordered hM.sized hk htwo hdepth hnot
  have hlist := hevens.entries
  rw [Tree.chunkEntries_chunks, Ctx.toList_removed hM.ordered hk] at hlist
  refine ⟨M', H', T', ?_, hF', hS', hevens, hlist, hiff⟩
  have hrest : IxDoes (do
      let _ ← coalesceOrRedistribute (fuel + 1) t.no
      let _ ← unpinPage t.no
      return true) M₁ true M' := hdoes.bind (unpinPage_bind_does fun _ => Does.pure)
  exact Reaches.pure_iff.mp (hreach.trans (Reaches.pure_iff.mpr hrest))

/-- **`delete_entry`** of a key that no slot at its position holds, live or not. -/
theorem deleteEntry_absent (horder : 2 < order) (hM : M.WellFormed order (c.plug t))
    (hleads : c.Leads k t) (hslot : t.slots.keyAt (t.slots.lowerBound k) ≠ k) (hfuel : H < fuel) :
    IxDoes (deleteEntry fuel k) M false M := by
  have hh := hM.formed.chained.held
  obtain ⟨c', t', hplug, hleads', hfind⟩ := findLeafPage_does hh.tree hh.root (hM.inner horder)
    hfuel k
  obtain ⟨rfl, rfl⟩ := hleads.unique hleads' hplug.symm
  obtain ⟨page, hp, -, -, hshows⟩ := (Held.plug_iff.mpr hh).tree
  rw [Tree.row_leaf] at hshows
  have hsame : page.remove k = page := hshows.remove_of_ne hslot
  have hset : M.set t.no page = M := by
    unfold IxMem.set
    rw [← hp, Function.update_eq_self]
  unfold deleteEntry
  apply hfind.bind
  apply Does.bind (node_does hp)
  rw [hsame]
  apply Does.bind (setNode_does _ _)
  rw [if_pos rfl, hset]
  exact unpinPage_bind_does fun _ => Does.pure

/-- **`delete_entry`** if an inner node becomes too small. -/
theorem deleteEntry_fails (horder : 2 < order) (hM : M.WellFormed order (c.plug t))
    (hk : k ∈ t.leafKeys) (hunder : c.Underflows order t) (hfuel : H < fuel) :
    Fails IxIndex.mem (deleteEntry fuel k) M := by
  obtain ⟨fuel, rfl⟩ := Nat.exists_eq_succ_of_ne_zero (show fuel ≠ 0 by omega)
  obtain ⟨M₁, hreach, hF⟩ := hM.removes horder hk hfuel
  exact hreach.fails (Fails.bind (removed_fails horder hF hM.ordered hM.sized hk hunder))

end IxMem.WellFormed

/-! ### The leaf beside a leaf -/

omit [LinearOrder κ] in
/-- **A memory holds one tree.** -/
theorem IxMem.Formed.unique {H' : Nat} {T : Tree κ H} {T' : Tree κ H'} (hT : M.Formed order T)
    (hT' : M.Formed order T') (hin : T.Inner) (hin' : T'.Inner) :
    (⟨H, T⟩ : Σ h, Tree κ h) = ⟨H', T'⟩ :=
  Tree.Holds.unique hT.chained.held.tree hT'.chained.held.tree hin hin'
    (hT.chained.held.root.symm.trans hT'.chained.held.root)

end Rucbase
