import Rucbase.Index.Equiv.DeleteEntry

/-!
# `CoalesceOrRedistribute` and the order of the keys

What `CoalesceOrRedistribute` leaves at a leaf that has become too small, or is still large enough: the
entries, the sizes of the nodes, and the exact condition under which the tree is in order
(`settles_maintain`, `settles_borrow`, `settles_merge`).  Where the leaf is merged and its parent, an
inner node below the root, becomes too small in turn, the call fails (`merge_fails`).
-/

namespace Rucbase

open EStateM IxIndexHandle Separators

variable {κ : Type} {h H : Nat}

/-! ### The pages determine the tree -/

/-- A page shows only one list of slots. -/
theorem IxPage.Shows.unique {page : IxPage κ} {s s' : Slots κ Rid} (hs : page.Shows s)
    (hs' : page.Shows s') : s = s' := by
  have hsize : s.size = s'.size := by
    have h1 := hs.numKey
    have h2 := hs'.numKey
    omega
  have hkeys : s.keyAt = s'.keyAt := hs.keys.symm.trans hs'.keys
  have hstale : s.stale = s'.stale := by
    ext1 j
    have := congrFun hkeys (s.size + j)
    rwa [Slots.keyAt_of_ge (by omega), Slots.keyAt_of_ge (by omega), hsize, Nat.add_sub_cancel_left]
      at this
  have hentries : s.entries = s'.entries := hs.live.symm.trans hs'.live
  exact congrArg₂ Slots.mk hentries hstale

/-- **Two trees in the same pages under the same root are the same tree.** -/
theorem Tree.Holds.unique {pages : Int → Option (IxPage κ)} {h h' : Nat} {t : Tree κ h} {t' : Tree κ h'}
    {p p' : Int} (ht : t.Holds pages p) (ht' : t'.Holds pages p') (hin : t.Inner) (hin' : t'.Inner)
    (hno : t.no = t'.no) : (⟨h, t⟩ : Σ h, Tree κ h) = ⟨h', t'⟩ := by
  induction h generalizing h' p p' with
  | zero =>
    obtain ⟨page, hp, -, hleaf, hshows⟩ := ht.nodeAt
    obtain ⟨page', hp', -, hleaf', hshows'⟩ := ht'.nodeAt
    rw [hno, hp'] at hp
    obtain rfl := Option.some.inj hp
    cases h' with
    | zero =>
      rw [Tree.row_leaf] at hshows hshows'
      have heq : t = t' := congrArg₂ TreeNode.mk hno (hshows.unique hshows')
      rw [heq]
    | succ h' =>
      rw [hleaf] at hleaf'
      cases hleaf'
  | succ h ih =>
    obtain ⟨⟨page, hp, -, hleaf, hshows⟩, hkids⟩ := ht
    cases h' with
    | zero =>
      obtain ⟨page', hp', -, hleaf', -⟩ := ht'
      rw [hno, hp'] at hp
      obtain rfl := Option.some.inj hp
      rw [hleaf] at hleaf'
      cases hleaf'
    | succ h' =>
      obtain ⟨⟨page', hp', -, -, hshows'⟩, hkids'⟩ := ht'
      rw [hno, hp'] at hp
      obtain rfl := Option.some.inj hp
      have hrow : t.row = t'.row := hshows.unique hshows'
      have hlen : t.kids.length = t'.kids.length := by
        have hsize := congrArg Slots.size hrow
        rwa [Tree.row, Tree.row, Slots.size_map, Slots.size_map] at hsize
      have hget : ∀ (i : Nat) (hi : i < t.kids.length) (hi' : i < t'.kids.length),
          t.kids[i].1 = t'.kids[i].1 ∧ (⟨h, t.kids[i].2⟩ : Σ h, Tree κ h) = ⟨h', t'.kids[i].2⟩ := by
        intro i hi hi'
        have hentry : (t.kids.map fun e => (e.1, Item.rid (h := h + 1) e.2))[i]? =
            (t'.kids.map fun e => (e.1, Item.rid (h := h' + 1) e.2))[i]? :=
          congrArg (fun s : Slots κ Rid => s.entries[i]?) hrow
        rw [List.getElem?_map, List.getElem?_map, List.getElem?_eq_getElem hi,
          List.getElem?_eq_getElem hi'] at hentry
        obtain ⟨hkey, hrid⟩ := Prod.mk.inj (Option.some.inj hentry)
        refine ⟨hkey, ih (hkids _ (List.getElem_mem hi)) (hkids' _ (List.getElem_mem hi'))
          (hin.2 _ (List.getElem_mem hi)) (hin'.2 _ (List.getElem_mem hi')) ?_⟩
        exact congrArg Rid.pageNo hrid
      -- there is a child, so that the heights agree
      have hpos : 0 < t.kids.length := Nat.pos_of_ne_zero hin.1
      obtain rfl : h = h' := congrArg Sigma.fst (hget 0 hpos (hlen ▸ hpos)).2
      have hentries : t.kids = t'.kids := by
        refine List.ext_getElem hlen fun i hi hi' => ?_
        obtain ⟨hkey, hchild⟩ := hget i hi hi'
        exact Prod.ext hkey (eq_of_heq (Sigma.mk.inj hchild).2)
      have hstale : t.slots.stale = t'.slots.stale := congrArg (fun s : Slots κ Rid => s.stale) hrow
      have heq : t = t' := congrArg₂ TreeNode.mk hno (congrArg₂ Slots.mk hentries hstale)
      rw [heq]

/-! ### What the calls leave -/

/-- Keys on the path do not count for sizes. -/
theorem Ctx.Rekeyed.sized {order : Nat} {c c' : Ctx κ h H} (hc : c.Rekeyed c') {t : Tree κ h}
    (hT : (c.plug t).Sized order (rootMin H) order) : (c'.plug t).Sized order (rootMin H) order := by
  induction hc with
  | top => exact hT
  | @down h H up up' no left key key' right stale hup ih =>
    have hfill := Tree.Sized.of_plug (c := up) hT
    refine ih (Tree.Sized.replace (c := up) hT ⟨?_, fun e he => ?_⟩)
    · rw [Ctx.size_fill]
      have := hfill.1
      rwa [Ctx.size_fill] at this
    · rcases Ctx.mem_fill.mp he with rfl | he
      · exact hfill.2 (key, t) (Ctx.mem_fill.mpr (Or.inl rfl))
      · exact hfill.2 e (Ctx.mem_fill.mpr (Or.inr he))

variable [LinearOrder κ] {M : IxMem κ} {order fuel : Nat}

/-- The call leaves a tree with the leaves `l` and nodes of the right size, and the tree is in order
exactly if `P` holds. -/
def Settles (M : IxMem κ) (order : Nat) (x : IxM κ Bool) (l : LeafChunks κ) (P : Prop) : Prop :=
  ∃ (b : Bool) (M' : IxMem κ) (H' : Nat) (T' : Tree κ H'), IxDoes x M b M' ∧ M'.Formed order T' ∧
    T'.Sized order (rootMin H') order ∧ T'.chunks = l ∧ (T'.Ordered ↔ P)

/-- A node that is large enough. -/
theorem settles_maintain {c : Ctx κ h H} {t : Tree κ h} (hF : M.Formed order (c.plug t))
    (hO : (c.plug t).Ordered) (hS : (c.plug t).Sized order (rootMin H) order) (hc : c.depth ≠ 0)
    (hsize : (order + 1) / 2 ≤ t.slots.size) (hfuel : c.depth < fuel) {x : κ} (hx : x ∈ t.leafKeys)
    (hle : t.slots.keyAt 0 ≤ x) :
    Settles M order (coalesceOrRedistribute fuel t.no) (c.plug t).chunks
      (c.Takes (t.slots.keyAt 0) t.leafKeys) := by
  obtain ⟨ht, hord⟩ := c.ordered_plug.mp hO
  obtain ⟨M', hdoes, hF'⟩ := hF.maintain hc hsize hfuel
  have hrekeyed := c.rekeyed_maintain (t.slots.keyAt 0)
  refine ⟨false, M', H, _, hdoes, hF', hrekeyed.sized hS, hrekeyed.collect_eq _ t, ?_⟩
  rw [Ctx.ordered_plug, and_iff_right ht, Ctx.ordered_maintain_iff hord hx hle]

omit [LinearOrder κ] in
theorem Tree.keyAt_zero_mem (t : Tree κ 0) (hsize : t.slots.size ≠ 0) :
    t.slots.keyAt 0 ∈ t.leafKeys := by
  have hget : t.slots.entries[0]? = some (t.slots.entries.get ⟨0, Nat.pos_of_ne_zero hsize⟩) :=
    List.getElem?_eq_getElem _
  rw [Slots.keyAt_of_getElem? hget]
  exact List.mem_map_of_mem (List.mem_of_getElem? hget)

section Twins

variable {c : Ctx κ 1 H} {no : Int} {pre post : List (κ × Tree κ 0)} {kl kr : κ} {L R : Tree κ 0}
  {stale : Nat → κ}

omit [LinearOrder κ] in
theorem groups_twins (pre : List (κ × Tree κ 0)) (kl : κ) (L : Tree κ 0) (kr : κ) (R : Tree κ 0)
    (post : List (κ × Tree κ 0)) : groups (pre ++ (kl, L) :: (kr, R) :: post) =
      groups pre ++ (kl, L.leafKeys) :: (kr, R.leafKeys) :: groups post := groups_append _ _

omit [LinearOrder κ] in
theorem leafKeys_twins : (twins no pre kl L kr R post stale).leafKeys =
    keysBelow pre ++ (L.leafKeys ++ R.leafKeys) ++ keysBelow post := by
  refine (Tree.leafKeys_inner _).trans ((keysBelow_append pre ((kl, L) :: (kr, R) :: post)).trans ?_)
  rw [keysBelow_cons, keysBelow_cons, List.append_assoc, List.append_assoc]

/-- The order of two neighbours. -/
theorem ordered_twins : (twins no pre kl L kr R post stale).Ordered ↔
    Separated (groups pre ++ (kl, L.leafKeys) :: (kr, R.leafKeys) :: groups post) ∧
      (∀ e ∈ pre ++ post, e.2.Ordered) ∧ L.Ordered ∧ R.Ordered := by
  show Separated (groups (pre ++ (kl, L) :: (kr, R) :: post)) ∧
    (∀ e ∈ pre ++ (kl, L) :: (kr, R) :: post, e.2.Ordered) ↔ _
  rw [groups_twins]
  refine and_congr_right fun _ => ?_
  simp only [List.mem_append, List.mem_cons]
  constructor
  · intro hkids
    refine ⟨fun e he => hkids e ?_, hkids (kl, L) (by simp), hkids (kr, R) (by simp)⟩
    tauto
  · rintro ⟨hkids, hL, hR⟩ e (he | rfl | rfl | he)
    · exact hkids e (Or.inl he)
    · exact hL
    · exact hR
    · exact hkids e (Or.inr he)

omit [LinearOrder κ] in
theorem chunks_twins : (c.plug (twins no pre kl L kr R post stale)).chunks =
    (c.chunksBefore ++ pre.flatMap fun e => e.2.chunks) ++
      ((L.no, L.slots.entries) :: (R.no, R.slots.entries) ::
        ((post.flatMap fun e => e.2.chunks) ++ c.chunksAfter)) := by
  have hkids : (twins no pre kl L kr R post stale).chunks = (pre.flatMap fun e => e.2.chunks) ++
      (L.no, L.slots.entries) :: (R.no, R.slots.entries) :: post.flatMap fun e => e.2.chunks :=
    List.flatMap_append
  rw [c.plug_chunks, hkids]
  simp only [List.append_assoc, List.cons_append]

omit [LinearOrder κ] in
/-- An entry that moves leaves the keys where they are. -/
theorem Moved.leafKeys {leaf L' R' : Tree κ 0} (hm : Moved L R leaf L' R') :
    L'.leafKeys ++ R'.leafKeys = L.leafKeys ++ R.leafKeys := by
  show L'.slots.entries.map Prod.fst ++ R'.slots.entries.map Prod.fst =
    L.slots.entries.map Prod.fst ++ R.slots.entries.map Prod.fst
  rw [← List.map_append, ← List.map_append, hm.entries]

/-- **The order after an entry has moved**: the new separator has to be above the key to its left. -/
theorem Moved.ordered_iff {leaf L' R' : Tree κ 0} (hm : Moved L R leaf L' R')
    (hO : (twins no pre kl L kr R post stale).Ordered) (hR : R'.slots.size ≠ 0) :
    (twins no pre kl L' (R'.slots.keyAt 0) R' post stale).Ordered ↔ kl < R'.slots.keyAt 0 := by
  obtain ⟨hsep, hkids, hL, hR₀⟩ := ordered_twins.mp hO
  have hpair : (L'.slots.entries ++ R'.slots.entries).Pairwise fun a b => a.1 < b.1 := by
    have hkeys := hO.pairwise
    rw [leafKeys_twins, ← hm.leafKeys] at hkeys
    have hboth := (List.pairwise_append.mp (List.pairwise_append.mp hkeys).1).2.1
    rw [← List.pairwise_map]
    rwa [List.map_append]
  obtain ⟨hL', hR', hcross⟩ := List.pairwise_append.mp hpair
  obtain ⟨e, r, hcons⟩ := List.exists_cons_of_ne_nil
    (show R'.slots.entries ≠ [] from fun h => hR (congrArg List.length h))
  have hfirst : R'.slots.keyAt 0 = e.1 := Slots.keyAt_of_getElem? (by rw [hcons]; rfl)
  have hkeys : R'.leafKeys = e.1 :: r.map Prod.fst := by
    show R'.slots.entries.map Prod.fst = _
    rw [hcons, List.map_cons]
  rw [ordered_twins]
  have hmerged := hsep.merge
  rw [← hm.leafKeys] at hmerged
  have hdivide := hmerged.divide_iff (e := R'.slots.keyAt 0) (by rw [hfirst, hkeys]; simp)
    (fun x hx => ?_) fun x hx => ?_
  · rw [hdivide]
    refine and_iff_left ⟨hkids, ?_, ?_⟩
    · exact Slots.sortedFrom_zero_iff.mpr hL'
    · exact Slots.sortedFrom_zero_iff.mpr hR'
  · obtain ⟨d, hd, rfl⟩ := List.mem_map.mp hx
    rw [hfirst]
    refine hcross d hd e ?_
    rw [hcons]
    exact List.mem_cons_self
  · rw [hkeys] at hx
    rw [hfirst]
    rw [hcons, List.pairwise_cons] at hR'
    rcases List.mem_cons.mp hx with rfl | hx
    · exact le_refl _
    · obtain ⟨d, hd, rfl⟩ := List.mem_map.mp hx
      exact (hR'.1 d hd).le

/-- The key in front of the place where the entry went: the last key of the left leaf has become the
first of the right one, or the first of the right one has gone. -/
theorem Moved.key_cases {leaf L' R' : Tree κ 0} (hm : Moved L R leaf L' R')
    (hO : (twins no pre kl L kr R post stale).Ordered) (hR : R'.slots.size ≠ 0) :
    kr ≠ R'.slots.keyAt 0 ∧
      (leaf = R ∧ R'.slots.keyAt 0 = L.slots.keyAt (L.slots.size - 1) ∨
        leaf = L ∧ kl < R'.slots.keyAt 0) := by
  obtain ⟨hsep, -, -, hR₀⟩ := ordered_twins.mp hO
  have hsep' : Separated ((groups pre ++ [(kl, L.leafKeys)]) ++ (kr, R.leafKeys) :: groups post) := by
    rwa [List.append_assoc]
  have hF := (separated_iff.mp hsep').2
  have hleft := hF.left (kl, L.leafKeys) (by simp)
  rcases hm with ⟨hleaf, e, hl, hr⟩ | ⟨hleaf, e, hr, hl⟩
  · have hfirst : R'.slots.keyAt 0 = e.1 := Slots.keyAt_of_getElem? (by rw [hr]; rfl)
    have hlast : L.slots.keyAt (L.slots.size - 1) = e.1 := by
      apply Slots.keyAt_of_getElem?
      unfold Slots.size
      rw [hl, List.length_append, List.length_singleton, Nat.add_sub_cancel,
        List.getElem?_append_right (le_refl _), Nat.sub_self]
      rfl
    have hmem : e.1 ∈ L.leafKeys := by
      show e.1 ∈ L.slots.entries.map Prod.fst
      rw [hl]
      simp
    refine ⟨?_, Or.inl ⟨hleaf, hfirst.trans hlast.symm⟩⟩
    rw [hfirst]
    exact (hleft.2 e.1 hmem).ne'
  · obtain ⟨d, r, hcons⟩ := List.exists_cons_of_ne_nil
      (show R'.slots.entries ≠ [] from fun h => hR (congrArg List.length h))
    have hfirst : R'.slots.keyAt 0 = d.1 := Slots.keyAt_of_getElem? (by rw [hcons]; rfl)
    have hpair := Slots.sortedFrom_zero_iff.mp (show R.slots.SortedFrom 0 from hR₀)
    rw [hr, List.pairwise_cons] at hpair
    have hlt : e.1 < d.1 := hpair.1 d (by rw [hcons]; exact List.mem_cons_self)
    have hkr : kr ≤ e.1 := by
      refine hF.own (by simp) e.1 ?_
      show e.1 ∈ R.slots.entries.map Prod.fst
      rw [hr]
      simp
    rw [hfirst]
    exact ⟨(hkr.trans_lt hlt).ne, Or.inr ⟨hleaf, (hleft.1.trans_le hkr).trans hlt⟩⟩

/-- The first key of a parent with two neighbours is not above the keys of the right one. -/
theorem firstKey_lt_of_ordered (hO : (twins no pre kl L kr R post stale).Ordered) {x : κ}
    (hx : x ∈ R.leafKeys) : Ctx.firstKey pre kl < x := by
  obtain ⟨hsep, -⟩ := ordered_twins.mp hO
  have hsep' : Separated ((groups pre ++ [(kl, L.leafKeys)]) ++ (kr, R.leafKeys) :: groups post) := by
    rwa [List.append_assoc]
  have hF := (separated_iff.mp hsep').2
  have hle : kr ≤ x := hF.own (by simp) x hx
  cases pre with
  | nil => exact (hF.left (kl, L.leafKeys) (by simp)).1.trans_le hle
  | cons e pre => exact (hF.left (e.1, e.2.leafKeys) (by simp [groups])).1.trans_le hle

end Twins

/-- What is known of the tree around two neighbouring leaves: the call may change their parent as long
as the sizes are right. -/
structure AroundTwins (order : Nat) (c : Ctx κ 1 H) (pre post : List (κ × Tree κ 0)) : Prop where
  kids : ∀ e ∈ pre ++ post, e.2.Sized order ((order + 1) / 2) order
  size : c.minSize order ≤ pre.length + post.length + 2 ∧ pre.length + post.length + 2 ≤ order
  plug : ∀ P : Tree κ 1, P.Sized order (c.minSize order) order →
    (c.plug P).Sized order (rootMin H) order

section Borrow

variable {c : Ctx κ 1 H} {no : Int} {pre post : List (κ × Tree κ 0)} {kl kr : κ} {L R : Tree κ 0}
  {stale : Nat → κ} {leaf brother : Tree κ 0}

/-- **A leaf that borrows an entry.** -/
theorem settles_borrow (horder : 2 < order)
    (hF : M.Formed order (c.plug (twins no pre kl L kr R post stale)))
    (hO : (c.plug (twins no pre kl L kr R post stale)).Ordered) (hS : AroundTwins order c pre post)
    (hu : Underfull order pre L R leaf brother)
    (henough : 2 * ((order + 1) / 2) ≤ L.slots.size + R.slots.size) (hfuel : c.depth < fuel) :
    ∃ L' R', Moved L R leaf L' R' ∧ L'.no = L.no ∧ R'.no = R.no ∧
      Settles M order (coalesceOrRedistribute (fuel + 1) leaf.no)
        (c.plug (twins no pre kl L' kr R' post stale)).chunks
        ((leaf = R → kl < L.slots.keyAt (L.slots.size - 1)) ∧
          c.Takes (Ctx.firstKey pre kl) (twins no pre kl L kr R post stale).leafKeys) := by
  obtain ⟨M', L', R', hdoes, hlinks, htree, hLno, hRno, hm⟩ := hF.chained.borrow hu henough hfuel
  obtain ⟨ht, hord⟩ := c.ordered_plug.mp hO
  have hrekeyed := c.rekeyed_carry pre kl kr (R'.slots.keyAt 0)
  have hsum := hu.sum
  have hleaf := hu.leaf_size
  have hbrother := hu.brother_size
  -- only one of the two is too small
  have hone : leaf = L → leaf ≠ R := by
    rintro rfl rfl
    rcases hu.beside with ⟨-, rfl⟩ | ⟨-, rfl, -⟩
    · omega
    · omega
  have hbeside : (leaf = R → leaf.slots.size = R.slots.size ∧ brother.slots.size = L.slots.size) ∧
      (leaf = L → leaf.slots.size = L.slots.size ∧ brother.slots.size = R.slots.size) := by
    rcases hu.beside with ⟨rfl, rfl⟩ | ⟨rfl, rfl, -⟩
    · exact ⟨fun _ => ⟨rfl, rfl⟩, fun h => absurd rfl (hone h)⟩
    · exact ⟨fun h => absurd h (hone rfl), fun _ => ⟨rfl, rfl⟩⟩
  have hsizes : ((order + 1) / 2 ≤ L'.slots.size ∧ L'.slots.size ≤ order) ∧
      (order + 1) / 2 ≤ R'.slots.size ∧ R'.slots.size ≤ order := by
    rcases hm.sizes with ⟨h1, h2, h3⟩ | ⟨h1, h2, h3⟩
    · have := hbeside.1 h1
      omega
    · have := hbeside.2 h1
      omega
  have hR : R'.slots.size ≠ 0 := by omega
  obtain ⟨hne, hkeys⟩ := hm.key_cases ht hR
  refine ⟨L', R', hm, hLno, hRno, false, M', H, _, hdoes,
    hF.of_links hlinks.link htree fun q hq => ?_, ?_, ?_, ?_⟩
  · have hq' := (hrekeyed.mem_nos_iff _ q).mp hq
    rw [(Ctx.nos_plug c _).mem_iff] at hq' ⊢
    rcases List.mem_append.mp hq' with hq' | hq'
    · refine List.mem_append_left _ ?_
      have hnos : (twins no pre kl L' (R'.slots.keyAt 0) R' post stale).nos =
          (twins no pre kl L kr R post stale).nos := by
        show no :: List.flatMap _ (pre ++ (kl, L') :: (_, R') :: post) =
          no :: List.flatMap _ (pre ++ (kl, L) :: (kr, R) :: post)
        simp only [List.flatMap_append, List.flatMap_cons, Tree.nos, hLno, hRno]
      rwa [← hnos]
    · exact List.mem_append_right _ hq'
  · refine hrekeyed.sized (hS.plug _ ⟨?_, fun e he => ?_⟩)
    · have hlen : (twins no pre kl L' (R'.slots.keyAt 0) R' post stale).slots.size =
          pre.length + post.length + 2 := by
        show (pre ++ (kl, L') :: (_, R') :: post).length = _
        rw [List.length_append, List.length_cons, List.length_cons]
        omega
      rw [hlen]
      exact hS.size
    · have he' : e ∈ pre ++ (kl, L') :: (R'.slots.keyAt 0, R') :: post := he
      simp only [List.mem_append, List.mem_cons] at he'
      rcases he' with he | rfl | rfl | he
      · exact hS.kids e (List.mem_append_left _ he)
      · exact hsizes.1
      · exact hsizes.2
      · exact hS.kids e (List.mem_append_right _ he)
  · refine (hrekeyed.collect_eq _ _).trans ?_
    exact chunks_twins.trans chunks_twins.symm
  · have hkeep : (twins no pre kl L' (R'.slots.keyAt 0) R' post stale).leafKeys =
        (twins no pre kl L kr R post stale).leafKeys := by
      rw [leafKeys_twins, leafKeys_twins, hm.leafKeys]
    have hRsize : R.slots.size ≠ 0 := by
      rcases hu.beside with ⟨rfl, -⟩ | ⟨-, rfl, -⟩
      · omega
      · omega
    have hy := R.keyAt_zero_mem hRsize
    have hmem : R.slots.keyAt 0 ∈ (twins no pre kl L kr R post stale).leafKeys := by
      rw [leafKeys_twins]
      simp [hy]
    rw [Ctx.ordered_plug, hm.ordered_iff ht hR, Ctx.carry, if_neg hne, hkeep,
      Ctx.ordered_maintain_iff hord hmem (firstKey_lt_of_ordered ht hy).le]
    refine and_congr_left fun _ => ?_
    rcases hkeys with ⟨hleaf, hkey⟩ | ⟨hleaf, hkey⟩
    · rw [hkey]
      exact ⟨fun h _ => h, fun h => h hleaf⟩
    · exact iff_of_true hkey fun h => absurd h (hone hleaf)

end Borrow

section Merge

variable {c : Ctx κ 1 H} {no : Int} {pre post : List (κ × Tree κ 0)} {kl kr : κ} {L R : Tree κ 0}
  {stale : Nat → κ} {leaf brother : Tree κ 0}

omit [LinearOrder κ] in
theorem leafKeys_append : Tree.leafKeys (h := 0) ⟨no, L.slots.append R.slots⟩ =
    L.leafKeys ++ R.leafKeys := List.map_append

omit [LinearOrder κ] in
theorem leafKeys_mergedTree (kr : κ) : (mergedTree no pre kl L R post stale).leafKeys =
    (twins no pre kl L kr R post stale).leafKeys := by
  refine (Tree.leafKeys_inner _).trans ((keysBelow_append pre _).trans ?_)
  rw [keysBelow_cons, leafKeys_append, leafKeys_twins, ← List.append_assoc]

/-- Two neighbours in one leaf are in order. -/
theorem ordered_mergedTree (ht : (twins no pre kl L kr R post stale).Ordered) :
    (mergedTree no pre kl L R post stale).Ordered := by
  obtain ⟨hsep, hkids, -⟩ := ordered_twins.mp ht
  have hkeys := ht.pairwise
  rw [leafKeys_twins] at hkeys
  have hboth := (List.pairwise_append.mp (List.pairwise_append.mp hkeys).1).2.1
  have hleaf : Tree.Ordered (h := 0) ⟨L.no, L.slots.append R.slots⟩ := by
    refine Slots.sortedFrom_zero_iff.mpr ?_
    show (L.slots.entries ++ R.slots.entries).Pairwise _
    rw [← List.pairwise_map, List.map_append]
    exact hboth
  refine Ctx.ordered_fill.mpr ⟨?_, hkids, hleaf⟩
  rw [leafKeys_append]
  exact hsep.merge

theorem Settles.congr {x : IxM κ Bool} {l : LeafChunks κ} {P Q : Prop}
    (hx : Settles M order x l P) (hiff : P ↔ Q) : Settles M order x l Q := by
  obtain ⟨b, M', H', T', hdoes, hF, hS, hl, hP⟩ := hx
  exact ⟨b, M', H', T', hdoes, hF, hS, hl, hP.trans hiff⟩

theorem Settles.of_reaches {x y rest : IxM κ Bool} {M₁ : IxMem κ} {l : LeafChunks κ} {P : Prop}
    {b : Bool} (hreach : Reaches IxIndex.mem x M (y >>= fun _ => rest) M₁)
    (hrest : ∀ M', IxDoes rest M' b M') (hy : Settles M₁ order y l P) : Settles M order x l P := by
  obtain ⟨b', M', H', T', hdoes, hT'⟩ := hy
  have hboth : IxDoes (y >>= fun _ => rest) M₁ b M' := hdoes.bind (hrest M')
  exact ⟨b, M', H', T', Reaches.pure_iff.mp (hreach.trans (Reaches.pure_iff.mpr hboth)), hT'⟩

/-- **A leaf that is merged**, where the parent is the root or large enough. -/
theorem settles_merge (horder : 2 < order)
    (hF : M.Formed order (c.plug (twins no pre kl L kr R post stale)))
    (hO : (c.plug (twins no pre kl L kr R post stale)).Ordered) (hS : AroundTwins order c pre post)
    (hu : Underfull order pre L R leaf brother)
    (hfew : L.slots.size + R.slots.size < 2 * ((order + 1) / 2)) (hfuel : c.depth < fuel)
    (hparent : c.depth = 0 ∨ (order + 1) / 2 ≤ pre.length + post.length + 1) :
    Settles M order (coalesceOrRedistribute (fuel + 1) leaf.no)
      (c.plug (mergedTree no pre kl L R post stale)).chunks
      (c.Takes (Ctx.firstKey pre kl) (twins no pre kl L kr R post stale).leafKeys) := by
  obtain ⟨x, parentPage, pageL, pageR, next, hp, hl, hreach⟩ := hF.chained.mergeInto hu hfew fuel
  have hF' := hF.merge hp hl
  obtain ⟨ht, hord⟩ := c.ordered_plug.mp hO
  have hmerged : (c.plug (mergedTree no pre kl L R post stale)).Ordered := by
    rw [Ctx.ordered_plug, leafKeys_mergedTree kr]
    exact ⟨ordered_mergedTree ht, hord⟩
  have hlen : (mergedTree no pre kl L R post stale).slots.size = pre.length + post.length + 1 := by
    show (pre ++ _ :: post).length = _
    rw [List.length_append, List.length_cons]
    omega
  have hleaf : Tree.Sized (h := 0) order ((order + 1) / 2) order ⟨L.no, L.slots.append R.slots⟩ := by
    have hsum := hu.sum
    have hsize := hu.brother_size
    have happend : (L.slots.append R.slots).size = L.slots.size + R.slots.size := Slots.size_append _ _
    have hmin := hu.leaf_size
    exact ⟨by show _ ≤ (L.slots.append R.slots).size; omega,
      by show (L.slots.append R.slots).size ≤ _; omega⟩
  have hkids : ∀ e ∈ (mergedTree no pre kl L R post stale).kids,
      e.2.Sized order ((order + 1) / 2) order := by
    intro e he
    have he' : e ∈ pre ++ (kl, (⟨L.no, L.slots.append R.slots⟩ : Tree κ 0)) :: post := he
    simp only [List.mem_append, List.mem_cons] at he'
    rcases he' with he | rfl | he
    · exact hS.kids e (List.mem_append_left _ he)
    · exact hleaf
    · exact hS.kids e (List.mem_append_right _ he)
  refine Settles.of_reaches hreach
    (fun M' => unpinPage_bind_does fun _ => unpinPage_bind_does fun _ => Does.pure) ?_
  have hsizes := hS.size
  by_cases hc : c.depth = 0
  · cases c with
    | down up no left key right stale => exact absurd hc (Nat.succ_ne_zero _)
    | top =>
      by_cases hsingle : pre.length + post.length = 0
      · -- the merged leaf is the only child
        obtain rfl : pre = [] := List.eq_nil_of_length_eq_zero (by omega)
        obtain rfl : post = [] := List.eq_nil_of_length_eq_zero (by omega)
        obtain ⟨M', hdoes, hchild⟩ := IxMem.Formed.adjust hF' (Nat.zero_lt_of_lt hfuel)
        refine ⟨true, M', 0, _, hdoes, hchild, hleaf.mono (Nat.zero_le _) (le_refl _), rfl, ?_⟩
        exact iff_of_true (hmerged.2 _ List.mem_cons_self) trivial
      · refine ⟨false, _, 1, _, hF'.keepRoot (Nat.zero_lt_of_lt hfuel) (fun h => absurd h Nat.one_ne_zero)
          fun _ => ?_, hF', hS.plug _ ⟨?_, hkids⟩, rfl, iff_of_true hmerged trivial⟩
        · show (mergedTree no pre kl L R post stale).slots.size ≠ 1
          omega
        · have hmin : (Ctx.top : Ctx κ 1 1).minSize order = 2 := rfl
          rw [hlen, hmin]
          omega
  · have hRsize : R.slots.size ≠ 0 := by
      have := hu.leaf_size
      have := hu.brother_size
      rcases hu.beside with ⟨rfl, -⟩ | ⟨-, rfl, -⟩
      · omega
      · omega
    have hy := R.keyAt_zero_mem hRsize
    have hmem : R.slots.keyAt 0 ∈ (mergedTree no pre kl L R post stale).leafKeys := by
      rw [leafKeys_mergedTree kr, leafKeys_twins]
      simp [hy]
    have hfirst : (mergedTree no pre kl L R post stale).slots.keyAt 0 = Ctx.firstKey pre kl :=
      Ctx.keyAt_zero_fill ..
    have hmin : c.minSize order = (order + 1) / 2 := by
      cases c with
      | top => exact absurd rfl hc
      | down up no left key right stale => rfl
    have hlarge : (order + 1) / 2 ≤ pre.length + post.length + 1 := hparent.resolve_left hc
    have hsized : (c.plug (mergedTree no pre kl L R post stale)).Sized order (rootMin H) order := by
      refine hS.plug _ ⟨?_, hkids⟩
      rw [hlen, hmin]
      omega
    have hsettle := settles_maintain hF' hmerged hsized hc (by omega) hfuel hmem
      (by rw [hfirst]; exact (firstKey_lt_of_ordered ht hy).le)
    rw [hfirst, leafKeys_mergedTree kr] at hsettle
    exact hsettle

/-- **A leaf that is merged**, where the parent becomes too small. -/
theorem merge_fails (hF : M.Formed order (c.plug (twins no pre kl L kr R post stale)))
    (hu : Underfull order pre L R leaf brother)
    (hfew : L.slots.size + R.slots.size < 2 * ((order + 1) / 2)) (hc : c.depth ≠ 0)
    (hparent : pre.length + post.length + 1 < (order + 1) / 2) :
    Fails IxIndex.mem (coalesceOrRedistribute (fuel + 1) leaf.no) M := by
  obtain ⟨x, parentPage, pageL, pageR, next, hp, hl, hreach⟩ := hF.chained.mergeInto hu hfew fuel
  have hlen : (mergedTree no pre kl L R post stale).slots.size = pre.length + post.length + 1 := by
    show (pre ++ _ :: post).length = _
    rw [List.length_append, List.length_cons]
    omega
  exact hreach.fails (Fails.bind ((hF.merge hp hl).underflow hc (by omega)))

end Merge

end Rucbase
