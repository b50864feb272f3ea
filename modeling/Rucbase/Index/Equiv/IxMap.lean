import Rucbase.Index.Equiv.Reinsert
import Rucbase.Index.IxMap

/-!
# An index as a map

An index that holds a well-formed tree stands for the map of its entries (`IxIndex.Represents`).  A
call that meets `IxIndex.Fits` answers as on the map and leaves an index that stands for the map
after it (`IxIndex.Represents.call`), so that a run of such calls cannot be told from the map
(`index_behaves_as_map`).  The condition is on the state before a call; each of its parts is one of
the things that `insert_entry` and `delete_entry` take for granted.
-/

namespace Rucbase

open EStateM IxIndexHandle

variable {κ : Type} {H : Nat} [LinearOrder κ]

/-- The index holds a well-formed tree with the entries of the map. -/
def IxIndex.Represents (order : Nat) (s : IxIndex κ) (m : IxMap κ) : Prop :=
  ∃ (H : Nat) (T : Tree κ H), s.mem.WellFormed order T ∧ s.links.Ok ∧
    ∀ key value, (key, value) ∈ T.toList ↔ m key = some value

namespace IxMap

variable {m : IxMap κ} {key : κ} {value : Rid}

theorem call_insertEntry_of_some (h : (m key).isSome) :
    m.call (.insertEntry key value) = (.bool false, m) := if_pos h

theorem call_insertEntry_of_none (h : m key = none) :
    m.call (.insertEntry key value) = (.bool true, Function.update m key (some value)) :=
  if_neg (by rw [h]; decide)

theorem call_deleteEntry_of_some (h : (m key).isSome) :
    m.call (.deleteEntry key) = (.bool true, Function.update m key none) := if_pos h

theorem call_deleteEntry_of_none (h : m key = none) :
    m.call (.deleteEntry key) = (.bool false, m) := if_neg (by rw [h]; decide)

end IxMap

/-! ### The leaf of a key -/

section Leaf

variable {order : Nat} {s : IxIndex κ} {c : Ctx κ 0 H} {t : Tree κ 0} {key : κ}

/-- Whether a key is stored, its leaf tells. -/
theorem Ctx.Leads.mem_toList_iff (hleads : c.Leads key t) (hO : (c.plug t).Ordered) {value : Rid} :
    (key, value) ∈ (c.plug t).toList ↔ (key, value) ∈ t.slots.entries := by
  constructor
  · intro hmem
    obtain ⟨c', t', hplug, hmem'⟩ := Tree.exists_leaf_of_mem_collect _ .top hmem
    have hplug' : c'.plug t' = c.plug t := hplug
    have hkey : key ∈ t'.leafKeys := List.mem_map_of_mem hmem'
    obtain ⟨-, rfl⟩ := hleads.unique (Tree.Ordered.leads (hplug' ▸ hO) hkey) hplug'.symm
    exact hmem'
  · intro hmem
    unfold Tree.toList
    rw [Ctx.collect_plug]
    exact List.mem_append_left _ (List.mem_append_right _ hmem)

theorem Ctx.Leads.isSome_iff (hleads : c.Leads key t) (hO : (c.plug t).Ordered) {m : IxMap κ}
    (hm : ∀ key value, (key, value) ∈ (c.plug t).toList ↔ m key = some value) :
    (m key).isSome ↔ key ∈ t.leafKeys := by
  rw [Option.isSome_iff_exists]
  constructor
  · rintro ⟨value, hvalue⟩
    have hmem := (hleads.mem_toList_iff hO).mp ((hm key value).mpr hvalue)
    exact List.mem_map_of_mem hmem
  · intro hkey
    obtain ⟨e, he, rfl⟩ := List.mem_map.mp hkey
    exact ⟨e.2, (hm e.1 e.2).mp ((hleads.mem_toList_iff hO).mpr he)⟩

end Leaf

/-! ### The condition -/

/-- What a call takes for granted about the state before it.

* `insert_entry`: a key that is not stored is not met in a slot that is not live; new nodes go in
  behind those they are split from; a leaf is only split if no page from the counter on is in use.
* `delete_entry`: a key that is not stored is not met in a slot that is not live; otherwise the leaf
  of the key may lose it, and it is not the last key.
* Reopening: the pool serves the index its own pages. -/
def IxIndex.Fits [Inhabited κ] (order : Nat) (s : IxIndex κ) : IxCall κ → Prop
  | .insertEntry key value => ∀ {H : Nat} (c : Ctx κ 0 H) (t : Tree κ 0),
      s.mem.WellFormed order (c.plug t) → c.Leads key t →
      (key ∉ t.leafKeys → t.slots.keyAt (t.slots.lowerBound key) ≠ key) ∧
        Rucbase.PlacesRight order c (t.insert key value) s.mem.counter ∧
        ((t.insert key value).slots.size = order + 1 → s.links.Fresh)
  | .deleteEntry key => ∀ {H : Nat} (c : Ctx κ 0 H) (t : Tree κ 0),
      s.mem.WellFormed order (c.plug t) → c.Leads key t →
      (key ∉ t.leafKeys → t.slots.keyAt (t.slots.lowerBound key) ≠ key) ∧
        (key ∈ t.leafKeys → ¬c.Underflows order t ∧ c.KeysFit order key t ∧
          2 ≤ (c.plug t).toList.length)
  | .reopen fd => s.OwnPages fd
  | _ => True

/-! ### Calls -/

section Calls

variable {order : Nat} {s : IxIndex κ} {m : IxMap κ} {c : Ctx κ 0 H} {t : Tree κ 0} {key : κ}
  {value : Rid}

/-- The entries after an insert whose new nodes go in behind the old ones. -/
theorem PlacesBehind.mem_toList_iff [Inhabited κ] {counter : Int} {e : κ × Rid}
    (hslot : t.slots.keyAt (t.slots.lowerBound key) ≠ key)
    (hp : PlacesBehind order c (t.insert key value) counter) :
    e ∈ (splitUp order c (t.insert key value) counter).tree.toList ↔
      e = (key, value) ∨ e ∈ (c.plug t).toList := by
  let f : Tree κ 0 → List (κ × Rid) := fun leaf => leaf.slots.entries
  let u := t.insert key value
  have hsplit : (if u.slots.size = order + 1 then
      u.splitLeft.collect f ++ (u.splitRight counter).collect f else u.collect f) =
      u.slots.entries := by
    split_ifs
    · exact List.take_append_drop _ _
    · rfl
  have hleaf : e ∈ (t.insert key value).slots.entries ↔ e = (key, value) ∨ e ∈ t.slots.entries := by
    show e ∈ (t.slots.insert key value).entries ↔ _
    rw [Slots.insert_of_ne hslot]
    have hperm := List.perm_insertIdx (key, value) t.slots.entries (t.slots.lowerBound_le key)
    exact hperm.mem_iff.trans List.mem_cons
  have hnew := hp.collect f
  rw [hsplit] at hnew
  have hold : (c.plug t).collect f = c.before f ++ t.slots.entries ++ c.after f :=
    Ctx.collect_plug f c t
  show e ∈ (splitUp order c (t.insert key value) counter).tree.collect f ↔
    _ ∨ e ∈ (c.plug t).collect f
  rw [hnew, hold]
  simp only [List.mem_append]
  rw [hleaf]
  tauto

/-- **`insert_entry`** on the map. -/
theorem IxIndex.Represents.insertEntry [Inhabited κ] (horder : 2 < order)
    (hs : s.Represents order m) (hfits : s.Fits order (.insertEntry key value)) :
    ∃ rounds s', (IxCall.insertEntry key value).run rounds s =
        .ok (m.call (.insertEntry key value)).1 s' ∧
      s'.Represents order (m.call (.insertEntry key value)).2 := by
  obtain ⟨H, T, hM, hok, hm⟩ := hs
  obtain ⟨c, t, rfl, hleads, -⟩ := findLeafPage_does hM.formed.chained.held.tree
    hM.formed.chained.held.root (hM.inner horder) (Nat.lt_succ_self H) key
  obtain ⟨hstale, hplaces, hfresh⟩ := hfits c t hM hleads
  obtain ⟨s', hrun, hM', hok'⟩ := hM.insertEntry horder hok hleads hplaces hfresh
    (Nat.lt_succ_self H)
  have hsome := hleads.isSome_iff hM.ordered hm
  have hrun' : (IxCall.insertEntry key value).run (H + 1) s =
      .ok (.bool (decide (t.slots.keyAt (t.slots.lowerBound key) ≠ key))) s' := by
    rw [IxCall.run, bind_of_ok hrun]
    rfl
  refine ⟨H + 1, s', ?_⟩
  rw [hrun']
  by_cases hkey : key ∈ t.leafKeys
  · -- the key is stored, and its slot holds it
    have hslot := (t.lowerBound_stored (c.ordered_plug.mp hM.ordered).1 hkey).2
    have hsame : t.insert key value = t := by
      unfold Tree.insert
      rw [Slots.insert_of_eq hslot]
    have hnot : t.slots.size ≠ order + 1 := by
      have := hM.sized.of_plug.size.2
      omega
    rw [hsame, splitUp_of_not_full hnot] at hM'
    rw [IxMap.call_insertEntry_of_some (hsome.mpr hkey), decide_eq_false (not_not.mpr hslot)]
    exact ⟨rfl, H, c.plug t, hM', hok', hm⟩
  · have hslot := hstale hkey
    have hnone : m key = none := by
      rw [← Option.not_isSome_iff_eq_none, hsome]
      exact hkey
    rw [IxMap.call_insertEntry_of_none hnone, decide_eq_true hslot]
    refine ⟨rfl, _, _, hM', hok', fun k v => ?_⟩
    rw [(hM.splitUp horder hleads hplaces).1.mem_toList_iff hslot, hm, Prod.mk.injEq]
    by_cases hk : k = key
    · subst hk
      simp [hnone, eq_comm]
    · simp [hk]

/-- **`delete_entry`** on the map. -/
theorem IxIndex.Represents.deleteEntry [Inhabited κ] (horder : 2 < order)
    (hs : s.Represents order m) (hfits : s.Fits order (.deleteEntry key)) :
    ∃ rounds s', (IxCall.deleteEntry key).run rounds s = .ok (m.call (.deleteEntry key)).1 s' ∧
      s'.Represents order (m.call (.deleteEntry key)).2 := by
  obtain ⟨H, T, hM, hok, hm⟩ := hs
  have hh := hM.formed.chained.held
  obtain ⟨c, t, rfl, hleads, -⟩ := findLeafPage_does hh.tree hh.root (hM.inner horder)
    (Nat.lt_succ_self H) key
  obtain ⟨hstale, hstored⟩ := hfits c t hM hleads
  have hsome := hleads.isSome_iff hM.ordered hm
  by_cases hkey : key ∈ t.leafKeys
  · obtain ⟨hnot, hfit, htwo⟩ := hstored hkey
    obtain ⟨M', H', T', hdoes, hF, hS, -, hlist, hiff⟩ := hM.deleteEntry_does horder htwo hkey hnot
      (show H + 1 < H + 2 by omega)
    obtain ⟨s', hrun, rfl⟩ := hdoes s rfl
    obtain ⟨hsorted, hsearch⟩ := Tree.ordered_iff.mp (hiff.mpr hfit)
    have hok' := (deleteEntry_ensures (H + 2) key s _ _ rfl hrun).ok hok
    refine ⟨H + 2, s', ?_⟩
    rw [IxCall.run, bind_of_ok hrun, IxMap.call_deleteEntry_of_some (hsome.mpr hkey)]
    refine ⟨rfl, H', T', ⟨hF, hsorted, hsearch, hS⟩, hok', fun k v => ?_⟩
    rw [hlist, List.mem_filter, hm]
    by_cases hk : k = key
    · simp [hk]
    · simp [hk]
  · -- the key is not there, and the page stays as it is
    have hslot := hstale hkey
    have hnone : m key = none := by
      rw [← Option.not_isSome_iff_eq_none, hsome]
      exact hkey
    have hdoes := hM.deleteEntry_absent horder hleads hslot (show H < H + 2 by omega)
    obtain ⟨s', hrun, hmem⟩ := hdoes s rfl
    refine ⟨H + 2, s', ?_⟩
    rw [IxCall.run, bind_of_ok hrun, IxMap.call_deleteEntry_of_none hnone]
    exact ⟨rfl, H, c.plug t, hmem.symm ▸ hM, links_of_mem hmem ▸ hok, hm⟩

/-- **`GetValue`** on the map. -/
theorem IxIndex.Represents.getValue [Inhabited κ] (horder : 2 < order)
    (hs : s.Represents order m) (key : κ) :
    ∃ rounds s', (IxCall.getValue key).run rounds s = .ok (.rid (m key)) s' ∧
      s'.Represents order m := by
  obtain ⟨H, T, hM, hok, hm⟩ := hs
  have hh := hM.formed.chained.held
  obtain ⟨c, t, rfl, hleads, hdoes⟩ := getValue_does hh.tree hh.root (hM.inner horder)
    (Nat.lt_succ_self H) key
  obtain ⟨s', hrun, hmem⟩ := hdoes s rfl
  have hsorted : t.slots.SortedFrom 0 := (c.ordered_plug.mp hM.ordered).1
  have hlookup : t.slots.leafLookup key = m key := by
    apply Option.ext
    intro value
    rw [hsorted.leafLookup_eq_some_iff, ← hleads.mem_toList_iff hM.ordered, hm]
  refine ⟨H + 1, s', ?_, H, c.plug t, hmem.symm ▸ hM, links_of_mem hmem ▸ hok, hm⟩
  rw [IxCall.run, bind_of_ok hrun, hlookup]
  rfl

/-- The map is that of the pages and the file header. -/
theorem IxIndex.Represents.of_pages {s' : IxIndex κ} (hs : s.Represents order m)
    (hhdr : s'.fileHdr = s.fileHdr) (hpages : ∀ q, s'.mem.pages q = s.mem.pages q) :
    s'.Represents order m := by
  obtain ⟨H, T, hM, hok, hm⟩ := hs
  have hmem : s'.mem = { s.mem with fd := s'.mem.fd, counter := s'.mem.counter } := by
    show IxMem.mk _ _ _ _ = IxMem.mk _ _ _ _
    congr 1
    exact funext hpages
  have hlinks : s'.links = { s.links with counter := s'.links.counter } := by
    ext1
    · rfl
    · ext1 q
      exact congrArg (Option.map IxPage.link) (hpages q)
  obtain ⟨⟨⟨hheld, hring, hfirst, hlast⟩, hunlinked, hheader⟩, hsorted, hsearch, hsized⟩ := hM
  refine ⟨H, T, ?_, ?_, hm⟩
  · rw [hmem]
    exact ⟨⟨⟨⟨trivial, hheld.tree, hheld.nodup, hheld.range, hheld.order, hheld.root⟩, hring,
      hfirst, hlast⟩, hunlinked, hheader⟩, hsorted, hsearch, hsized⟩
  · rw [hlinks]
    exact ⟨hok.inner, hok.prev, hok.next, hok.below, hok.leafHeader⟩

theorem IxIndex.Represents.invalidPage (hs : s.Represents order m) :
    s.mem.pages invalidPageId = none := by
  obtain ⟨_, _, -, hok, -⟩ := hs
  exact Option.map_eq_none_iff.mp (hok.below invalidPageId (by decide))

/-- **One call** answers as on the map and leaves an index that stands for the map after it. -/
theorem IxIndex.Represents.call [Inhabited κ] (horder : 2 < order) (hs : s.Represents order m)
    {a : IxCall κ} (hfits : s.Fits order a) :
    ∃ rounds s', a.run rounds s = .ok (m.call a).1 s' ∧ s'.Represents order (m.call a).2 := by
  cases a with
  | insertEntry key value => exact hs.insertEntry horder hfits
  | deleteEntry key => exact hs.deleteEntry horder hfits
  | getValue key => exact hs.getValue horder key
  | reopen fd =>
    refine ⟨0, _, rfl, hs.of_pages rfl fun q => ?_⟩
    exact IxIndex.pages_reopen hs.invalidPage hfits q
  | restart fd =>
    refine ⟨0, _, rfl, hs.of_pages rfl fun q => ?_⟩
    -- nothing is in the pool of a new process
    exact IxIndex.disk_flushAllPages hs.invalidPage q

end Calls

/-! ### Runs -/

section Runs

variable [Inhabited κ]

omit [Inhabited κ] in
/-- A new index is empty. -/
theorem IxIndex.Represents.create (fd : Int) (colType : ColType) (colLen : Int) (order : Nat)
    (keys : Nat → κ) (rids : Nat → Rid) (pool : PageId → Option (IxPage κ))
    (pinCount : PageId → Nat) (fd2pageno : Int → Int) (hpool : ∀ q, pool ⟨fd, q⟩ = none) :
    (IxIndex.create fd colType colLen order keys rids pool pinCount fd2pageno).Represents order
      fun _ => none := by
  let s := IxIndex.create fd colType colLen order keys rids pool pinCount fd2pageno
  have hI : IndexOk s.mem order (⟨ixInitRootPage, ⟨[], keys⟩⟩ : Tree κ 0) [ixInitRootPage] :=
    create_indexOk hpool
  have hok : s.links.Ok := (IxIndex.create_links_ok hpool).1
  have hF := ChainedTree.formed ⟨hI.focus.held, hI.chain.ring, hI.first, hI.last⟩ hok
  refine ⟨0, _, ⟨hF, ?_, ?_, ⟨Nat.zero_le _, Nat.zero_le _⟩⟩, hok, fun key value => ?_⟩
  · exact fun i j _ _ hj => absurd hj (Nat.not_lt_zero _)
  · exact fun i j _ _ hj => absurd hj (Nat.not_lt_zero _)
  · exact iff_of_false List.not_mem_nil (by simp)

section Create

variable (fd : Int) (colType : ColType) (colLen : Int) {order : Nat} (keys : Nat → κ)
  (rids : Nat → Rid) (pool : PageId → Option (IxPage κ)) (pinCount : PageId → Nat)
  (fd2pageno : Int → Int) {run : List ((IxCall κ × IxAnswer) × IxIndex κ)}

/-- A run from a new index whose calls all fit follows the map. -/
theorem IxIndex.create_refines (horder : 2 < order) (hpool : ∀ q, pool ⟨fd, q⟩ = none)
    (hrun : Run IxIndex.Step
      (IxIndex.create fd colType colLen order keys rids pool pinCount fd2pageno) run)
    (hfits : Along (fun s a _ => s.Fits order a.1)
      (IxIndex.create fd colType colLen order keys rids pool pinCount fd2pageno) run) :
    run.map (fun e => e.1.2) =
        (answers IxMap.call (fun _ => none) (run.map fun e => e.1.1)).1 ∧
      (∀ e ∈ run, ∃ m, e.2.Represents order m) ∧
      (lastState (IxIndex.create fd colType colLen order keys rids pool pinCount fd2pageno)
        run).Represents order (answers IxMap.call (fun _ => none) (run.map fun e => e.1.1)).2 := by
  have hstart := IxIndex.Represents.create fd colType colLen order keys rids pool pinCount fd2pageno
    hpool
  refine hrun.refines ?_ hstart hfits
  rintro s m ⟨a, b⟩ s' hs hstep ha
  obtain ⟨rounds, t, hok, ht⟩ := hs.call horder ha
  obtain ⟨hb, rfl⟩ := hstep.eq_of_ok hok
  exact ⟨hb, ht⟩

end Create

/-- **An index is a map.**  In every run of calls from a new index, each of which finds what it
takes for granted, with inserts and deletes in any order and the index closed and opened in between:
every call answers as on the map, and every further such call returns. -/
theorem index_behaves_as_map (fd : Int) (colType : ColType) (colLen : Int) (order : Nat)
    (horder : 2 < order) (keys : Nat → κ) (rids : Nat → Rid) (pool : PageId → Option (IxPage κ))
    (pinCount : PageId → Nat) (fd2pageno : Int → Int) (hpool : ∀ q, pool ⟨fd, q⟩ = none)
    (run : List ((IxCall κ × IxAnswer) × IxIndex κ))
    (hrun : Run IxIndex.Step
      (IxIndex.create fd colType colLen order keys rids pool pinCount fd2pageno) run)
    (hfits : Along (fun s a _ => s.Fits order a.1)
      (IxIndex.create fd colType colLen order keys rids pool pinCount fd2pageno) run) :
    run.map (fun e => e.1.2) =
        (answers IxMap.call (fun _ => none) (run.map fun e => e.1.1)).1 ∧
      ∀ s ∈ IxIndex.create fd colType colLen order keys rids pool pinCount fd2pageno ::
        run.map Prod.snd, ∀ a, s.Fits order a → ∃ b s', s.Step (a, b) s' := by
  obtain ⟨hanswers, hall, -⟩ := IxIndex.create_refines fd colType colLen keys rids pool pinCount
    fd2pageno horder hpool hrun hfits
  refine ⟨hanswers, fun s hs a ha => ?_⟩
  obtain ⟨m, hm⟩ : ∃ m, s.Represents order m := by
    rcases List.mem_cons.mp hs with rfl | hs
    · exact ⟨_, .create fd colType colLen order keys rids pool pinCount fd2pageno hpool⟩
    · obtain ⟨e, he, rfl⟩ := List.mem_map.mp hs
      exact hall e he
  obtain ⟨rounds, s', hok, -⟩ := hm.call horder ha
  exact ⟨_, s', rounds, hok⟩

/-! ### Runs in which the root is a leaf -/

/-- The key is in a live slot of the page, or the slot at its position holds another one. -/
def IxPage.Settles (page : IxPage κ) (key : κ) : Prop :=
  page.lowerBound key < page.numKey ∨ page.keys (page.lowerBound key).toNat ≠ key

instance (page : IxPage κ) (key : κ) : Decidable (page.Settles key) :=
  inferInstanceAs (Decidable (_ ∨ _))

/-- A check that a call fits into an index whose root is a leaf. -/
def IxIndex.fitsLeaf (s : IxIndex κ) : IxCall κ → Bool
  | .insertEntry key _ => (s.mem.pages s.mem.fileHdr.rootPage).any fun page =>
      decide (page.isLeaf = true ∧ page.Settles key)
  | .deleteEntry key => (s.mem.pages s.mem.fileHdr.rootPage).any fun page =>
      decide (page.isLeaf = true ∧ page.Settles key ∧ 2 ≤ page.numKey)
  | .getValue _ => true
  | .reopen fd => decide (fd = s.fd)
  | .restart _ => false

section Leaf

variable {order : Nat} {s : IxIndex κ} {c : Ctx κ 0 H} {t : Tree κ 0} {key : κ}

omit [LinearOrder κ] [Inhabited κ] in
/-- If the root is a leaf there is no other node. -/
theorem IxMem.Formed.depth_of_leaf {M : IxMem κ} (hM : M.Formed order (c.plug t))
    {page : IxPage κ} (hp : M.pages M.fileHdr.rootPage = some page) (hleaf : page.isLeaf = true) :
    c.depth = 0 ∧ page.Shows t.slots := by
  have hh := hM.chained.held
  obtain ⟨page', hp', -, hflag, -⟩ := hh.tree.nodeAt
  rw [hh.root] at hp
  obtain rfl : page = page' := Option.some.inj (hp.symm.trans hp')
  have hH : H = 0 := of_decide_eq_true (hflag.symm.trans hleaf)
  cases c with
  | top =>
    obtain ⟨page', hp', -, -, hshows⟩ := hh.tree
    obtain rfl : page = page' := Option.some.inj (hp.symm.trans hp')
    rw [Tree.row_leaf] at hshows
    exact ⟨rfl, hshows⟩
  | down up no left k right stale =>
    have := (Ctx.down up no left k right stale).depth_add
    have : (Ctx.down up no left k right stale).depth = up.depth + 1 := rfl
    omega

omit [Inhabited κ] in
theorem IxPage.Settles.ne {page : IxPage κ} (h : page.Settles key) (hshows : page.Shows t.slots)
    (hkey : key ∉ t.leafKeys) : t.slots.keyAt (t.slots.lowerBound key) ≠ key := by
  unfold IxPage.Settles at h
  rw [hshows.lowerBound, hshows.numKey, Int.toNat_natCast, hshows.keys] at h
  rcases h with hlt | hne
  · intro heq
    have hlt' : t.slots.lowerBound key < t.slots.entries.length := Int.ofNat_lt.mp hlt
    have he : t.slots.entries[t.slots.lowerBound key]? = some (t.slots.entries.get ⟨_, hlt'⟩) :=
      List.getElem?_eq_getElem hlt'
    rw [Slots.keyAt_of_getElem? he] at heq
    exact hkey (heq ▸ List.mem_map_of_mem (List.mem_of_getElem? he))
  · exact hne

/-- The check is enough. -/
theorem IxIndex.fits_of_fitsLeaf (hfresh : s.links.Fresh) {a : IxCall κ}
    (ha : s.fitsLeaf a = true) : s.Fits order a := by
  cases a with
  | insertEntry key value =>
    intro H c t hM _
    obtain ⟨page, hp, hpage⟩ := (Option.any_eq_true _ _).mp ha
    obtain ⟨hleaf, hsettles⟩ := of_decide_eq_true hpage
    obtain ⟨hdepth, hshows⟩ := hM.formed.depth_of_leaf hp hleaf
    cases c with
    | top => exact ⟨hsettles.ne hshows, trivial, fun _ => hfresh⟩
    | down up no left k right stale => cases hdepth
  | deleteEntry key =>
    intro H c t hM _
    obtain ⟨page, hp, hpage⟩ := (Option.any_eq_true _ _).mp ha
    obtain ⟨hleaf, hsettles, htwo⟩ := of_decide_eq_true hpage
    obtain ⟨hdepth, hshows⟩ := hM.formed.depth_of_leaf hp hleaf
    rw [hshows.numKey] at htwo
    cases c with
    | top => exact ⟨hsettles.ne hshows, fun _ => ⟨id, trivial, Int.ofNat_le.mp htwo⟩⟩
    | down up no left k right stale => cases hdepth
  | getValue key => trivial
  | reopen fd =>
    obtain rfl : fd = s.fd := of_decide_eq_true ha
    exact s.ownPages_fd
  | restart fd => trivial

/-- A trace whose calls pass the check. -/
theorem IxIndex.fitsLeaf_trace (order : Nat) {rounds : Nat} {l : List (IxCall κ)}
    (hok : s.links.Ok) (hfresh : s.links.Fresh) (hl : s.checkTrace rounds IxIndex.fitsLeaf l = true) :
    (∀ x ∈ s.trace rounds l, x.2.links.Ok ∧ x.2.links.Fresh) ∧
      Along (fun s a _ => s.Fits order a.1) s (s.trace rounds l) := by
  have hrun := IxIndex.run_trace rounds (P := fun _ => True) (l := l) (fun _ _ => trivial) s
  have hcheck := IxIndex.along_trace (P := fun s a => s.fitsLeaf a = true) (fun _ _ h => h) hl
  refine hrun.along_of_invariant (I := fun s => s.links.Ok ∧ s.links.Fresh) ?_ ⟨hok, hfresh⟩ hcheck
  rintro s ⟨a, b⟩ s' ⟨hok, hfresh⟩ ⟨-, hstep⟩ ha
  have hfits : s.Fits order a := IxIndex.fits_of_fitsLeaf hfresh ha
  refine ⟨(IxIndex.links_call_iff hok hfresh ?_ hstep).mpr ?_, hfits⟩
  · cases a with
    | reopen fd => exact hfits
    | _ => trivial
  · cases a with
    | reopen fd =>
      obtain rfl : fd = s.fd := of_decide_eq_true ha
      intro q page hp
      exact (hfresh.lt (show s.links.link q = some page.link from congrArg (Option.map _) hp)).le
    | restart fd => cases ha
    | _ => trivial

theorem IxIndex.fits_trace {rounds : Nat} {l : List (IxCall κ)} (hok : s.links.Ok)
    (hfresh : s.links.Fresh) (hl : s.checkTrace rounds IxIndex.fitsLeaf l = true) :
    Along (fun s a _ => s.Fits order a.1) s (s.trace rounds l) :=
  (IxIndex.fitsLeaf_trace order hok hfresh hl).2

/-- Keys go in and out until the root splits; the index is reopened before the last lookups. -/
theorem index_behaves_as_map_ten :
    let calls : List (IxCall Int) := insertAll [1, 2] ++ [.deleteEntry 1] ++ insertAll [3, 1, 4] ++
      [.getValue 3, .reopen 3, .getValue 1, .getValue 7]
    let run := (intIndex 3).trace 3 calls
    run.length = 10 ∧ run.map (fun e => e.1.2) =
      (answers IxMap.call (fun _ => none) (run.map fun e => e.1.1)).1 := by
  intro calls run
  refine ⟨by decide +kernel, ?_⟩
  have hrun := IxIndex.run_trace 3 (P := fun _ => True) (l := calls) (fun _ _ => trivial)
    (intIndex 3)
  have hstart : (intIndex 3).links.Ok ∧ (intIndex 3).links.Fresh :=
    IxIndex.create_links_ok fun _ => rfl
  refine (index_behaves_as_map 3 .int 4 3 (by decide) _ _ _ _ _ (fun _ => rfl) run
    (hrun.imp fun _ _ _ h => h.2) ?_).1
  exact IxIndex.fits_trace hstart.1 hstart.2 (by decide +kernel)

end Leaf

end Runs

end Rucbase
