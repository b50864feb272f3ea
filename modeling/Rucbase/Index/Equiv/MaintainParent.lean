import Rucbase.Index.Equiv.Insert

/-!
# Keys on the path

Deleting creates no page, so that nothing has to be known about the page counter: `Held` is the part
of `Focus` that is left.  `maintain_parent` writes the first key of a node into the node above, and
goes on from there until a key is right already: on the path this is `Ctx.maintain`
(`maintainParent_does`).
-/

namespace Rucbase

open EStateM IxIndexHandle

variable {κ : Type} {h H : Nat}

/-- The memory holds a tree, seen from one of its nodes. -/
structure Held (M : IxMem κ) (order : Nat) (c : Ctx κ h H) (t : Tree κ h) : Prop where
  ctx : c.Holds M.pages t.no
  tree : t.Holds M.pages c.parentNo
  nodup : (t.nos ++ c.nos).Nodup
  range : ∀ q ∈ t.nos ++ c.nos, 2 ≤ q
  order : M.fileHdr.btreeOrder = order
  root : M.fileHdr.rootPage = (c.plug t).no

theorem Focus.held {M : IxMem κ} {order : Nat} {c : Ctx κ h H} {t : Tree κ h}
    (hf : Focus M order c t) : Held M order c t :=
  ⟨hf.ctx, hf.tree, hf.nodup, fun q hq => (hf.range q hq).1, hf.order, hf.root⟩

/-- The first key of a node whose entries up to the hole are given. -/
def Ctx.firstKey (left : List (κ × Tree κ h)) (key : κ) : κ :=
  match left with
  | [] => key
  | e :: _ => e.1

theorem Ctx.keyAt_zero_fill (no : Int) (left : List (κ × Tree κ h)) (key : κ)
    (right : List (κ × Tree κ h)) (stale : Nat → κ) (t : Tree κ h) :
    (fill no left key right stale t).slots.keyAt 0 = firstKey left key := by
  cases left with
  | nil => rfl
  | cons e left => rfl

namespace Held

variable {M M' : IxMem κ} {order : Nat} {c : Ctx κ h H} {t : Tree κ h}

theorem notMem_ctx (hh : Held M order c t) {q : Int} (hq : q ∈ t.nos) : q ∉ c.nos := by
  intro hc
  exact (List.nodup_append.mp hh.nodup).2.2 q hq q hc rfl

theorem nodup_tree (hh : Held M order c t) : t.nos.Nodup := (List.nodup_append.mp hh.nodup).1

/-- A node in the hole, or the node above with that node as a child. -/
theorem down_iff {up : Ctx κ (h + 1) H} {no : Int} {left right : List (κ × Tree κ h)} {key : κ}
    {stale : Nat → κ} :
    Held M order (.down up no left key right stale) t ↔
      Held M order up (Ctx.fill no left key right stale t) := by
  have hperm : (t.nos ++ (Ctx.down up no left key right stale).nos).Perm
      ((Ctx.fill no left key right stale t).nos ++ up.nos) := by
    show (t.nos ++ (no :: ((left ++ right).flatMap fun e => Tree.nos e.2) ++ up.nos)).Perm
      (no :: (left ++ (key, t) :: right).flatMap (fun e => Tree.nos e.2) ++ up.nos)
    rw [List.perm_iff_count]
    intro q
    simp only [List.flatMap_append, List.flatMap_cons, List.count_append, List.count_cons,
      List.cons_append]
    omega
  constructor
  · rintro ⟨⟨hnode, hkids, hup⟩, htree, hnodup, hrange, horder, hroot⟩
    exact ⟨hup, Ctx.holds_fill.mpr ⟨hnode, hkids, htree⟩, hperm.nodup_iff.mp hnodup,
      fun q hq => hrange q (hperm.mem_iff.mpr hq), horder, hroot⟩
  · rintro ⟨hup, htree, hnodup, hrange, horder, hroot⟩
    obtain ⟨hnode, hkids, ht⟩ := Ctx.holds_fill.mp htree
    exact ⟨⟨hnode, hkids, hup⟩, ht, hperm.nodup_iff.mpr hnodup,
      fun q hq => hrange q (hperm.mem_iff.mp hq), horder, hroot⟩

/-- The page above a node knows the node under its position. -/
theorem parent {up : Ctx κ (h + 1) H} {no : Int} {left right : List (κ × Tree κ h)} {key : κ}
    {stale : Nat → κ} (hh : Held M order (.down up no left key right stale) t) :
    ∃ page, M.pages no = some page ∧ page.parent = up.parentNo ∧ page.isLeaf = false ∧
      page.Shows (Ctx.row left key right stale t.no) ∧
      page.findChild t.no = some (left.length : Int) ∧ page.keys left.length = key := by
  obtain ⟨page, hp, hparent, hleaf, hshows⟩ := hh.ctx.1
  have hget : (Ctx.row left key right stale t.no).entries[left.length]? =
      some (key, ⟨t.no, -1⟩) := by
    show ((left.map fun e => (e.1, (⟨e.2.no, -1⟩ : Rid))) ++ _)[left.length]? = _
    rw [List.getElem?_append_right (by simp)]
    simp
  refine ⟨page, hp, hparent, hleaf, hshows, ?_, ?_⟩
  · refine hshows.findChild hget fun j e' hj he' heq => ?_
    -- a child to the left has another page number
    have he'' : (left.map fun e => (e.1, (⟨e.2.no, -1⟩ : Rid)))[j]? = some e' := by
      rw [← he']
      exact (List.getElem?_append_left (by simpa using hj)).symm
    rw [List.getElem?_map] at he''
    obtain ⟨e, he, rfl⟩ := Option.map_eq_some_iff.mp he''
    refine hh.notMem_ctx t.no_mem_nos ?_
    show t.no ∈ no :: ((left ++ right).flatMap fun e => Tree.nos e.2) ++ up.nos
    refine List.mem_append_left _ (List.mem_cons_of_mem _ (List.mem_flatMap.mpr ⟨e, ?_, ?_⟩))
    · exact List.mem_append_left _ (List.mem_of_getElem? he)
    · have hno : e.2.no = t.no := heq
      rw [← hno]
      exact e.2.no_mem_nos
  · rw [hshows.keys, Slots.keyAt_of_getElem? hget]

end Held

/-! ### One round -/

/-- The page is in the pool and somebody uses it. -/
def IxIndex.Pins (s : IxIndex κ) (q : Int) : Prop :=
  (∃ page, s.store.pool ⟨s.fd, q⟩ = some page) ∧ 0 < s.store.pinCount ⟨s.fd, q⟩

section Round

variable {M : IxMem κ} {s : IxIndex κ} {p q : Int} {page parentPage : IxPage κ}

theorem fetchNode_pins (hs : s.mem = M) (hq : M.pages q = some page) :
    ∃ s', fetchNode q s = .ok q s' ∧ s'.mem = M ∧ s'.Pins q := by
  obtain ⟨s', hfetch, hmem⟩ := fetchNode_does hq s hs
  refine ⟨s', hfetch, hmem, ?_⟩
  simp only [fetchNode, get_bind_apply, PageStore.fetchPage, view_of_mem hs hq, Option.map_some,
    set_bind_apply, pure_apply, Result.ok.injEq, true_and] at hfetch
  subst hfetch
  refine ⟨⟨page, Function.update_self ..⟩, ?_⟩
  show 0 < Function.update s.store.pinCount ⟨s.fd, q⟩ _ ⟨s.fd, q⟩
  rw [Function.update_self]
  split
  · exact Nat.succ_pos _
  · exact Nat.one_pos

/-- The assertion of `maintain_parent` holds: the page was fetched in the same round. -/
theorem assertUnpinPage_of_pins (hpin : s.Pins q) :
    ∃ s', assertUnpinPage q s = .ok () s' ∧ s'.mem = s.mem := by
  obtain ⟨⟨page, hpool⟩, hpos⟩ := hpin
  have hunpin : s.store.unpinPage ⟨s.fd, q⟩ = (true, { s.store with
      pinCount := Function.update s.store.pinCount ⟨s.fd, q⟩
        (s.store.pinCount ⟨s.fd, q⟩ - 1) }) := by
    unfold PageStore.unpinPage
    simp only [hpool]
    rw [if_neg (by omega)]
  have hres : unpinPage q s =
      .ok true { s with store := (s.store.unpinPage ⟨s.fd, q⟩).2 } := by
    simp only [unpinPage, get_bind_apply, set_bind_apply, hunpin]
    rfl
  refine ⟨_, bind_of_ok hres, ?_⟩
  simp only [IxIndex.mem, PageStore.view_unpinPage, PageStore.fd2pageno_unpinPage]

variable [DecidableEq κ] {fuel : Nat} {rank : Nat}

theorem maintainParent_root (hp : M.pages p = some page) (hroot : page.parent = ixNoPage) :
    IxDoes (maintainParent (fuel + 1) p) M () M := by
  unfold maintainParent
  apply Does.bind (node_does hp)
  rw [if_neg (not_not.mpr hroot)]
  exact Does.pure

/-- The key is right already. -/
theorem maintainParent_stop (hp : M.pages p = some page) (hparent : page.parent = q)
    (hq : q ≠ ixNoPage) (hpq : M.pages q = some parentPage)
    (hfind : parentPage.findChild p = some (rank : Int))
    (hkey : parentPage.keys rank = page.keys 0) :
    IxDoes (maintainParent (fuel + 1) p) M () M := by
  unfold maintainParent
  apply Does.bind (node_does hp)
  rw [hparent, if_pos hq]
  intro s hs
  obtain ⟨s₁, h1, hs₁, hpin⟩ := fetchNode_pins hs hpq
  obtain ⟨s₂, h2, hs₂⟩ := node_does hpq s₁ hs₁
  obtain rfl : s₁ = s₂ := by
    simp only [node, get_bind_apply, view_of_mem hs₁ hpq] at h2
    exact (Result.ok.inj h2).2
  obtain ⟨s₃, h3, hs₃⟩ := assertUnpinPage_of_pins hpin
  refine ⟨s₃, ?_, hs₃.trans hs₁⟩
  rw [bind_of_ok h1, bind_of_ok h2]
  simp only [hfind, Int.toNat_natCast]
  rw [if_pos hkey, h3]

/-- The key is written, and the round of the node above follows. -/
theorem maintainParent_up (hp : M.pages p = some page) (hparent : page.parent = q)
    (hq : q ≠ ixNoPage) (hpq : M.pages q = some parentPage)
    (hfind : parentPage.findChild p = some (rank : Int))
    (hkey : parentPage.keys rank ≠ page.keys 0) :
    Reaches IxIndex.mem (maintainParent (fuel + 1) p) M (maintainParent fuel q)
      (M.set q (parentPage.setKey rank (page.keys 0))) := by
  rw [maintainParent]
  apply Reaches.trans (Reaches.of_does (node_does hp))
  rw [hparent, if_pos hq]
  intro s hs
  obtain ⟨s₁, h1, hs₁, hpin⟩ := fetchNode_pins hs hpq
  obtain ⟨s₂, h2, hs₂⟩ := node_does hpq s₁ hs₁
  obtain rfl : s₁ = s₂ := by
    simp only [node, get_bind_apply, view_of_mem hs₁ hpq] at h2
    exact (Result.ok.inj h2).2
  let s₃ : IxIndex κ := { s₁ with
    store := s₁.store.setPage ⟨s₁.fd, q⟩ (parentPage.setKey rank (page.keys 0)) }
  have h3 : setNode q (parentPage.setKey rank (page.keys 0)) s₁ = .ok () s₃ := rfl
  obtain ⟨s₃', h3', hs₃⟩ := setNode_does (M := M) q (parentPage.setKey rank (page.keys 0)) s₁ hs₁
  obtain rfl : s₃ = s₃' := (Result.ok.inj (h3.symm.trans h3')).2
  -- writing keeps the pin
  have hpin₃ : s₃.Pins q := ⟨⟨_, Function.update_self ..⟩, hpin.2⟩
  obtain ⟨s₄, h4, hs₄⟩ := assertUnpinPage_of_pins hpin₃
  refine ⟨s₄, hs₄.trans hs₃, ?_⟩
  rw [bind_of_ok h1, bind_of_ok h2]
  simp only [hfind, Int.toNat_natCast]
  rw [if_neg hkey, bind_of_ok h3, bind_of_ok h4]

end Round

/-! ### The whole path -/

/-- Only keys on the path differ. -/
inductive Ctx.Rekeyed : {h H : Nat} → Ctx κ h H → Ctx κ h H → Prop where
  | top {H : Nat} : Rekeyed (.top : Ctx κ H H) .top
  | down {h H : Nat} {up up' : Ctx κ (h + 1) H} (no : Int) (left : List (κ × Tree κ h)) (key key' : κ)
      (right : List (κ × Tree κ h)) (stale : Nat → κ) (hup : Rekeyed up up') :
      Rekeyed (.down up no left key right stale) (.down up' no left key' right stale)

theorem Ctx.Rekeyed.refl (c : Ctx κ h H) : c.Rekeyed c := by
  induction c with
  | top => exact .top
  | down up no left key right stale ih => exact .down no left key key right stale ih

/-- Leaf flags and links are kept, and the header. -/
structure KeepsLinks (M M' : IxMem κ) : Prop where
  hdr : M'.fileHdr = M.fileHdr
  link : ∀ q, (M'.pages q).map IxPage.link = (M.pages q).map IxPage.link

namespace KeepsLinks

variable {M M' M'' : IxMem κ}

theorem trans (h1 : KeepsLinks M M') (h2 : KeepsLinks M' M'') : KeepsLinks M M'' :=
  ⟨h2.hdr.trans h1.hdr, fun q => (h2.link q).trans (h1.link q)⟩

/-- A page is written that keeps its flag and links. -/
theorem set {q : Int} {page page' : IxPage κ} (hp : M.pages q = some page)
    (hlink : page'.link = page.link) : KeepsLinks M (M.set q page') := by
  refine ⟨rfl, fun r => ?_⟩
  by_cases hrq : r = q
  · subst hrq
    rw [IxMem.set_pages_self, hp]
    exact congrArg some hlink
  · rw [IxMem.set_pages_of_ne _ hrq]

theorem nextOf_eq (h : KeepsLinks M M') : nextOf M'.pages = nextOf M.pages := by
  ext1 q
  have := congrArg (Option.map fun l => l.2.2) (h.link q)
  rwa [Option.map_map, Option.map_map] at this

theorem prevOf_eq (h : KeepsLinks M M') : prevOf M'.pages = prevOf M.pages := by
  ext1 q
  have := congrArg (Option.map fun l => l.2.1) (h.link q)
  rwa [Option.map_map, Option.map_map] at this

end KeepsLinks

/-- The page numbers above the hole. -/
def Ctx.path : {h H : Nat} → Ctx κ h H → List Int
  | _, _, .top => []
  | _, _, .down up no _ _ _ _ => no :: path up

/-- Only keys of the nodes above the hole differ. -/
structure Ctx.ChangesKeys (c : Ctx κ h H) (M M' : IxMem κ) : Prop where
  fd : M'.fd = M.fd
  hdr : M'.fileHdr = M.fileHdr
  counter : M'.counter = M.counter
  off : ∀ q, q ∉ c.path → M'.pages q = M.pages q
  on : ∀ q ∈ c.path, ∃ page keys, M.pages q = some page ∧ M'.pages q = some { page with keys }

namespace Ctx.ChangesKeys

variable {M M' : IxMem κ} {c : Ctx κ h H}

theorem keepsLinks (hc : c.ChangesKeys M M') : KeepsLinks M M' := by
  refine ⟨hc.hdr, fun q => ?_⟩
  by_cases hq : q ∈ c.path
  · obtain ⟨page, keys, hpage, hpage'⟩ := hc.on q hq
    rw [hpage, hpage']
    rfl
  · rw [hc.off q hq]

/-- Nothing is written. -/
theorem refl (hpath : ∀ q ∈ c.path, ∃ page, M.pages q = some page) : c.ChangesKeys M M := by
  refine ⟨rfl, rfl, rfl, fun q _ => rfl, fun q hq => ?_⟩
  obtain ⟨page, hpage⟩ := hpath q hq
  exact ⟨page, page.keys, hpage, hpage⟩

/-- A key of the node above the hole is written, and the rest is above that node. -/
theorem down {up : Ctx κ (h + 1) H} {no : Int} {left right : List (κ × Tree κ h)} {key : κ}
    {stale : Nat → κ} {page : IxPage κ} {keys : Nat → κ} (hpage : M.pages no = some page)
    (hup : up.ChangesKeys (M.set no { page with keys }) M') :
    (Ctx.down up no left key right stale).ChangesKeys M M' := by
  refine ⟨hup.fd, hup.hdr, hup.counter, fun q hq => ?_, fun q hq => ?_⟩
  · have hne : q ≠ no ∧ q ∉ up.path := by simpa [path] using hq
    rw [hup.off q hne.2, IxMem.set_pages_of_ne _ hne.1]
  · by_cases hqup : q ∈ up.path
    · obtain ⟨page₁, keys₁, hpage₁, hpage'⟩ := hup.on q hqup
      by_cases hno : q = no
      · subst hno
        rw [IxMem.set_pages_self] at hpage₁
        obtain rfl := Option.some.inj hpage₁
        exact ⟨page, keys₁, hpage, hpage'⟩
      · rw [IxMem.set_pages_of_ne _ hno] at hpage₁
        exact ⟨page₁, keys₁, hpage₁, hpage'⟩
    · obtain rfl : q = no := by simpa [path, hqup] using hq
      refine ⟨page, keys, hpage, ?_⟩
      rw [hup.off q hqup, IxMem.set_pages_self]

end Ctx.ChangesKeys

/-- The nodes above the hole are in memory. -/
theorem Ctx.Holds.exists_page {pages : Int → Option (IxPage κ)} {c : Ctx κ h H} {q : Int}
    (hc : c.Holds pages q) : ∀ r ∈ c.path, ∃ page, pages r = some page := by
  induction c generalizing q with
  | top =>
    intro r hr
    cases hr
  | down up no left key right stale ih =>
    obtain ⟨⟨page, hpage, -⟩, -, hup⟩ := hc
    intro r hr
    rcases List.mem_cons.mp hr with rfl | hr
    · exact ⟨page, hpage⟩
    · exact ih hup r hr

/-- Writing the key of the hole. -/
theorem Ctx.setKey_row (left : List (κ × Tree κ h)) (key k : κ) (right : List (κ × Tree κ h))
    (stale : Nat → κ) (q : Int) :
    (Ctx.row left key right stale q).setKey left.length k = Ctx.row left k right stale q := by
  have hmodify : ∀ (l : List (κ × Rid)) (e : κ × Rid) (r : List (κ × Rid)),
      ((l ++ e :: r).modify l.length fun e => (k, e.2)) = l ++ (k, e.2) :: r := by
    intro l e r
    induction l with
    | nil => rfl
    | cons d l ih => exact congrArg (d :: ·) ih
  have hlen : left.length = (left.map fun e => (e.1, (⟨e.2.no, -1⟩ : Rid))).length :=
    (List.length_map _).symm
  unfold Slots.setKey Ctx.row
  simp only
  rw [hlen, hmodify]

/-- The node above a hole gets another key for it. -/
theorem Held.set_key {M : IxMem κ} {order : Nat} {up : Ctx κ (h + 1) H} {no : Int}
    {left right : List (κ × Tree κ h)} {key : κ} {stale : Nat → κ} {t : Tree κ h}
    (hh : Held M order (.down up no left key right stale) t) (k : κ)
    {page : IxPage κ} (hp : M.pages no = some page)
    (hshows : page.Shows (Ctx.row left key right stale t.no)) :
    Held (M.set no (page.setKey left.length k)) order (.down up no left k right stale) t := by
  obtain ⟨⟨⟨page₀, hp₀, hparent, hleaf, -⟩, hkids, hup⟩, htree, hnodup, hrange, horder, hroot⟩ := hh
  obtain rfl : page = page₀ := Option.some.inj (hp.symm.trans hp₀)
  have hnodup' : (t.nos ++ (no :: ((left ++ right).flatMap fun e => Tree.nos e.2) ++ up.nos)).Nodup :=
    hnodup
  -- no other node has the page number
  have hsame : ∀ q, q ≠ no → SameBody M.pages (M.set no (page.setKey left.length k)).pages q :=
    fun q hq => .of_eq (IxMem.set_pages_of_ne _ hq)
  simp only [List.nodup_append, List.cons_append, List.nodup_cons, List.mem_append,
    List.mem_cons] at hnodup'
  obtain ⟨-, ⟨hno, -⟩, hdisjoint⟩ := hnodup'
  refine ⟨⟨⟨_, IxMem.set_pages_self _, hparent, hleaf, ?_⟩, fun e he => ?_, hup.congr fun q hq => ?_⟩,
    htree.congr fun q hq => ?_, hnodup, hrange, horder, hroot.trans (up.no_plug rfl)⟩
  · rw [← Ctx.setKey_row left key k right stale t.no]
    refine hshows.setKey ?_
    unfold Slots.size Ctx.row
    simp
  · refine (hkids e he).congr fun q hq => hsame q ?_
    rintro rfl
    exact hno (Or.inl (List.mem_flatMap.mpr ⟨e, he, hq⟩))
  · refine hsame q ?_
    rintro rfl
    exact hno (Or.inr hq)
  · exact hsame q (hdisjoint q hq no (Or.inl rfl))

section Path

variable [DecidableEq κ] {order : Nat}

/-- `maintain_parent` on the path, where the node in the hole has the first key `k`. -/
def Ctx.maintain : {h H : Nat} → Ctx κ h H → κ → Ctx κ h H
  | _, _, .top, _ => .top
  | _, _, .down up no left key right stale, k =>
    if key = k then .down up no left key right stale
    else .down (maintain up (firstKey left k)) no left k right stale

theorem Ctx.rekeyed_maintain (c : Ctx κ h H) (k : κ) : c.Rekeyed (c.maintain k) := by
  induction c generalizing k with
  | top => exact .top
  | down up no left key right stale ih =>
    unfold Ctx.maintain
    split_ifs
    · exact .refl _
    · exact .down no left key k right stale (ih _)

/-- **`maintain_parent`** is `Ctx.maintain`. -/
theorem maintainParent_does (c : Ctx κ h H) : ∀ {t : Tree κ h} {M : IxMem κ} {fuel : Nat},
    Held M order c t → c.depth < fuel →
    ∃ M', IxDoes (maintainParent fuel t.no) M () M' ∧ c.ChangesKeys M M' ∧
      Held M' order (c.maintain (t.slots.keyAt 0)) t := by
  induction c with
  | top =>
    intro t M fuel hh hfuel
    obtain ⟨fuel, rfl⟩ := Nat.exists_eq_succ_of_ne_zero (Nat.pos_iff_ne_zero.mp hfuel)
    obtain ⟨page, hp, hparent, -⟩ := hh.tree.nodeAt
    exact ⟨M, maintainParent_root hp hparent, .refl hh.ctx.exists_page, hh⟩
  | down up no left key right stale ih =>
    intro t M fuel hh hfuel
    obtain ⟨fuel, rfl⟩ := Nat.exists_eq_succ_of_ne_zero (show fuel ≠ 0 by omega)
    obtain ⟨page, hp, hparent, -, hshows⟩ := hh.tree.nodeAt
    obtain ⟨parentPage, hpq, -, -, hrow, hfind, hkeys⟩ := hh.parent
    have hge : 2 ≤ no := hh.range no (List.mem_append_right _ List.mem_cons_self)
    have hno : no ≠ ixNoPage := by
      show no ≠ -1
      omega
    have hfirst : page.keys 0 = t.slots.keyAt 0 := by
      rw [hshows.keys, Tree.row, Slots.keyAt_map]
    rw [Ctx.maintain]
    by_cases hkey : key = t.slots.keyAt 0
    · rw [if_pos hkey]
      refine ⟨M, maintainParent_stop hp hparent hno hpq hfind ?_, .refl hh.ctx.exists_page, hh⟩
      rw [hkeys, hfirst, hkey]
    · rw [if_neg hkey]
      have hset := hh.set_key (t.slots.keyAt 0) hpq hrow
      -- the node above has its first key from the left of the hole, or from the hole
      have hup := Held.down_iff.mp hset
      have hdepth : up.depth < fuel := Nat.lt_of_succ_lt_succ hfuel
      obtain ⟨M', hdoes, hchanges, hheld⟩ := ih hup hdepth
      rw [Ctx.keyAt_zero_fill] at hheld
      refine ⟨M', ?_, .down hpq hchanges, Held.down_iff.mpr hheld⟩
      have hne : parentPage.keys left.length ≠ page.keys 0 := by rwa [hkeys, hfirst]
      have hreach : Reaches IxIndex.mem (maintainParent (fuel + 1) t.no) M (maintainParent fuel no)
          (M.set no (parentPage.setKey left.length (page.keys 0))) :=
        maintainParent_up hp hparent hno hpq hfind hne
      rw [hfirst] at hreach
      exact Reaches.pure_iff.mp (hreach.trans (Reaches.pure_iff.mpr hdoes))

end Path

end Rucbase
