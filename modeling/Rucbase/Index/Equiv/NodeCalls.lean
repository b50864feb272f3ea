import Rucbase.Index.Equiv.IxNodeBytes

/-!
# Calls on the bytes of nodes

Every call of a node that fits does to the bytes of the page what it does to the node they show
(`NodeCall.does`), also where two nodes take part (`NodesCall.does`).  By `Does.mapM_answers` so does
every sequence of calls: `nodes_answer_as_pages`.
-/

namespace Rucbase

open IxNodeHandle EStateM

variable {κ : Type} {hdr : IxFileHdr} {decode : List UInt8 → κ}

namespace IxFileHdr

variable {page : IxPage κ} {key : List UInt8}

theorem LaidOut.slot_lt (h : hdr.LaidOut) {i : Nat} (hi : hdr.HasSlot i) : i < hdr.slots := by
  have := h.slots_eq
  have := hi.2
  omega

theorem LaidOut.width_le (h : hdr.LaidOut) (hkey : hdr.HoldsKey key) :
    hdr.width ≤ key.length := by
  have := h.width_eq
  unfold HoldsKey at hkey
  omega

theorem LaidOut.numKey_le (h : hdr.LaidOut) (hpage : hdr.Sized page) :
    page.numKey ≤ hdr.slots := by
  rw [h.slots_eq]
  exact hpage.2

theorem LaidOut.numKey_lt (h : hdr.LaidOut) (hpage : hdr.HasRoom page) :
    page.numKey < hdr.slots := by
  have := h.slots_eq
  have := hpage.2
  omega

end IxFileHdr

/-! ### One node -/

section Node

variable [IxKey κ] {page : IxPage κ}

/-- **A call on the bytes of a page is the call on the node they show.** -/
theorem NodeCall.does (h : hdr.LaidOut) (hkeys : hdr.Keys decode) {c : NodeCall}
    (hfits : c.Fits hdr page) :
    Does (shown hdr decode) (c.run hdr decode) page (c.exec hdr decode page).1
      (c.exec hdr decode page).2 := by
  cases c with
  | getField field => exact .bind (getField_does field) .pure
  | setField field x => exact .bind (setField_does h field hfits) .pure
  | isRootPage => exact .bind (.bind (getField_does .parent) .pure) .pure
  | isLeafPage => exact .bind isLeafPage_does .pure
  | setLeaf isLeaf => exact .bind (setLeaf_does h isLeaf) .pure
  | isFull => exact .bind (.bind getSize_does .pure) .pure
  | getKey i =>
    obtain ⟨i, rfl⟩ := Int.eq_ofNat_of_zero_le hfits.1
    refine .bind_exists fun d hd => ?_
    obtain ⟨key, d', hrun, hd', hkey, -⟩ := loadKey_shows h (h.slot_lt hfits) hd
    refine ⟨key, d', hrun, ?_⟩
    rw [hd', hkey]
    exact .pure
  | setKey i key =>
    obtain ⟨hslot, hkey⟩ := hfits
    obtain ⟨i, rfl⟩ := Int.eq_ofNat_of_zero_le hslot.1
    have hset : Does (shown hdr decode) (IxNodeHandle.setKey hdr i key) page ⟨⟩
        (page.setKey i (decode (key.take hdr.width))) :=
      setKey_does h (h.slot_lt hslot) (h.width_le hkey)
    rw [hkeys.take key (h.width_le hkey)] at hset
    exact .bind hset .pure
  | getRid i =>
    obtain ⟨i, rfl⟩ := Int.eq_ofNat_of_zero_le hfits.1
    exact .bind (loadRid_does h (h.slot_lt hfits)) .pure
  | setRid i rid =>
    obtain ⟨hslot, hrid⟩ := hfits
    obtain ⟨i, rfl⟩ := Int.eq_ofNat_of_zero_le hslot.1
    exact .bind (setRid_does h (h.slot_lt hslot) hrid) .pure
  | lowerBound key =>
    exact .bind (lowerBound_does h hkeys (h.width_le hfits.2) (h.numKey_le hfits.1)) .pure
  | upperBound key =>
    exact .bind (upperBound_does h hkeys (h.width_le hfits.2) (h.numKey_le hfits.1)) .pure
  | locateKeyIndex key =>
    exact .bind (locateKeyIndex_does h hkeys (h.width_le hfits.2) hfits.1.1
      (h.numKey_le hfits.1)) .pure
  | leafLookup key =>
    exact .bind (leafLookup_does h hkeys (h.width_le hfits.2) hfits.1.1
      (h.numKey_le hfits.1)) .pure
  | internalLookup key =>
    exact .bind (internalLookup_does h hkeys (h.width_le hfits.2) hfits.1.1
      (h.numKey_le hfits.1)) .pure
  | findChild childPageNo =>
    obtain ⟨hsized, hsome⟩ := hfits
    obtain ⟨r, hr⟩ := Option.isSome_iff_exists.mp hsome
    have hanswer : (page.findChild childPageNo).getD (-1) = r := by rw [hr, Option.getD_some]
    show Does (shown hdr decode) ((findChild childPageNo).run hdr decode) page
      (.number ((page.findChild childPageNo).getD (-1))) page
    rw [hanswer]
    exact .bind (findChild_does h (h.numKey_le hsized) hr) .pure
  | insertPair pos key rid =>
    obtain ⟨hroom, hpos, hkey, hrid⟩ := hfits
    obtain ⟨p, rfl⟩ := Int.eq_ofNat_of_zero_le hpos
    have hins : Does (shown hdr decode) (IxNodeHandle.insertPair hdr p key rid) page ⟨⟩
        (page.insertPair p (decode (key.take hdr.width)) rid) :=
      insertPair_does h hroom.1 (h.numKey_lt hroom) (h.width_le hkey) hrid
    rw [hkeys.take key (h.width_le hkey)] at hins
    exact .bind hins .pure
  | insert key value =>
    obtain ⟨hroom, hkey, hvalue⟩ := hfits
    exact .bind (insert_does h hkeys (h.width_le hkey) hroom.1 (h.numKey_lt hroom) hvalue) .pure
  | erasePair pos =>
    obtain ⟨hroom, hslot⟩ := hfits
    obtain ⟨p, rfl⟩ := Int.eq_ofNat_of_zero_le hslot.1
    exact .bind (erasePair_does h hroom.1 (h.numKey_lt hroom) (h.slot_lt hslot)) .pure
  | remove key =>
    exact .bind (remove_does h hkeys (h.width_le hfits.2) hfits.1.1 (h.numKey_lt hfits.1)) .pure
  | removeAndReturnOnlyChild =>
    have hslots := h.slots_eq
    exact .bind (removeAndReturnOnlyChild_does h hfits.1 (by have := hfits.2; omega)) .pure

end Node

/-! ### Several nodes -/

/-- The nodes that the bytes of the pages show. -/
def allShown (hdr : IxFileHdr) (decode : List UInt8 → κ) (pages : Int → PageData) :
    Int → IxPage κ :=
  fun pageNo => shown hdr decode (pages pageNo)

section Nodes

variable {t : Int → IxPage κ} {node srcNode : Int}

theorem onNode_of_ok {α : Type} {x : NodeM α} {pages : Int → PageData} {a : α} {d : PageData}
    (h : x (pages node) = .ok a d) :
    onNode node x pages = .ok a (Function.update pages node d) := by
  rw [onNode, h]

theorem allShown_update (pages : Int → PageData) (node : Int) (d : PageData) :
    allShown hdr decode (Function.update pages node d) =
      Function.update (allShown hdr decode pages) node (shown hdr decode d) := by
  ext pageNo : 1
  by_cases hne : pageNo = node
  · subst hne
    rw [allShown, Function.update_self, Function.update_self]
  · rw [allShown, Function.update_of_ne hne, Function.update_of_ne hne, allShown]

/-- What a node does, it does among the others. -/
theorem onNode_does {α : Type} {x : NodeM α} {a : α} {page' : IxPage κ}
    (hx : Does (shown hdr decode) x (t node) a page') :
    Does (allShown hdr decode) (onNode node x) t a (Function.update t node page') := by
  intro pages hpages
  obtain ⟨d, hrun, hd⟩ := hx (pages node) (congrFun hpages node)
  refine ⟨_, onNode_of_ok hrun, ?_⟩
  rw [allShown_update, hpages, hd]

/-- The bytes that are read from a node. -/
theorem onNode_shows {α : Type} {x : NodeM α} {P : α → Prop} {pages : Int → PageData}
    (hx : ∃ a d, x (pages node) = .ok a d ∧ shown hdr decode d = shown hdr decode (pages node) ∧
      P a) :
    ∃ a pages', onNode node x pages = .ok a pages' ∧
      allShown hdr decode pages' = allShown hdr decode pages ∧ P a := by
  obtain ⟨a, d, hrun, hd, hP⟩ := hx
  refine ⟨a, _, onNode_of_ok hrun, ?_, hP⟩
  rw [allShown_update, hd]
  exact Function.update_eq_self node (allShown hdr decode pages)

/-- Keys in a row, as bytes. -/
theorem loadKeys_shows (h : hdr.LaidOut) {p n : Nat} (hn : p + n ≤ hdr.slots) (d : PageData) :
    ∃ bytes d', load (getKey hdr p) (n * hdr.colLen) d = .ok bytes d' ∧
      shown hdr decode d' = shown hdr decode d ∧ (bytes.length = n * hdr.width ∧
        ∀ j < n, decode (Memory.chunk bytes hdr.width j) = (shown hdr decode d).keys (p + j)) := by
  have hsize : (n : Int) * hdr.colLen = (n * hdr.width : Nat) := by
    rw [← h.width_eq]
    push_cast
    rfl
  have hkeys := h.keys_le hn
  have hrids := h.rids_le (p := 0) (n := 0) (by omega)
  have hnonneg : (0 : Int) ≤ p * hdr.width := Int.mul_nonneg (by omega) (by omega)
  have hload : Does PageData.mem (load (getKey hdr p) (n * hdr.colLen)) d.mem
      (Memory.load d.mem (getKey hdr p) (n * hdr.colLen).toNat) d.mem := by
    rw [getKey_eq h, hsize]
    exact load_does (by omega) (by omega) (by omega)
  obtain ⟨d', hrun, hd'⟩ := hload d rfl
  refine ⟨_, d', hrun, by rw [shown, hd', shown], ?_, fun j hj => ?_⟩
  · rw [Memory.length_load, hsize, Int.toNat_natCast]
  · rw [hsize, Int.toNat_natCast, getKey_eq h, Memory.chunk_load hj]
    exact (if_pos (by omega)).symm

/-- Rids in a row, as bytes. -/
theorem loadRids_shows (h : hdr.LaidOut) {p n : Nat} (hn : p + n ≤ hdr.slots) (d : PageData) :
    ∃ bytes d', load (getRid hdr p) (n * ridSize) d = .ok bytes d' ∧
      shown hdr decode d' = shown hdr decode d ∧ (bytes.length = n * ridSize ∧
        ∀ j < n, ridOf (Memory.chunk bytes ridSize j) = (shown hdr decode d).rids (p + j)) := by
  have hsize : (n : Int) * ridSize = (n * ridSize : Nat) := (Int.natCast_mul n ridSize).symm
  have hge : 24 ≤ hdr.ridsBase := h.ridsBase_ge
  have hrids := h.rids_le hn
  have h0 : 0 ≤ getRid hdr p := by
    show 0 ≤ hdr.ridsBase + p * 8
    omega
  have hload : Does PageData.mem (load (getRid hdr p) (n * ridSize)) d.mem
      (Memory.load d.mem (getRid hdr p) (n * ridSize : Int).toNat) d.mem := by
    rw [hsize]
    exact load_does h0 (by omega) hrids
  obtain ⟨d', hrun, hd'⟩ := hload d rfl
  refine ⟨_, d', hrun, by rw [shown, hd', shown], ?_, fun j hj => ?_⟩
  · rw [Memory.length_load, hsize, Int.toNat_natCast]
  · rw [hsize, Int.toNat_natCast]
    show ridOf (Memory.chunk (Memory.load d.mem (hdr.ridsBase + p * ridSize) _) ridSize j) = _
    rw [Memory.chunk_load hj]
    exact (if_pos (by omega)).symm

/-- `insert_pairs` with the pairs of another node. -/
theorem insertPairsFrom_does (h : hdr.LaidOut) {pos srcPos n : Nat}
    (hsrc : srcPos + n ≤ hdr.slots) (h0 : 0 ≤ (t node).numKey)
    (hn : (t node).numKey + n ≤ hdr.slots) :
    Does (allShown hdr decode) (insertPairsFrom hdr node pos srcNode srcPos n) t ⟨⟩
      (Function.update t node
        ((t node).insertPairs pos (fun j => (t srcNode).keys (srcPos + j))
          (fun j => (t srcNode).rids (srcPos + j)) n)) := by
  refine .bind_exists fun pages hpages => ?_
  obtain ⟨key, pages₁, hrun₁, hpages₁, hkeylen, hkey⟩ :=
    onNode_shows (loadKeys_shows h hsrc (pages srcNode))
  refine ⟨key, pages₁, hrun₁, .bind_exists fun pages₁' hpages₁' => ?_⟩
  obtain ⟨rid, pages₂, hrun₂, hpages₂, hridlen, hrid⟩ :=
    onNode_shows (loadRids_shows h hsrc (pages₁' srcNode))
  have hseen : allShown hdr decode pages₁' = t := by rw [hpages₁', hpages₁, hpages]
  refine ⟨rid, pages₂, hrun₂, ?_⟩
  rw [hpages₂, hseen]
  have hpairs : (t node).insertPairs pos (fun j => (t srcNode).keys (srcPos + j))
      (fun j => (t srcNode).rids (srcPos + j)) n =
      (t node).insertPairs pos (fun j => decode (Memory.chunk key hdr.width j))
        (fun j => ridOf (Memory.chunk rid ridSize j)) n := by
    refine IxPage.insertPairs_congr fun j hj => ?_
    rw [hkey j hj, hrid j hj, ← hpages]
    refine ⟨rfl, ?_⟩
    rw [hpages, ← hseen]
    rfl
  rw [hpairs]
  exact onNode_does (insertPairs_does h h0 hn hkeylen.ge hridlen.ge)

end Nodes

/-! ### Distributing the pairs of a node over two -/

/-- The nodes with two of them replaced. -/
def withBoth (t : Int → IxPage κ) (newNode originNode : Int) (newPage originPage : IxPage κ) :
    Int → IxPage κ :=
  Function.update (Function.update t newNode newPage) originNode originPage

section Both

variable {t : Int → IxPage κ} {newNode originNode : Int} (hne : newNode ≠ originNode)
  {newPage originPage page' : IxPage κ}

theorem withBoth_origin : withBoth t newNode originNode newPage originPage originNode = originPage :=
  Function.update_self ..

theorem onOrigin_does {α : Type} {x : NodeM α} {a : α}
    (hx : Does (shown hdr decode) x originPage a page') :
    Does (allShown hdr decode) (onNode originNode x) (withBoth t newNode originNode newPage originPage)
      a (withBoth t newNode originNode newPage page') := by
  have hupdate : withBoth t newNode originNode newPage page' =
      Function.update (withBoth t newNode originNode newPage originPage) originNode page' := by
    unfold withBoth
    rw [Function.update_idem]
  rw [hupdate]
  refine onNode_does ?_
  rw [withBoth_origin]
  exact hx

include hne

theorem withBoth_new : withBoth t newNode originNode newPage originPage newNode = newPage := by
  rw [withBoth, Function.update_of_ne hne, Function.update_self]

theorem onNew_does {α : Type} {x : NodeM α} {a : α}
    (hx : Does (shown hdr decode) x newPage a page') :
    Does (allShown hdr decode) (onNode newNode x) (withBoth t newNode originNode newPage originPage)
      a (withBoth t newNode originNode page' originPage) := by
  have hupdate : withBoth t newNode originNode page' originPage =
      Function.update (withBoth t newNode originNode newPage originPage) newNode page' := by
    unfold withBoth
    rw [Function.update_comm hne, Function.update_comm hne, Function.update_idem]
  rw [hupdate]
  refine onNode_does ?_
  rw [withBoth_new hne]
  exact hx

omit hne in
/-- The new page after some rounds of the loop. -/
def IxPage.taken (page origin : IxPage κ) (newKeyNum i rounds : Nat) : IxPage κ :=
  (page.putKeys i rounds fun j => origin.keys (newKeyNum + (i + j))).putRids i rounds
    fun j => origin.rids (newKeyNum + (i + j))

omit hne in
theorem IxPage.taken_zero (page origin : IxPage κ) (newKeyNum i : Nat) :
    page.taken origin newKeyNum i 0 = page := by
  unfold IxPage.taken IxPage.putKeys IxPage.putRids
  simp only [overwrite_zero]

omit hne in
theorem IxPage.taken_succ (page origin : IxPage κ) (newKeyNum i rounds : Nat) :
    ((page.setKey i (origin.keys (newKeyNum + i))).setRid i (origin.rids (newKeyNum + i))).taken
      origin newKeyNum (i + 1) rounds = page.taken origin newKeyNum i (rounds + 1) := by
  have hrow : ∀ {α : Type} (f g : Nat → α),
      overwrite (Function.update f i (g (newKeyNum + i))) (i + 1) rounds
        (fun j => g (newKeyNum + (i + 1 + j))) =
      overwrite f i (rounds + 1) fun j => g (newKeyNum + (i + j)) := by
    intro α f g
    rw [← overwrite_succ, Nat.add_zero]
    refine overwrite_congr fun j _ => ?_
    rw [Nat.add_right_comm, Nat.add_assoc i]
  unfold IxPage.taken IxPage.putKeys IxPage.putRids IxPage.setKey IxPage.setRid
  simp only [Int.toNat_natCast, hrow]

/-- The loop of `evenlyDistributePairs`. -/
theorem distributeLoop_does (h : hdr.LaidOut) {newKeyNum : Nat} (rounds : Nat) :
    ∀ {newPage : IxPage κ} {i : Nat}, newKeyNum + i + rounds ≤ hdr.slots →
      Does (allShown hdr decode) (distributeLoop hdr newNode originNode newKeyNum rounds i)
        (withBoth t newNode originNode newPage originPage) ⟨⟩
        (withBoth t newNode originNode (newPage.taken originPage newKeyNum i rounds)
          originPage) := by
  induction rounds with
  | zero =>
    intro newPage i _
    rw [IxPage.taken_zero]
    exact .pure
  | succ rounds ih =>
    intro newPage i hi
    refine .bind_exists fun pages hpages => ?_
    have horigin : shown hdr decode (pages originNode) = originPage := by
      have hseen := congrFun hpages originNode
      rwa [withBoth_origin] at hseen
    obtain ⟨key, pages₁, hrun, hpages₁, hkey, hlen⟩ :=
      onNode_shows (loadKey_shows h (i := newKeyNum + i) (by omega) rfl)
    refine ⟨key, pages₁, hrun, ?_⟩
    rw [hpages₁, hpages, ← IxPage.taken_succ]
    have hset : Does (shown hdr decode) (setKey hdr i key) newPage ⟨⟩
        (newPage.setKey i (decode (key.take hdr.width))) := setKey_does h (by omega) hlen.ge
    rw [List.take_of_length_le hlen.le, hkey, horigin] at hset
    refine .bind (onNew_does hne hset) ?_
    refine .bind (onOrigin_does (loadRid_does h (i := newKeyNum + i) (by omega))) ?_
    refine .bind (onNew_does hne (setRid_does h (by omega) (isInts_rids horigin _))) ?_
    exact ih (i := i + 1) (by omega)

/-- `evenlyDistributePairs` on the nodes that the bytes show. -/
theorem evenlyDistributePairs_does (h : hdr.LaidOut) (h0 : 0 ≤ originPage.numKey)
    (hn : originPage.numKey ≤ hdr.slots) (hparent : IsInt originPage.parent) :
    Does (allShown hdr decode) (evenlyDistributePairs hdr newNode originNode)
      (withBoth t newNode originNode newPage originPage) ⟨⟩
      (withBoth t newNode originNode (IxIndexHandle.evenlyDistributePairs newPage originPage).1
        (IxIndexHandle.evenlyDistributePairs newPage originPage).2) := by
  obtain ⟨newKeyNum, hhalf⟩ : ∃ m : Nat, originPage.numKey / 2 = m :=
    ⟨(originPage.numKey / 2).toNat, by omega⟩
  obtain ⟨moved, hmoved⟩ : ∃ m : Nat, originPage.numKey - newKeyNum = m :=
    ⟨(originPage.numKey - newKeyNum).toNat, by omega⟩
  have hslots := h.slots_le
  have hint : ∀ n : Nat, n ≤ 512 → IsInt n := by
    intro n hn
    unfold IsInt
    omega
  have hpages : IxIndexHandle.evenlyDistributePairs newPage originPage =
      ({ newPage.taken originPage newKeyNum 0 moved with
          isLeaf := originPage.isLeaf
          numKey := moved
          parent := originPage.parent }, { originPage with numKey := newKeyNum }) := by
    have hrow : ∀ {α : Type} (f g : Nat → α), overwrite f 0 moved (fun j => g (newKeyNum + (0 + j))) =
        fun i : Nat => if (i : Int) < moved then g (newKeyNum + i) else f i := by
      intro α f g
      ext i
      unfold overwrite
      simp only [Nat.zero_le, true_and, Nat.zero_add, Nat.sub_zero, Int.ofNat_lt]
    unfold IxIndexHandle.evenlyDistributePairs IxPage.taken IxPage.putKeys IxPage.putRids
    simp only [hmoved, hhalf, Int.toNat_natCast, hrow]
  rw [hpages]
  refine .bind (onOrigin_does getSize_does) ?_
  refine .bind (onOrigin_does isLeafPage_does) ?_
  refine .bind (onNew_does hne (setLeaf_does h originPage.isLeaf)) ?_
  refine .bind (onOrigin_does getSize_does) ?_
  rw [hhalf, hmoved]
  refine .bind (onNew_does hne (setSize_does h (hint moved (by omega)))) ?_
  refine .bind (onOrigin_does (setSize_does h (hint newKeyNum (by omega)))) ?_
  refine .bind (onOrigin_does (getField_does .parent)) ?_
  refine .bind (onNew_does hne (setField_does h .parent hparent)) ?_
  refine .bind (onNew_does hne getSize_does) ?_
  exact distributeLoop_does hne h moved (i := 0) (by omega)

end Both

/-! ### Sequences of calls -/

section Calls

variable [IxKey κ] {t : Int → IxPage κ}

/-- **A call on the bytes of the pages is the call on the nodes they show.** -/
theorem NodesCall.does (h : hdr.LaidOut) (hkeys : hdr.Keys decode) {c : NodesCall}
    (hfits : c.Fits hdr t) :
    Does (allShown hdr decode) (c.run hdr decode) t (c.exec hdr decode t).1
      (c.exec hdr decode t).2 := by
  have hslots := h.slots_eq
  cases c with
  | call node c => exact onNode_does (c.does h hkeys hfits)
  | insertPairs node pos srcNode srcPos n =>
    obtain ⟨-, hpos, hsrcPos, hn, hsrc, h0, hsize⟩ := hfits
    obtain ⟨pos, rfl⟩ := Int.eq_ofNat_of_zero_le hpos
    obtain ⟨srcPos, rfl⟩ := Int.eq_ofNat_of_zero_le hsrcPos
    obtain ⟨n, rfl⟩ := Int.eq_ofNat_of_zero_le hn
    unfold IxFileHdr.getMaxSize at hsrc hsize
    exact .bind (insertPairsFrom_does h (by omega) h0 (by omega)) .pure
  | evenlyDistributePairs newNode originNode =>
    obtain ⟨hne, hsized⟩ := hfits
    intro pages hpages
    have hself : withBoth t newNode originNode (t newNode) (t originNode) = t := by
      rw [withBoth, Function.update_eq_self, Function.update_eq_self]
    have hparent : IsInt (t originNode).parent := isInt_field (congrFun hpages originNode) .parent
    set halves := IxIndexHandle.evenlyDistributePairs (t newNode) (t originNode) with hhalves
    have hdoes : Does (allShown hdr decode)
        (IxNodeHandle.evenlyDistributePairs hdr newNode originNode)
        (withBoth t newNode originNode (t newNode) (t originNode)) ⟨⟩
        (withBoth t newNode originNode halves.1 halves.2) :=
      evenlyDistributePairs_does hne h hsized.1 (h.numKey_le hsized) hparent
    rw [hself] at hdoes
    have hcall : Does (allShown hdr decode)
        ((evenlyDistributePairs newNode originNode).run hdr decode) t (.done : NodeAnswer κ)
        (withBoth t newNode originNode halves.1 halves.2) := .bind hdoes .pure
    exact hcall pages hpages

end Calls

/-! ### Pages and keys of an index -/

theorem mem_zeroPage : zeroPage.mem = fun _ => 0 := by
  ext i : 1
  unfold PageData.mem PageData.byteAt zeroPage
  split_ifs <;> rfl

theorem load_zeros (addr : Int) (n : Nat) :
    Memory.load (fun _ => 0) addr n = List.replicate n 0 := by
  unfold Memory.load
  rw [List.map_const', List.length_range]

/-- A page that `NewPage` hands out shows an empty node. -/
theorem shown_zeroPage (hdr : IxFileHdr) (decode : List UInt8 → κ) :
    shown hdr decode zeroPage = @IxPage.zero κ ⟨decode (List.replicate hdr.width 0)⟩ := by
  have hint : ∀ field, fieldOf (fun _ => 0) field = 0 := by
    intro field
    rw [fieldOf, load_zeros]
    decide
  have hrid : ridOf (List.replicate ridSize 0) = ⟨0, 0⟩ := by decide
  unfold shown shownBy IxPage.zero Memory.cell
  simp only [mem_zeroPage, hint, load_zeros, hrid, ite_self]
  rfl

/-- The first four bytes are enough for a number. -/
theorem wordOf_take {buf : List UInt8} (h : 4 ≤ buf.length) : wordOf (buf.take 4) = wordOf buf := by
  match buf, h with
  | b₀ :: b₁ :: b₂ :: b₃ :: _, _ => rfl

namespace IxFileHdr

/-- Keys of the type `TYPE_INT`. -/
theorem keys_int (htype : hdr.colType = .int) (hlen : hdr.colLen = 4) :
    hdr.Keys fun buf => (wordOf buf).toInt32.toInt := by
  have hwidth : hdr.width = 4 := by rw [width, hlen]; rfl
  constructor
  · intro a b ha hb
    rw [hwidth] at ha hb
    rw [htype]
    exact decodes_int _ a b ha hb
  · intro buf hbuf
    rw [hwidth] at hbuf ⊢
    simp only [wordOf_take hbuf]

/-- Keys of the type `TYPE_FLOAT`, NaNs among them. -/
theorem keys_float (htype : hdr.colType = .float) (hlen : hdr.colLen = 4) :
    hdr.Keys fun buf => FloatKey.mk (wordOf buf) := by
  have hwidth : hdr.width = 4 := by rw [width, hlen]; rfl
  constructor
  · intro a b ha hb
    rw [hwidth] at ha hb
    rw [htype]
    show (do return compareFloat (← loadWord a) (← loadWord b)) = _
    rw [loadWord_eq ha, loadWord_eq hb]
    rfl
  · intro buf hbuf
    rw [hwidth] at hbuf ⊢
    simp only [wordOf_take hbuf]

/-- Keys of the type `TYPE_STRING`. -/
theorem keys_string (htype : hdr.colType = .string) (h0 : 0 ≤ hdr.colLen)
    (hmax : hdr.colLen ≤ ixMaxColLen) :
    hdr.Keys fun buf => (buf.take hdr.width).map UInt8.toNat := by
  have hmax' : hdr.colLen ≤ 512 := hmax
  have hint : (Int32.ofInt hdr.colLen).toInt = hdr.colLen :=
    Int32.toInt_ofInt_of_le (by omega) (by omega)
  constructor
  · intro a b ha hb
    unfold width at ha hb
    rw [htype]
    have hdecodes := decodes_string (Int32.ofInt hdr.colLen) a b
    rw [hint] at hdecodes
    exact hdecodes ⟨by omega, by omega⟩ ⟨by omega, by omega⟩
  · intro buf _
    rw [List.take_take, Nat.min_self]

end IxFileHdr

section Runs

variable [IxKey κ]

/-- **Nodes on bytes.**  Let the slots of the nodes lie inside of their pages, as those of every index
do that `create_index` makes, and let `ix_compare` compare what the keys stand for (`keys_int`,
`keys_float` and `keys_string` say so for the three types).  Then every sequence of calls that fit,
on any number of nodes and from any contents of their pages, stays inside of the pages, returns what
the calls return on the nodes that the pages show, and leaves pages that show the nodes
afterwards. -/
theorem nodes_answer_as_pages (h : hdr.LaidOut) (hkeys : hdr.Keys decode)
    (pages : Int → PageData) (calls : List NodesCall)
    (hfits : Meets (fun t c => c.Fits hdr t) (NodesCall.exec hdr decode)
      (allShown hdr decode pages) calls) :
    ∃ pages',
      calls.mapM (NodesCall.run hdr decode) pages =
        .ok (answers (NodesCall.exec hdr decode) (allShown hdr decode pages) calls).1 pages' ∧
      allShown hdr decode pages' =
        (answers (NodesCall.exec hdr decode) (allShown hdr decode pages) calls).2 := by
  have hdoes : Does (allShown hdr decode) (calls.mapM (NodesCall.run hdr decode))
      (allShown hdr decode pages)
      (answers (NodesCall.exec hdr decode) (allShown hdr decode pages) calls).1
      (answers (NodesCall.exec hdr decode) (allShown hdr decode pages) calls).2 :=
    Does.mapM_answers (fun t c hc => NodesCall.does h hkeys hc) hfits
  exact hdoes pages rfl

/-- Two keys are inserted into a new node, and one is looked up. -/
def threeCalls : List NodesCall :=
  [.call 3 (.insert [5, 0, 0, 0] ⟨7, 0⟩), .call 3 (.insert [3, 0, 0, 0] ⟨7, 1⟩),
    .call 3 (.leafLookup [3, 0, 0, 0])]

theorem nodes_answer_as_pages_three :
    ∃ pages', threeCalls.mapM
        (NodesCall.run (.init .int 4) fun buf => (wordOf buf).toInt32.toInt) (fun _ => zeroPage) =
      .ok [.number 1, .number 2, .rid (some ⟨7, 1⟩)] pages' := by
  have hzero : allShown (.init .int 4) (fun buf => (wordOf buf).toInt32.toInt) (fun _ => zeroPage) =
      fun _ => IxPage.zero := by
    ext pageNo : 1
    exact shown_zeroPage _ _
  obtain ⟨pages', hrun, -⟩ := nodes_answer_as_pages
    (IxFileHdr.laidOut_init (by decide) (by decide)) (IxFileHdr.keys_int rfl rfl)
    (fun _ => zeroPage) threeCalls (by
      rw [hzero]
      have hint : Rid.IsInts ⟨7, 0⟩ ∧ Rid.IsInts ⟨7, 1⟩ := by
        unfold Rid.IsInts IsInt
        decide
      refine ⟨⟨?_, ?_, hint.1⟩, ⟨?_, ?_, hint.2⟩, ⟨?_, ?_⟩, trivial⟩
      · exact ⟨by decide +kernel, by decide +kernel⟩
      · exact show (4 : Int) ≤ 4 by decide
      · exact ⟨by decide +kernel, by decide +kernel⟩
      · exact show (4 : Int) ≤ 4 by decide
      · exact ⟨by decide +kernel, by decide +kernel⟩
      · exact show (4 : Int) ≤ 4 by decide)
  refine ⟨pages', ?_⟩
  have hanswers : (answers (NodesCall.exec (.init .int 4) fun buf => (wordOf buf).toInt32.toInt)
      (fun _ => IxPage.zero) threeCalls).1 = [.number 1, .number 2, .rid (some ⟨7, 1⟩)] := by
    decide +kernel
  rw [hrun, hzero, hanswers]

end Runs

end Rucbase
