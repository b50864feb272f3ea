import Rucbase.Index.Equiv.Insert
import Rucbase.Index.IxScan
import Rucbase.Lib.Chunks

/-!
# Scans on the leaf chain

What a scan can see of an index are the leaves in the order of the chain (`IxMem.Chain`): a list of
entries in chunks, one for each leaf.  A position of the scan is a place in that list (`Iid.At`);
`rid` returns the entry behind it, `next` steps over that entry, and a scan from one position to
another returns what lies between them (`collect_does`).
-/

namespace Rucbase

open EStateM IxIndexHandle

variable {κ : Type}

/-- The entries of the leaves, each list under the page number of its leaf. -/
abbrev LeafChunks (κ : Type) := List (Int × List (κ × Rid))

/-- The leaves in the memory, from `first_leaf` to `last_leaf`.  Only a leaf that is alone may be
empty. -/
structure IxMem.Chain (M : IxMem κ) (chunks : LeafChunks κ) : Prop where
  nodup : (chunks.map Prod.fst).Nodup
  page : ∀ q l, (q, l) ∈ chunks → ∃ page, M.pages q = some page ∧ page.isLeaf = true ∧
    page.numKey = l.length ∧ ∀ i e, l[i]? = some e → page.keys i = e.1 ∧ page.rids i = e.2
  next : ∀ A B q l q' l', chunks = A ++ (q, l) :: (q', l') :: B → nextOf M.pages q = some q'
  first : (chunks.map Prod.fst).head? = some M.fileHdr.firstLeaf
  last : (chunks.map Prod.fst).getLast? = some M.fileHdr.lastLeaf
  nonempty : ∀ q l, (q, l) ∈ chunks → chunks ≠ [(q, l)] → l ≠ []

/-- The slot is a position in the chain, with these entries before and behind it. -/
def Iid.At (chunks : LeafChunks κ) (iid : Iid) (before after : List (κ × Rid)) : Prop :=
  ∃ i : Nat, iid.slotNo = i ∧ ChunkAt chunks iid.pageNo i before after

namespace Iid.At

variable {chunks : LeafChunks κ} {iid iid' : Iid} {before after before' after' : List (κ × Rid)}

theorem entries (h : iid.At chunks before after) : before ++ after = chunkEntries chunks := by
  obtain ⟨i, -, hat⟩ := h
  exact hat.entries

theorem unique (hnodup : (chunks.map Prod.fst).Nodup) (h : iid.At chunks before after)
    (h' : iid.At chunks before' after') : before = before' ∧ after = after' := by
  obtain ⟨i, hi, hat⟩ := h
  obtain ⟨i', hi', hat'⟩ := h'
  obtain rfl : i = i' := by omega
  exact hat.unique hnodup hat'

theorem inj (h : iid.At chunks before after) (h' : iid'.At chunks before' after')
    (hlen : before.length = before'.length) : iid = iid' := by
  obtain ⟨i, hi, hat⟩ := h
  obtain ⟨i', hi', hat'⟩ := h'
  obtain ⟨hq, rfl⟩ := hat.inj hat' hlen
  cases iid
  cases iid'
  simp only [Iid.mk.injEq]
  exact ⟨hq, hi.trans hi'.symm⟩

end Iid.At

namespace IxMem.Chain

variable {M : IxMem κ} {chunks : LeafChunks κ}

theorem ne_nil (hM : M.Chain chunks) : chunks ≠ [] := by
  rintro rfl
  have := hM.first
  cases this

/-- `last_leaf` is the page of the last chunk. -/
theorem lastLeaf_eq (hM : M.Chain chunks) {A : LeafChunks κ} {q : Int} {l : List (κ × Rid)}
    (h : chunks = A ++ [(q, l)]) : M.fileHdr.lastLeaf = q := by
  have hlast := hM.last
  rw [h, List.map_append, List.map_singleton, List.getLast?_concat] at hlast
  exact (Option.some.inj hlast).symm

/-- The other chunks have other page numbers. -/
theorem lastLeaf_ne (hM : M.Chain chunks) {A B : LeafChunks κ} {q : Int} {l : List (κ × Rid)}
    (h : chunks = A ++ (q, l) :: B) (hB : B ≠ []) : q ≠ M.fileHdr.lastLeaf := by
  rintro rfl
  obtain ⟨C, ⟨q', l'⟩, rfl⟩ := (List.eq_nil_or_concat B).resolve_left hB
  have hsplit : chunks = (A ++ (M.fileHdr.lastLeaf, l) :: C) ++ [(q', l')] := by
    rw [h, List.concat_eq_append, List.append_assoc, List.cons_append]
  obtain rfl := hM.lastLeaf_eq hsplit
  have heq := (chunk_split_unique hM.nodup h hsplit).2.2
  rw [List.concat_eq_append] at heq
  simp at heq

/-- The entries of a leaf are those of its page. -/
theorem eq_of_split (hM : M.Chain chunks) {chunks' : LeafChunks κ} (hM' : M.Chain chunks')
    {q : Int} {l l' : List (κ × Rid)} {A A' B B' : LeafChunks κ} (h : chunks = A ++ (q, l) :: B)
    (h' : chunks' = A' ++ (q, l') :: B') : l = l' := by
  have hl : (q, l) ∈ chunks := by
    rw [h]
    exact List.mem_append_right _ List.mem_cons_self
  have hl' : (q, l') ∈ chunks' := by
    rw [h']
    exact List.mem_append_right _ List.mem_cons_self
  obtain ⟨page, hp, -, hnum, hget⟩ := hM.page q l hl
  obtain ⟨page', hp', -, hnum', hget'⟩ := hM'.page q l' hl'
  obtain rfl : page = page' := Option.some.inj (hp.symm.trans hp')
  refine List.ext_getElem (by omega) fun i hi hi' => ?_
  obtain ⟨h1, h2⟩ := hget i _ (List.getElem?_eq_getElem hi)
  obtain ⟨h1', h2'⟩ := hget' i _ (List.getElem?_eq_getElem hi')
  exact Prod.ext (h1.symm.trans h1') (h2.symm.trans h2')

/-- The last leaf of one chain is the last leaf of the other. -/
theorem tail_eq_nil (hM : M.Chain chunks) {chunks' : LeafChunks κ} (hM' : M.Chain chunks') {q : Int}
    {l l' : List (κ × Rid)} {A A' B' : LeafChunks κ} (h : chunks = A ++ [(q, l)])
    (h' : chunks' = A' ++ (q, l') :: B') : B' = [] := by
  by_contra hB'
  exact hM'.lastLeaf_ne h' hB' (hM.lastLeaf_eq h).symm

/-- Two chains of one memory that have come to the same leaf go on in the same way. -/
theorem eq_from (hM : M.Chain chunks) {chunks' : LeafChunks κ} (hM' : M.Chain chunks') {q : Int}
    {l l' : List (κ × Rid)} {B A A' B' : LeafChunks κ} (h : chunks = A ++ (q, l) :: B)
    (h' : chunks' = A' ++ (q, l') :: B') : (q, l) :: B = (q, l') :: B' := by
  induction B generalizing q l l' A A' B' with
  | nil =>
    obtain rfl := hM.tail_eq_nil hM' h h'
    rw [hM.eq_of_split hM' h h']
  | cons c B ih =>
    obtain ⟨q₂, l₂⟩ := c
    have hB' : B' ≠ [] := by
      rintro rfl
      exact List.cons_ne_nil _ _ (hM'.tail_eq_nil hM h' h)
    obtain ⟨⟨q₂', l₂'⟩, B', rfl⟩ := List.exists_cons_of_ne_nil hB'
    have hnext := hM.next A B q l q₂ l₂ h
    rw [hM'.next A' B' q l' q₂' l₂' h'] at hnext
    obtain rfl := Option.some.inj hnext
    have hsplit : chunks = (A ++ [(q, l)]) ++ (q₂', l₂) :: B := by
      rw [h, List.append_assoc, List.singleton_append]
    have hsplit' : chunks' = (A' ++ [(q, l')]) ++ (q₂', l₂') :: B' := by
      rw [h', List.append_assoc, List.singleton_append]
    rw [ih hsplit hsplit', hM.eq_of_split hM' h h']

/-- The memory has one chain only. -/
theorem unique (hM : M.Chain chunks) {chunks' : LeafChunks κ} (hM' : M.Chain chunks') :
    chunks = chunks' := by
  obtain ⟨⟨q, l⟩, B, rfl⟩ := List.exists_cons_of_ne_nil hM.ne_nil
  obtain ⟨⟨q', l'⟩, B', rfl⟩ := List.exists_cons_of_ne_nil hM'.ne_nil
  obtain rfl : q = q' := Option.some.inj (hM.first.trans hM'.first.symm)
  exact hM.eq_from hM' (List.nil_append _).symm (List.nil_append _).symm

/-- The beginning of the chain. -/
theorem leafBegin_at (hM : M.Chain chunks) :
    (⟨M.fileHdr.firstLeaf, 0⟩ : Iid).At chunks [] (chunkEntries chunks) := by
  cases chunks with
  | nil => exact absurd rfl hM.ne_nil
  | cons c B =>
    obtain ⟨q, l⟩ := c
    have hfirst := Option.some.inj hM.first
    refine ⟨0, rfl, [], l, B, ?_, ?_, rfl, ?_⟩
    · rw [← hfirst]
      rfl
    · by_cases hB : B = []
      · cases l with
        | nil => exact Or.inr ⟨hB, rfl⟩
        | cons e l => exact Or.inl (Nat.zero_lt_succ _)
      · have hne := hM.nonempty q l List.mem_cons_self fun h => hB (List.cons.inj h).2
        exact Or.inl (List.length_pos_iff.mpr hne)
    · rw [List.drop_zero, chunkEntries_cons]

/-- The end of the chain. -/
theorem exists_leafEnd (hM : M.Chain chunks) :
    ∃ iid : Iid, IxDoes leafEnd M iid M ∧ iid.At chunks (chunkEntries chunks) [] := by
  obtain ⟨A, ⟨q, l⟩, hsplit⟩ := (List.eq_nil_or_concat chunks).resolve_left hM.ne_nil
  rw [List.concat_eq_append] at hsplit
  obtain rfl := hM.lastLeaf_eq hsplit
  have hmem : (M.fileHdr.lastLeaf, l) ∈ chunks := by
    rw [hsplit]
    exact List.mem_append_right _ List.mem_cons_self
  obtain ⟨page, hp, -, hnum, -⟩ := hM.page _ _ hmem
  refine ⟨⟨M.fileHdr.lastLeaf, page.numKey⟩, ?_, l.length, hnum, ChunkAt.last hsplit⟩
  unfold leafEnd
  apply Does.get_bind
  intro s hs
  have hlast : s.fileHdr.lastLeaf = M.fileHdr.lastLeaf := by
    rw [← hs]
    rfl
  rw [hlast]
  apply Does.bind (fetchNode_does hp)
  apply Does.bind (node_does hp)
  exact unpinPage_bind_does fun _ => Does.pure

/-- The slot of the entry behind a position. -/
theorem entry_at (hM : M.Chain chunks) {iid : Iid} {before after : List (κ × Rid)} {e : κ × Rid}
    (hat : iid.At chunks before (e :: after)) : ∃ (i : Nat) (page : IxPage κ), iid.slotNo = i ∧
      M.pages iid.pageNo = some page ∧ i < page.numKey ∧ page.keys i = e.1 ∧ page.rids i = e.2 := by
  obtain ⟨i, hi, A, l, B, rfl, hle, -, hafter⟩ := hat
  have hmem : (iid.pageNo, l) ∈ A ++ (iid.pageNo, l) :: B :=
    List.mem_append_right _ List.mem_cons_self
  obtain ⟨page, hp, -, hnum, hget⟩ := hM.page _ _ hmem
  have hlt : i < l.length := by
    rcases hle with hlt | ⟨rfl, rfl⟩
    · exact hlt
    · rw [List.drop_length] at hafter
      cases hafter
  rw [List.drop_eq_getElem_cons hlt, List.cons_append] at hafter
  obtain ⟨rfl, -⟩ := List.cons.inj hafter
  exact ⟨i, page, hi, hp, by omega, hget i _ (List.getElem?_eq_getElem hlt)⟩

/-- **`rid`** returns the entry behind the position. -/
theorem rid_does (hM : M.Chain chunks) {scan : IxScan} {before after : List (κ × Rid)}
    {e : κ × Rid} (hat : scan.iid.At chunks before (e :: after)) :
    IxDoes scan.rid M e.2 M := by
  obtain ⟨i, page, hi, hp, hlt, -, hrid⟩ := hM.entry_at hat
  unfold IxScan.rid getRid
  apply Does.bind (fetchNode_does hp)
  apply Does.bind (node_does hp)
  rw [if_neg (by omega)]
  refine unpinPage_bind_does fun _ => ?_
  rw [hi, Int.toNat_natCast, hrid]
  exact Does.pure

/-- **`next`** steps over the entry behind the position. -/
theorem next_does (hM : M.Chain chunks) {scan : IxScan} {before after : List (κ × Rid)}
    {e : κ × Rid} (hat : scan.iid.At chunks before (e :: after)) (hend : scan.iid ≠ scan.finish) :
    ∃ iid : Iid, IxDoes scan.next M { scan with iid } M ∧ iid.At chunks (before ++ [e]) after := by
  obtain ⟨i, hi, A, l, B, hsplit, hle, rfl, hafter⟩ := hat
  have hmem : (scan.iid.pageNo, l) ∈ chunks := by
    rw [hsplit]
    exact List.mem_append_right _ List.mem_cons_self
  obtain ⟨page, hp, hleaf, hnum, hrids⟩ := hM.page _ _ hmem
  have hlt : i < l.length := by
    rcases hle with hlt | ⟨rfl, rfl⟩
    · exact hlt
    · rw [List.drop_length] at hafter
      cases hafter
  rw [List.drop_eq_getElem_cons hlt, List.cons_append] at hafter
  obtain ⟨rfl, rfl⟩ := List.cons.inj hafter
  have hget : l[i]? = some l[i] := List.getElem?_eq_getElem hlt
  -- the part of `next` that does not depend on where the entry is
  have hrun : ∀ iid, (∀ s : IxIndex κ, s.mem = M →
      (if scan.iid.pageNo ≠ s.fileHdr.lastLeaf ∧ scan.iid.slotNo + 1 = page.numKey then
        { scan with iid := ⟨page.nextLeaf, 0⟩ }
      else { scan with iid := { scan.iid with slotNo := scan.iid.slotNo + 1 } }) =
        ({ scan with iid } : IxScan)) → IxDoes scan.next M { scan with iid } M := by
    intro iid hiid
    unfold IxScan.next
    rw [IxScan.isEnd, decide_eq_false hend, if_neg (by decide)]
    apply Does.bind (fetchNode_does hp)
    apply Does.bind (node_does hp)
    rw [hleaf, if_neg (by decide), if_neg (by omega)]
    apply Does.get_bind
    intro s hs
    rw [← hiid s hs]
    dsimp only
    split_ifs with h1
    · exact Does.pure
    · exact Does.pure
  have hhdr : ∀ s : IxIndex κ, s.mem = M → s.fileHdr.lastLeaf = M.fileHdr.lastLeaf := by
    rintro s rfl
    rfl
  by_cases hcross : i + 1 = l.length ∧ B ≠ []
  · obtain ⟨hlast, hB⟩ := hcross
    obtain ⟨⟨q', l'⟩, B, rfl⟩ := List.exists_cons_of_ne_nil hB
    have hnext := hM.next A B _ l q' l' hsplit
    rw [nextOf, hp] at hnext
    refine ⟨⟨q', 0⟩, hrun _ fun s hs => ?_, 0, rfl, ?_⟩
    · rw [hhdr s hs, if_pos ⟨hM.lastLeaf_ne hsplit hB, by omega⟩, Option.some.inj hnext]
    · refine ChunkAt.cross hsplit hget hlast (Or.inl (hM.nonempty q' l' ?_ ?_))
      · rw [hsplit]
        exact List.mem_append_right _ (List.mem_cons_of_mem _ List.mem_cons_self)
      · intro h
        have hlen := congrArg List.length (hsplit.symm.trans h)
        simp only [List.length_append, List.length_cons, List.length_nil] at hlen
        omega
  · have hin : i + 1 < l.length ∨ B = [] := by
      by_cases hB : B = []
      · exact Or.inr hB
      · exact Or.inl (lt_of_le_of_ne hlt fun h => hcross ⟨h, hB⟩)
    refine ⟨⟨scan.iid.pageNo, scan.iid.slotNo + 1⟩, hrun _ fun s hs => ?_, i + 1, ?_,
      ChunkAt.inside hsplit hget hin⟩
    · rw [if_neg]
      rintro ⟨hne, hnum'⟩
      have hB : B = [] := by
        by_contra hB
        exact hcross ⟨by omega, hB⟩
      subst hB
      rw [hhdr s hs, hM.lastLeaf_eq hsplit] at hne
      exact hne rfl
    · show scan.iid.slotNo + 1 = ((i + 1 : Nat) : Int)
      omega

/-- **A scan** from one position to another returns what lies between them. -/
theorem collect_does (hM : M.Chain chunks) {finish : Iid} {m rest : List (κ × Rid)} :
    ∀ {before : List (κ × Rid)} {iid : Iid} {fuel : Nat}, iid.At chunks before (m ++ rest) →
      finish.At chunks (before ++ m) rest → m.length < fuel →
      IxDoes (IxScan.collect fuel ⟨iid, finish⟩) M (m.map Prod.snd) M := by
  induction m with
  | nil =>
    intro before iid fuel hat hfin hfuel
    obtain ⟨fuel, rfl⟩ := Nat.exists_eq_succ_of_ne_zero (Nat.ne_of_gt hfuel)
    have heq : iid = finish := hat.inj hfin (by rw [List.append_nil])
    unfold IxScan.collect IxScan.isEnd
    rw [heq, decide_eq_true rfl, if_pos rfl]
    exact Does.pure
  | cons e m ih =>
    intro before iid fuel hat hfin hfuel
    obtain ⟨fuel, rfl⟩ := Nat.exists_eq_succ_of_ne_zero (Nat.ne_of_gt (Nat.zero_lt_of_lt hfuel))
    have hne : iid ≠ finish := by
      rintro rfl
      have hlen := congrArg List.length (hat.unique hM.nodup hfin).1
      simp only [List.length_append, List.length_cons] at hlen
      omega
    let scan : IxScan := ⟨iid, finish⟩
    have hscan : scan.iid.At chunks before (e :: (m ++ rest)) := hat
    obtain ⟨iid', hdoes, hat'⟩ := hM.next_does hscan hne
    have hfin' : finish.At chunks (before ++ [e] ++ m) rest := by
      rw [List.append_assoc]
      exact hfin
    have hrest := ih hat' hfin' (Nat.lt_of_succ_lt_succ hfuel)
    unfold IxScan.collect IxScan.isEnd
    rw [decide_eq_false hne, if_neg (by decide)]
    apply Does.bind (hM.rid_does hscan)
    apply Does.bind hdoes
    exact Does.bind hrest Does.pure

end IxMem.Chain

/-! ### An index of one leaf -/

/-- `FetchNode` does not change what the index holds. -/
theorem fetchNode_mem {q r : Int} {s s' : IxIndex κ} (h : fetchNode q s = .ok r s') :
    r = q ∧ s'.mem = s.mem ∧ ∃ page, s.mem.pages q = some page := by
  cases hp : s.mem.pages q with
  | none =>
    have hview : s.store.view ⟨s.fd, q⟩ = none := hp
    rw [fetchNode, get_bind_apply, PageStore.fetchPage, hview] at h
    cases h
  | some page =>
    obtain ⟨s₁, hrun, hmem⟩ := fetchNode_does hp s rfl
    rw [h] at hrun
    obtain ⟨rfl, rfl⟩ := Result.ok.inj hrun
    exact ⟨rfl, hmem, page, rfl⟩

/-- `rid` does not change what the index holds. -/
theorem IxScan.rid_mem {scan : IxScan} {s s' : IxIndex κ} {rid : Rid}
    (h : scan.rid s = .ok rid s') : s'.mem = s.mem := by
  obtain ⟨q, s₁, hfetch, hrest⟩ := bind_eq_ok_iff.mp h
  obtain ⟨rfl, hmem, page, hp⟩ := fetchNode_mem hfetch
  obtain ⟨s₂, hnode, hmem₂⟩ := node_does hp s₁ hmem
  rw [bind_of_ok hnode] at hrest
  split_ifs at hrest with hslot
  · cases hrest
  · have hdoes : IxDoes (unpinPage scan.iid.pageNo >>= fun _ =>
        pure (page.rids scan.iid.slotNo.toNat)) s.mem (page.rids scan.iid.slotNo.toNat) s.mem :=
      unpinPage_bind_does fun _ => Does.pure
    obtain ⟨s₃, hrun, hmem₃⟩ := hdoes s₂ hmem₂
    rw [hrest] at hrun
    obtain ⟨-, rfl⟩ := Result.ok.inj hrun
    exact hmem₃

/-- `next` does not change what the index holds. -/
theorem IxScan.next_mem {scan scan' : IxScan} {s s' : IxIndex κ}
    (h : scan.next s = .ok scan' s') : s'.mem = s.mem := by
  unfold IxScan.next at h
  split_ifs at h with hend
  · cases h
  · obtain ⟨q, s₁, hfetch, hrest⟩ := bind_eq_ok_iff.mp h
    obtain ⟨rfl, hmem, page, hp⟩ := fetchNode_mem hfetch
    obtain ⟨s₂, hnode, hmem₂⟩ := node_does hp s₁ hmem
    rw [bind_of_ok hnode] at hrest
    by_cases hleaf : page.isLeaf = true
    · by_cases hslot : scan.iid.slotNo < page.numKey
      · rw [if_neg (not_not.mpr hleaf), if_neg (not_not.mpr hslot), get_bind_apply] at hrest
        dsimp only at hrest
        split_ifs at hrest
        · obtain ⟨-, rfl⟩ := Result.ok.inj hrest
          exact hmem₂
        · obtain ⟨-, rfl⟩ := Result.ok.inj hrest
          exact hmem₂
      · rw [if_neg (not_not.mpr hleaf), if_pos hslot] at hrest
        cases hrest
    · rw [if_pos hleaf] at hrest
      cases hrest

end Rucbase
