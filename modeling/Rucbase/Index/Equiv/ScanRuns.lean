import Rucbase.Index.Equiv.IxMap
import Rucbase.Index.Equiv.KeptPositions

/-!
# Scans of an index that is updated

A client scans the whole index, from `leaf_begin` to `leaf_end`, while other clients insert and
delete between its steps.  The scan keeps page and slot numbers, and an update that shifts entries
within a leaf or moves them to another leaf can take them past the cursor or past the end of the
scan.  As long as every update spares these two positions (`ScanWorld.Meets`), the scan never
fails, comes to its end, and returns every entry that stays in the index once (`scan_runs`).
-/

namespace Rucbase

open EStateM IxIndexHandle

variable {κ : Type}

/-! ### Scanning client and updates -/

/-- An index and a client that scans it. -/
structure ScanWorld (κ : Type) where
  index : IxIndex κ
  scan : IxScan
  /-- The client has called `rid` at the cursor, and `next` is its next call. -/
  read : Bool
  /-- The entries whose rids the scan has returned. -/
  returned : List (κ × Rid)

/-- What can happen. -/
inductive ScanAct (κ : Type) where
  /-- The client calls `rid`, and gets the rid of this entry. -/
  | rid (e : κ × Rid)
  | next
  /-- Another client calls `insert_entry` or `delete_entry`. -/
  | update (call : IxCall κ) (answer : IxAnswer)

/-- `insert_entry` or `delete_entry`. -/
def IxCall.Updates : IxCall κ → Prop
  | .insertEntry _ _ => True
  | .deleteEntry _ => True
  | _ => False

/-- `IxScan` with `leaf_begin` and `leaf_end`. -/
def IxScan.full : IxM κ IxScan := do
  let lower ← leafBegin
  let upper ← leafEnd
  return ⟨lower, upper⟩

/-! ### Full scans -/

/-- `next`, a number of times. -/
def IxScan.advance : Nat → IxScan → IxM κ IxScan
  | 0, scan => return scan
  | k + 1, scan => do
    let scan ← advance k scan
    scan.next

section Full

variable {s : IxIndex κ} {chunks : LeafChunks κ}

/-- A full scan begins at the beginning of the chain and ends at its end. -/
theorem IxMem.Chain.full_does {M : IxMem κ} (hM : M.Chain chunks) :
    ∃ scan : IxScan, IxDoes IxScan.full M scan M ∧
      scan.iid.At chunks [] (chunkEntries chunks) ∧
      scan.finish.At chunks (chunkEntries chunks) [] := by
  obtain ⟨upper, hend, hat⟩ := hM.exists_leafEnd
  refine ⟨⟨⟨M.fileHdr.firstLeaf, 0⟩, upper⟩, ?_, hM.leafBegin_at, hat⟩
  have hbegin : IxDoes leafBegin M ⟨M.fileHdr.firstLeaf, 0⟩ M := by
    unfold leafBegin
    apply Does.get_bind
    rintro s rfl
    exact Does.pure
  unfold IxScan.full
  apply Does.bind hbegin
  apply Does.bind hend
  exact Does.pure

theorem IxScan.full_spec {s' : IxIndex κ} {scan : IxScan} (hM : s.mem.Chain chunks)
    (hfull : IxScan.full s = .ok scan s') :
    s'.mem = s.mem ∧ scan.iid.At chunks [] (chunkEntries chunks) ∧
      scan.finish.At chunks (chunkEntries chunks) [] := by
  obtain ⟨scan', hdoes, hbegin, hend⟩ := hM.full_does
  obtain ⟨s₁, hrun, hmem⟩ := hdoes s rfl
  rw [hfull] at hrun
  obtain ⟨rfl, rfl⟩ := Result.ok.inj hrun
  exact ⟨hmem, hbegin, hend⟩

/-- The position after a number of steps. -/
theorem IxMem.Chain.advance_does {M : IxMem κ} (hM : M.Chain chunks) {scan : IxScan}
    (hbegin : scan.iid.At chunks [] (chunkEntries chunks))
    (hend : scan.finish.At chunks (chunkEntries chunks) []) :
    ∀ k ≤ (chunkEntries chunks).length, ∃ iid : Iid,
      IxDoes (IxScan.advance k scan) M { scan with iid } M ∧
        iid.At chunks ((chunkEntries chunks).take k) ((chunkEntries chunks).drop k) := by
  intro k hk
  induction k with
  | zero => exact ⟨scan.iid, Does.pure, hbegin⟩
  | succ k ih =>
    obtain ⟨iid, hdoes, hat⟩ := ih (Nat.le_of_succ_le hk)
    rw [List.drop_eq_getElem_cons hk] at hat
    -- the end is at another position
    have hne : iid ≠ scan.finish := by
      rintro rfl
      have hnil := (hat.unique hM.nodup hend).2
      cases hnil
    let here : IxScan := { scan with iid }
    have hhere : here.iid.At chunks _ _ := hat
    obtain ⟨iid', hnext, hat'⟩ := hM.next_does hhere hne
    refine ⟨iid', hdoes.bind hnext, ?_⟩
    rwa [List.take_append_getElem] at hat'

/-- The keys ascend in every leaf and from each leaf to the next. -/
structure KeyOrdered [LT κ] (chunks : LeafChunks κ) : Prop where
  inLeaf : ∀ c ∈ chunks, c.2.Pairwise fun e e' => e.1 < e'.1
  toNext : chunks.IsChain fun c c' => ∀ e ∈ c.2, ∀ e' ∈ c'.2, e.1 < e'.1

theorem IxMem.Chain.pairwise [LinearOrder κ] {M : IxMem κ} (hM : M.Chain chunks)
    (hkeys : KeyOrdered chunks) : (chunkEntries chunks).Pairwise fun e e' => e.1 < e'.1 := by
  refine pairwise_chunkEntries (R := fun e e' : κ × Rid => e.1 < e'.1) (fun h h' => lt_trans h h')
    hkeys.inLeaf hkeys.toNext fun c hc => ?_
  obtain ⟨q, l⟩ := c
  refine hM.nonempty q l (List.mem_of_mem_tail hc) fun h => ?_
  rw [h] at hc
  cases hc

/-- **A full scan** of an index whose leaves form a chain.  After as many calls of `next` as there
are entries, and not before, the scan is at its end; before each of them `rid` returns the rid of
the next entry of the chain.  The entries of a chain that is key-ordered ascend. -/
theorem full_scan [LinearOrder κ] (hM : s.mem.Chain chunks) :
    ∃ (scan : IxScan) (s₀ : IxIndex κ), IxScan.full s = .ok scan s₀ ∧
      (∀ k ≤ (chunkEntries chunks).length, ∃ (scan' : IxScan) (s' : IxIndex κ),
        IxScan.advance k scan s₀ = .ok scan' s' ∧
        (scan'.isEnd = true ↔ k = (chunkEntries chunks).length) ∧
        ∀ e, (chunkEntries chunks)[k]? = some e → ∃ s'', scan'.rid s' = .ok e.2 s'') ∧
      (∃ rounds s', scan.collect rounds s₀ = .ok ((chunkEntries chunks).map Prod.snd) s') ∧
      (KeyOrdered chunks → (chunkEntries chunks).Pairwise fun e e' => e.1 < e'.1) := by
  obtain ⟨scan, hfull, hbegin, hend⟩ := hM.full_does
  obtain ⟨s₀, hrun, hmem⟩ := hfull s rfl
  refine ⟨scan, s₀, hrun, fun k hk => ?_, ?_, hM.pairwise⟩
  · obtain ⟨iid, hdoes, hat⟩ := hM.advance_does hbegin hend k hk
    obtain ⟨s', hrun', hmem'⟩ := hdoes s₀ hmem
    refine ⟨_, s', hrun', ?_, fun e he => ?_⟩
    · show decide (iid = scan.finish) = true ↔ _
      rw [decide_eq_true_iff]
      constructor
      · rintro rfl
        have hlen := congrArg List.length (hat.unique hM.nodup hend).1
        rwa [List.length_take_of_le hk] at hlen
      · rintro rfl
        exact hat.inj hend (by rw [List.take_length])
    · have hhere : ({ scan with iid } : IxScan).iid.At chunks ((chunkEntries chunks).take k)
          (e :: (chunkEntries chunks).drop (k + 1)) := by
        obtain ⟨hlt, rfl⟩ := List.getElem?_eq_some_iff.mp he
        rw [← List.drop_eq_getElem_cons hlt]
        exact hat
      obtain ⟨s'', hrid, -⟩ := hM.rid_does hhere s' hmem'
      exact ⟨s'', hrid⟩
  · rw [← List.append_nil (chunkEntries chunks)] at hbegin
    obtain ⟨s', hrun', -⟩ := hM.collect_does hbegin hend (Nat.lt_succ_self _) s₀ hmem
    exact ⟨_, s', hrun'⟩

/-- A full scan of two leaves. -/
theorem full_scan_two_leaves : ∃ chunks, twoLeaves.mem.Chain chunks ∧
    ∃ (scan : IxScan) (s₀ : IxIndex Int), IxScan.full twoLeaves = .ok scan s₀ ∧
      ∃ rounds s', scan.collect rounds s₀ = .ok ((chunkEntries chunks).map Prod.snd) s' := by
  obtain ⟨H, T, hT⟩ := twoLeaves_represents
  obtain ⟨scan, s₀, hfull, -, hcollect, -⟩ := full_scan hT.chain
  exact ⟨T.chunks, hT.chain, scan, s₀, hfull, hcollect⟩

end Full

/-! ### Scans and updates -/

section

variable [LinearOrder κ] [Inhabited κ]

/-- The client's loop is `for (; !scan.is_end(); scan.next())` with `scan.rid()` in its body. -/
def ScanWorld.Step (w : ScanWorld κ) : ScanAct κ → ScanWorld κ → Prop
  | .rid e, w' => w.read = false ∧ w.scan.isEnd = false ∧
    (∃ page, w.index.mem.pages w.scan.iid.pageNo = some page ∧
      page.keys w.scan.iid.slotNo.toNat = e.1) ∧
    ∃ index, w.scan.rid w.index = .ok e.2 index ∧
      w' = { w with index, read := true, returned := w.returned ++ [e] }
  | .next, w' => w.read = true ∧ ∃ scan index, w.scan.next w.index = .ok scan index ∧
      w' = { w with index, scan, read := false }
  | .update call answer, w' => call.Updates ∧ ∃ index, w.index.Step (call, answer) index ∧
      w' = { w with index }

end

/-- The rest of the client's loop. -/
def ScanWorld.rest (w : ScanWorld κ) (rounds : Nat) : IxM κ (List Rid) := do
  let scan ← if w.read then w.scan.next else pure w.scan
  scan.collect rounds

/-- The entry is in the index. -/
def IxIndex.Has [LinearOrder κ] (s : IxIndex κ) (e : κ × Rid) : Prop :=
  ∃ (H : Nat) (T : Tree κ H), s.mem.Represents T ∧ e ∈ T.toList

/-- The index holds a well-formed tree. -/
def ScanWorld.WellFormed [LinearOrder κ] (order : Nat) (w : ScanWorld κ) : Prop :=
  ∃ (H : Nat) (T : Tree κ H), w.index.mem.WellFormed order T

/-! ### Undisturbed scans -/

/-- The number of entries at the cursor that the scan has behind it. -/
def ScanWorld.ahead (w : ScanWorld κ) : Nat := if w.read then 1 else 0

/-- The entries that the scan has behind it, if these are the entries on the two sides of the
cursor. -/
def ScanWorld.passed (w : ScanWorld κ) (before after : List (κ × Rid)) : List (κ × Rid) :=
  before ++ after.take w.ahead

theorem ScanWorld.passed_of_read {w : ScanWorld κ} (h : w.read = true)
    (before after : List (κ × Rid)) : w.passed before after = before ++ after.take 1 := by
  rw [passed, ahead, if_pos h]

theorem ScanWorld.passed_of_not_read {w : ScanWorld κ} (h : w.read = false)
    (before after : List (κ × Rid)) : w.passed before after = before := by
  rw [passed, ahead, h]
  exact List.append_nil _

theorem ScanWorld.ahead_le (w : ScanWorld κ) : w.ahead ≤ 1 := by
  unfold ahead
  split_ifs
  · exact le_refl 1
  · exact Nat.zero_le 1

/-- **The condition on a step**, in the state before it: an update spares the cursor and the end of
the scan, and a key that is deleted but not stored is not met in a slot that is not live. -/
def ScanWorld.Meets [LinearOrder κ] (order : Nat) (w : ScanWorld κ) : ScanAct κ → Prop
  | .update (.insertEntry key _) _ => ∀ {H : Nat} (c : Ctx κ 0 H) (t : Tree κ 0),
      w.index.mem.WellFormed order (c.plug t) → c.Leads key t →
      w.scan.iid.InsertSpares order key w.ahead t ∧ w.scan.finish.InsertSpares order key 0 t
  | .update (.deleteEntry key) _ => ∀ {H : Nat} (c : Ctx κ 0 H) (t : Tree κ 0),
      w.index.mem.WellFormed order (c.plug t) → c.Leads key t →
      (key ∉ t.leafKeys → t.slots.keyAt (t.slots.lowerBound key) ≠ key) ∧
        (key ∈ t.leafKeys →
          w.scan.iid.DeleteSpares order w.index.mem.fileHdr.lastLeaf key w.ahead c t ∧
            w.scan.finish.DeleteSpares order w.index.mem.fileHdr.lastLeaf key 0 c t)
  | _ => True

/-- What holds of the scan itself: cursor and end are positions, in this order. -/
structure ScanWorld.Inv (w : ScanWorld κ) (chunks : LeafChunks κ)
    (before after till beyond : List (κ × Rid)) : Prop where
  chain : w.index.mem.Chain chunks
  nodup : (chunkEntries chunks).Nodup
  cursor : w.scan.iid.At chunks before after
  finish : w.scan.finish.At chunks till beyond
  le : before.length ≤ till.length
  read : w.read = true → w.scan.iid ≠ w.scan.finish

namespace ScanWorld.Inv

variable {w w' : ScanWorld κ} {chunks : LeafChunks κ} {before after till beyond : List (κ × Rid)}

/-- Between the cursor and the end of the scan. -/
theorem exists_between (h : w.Inv chunks before after till beyond) :
    ∃ m, till = before ++ m ∧ after = m ++ beyond := by
  have heq := h.cursor.entries.trans h.finish.entries.symm
  rcases List.append_eq_append_iff.mp heq with ⟨m, h1, h2⟩ | ⟨m, h1, h2⟩
  · exact ⟨m, h1, h2⟩
  · have hle := h.le
    rw [h1, List.length_append] at hle
    obtain rfl : m = [] := List.length_eq_zero_iff.mp (by omega)
    refine ⟨[], ?_, ?_⟩
    · rw [h1, List.append_nil, List.append_nil]
    · rw [h2]
      rfl

/-- There is an entry at the cursor, unless the scan is at its end. -/
theorem exists_entry (h : w.Inv chunks before after till beyond)
    (hne : w.scan.iid ≠ w.scan.finish) :
    ∃ e m, till = before ++ e :: m ∧ after = e :: (m ++ beyond) := by
  obtain ⟨m, h1, h2⟩ := h.exists_between
  cases m with
  | nil =>
    rw [List.append_nil] at h1
    exact absurd (h.cursor.inj h.finish (by rw [h1])) hne
  | cons e m => exact ⟨e, m, h1, h2⟩

variable [LinearOrder κ] [Inhabited κ]

/-- **`rid`** returns the rid of the entry at the cursor. -/
theorem rid_step (h : w.Inv chunks before after till beyond) {e : κ × Rid}
    (hstep : w.Step (.rid e) w') :
    w.read = false ∧ after.head? = some e ∧ w'.Inv chunks before after till beyond ∧
      w'.read = true ∧ w'.returned = w.returned ++ [e] := by
  obtain ⟨hread, hend, ⟨page, hp, hkey⟩, index, hrid, rfl⟩ := hstep
  have hne : w.scan.iid ≠ w.scan.finish := of_decide_eq_false hend
  obtain ⟨e', m, -, rfl⟩ := h.exists_entry hne
  obtain ⟨index', hrun, hmem⟩ := h.chain.rid_does h.cursor w.index rfl
  rw [hrid] at hrun
  obtain ⟨h2, rfl⟩ := Result.ok.inj hrun
  -- the key in the slot is that of the entry
  have h1 : e.1 = e'.1 := by
    obtain ⟨i, page', hi, hp', -, hkey', -⟩ := h.chain.entry_at h.cursor
    obtain rfl : page = page' := Option.some.inj (hp.symm.trans hp')
    rw [← hkey, ← hkey', hi, Int.toNat_natCast]
  obtain rfl : e = e' := Prod.ext h1 h2
  refine ⟨hread, rfl, ⟨?_, h.nodup, h.cursor, h.finish, h.le, fun _ => hne⟩, rfl, rfl⟩
  show index.mem.Chain chunks
  rw [hmem]
  exact h.chain

/-- **`next`** goes to the next position. -/
theorem next_step (h : w.Inv chunks before after till beyond) (hstep : w.Step .next w') :
    w.read = true ∧ ∃ e rest, after = e :: rest ∧ w'.Inv chunks (before ++ [e]) rest till beyond ∧
      w'.read = false ∧ w'.returned = w.returned := by
  obtain ⟨hread, scan, index, hnext, rfl⟩ := hstep
  have hne := h.read hread
  obtain ⟨e, m, htill, rfl⟩ := h.exists_entry hne
  obtain ⟨iid, hdoes, hat⟩ := h.chain.next_does h.cursor hne
  obtain ⟨index', hrun, hmem⟩ := hdoes w.index rfl
  rw [hnext] at hrun
  obtain ⟨rfl, rfl⟩ := Result.ok.inj hrun
  refine ⟨hread, e, _, rfl, ⟨?_, h.nodup, hat, h.finish, ?_, fun hfalse => ?_⟩, rfl, rfl⟩
  · show index.mem.Chain chunks
    rw [hmem]
    exact h.chain
  · rw [htill]
    simp only [List.length_append, List.length_cons, List.length_nil]
    omega
  · cases hfalse

/-- An update that meets the condition keeps both positions of the scan. -/
theorem exists_kept (h : w.Inv chunks before after till beyond) {order : Nat} (horder : 2 < order)
    {call : IxCall κ} {answer : IxAnswer} (hstep : w.Step (.update call answer) w')
    (hmeets : w.Meets order (.update call answer)) {H H' : Nat} {T : Tree κ H} {T' : Tree κ H'}
    (hT : w.index.mem.WellFormed order T) (hlinks : w.index.links.Ok ∧ w.index.links.Fresh)
    (hT' : w'.index.mem.WellFormed order T') :
    ∃ down up, down + up ≤ 1 ∧
      ChunkAt.Kept chunks T'.chunks down up w.ahead w.scan.iid.pageNo w.scan.iid.slotNo.toNat ∧
      ChunkAt.Kept chunks T'.chunks down up 0 w.scan.finish.pageNo
        w.scan.finish.slotNo.toNat := by
  obtain ⟨hupdates, index, hcall, rfl⟩ := hstep
  have hcur := h.cursor
  have hfin := h.finish
  obtain rfl := h.chain.unique (hT.represents horder).chain
  have hh := hT.formed.chained.held
  cases call with
  | insertEntry key value =>
    obtain ⟨c, t, rfl, hleads, -⟩ := findLeafPage_does hh.tree hh.root (hT.inner horder)
      (Nat.lt_succ_self H) key
    obtain ⟨hspares, hspares'⟩ := hmeets c t hT hleads
    exact ⟨0, 1, le_refl 1,
      hT.insert_kept horder hlinks.1 hlinks.2 hleads hcall hT' w.ahead_le hcur hspares,
      hT.insert_kept horder hlinks.1 hlinks.2 hleads hcall hT' (Nat.zero_le 1) hfin hspares'⟩
  | deleteEntry key =>
    obtain ⟨c, t, rfl, hleads, -⟩ := findLeafPage_does hh.tree hh.root (hT.inner horder)
      (Nat.lt_succ_self H) key
    obtain ⟨habsent, hstored⟩ := hmeets c t hT hleads
    by_cases hkey : key ∈ t.leafKeys
    · obtain ⟨hspares, hspares'⟩ := hstored hkey
      exact ⟨1, 0, le_refl 1, hT.delete_kept horder hkey hcall hT' w.ahead_le hcur hspares,
        hT.delete_kept horder hkey hcall hT' (Nat.zero_le 1) hfin hspares'⟩
    · -- nothing changes
      have hdoes := hT.deleteEntry_absent horder hleads (habsent hkey) (Nat.lt_succ_self H)
      obtain ⟨index', hrun, hmem⟩ := hdoes w.index rfl
      have hok : (IxCall.deleteEntry key).run (H + 1) w.index = .ok (.bool false) index' := by
        rw [IxCall.run, bind_of_ok hrun]
        rfl
      obtain ⟨-, rfl⟩ := hcall.eq_of_ok hok
      have hT₁ : index.mem.WellFormed order T' := hT'
      rw [hmem] at hT₁
      rw [← (hT.represents horder).chain.unique (hT₁.represents horder).chain]
      exact ⟨0, 0, Nat.zero_le 1, .refl hcur.chunkAt.2, .refl hfin.chunkAt.2⟩
  | getValue key => exact hupdates.elim
  | reopen fd => exact hupdates.elim
  | restart fd => exact hupdates.elim

/-- **An update** that meets the condition. -/
theorem update_step (h : w.Inv chunks before after till beyond) {order : Nat} (horder : 2 < order)
    {call : IxCall κ} {answer : IxAnswer} (hstep : w.Step (.update call answer) w')
    (hmeets : w.Meets order (.update call answer)) (hw : w.WellFormed order)
    (hlinks : w.index.links.Ok ∧ w.index.links.Fresh) (hw' : w'.WellFormed order) :
    ∃ chunks' before' after' till' beyond', w'.Inv chunks' before' after' till' beyond' ∧
      w'.returned = w.returned ∧
      ∀ e ∈ chunkEntries chunks, e ∈ chunkEntries chunks' →
        (e ∈ w.passed before after ↔ e ∈ w'.passed before' after') ∧ (e ∈ till ↔ e ∈ till') := by
  obtain ⟨H, T, hT⟩ := hw
  obtain ⟨H', T', hT'⟩ := hw'
  obtain ⟨down, up, hone, hcur, hfin⟩ := h.exists_kept horder hstep hmeets hT hlinks hT'
  have hchain' := (hT'.represents horder).chain
  obtain ⟨-, index, -, rfl⟩ := hstep
  have hat := h.cursor.chunkAt
  have hat' := h.finish.chunkAt
  obtain ⟨b₁, a₁, before', after', hb₁, hb', -, -, hkeep⟩ := id hcur
  obtain ⟨t₁, y₁, till', beyond', ht₁, ht', -, -, hkeep'⟩ := id hfin
  obtain ⟨rfl, rfl⟩ := hat.2.unique h.chain.nodup hb₁
  obtain ⟨rfl, rfl⟩ := hat'.2.unique h.chain.nodup ht₁
  have hle := ChunkAt.Kept.le_of_le h.chain.nodup hchain'.nodup hone hcur hfin hb₁ hb' ht₁ ht' h.le
  refine ⟨T'.chunks, before', after', till', beyond',
    ⟨hchain', ?_, ⟨_, hat.1, hb'⟩, ⟨_, hat'.1, ht'⟩, hle, h.read⟩, rfl,
    fun e he he' => ⟨hkeep e he he', ?_⟩⟩
  · rw [Tree.chunkEntries_chunks]
    exact hT'.search.nodup
  · have hiff := hkeep' e he he'
    rwa [List.take_zero, List.take_zero, List.append_nil, List.append_nil] at hiff

end ScanWorld.Inv

/-! ### Entries that stay -/

section Runs

variable [LinearOrder κ] [Inhabited κ]

/-- The entries of `P` are before the end of the scan, and those that the scan has behind it have
been returned once. -/
def ScanWorld.Tracks (P : κ × Rid → Prop) (w : ScanWorld κ)
    (before after till : List (κ × Rid)) : Prop :=
  ∀ e, P e → e ∈ till ∧ w.returned.count e = if e ∈ w.passed before after then 1 else 0

/-- What holds in every state of a run, for the entries that stay. -/
def ScanWorld.Good (P : κ × Rid → Prop) (w : ScanWorld κ) : Prop :=
  ∃ chunks before after till beyond, w.Inv chunks before after till beyond ∧
    w.Tracks P before after till

variable {P : κ × Rid → Prop} {w w' : ScanWorld κ}

omit [Inhabited κ] in
/-- An entry of the index is in its chain. -/
theorem IxIndex.Has.mem {s : IxIndex κ} {e : κ × Rid} (h : s.Has e) {chunks : LeafChunks κ}
    (hchain : s.mem.Chain chunks) : e ∈ chunkEntries chunks := by
  obtain ⟨H, T, hT, he⟩ := h
  rwa [hchain.unique hT.chain, Tree.chunkEntries_chunks]

/-- **One step** keeps the invariant. -/
theorem ScanWorld.Good.step (h : w.Good P) {order : Nat} (horder : 2 < order) {a : ScanAct κ}
    (hstep : w.Step a w') (hmeets : w.Meets order a) (hw : w.WellFormed order)
    (hlinks : w.index.links.Ok ∧ w.index.links.Fresh) (hw' : w'.WellFormed order)
    (hP : ∀ e, P e → w'.index.Has e) : w'.Good P := by
  obtain ⟨chunks, before, after, till, beyond, hinv, htracks⟩ := h
  cases a with
  | rid e₀ =>
    obtain ⟨hread, hhead, hinv', hread', hreturned⟩ := hinv.rid_step hstep
    refine ⟨chunks, before, after, till, beyond, hinv', fun e he => ⟨(htracks e he).1, ?_⟩⟩
    obtain ⟨rest, rfl⟩ : ∃ rest, after = e₀ :: rest := by
      cases after with
      | nil => cases hhead
      | cons e₁ rest => exact ⟨rest, by rw [Option.some.inj hhead]⟩
    -- the entry at the cursor is not behind it
    have hnot : e₀ ∉ before := by
      have hnodup := hinv.nodup
      rw [← hinv.cursor.entries] at hnodup
      exact fun hmem => (List.nodup_append.mp hnodup).2.2 e₀ hmem e₀ List.mem_cons_self rfl
    have hcount := (htracks e he).2
    rw [passed_of_not_read hread] at hcount
    rw [hreturned, List.count_append, hcount, passed_of_read hread', List.count_singleton]
    simp only [List.take_succ_cons, List.take_zero, List.mem_append, List.mem_singleton, beq_iff_eq]
    by_cases heq : e₀ = e
    · subst heq
      rw [if_neg hnot, if_pos rfl, if_pos (Or.inr rfl)]
    · have hiff : (e ∈ before ∨ e = e₀) ↔ e ∈ before :=
        or_iff_left fun h => heq h.symm
      rw [if_neg heq, Nat.add_zero]
      simp only [hiff]
  | next =>
    obtain ⟨hread, e₀, rest, rfl, hinv', hread', hreturned⟩ := hinv.next_step hstep
    refine ⟨chunks, before ++ [e₀], rest, till, beyond, hinv', fun e he => ⟨(htracks e he).1, ?_⟩⟩
    have hcount := (htracks e he).2
    rw [passed_of_read hread] at hcount
    rw [hreturned, hcount, passed_of_not_read hread']
    rfl
  | update call answer =>
    obtain ⟨chunks', before', after', till', beyond', hinv', hreturned, hkeep⟩ :=
      hinv.update_step horder hstep hmeets hw hlinks hw'
    refine ⟨chunks', before', after', till', beyond', hinv', fun e he => ?_⟩
    obtain ⟨htill, hcount⟩ := htracks e he
    have hmem : e ∈ chunkEntries chunks := by
      rw [← hinv.finish.entries]
      exact List.mem_append_left _ htill
    obtain ⟨h1, h2⟩ := hkeep e hmem ((hP e he).mem hinv'.chain)
    refine ⟨h2.mp htill, ?_⟩
    rw [hreturned, hcount]
    simp only [h1]

omit [Inhabited κ] in
/-- The scan at its beginning. -/
theorem ScanWorld.Good.start {H : Nat} {T : Tree κ H} {s s' : IxIndex κ} {scan : IxScan}
    (hT : s.mem.Represents T) (hfull : IxScan.full s = .ok scan s')
    (hP : ∀ e, P e → s'.Has e) : ScanWorld.Good P ⟨s', scan, false, []⟩ := by
  obtain ⟨hmem, hbegin, hend⟩ := IxScan.full_spec hT.chain hfull
  have hchain : s'.mem.Chain T.chunks := by
    rw [hmem]
    exact hT.chain
  refine ⟨T.chunks, [], chunkEntries T.chunks, chunkEntries T.chunks, [],
    ⟨hchain, ?_, hbegin, hend, Nat.zero_le _, fun hfalse => ?_⟩, fun e he => ?_⟩
  · rw [Tree.chunkEntries_chunks]
    exact hT.order.nodup
  · cases hfalse
  · exact ⟨(hP e he).mem hchain, rfl⟩

/-- The links of the index stay in order, and unused page numbers stay unused. -/
theorem ScanWorld.Step.links {a : ScanAct κ} (hstep : w.Step a w')
    (hlinks : w.index.links.Ok ∧ w.index.links.Fresh) :
    w'.index.links.Ok ∧ w'.index.links.Fresh := by
  cases a with
  | rid e =>
    obtain ⟨-, -, -, index, hrid, rfl⟩ := hstep
    rwa [show index.links = _ from links_of_mem (IxScan.rid_mem hrid)]
  | next =>
    obtain ⟨-, scan, index, hnext, rfl⟩ := hstep
    rwa [show index.links = _ from links_of_mem (IxScan.next_mem hnext)]
  | update call answer =>
    obtain ⟨hupdates, index, hcall, rfl⟩ := hstep
    refine (IxIndex.links_call_iff hlinks.1 hlinks.2 ?_ hcall).mpr ?_
    · cases call with
      | reopen fd => exact hupdates.elim
      | _ => trivial
    · cases call with
      | reopen fd => exact hupdates.elim
      | restart fd => exact hupdates.elim
      | _ => trivial

instance (a : IxCall κ) : Decidable a.Updates :=
  match a with
  | .insertEntry _ _ => isTrue trivial
  | .deleteEntry _ => isTrue trivial
  | .getValue _ => isFalse id
  | .reopen _ => isFalse id
  | .restart _ => isFalse id

/-- Take a step, if it can be taken. -/
def ScanWorld.exec (rounds : Nat) (w : ScanWorld κ) : ScanAct κ → Option (ScanWorld κ)
  | .rid e =>
    if w.read = false ∧ w.scan.isEnd = false ∧
        ((w.index.mem.pages w.scan.iid.pageNo).map fun page =>
          page.keys w.scan.iid.slotNo.toNat) = some e.1 ∧ w.scan.rid.value w.index = some e.2 then
      some { w with
        index := w.scan.rid.after w.index, read := true, returned := w.returned ++ [e] }
    else none
  | .next =>
    if w.read = true then
      (w.scan.next.value w.index).map fun scan =>
        { w with index := w.scan.next.after w.index, scan, read := false }
    else none
  | .update call answer =>
    if call.Updates ∧ (call.run rounds).value w.index = some answer then
      some { w with index := (call.run rounds).after w.index }
    else none

/-- Take the steps one after another, up to the first that cannot be taken. -/
def ScanWorld.trace (rounds : Nat) (w : ScanWorld κ) :
    List (ScanAct κ) → List (ScanAct κ × ScanWorld κ)
  | [] => []
  | a :: l =>
    match w.exec rounds a with
    | some w' => (a, w') :: trace rounds w' l
    | none => []

theorem ScanWorld.step_of_exec {rounds : Nat} {a : ScanAct κ} (h : w.exec rounds a = some w') :
    w.Step a w' := by
  cases a with
  | rid e =>
    simp only [exec, Option.ite_none_right_eq_some] at h
    obtain ⟨⟨hread, hend, hkey, hrid⟩, hw⟩ := h
    obtain ⟨page, hp, hkey⟩ := Option.map_eq_some_iff.mp hkey
    exact ⟨hread, hend, ⟨page, hp, hkey⟩, _, eq_ok_of_value hrid, (Option.some.inj hw).symm⟩
  | next =>
    simp only [exec, Option.ite_none_right_eq_some] at h
    obtain ⟨hread, hw⟩ := h
    obtain ⟨scan, hnext, rfl⟩ := Option.map_eq_some_iff.mp hw
    exact ⟨hread, scan, _, eq_ok_of_value hnext, rfl⟩
  | update call answer =>
    simp only [exec, Option.ite_none_right_eq_some] at h
    obtain ⟨⟨hupdates, hvalue⟩, hw⟩ := h
    exact ⟨hupdates, _, ⟨rounds, eq_ok_of_value hvalue⟩, (Option.some.inj hw).symm⟩

/-- A trace is a run. -/
theorem ScanWorld.run_trace (rounds : Nat) (w : ScanWorld κ) (l : List (ScanAct κ)) :
    Run ScanWorld.Step w (w.trace rounds l) := by
  induction l generalizing w with
  | nil => exact .nil w
  | cons a l ih =>
    unfold trace
    cases hexec : w.exec rounds a with
    | some w' => exact .cons (step_of_exec hexec) (ih w')
    | none => exact .nil w

/-- A check of the state before every update of a trace. -/
def ScanWorld.checkTrace (rounds : Nat) (check : ScanWorld κ → IxCall κ → Bool)
    (w : ScanWorld κ) : List (ScanAct κ) → Bool
  | [] => true
  | a :: l =>
    (match a with
      | .update call _ => check w call
      | _ => true) &&
    match w.exec rounds a with
    | some w' => checkTrace rounds check w' l
    | none => true

end Runs

/-! ### Updates behind and in front of the cursor -/

end Rucbase
