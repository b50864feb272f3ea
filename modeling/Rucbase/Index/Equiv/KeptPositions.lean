import Rucbase.Index.Equiv.UpdatedLeaves
import Rucbase.Lib.ChunkEdits

/-!
# Positions that an update leaves alone

A scan holds positions, and an update may shift entries past them.  Whether it does can be read off
the tree before the update: it depends on the leaf to which the key leads, the slot of the key there,
and the leaf beside it (`Iid.InsertSpares`, `Iid.DeleteSpares`).  A position that is spared is one
after the update as well, between the same entries (`IxMem.WellFormed.insert_kept`,
`IxMem.WellFormed.delete_kept`).
-/

namespace Rucbase

open EStateM IxIndexHandle

variable {κ : Type} {H H' : Nat} [LinearOrder κ]

/-! ### The conditions -/

/-- `insert_entry` at the leaf `t` leaves the position alone.  If it is in `t`, and the key goes in,
then the key goes in behind it and the next `k` slots, and a position in a full leaf is in the half
that stays. -/
def Iid.InsertSpares (order : Nat) (key : κ) (k : Nat) (iid : Iid) (t : Tree κ 0) : Prop :=
  iid.pageNo = t.no → t.slots.keyAt (t.slots.lowerBound key) ≠ key →
    iid.slotNo + k ≤ t.slots.lowerBound key ∧
      (t.slots.size = order → iid.slotNo < ((order + 1) / 2 : Nat))

/-- `delete_entry` of the key in the leaf `t` leaves the position alone.

* In the root, or in a leaf above the least size, the entries behind the key move forward, so that a
  position in `t` has to be in front of the key; behind the last entry there is no slot left, unless
  `t` is the last leaf.
* Otherwise the leaf takes the last entry of the leaf before it, so that only the entries in front of
  the key move; or all that it has goes to that leaf.
* A leaf that is the first child takes an entry, or all of them, from the leaf after it. -/
def Iid.DeleteSpares (order : Nat) (lastLeaf : Int) (key : κ) (k : Nat) (iid : Iid) :
    {H : Nat} → Ctx κ 0 H → Tree κ 0 → Prop
  | _, .top, t => iid.pageNo = t.no → iid.slotNo + k ≤ t.slots.lowerBound key
  | _, .down _ _ left _ right _, t =>
    if (order + 1) / 2 < t.slots.size then
      iid.pageNo = t.no → iid.slotNo + k ≤ t.slots.lowerBound key ∧
        (iid.slotNo + 1 < t.slots.size ∨ t.no = lastLeaf)
    else
      match left.getLast? with
      | some b =>
        if (order + 1) / 2 < b.2.slots.size then
          (iid.pageNo = t.no → t.slots.lowerBound key < iid.slotNo + k) ∧
            (iid.pageNo = b.2.no → iid.slotNo + 1 < b.2.slots.size)
        else iid.pageNo ≠ t.no
      | none =>
        (iid.pageNo = t.no → iid.slotNo + k ≤ t.slots.lowerBound key) ∧
          ∀ b ∈ right.head?, iid.pageNo ≠ b.2.no

/-! ### Inserting -/

section Insert

variable [Inhabited κ] {order k : Nat} {s s' : IxIndex κ} {c : Ctx κ 0 H} {t : Tree κ 0} {key : κ}
  {value : Rid} {answer : IxAnswer} {iid : Iid} {before after : List (κ × Rid)}

omit [LinearOrder κ] [Inhabited κ] in
theorem Iid.At.chunkAt {chunks : LeafChunks κ} (h : iid.At chunks before after) :
    iid.slotNo = iid.slotNo.toNat ∧ ChunkAt chunks iid.pageNo iid.slotNo.toNat before after := by
  obtain ⟨i, hi, hat⟩ := h
  rw [hi, Int.toNat_natCast]
  exact ⟨rfl, hat⟩

omit [LinearOrder κ] in
/-- The parts of a leaf have its entries. -/
theorem Tree.chunkEntries_parts (t : Tree κ 0) (counter : Int) :
    chunkEntries ((t.parts order counter).map fun n => (n.no, n.slots.entries)) =
      t.slots.entries := by
  unfold parts
  split_ifs
  · show t.slots.entries.take _ ++ (t.slots.entries.drop _ ++ []) = _
    rw [List.append_nil, List.take_append_drop]
  · exact List.append_nil _

/-- **A position that `insert_entry` spares** is kept. -/
theorem IxMem.WellFormed.insert_kept (horder : 2 < order)
    (hM : s.mem.WellFormed order (c.plug t)) (hok : s.links.Ok) (hfresh : s.links.Fresh)
    (hleads : c.Leads key t) (hstep : s.Step (.insertEntry key value, answer) s')
    {T' : Tree κ H'} (hT' : s'.mem.WellFormed order T') (hk : k ≤ 1)
    (hat : iid.At (c.plug t).chunks before after) (hspares : iid.InsertSpares order key k t) :
    ChunkAt.Kept (c.plug t).chunks T'.chunks 0 1 k iid.pageNo iid.slotNo.toNat := by
  have hleaves := hM.insert_leaves horder hok hfresh hleads hstep hT'
  have hroom := hM.sized.of_plug.size.2
  have hnodup := (hM.represents horder).chain.nodup
  obtain ⟨hi, hat⟩ := hat.chunkAt
  by_cases hslot : t.slots.keyAt (t.slots.lowerBound key) = key
  · -- nothing goes in
    have hsame : t.insert key value = t := by
      unfold Tree.insert
      rw [Slots.insert_of_eq hslot]
    have hparts : t.parts order s.mem.counter = [t] := if_neg (by omega)
    have hsame' : T'.chunks = (c.plug t).chunks := by
      rw [hleaves, hsame, hparts, c.plug_chunks]
      rfl
    rw [hsame']
    exact .refl hat
  · let u := t.slots.entries.take (t.slots.lowerBound key)
    let v := t.slots.entries.drop (t.slots.lowerBound key)
    let mid' := ((t.insert key value).parts order s.mem.counter).map
      fun n => (n.no, n.slots.entries)
    have hu : u.length = t.slots.lowerBound key :=
      List.length_take_of_le (t.slots.lowerBound_le key)
    have hold : t.slots.entries = u ++ v := (List.take_append_drop _ _).symm
    have hnew : (t.insert key value).slots.entries = u ++ (key, value) :: v := by
      show (t.slots.insert key value).entries = _
      rw [Slots.insert_of_ne hslot]
      exact Slots.entries_insertAt (t.slots.lowerBound_le key) key value
    have hmid' : chunkEntries mid' = u ++ (key, value) :: v := by
      rw [Tree.chunkEntries_parts, hnew]
    have hsplit : (c.plug t).chunks = c.chunksBefore ++ [(t.no, t.slots.entries)] ++ c.chunksAfter :=
      c.plug_chunks t
    have hsize : (t.insert key value).slots.size = t.slots.size + 1 := by
      show (t.slots.insert key value).size = _
      rw [Slots.size_insert, if_neg hslot]
    let U := chunkEntries c.chunksBefore ++ u
    let V := v ++ chunkEntries c.chunksAfter
    have hentries : chunkEntries (c.plug t).chunks = U ++ V := by
      rw [hsplit]
      simp only [chunkEntries_append, chunkEntries_cons, chunkEntries_nil, hold, U, V,
        List.append_assoc, List.append_nil]
    have hentries' : chunkEntries T'.chunks = U ++ (key, value) :: V := by
      rw [hleaves, Ctx.chunksWith, chunkEntries_append, chunkEntries_append, hmid',
        List.append_assoc, List.append_assoc, List.append_assoc]
      rfl
    -- no entry is twice in the tree after the call
    have hx : (key, value) ∉ U ++ V := by
      have hnodup' := hT'.search.nodup
      rw [← Tree.chunkEntries_chunks, hentries'] at hnodup'
      exact (List.nodup_cons.mp (List.nodup_middle.mp hnodup')).1
    by_cases hpage : iid.pageNo = t.no
    · obtain ⟨hfront, hhalf⟩ := hspares hpage hslot
      rw [hpage] at hat ⊢
      have hsplit₁ : (c.plug t).chunks = c.chunksBefore ++ (t.no, t.slots.entries) :: c.chunksAfter := by
        rw [hsplit, List.append_assoc]
        rfl
      have hin := (hat.length_of_split hnodup hsplit₁).1
      have hlen : t.slots.entries.length = t.slots.size := rfl
      by_cases hfull : (t.insert key value).slots.size = order + 1
      · have hsplit' : T'.chunks = c.chunksBefore ++ (t.no, (t.insert key value).slots.leftHalf.entries)
            :: ((s.mem.counter, (t.insert key value).slots.rightHalf.entries) :: c.chunksAfter) := by
          rw [hleaves, Ctx.chunksWith, Tree.parts, if_pos hfull, List.append_assoc]
          rfl
        have hlen' : (t.insert key value).slots.leftHalf.entries.length = (order + 1) / 2 := by
          rw [← hfull]
          exact Slots.size_leftHalf
        have := hhalf (by omega)
        refine .insert_inside hnodup hentries hentries' hx hat hsplit₁ hsplit' (.inl ?_) (.inl ?_)
        · omega
        · refine ⟨rfl, ?_⟩
          simp only [U, List.length_append]
          omega
      · have hsplit' : T'.chunks = c.chunksBefore ++ (t.no, (t.insert key value).slots.entries)
            :: c.chunksAfter := by
          rw [hleaves, Ctx.chunksWith, Tree.parts, if_neg hfull, List.append_assoc]
          rfl
        have hlen' : (t.insert key value).slots.entries.length = t.slots.size + 1 := hsize
        refine .insert_inside hnodup hentries hentries' hx hat hsplit₁ hsplit' (.inl ?_) (.inl ?_)
        · omega
        · refine ⟨rfl, ?_⟩
          simp only [U, List.length_append]
          omega
    · rw [hleaves] at hentries' ⊢
      rw [hsplit] at hat hentries ⊢
      refine .insert_outside hentries hentries' hx hk (List.cons_ne_nil _ _) hat
        fun l hl => hpage ?_
      exact (Prod.mk.inj (List.mem_singleton.mp hl)).1

end Insert

/-! ### Deleting -/

section Delete

variable {order k lo i : Nat} {key : κ} {q : Int} {A B chunks l : LeafChunks κ} {b t t' : Tree κ 0}
  {u v before after : List (κ × Rid)} {x : κ × Rid}

omit [LinearOrder κ] in
/-- A leaf that borrows from the leaf before it, or is merged with it. -/
theorem EvensLeft.kept (h : EvensLeft lo A b t' B l)
    (hchunks : chunks = A ++ [(b.no, b.slots.entries), (t.no, t.slots.entries)] ++ B)
    (hnodup : (chunks.map Prod.fst).Nodup) (hno : t'.no = t.no) (ht : t.slots.entries = u ++ x :: v)
    (ht' : t'.slots.entries = u ++ v) (hx : x ∉ chunkEntries l) (hk : k ≤ 1)
    (hat : ChunkAt chunks q i before after)
    (hspares : if lo < b.slots.size then
      (q = t.no → u.length < i + k) ∧ (q = b.no → i + 1 < b.slots.size) else q ≠ t.no) :
    ChunkAt.Kept chunks l 1 0 k q i := by
  let U := chunkEntries A ++ (b.slots.entries ++ u)
  let V := v ++ chunkEntries B
  have hold : chunkEntries chunks = U ++ x :: V := by
    rw [hchunks]
    simp only [chunkEntries_append, chunkEntries_cons, ht, U, V, List.append_assoc,
      List.cons_append, List.nil_append]
  have hnew : chunkEntries l = U ++ V := by
    rw [h.entries, ht']
    simp only [chunkEntries_append, chunkEntries_cons, chunkEntries_nil, U, V, List.append_assoc,
      List.nil_append]
  have hlen : t.slots.entries.length = u.length + v.length + 1 := by
    rw [ht, List.length_append, List.length_cons]
    omega
  have hlen' : t'.slots.entries.length = u.length + v.length := by
    rw [ht', List.length_append]
  have hsplitb : chunks = A ++ (b.no, b.slots.entries) :: ((t.no, t.slots.entries) :: B) := by
    rw [hchunks, List.append_assoc]
    rfl
  have hsplitt : chunks = (A ++ [(b.no, b.slots.entries)]) ++ (t.no, t.slots.entries) :: B := by
    rw [hchunks, List.append_assoc, List.append_assoc]
    rfl
  rw [hnew] at hx
  -- in none of the two leaves
  have houtside : q ≠ t.no → q ≠ b.no → ∀ mid', l = A ++ mid' ++ B → mid' ≠ [] →
      (∀ c ∈ mid', c.1 = t.no ∨ c.1 = b.no) → ChunkAt.Kept chunks l 1 0 k q i := by
    rintro hqt hqb mid' rfl hne hnames
    rw [hchunks] at hat hold ⊢
    refine .erase_outside hold hnew hx hk (List.cons_ne_nil _ _) hne hat (fun m hm => ?_)
      fun m hm => ?_
    · rcases List.mem_cons.mp hm with heq | hm
      · exact hqb (Prod.mk.inj heq).1
      · exact hqt (Prod.mk.inj (List.mem_singleton.mp hm)).1
    · rcases hnames _ hm with heq | heq
      · exact hqt heq
      · exact hqb heq
  rcases h with ⟨hlt, rest, e, hb, hl⟩ | ⟨hsize, hl⟩
  · rw [if_pos hlt] at hspares
    have hlenb : b.slots.entries.length = rest.length + 1 := by
      rw [hb, List.length_append, List.length_singleton]
    by_cases hqt : q = t.no
    · subst hqt
      have hin := (hat.length_of_split hnodup hsplitt).1
      have hpos := hspares.1 rfl
      have hl' : l = (A ++ [(b.no, rest)]) ++ (t.no, e :: t'.slots.entries) :: B := by
        rw [hl, hno, List.append_assoc]
        rfl
      refine .erase_inside hnodup hold hnew hx hat hsplitt hl' ?_ (.inr ⟨?_, ?_⟩)
      · rw [List.length_cons, hlen']
        rw [hlen] at hin
        exact hin
      · simp only [chunkEntries_append, chunkEntries_cons, chunkEntries_nil, List.length_append,
          List.length_nil, hlenb]
        omega
      · simp only [U, chunkEntries_append, chunkEntries_cons, chunkEntries_nil, List.length_append,
          List.length_nil]
        omega
    · by_cases hqb : q = b.no
      · subst hqb
        have hlt' := hspares.2 rfl
        have hsize : b.slots.size = rest.length + 1 := hlenb
        refine .erase_inside hnodup hold hnew hx hat hsplitb hl (.inl (by omega)) (.inl ⟨rfl, ?_⟩)
        simp only [U, List.length_append]
        omega
      · refine houtside hqt hqb [(b.no, rest), (t'.no, e :: t'.slots.entries)] ?_
          (List.cons_ne_nil _ _) fun c hc => ?_
        · rw [hl, List.append_assoc]
          rfl
        · rcases List.mem_cons.mp hc with rfl | hc
          · exact Or.inr rfl
          · obtain rfl := List.mem_singleton.mp hc
            exact Or.inl hno
  · have hqt : q ≠ t.no := by
      rwa [if_neg (by omega)] at hspares
    by_cases hqb : q = b.no
    · subst hqb
      have hin : i < b.slots.entries.length :=
        (hat.length_of_split hnodup hsplitb).1.resolve_right fun h => List.cons_ne_nil _ _ h.1
      refine .erase_inside hnodup hold hnew hx hat hsplitb hl (.inl ?_) (.inl ⟨rfl, ?_⟩)
      · rw [List.length_append]
        omega
      · simp only [U, List.length_append]
        omega
    · refine houtside hqt hqb [(b.no, b.slots.entries ++ t'.slots.entries)] ?_
        (List.cons_ne_nil _ _) fun c hc => ?_
      · rw [hl, List.append_assoc]
        rfl
      · obtain rfl := List.mem_singleton.mp hc
        exact Or.inr rfl

omit [LinearOrder κ] in
/-- A leaf that borrows from the leaf after it, or is merged with it. -/
theorem EvensRight.kept (h : EvensRight lo A t' b B l)
    (hchunks : chunks = A ++ [(t.no, t.slots.entries), (b.no, b.slots.entries)] ++ B)
    (hnodup : (chunks.map Prod.fst).Nodup) (hno : t'.no = t.no) (ht : t.slots.entries = u ++ x :: v)
    (ht' : t'.slots.entries = u ++ v) (hx : x ∉ chunkEntries l) (hk : k ≤ 1)
    (hat : ChunkAt chunks q i before after) (hlo : 0 < lo)
    (hspares : (q = t.no → i + k ≤ u.length) ∧ q ≠ b.no) :
    ChunkAt.Kept chunks l 1 0 k q i := by
  obtain ⟨hfront, hqb⟩ := hspares
  let U := chunkEntries A ++ u
  let V := (v ++ b.slots.entries) ++ chunkEntries B
  have hold : chunkEntries chunks = U ++ x :: V := by
    rw [hchunks]
    simp only [chunkEntries_append, chunkEntries_cons, ht, U, V, List.append_assoc,
      List.cons_append, List.nil_append]
  have hnew : chunkEntries l = U ++ V := by
    rw [h.entries, ht']
    simp only [chunkEntries_cons, U, V, List.append_assoc]
  have hlen' : t'.slots.entries.length = u.length + v.length := by
    rw [ht', List.length_append]
  have hsplit : chunks = A ++ (t.no, t.slots.entries) :: ((b.no, b.slots.entries) :: B) := by
    rw [hchunks, List.append_assoc]
    rfl
  rw [hnew] at hx
  -- the leaf has taken an entry at least
  have hinside : ∀ rest B', l = A ++ (t.no, t'.slots.entries ++ rest) :: B' → 0 < rest.length →
      q = t.no → ChunkAt.Kept chunks l 1 0 k q i := by
    rintro rest B' hl hrest rfl
    have hpos := hfront rfl
    refine .erase_inside hnodup hold hnew hx hat hsplit hl (.inl ?_) (.inl ⟨rfl, ?_⟩)
    · rw [List.length_append, hlen']
      omega
    · simp only [U, List.length_append]
      omega
  -- in none of the two leaves
  have houtside : q ≠ t.no → ∀ mid', l = A ++ mid' ++ B → mid' ≠ [] →
      (∀ c ∈ mid', c.1 = t.no ∨ c.1 = b.no) → ChunkAt.Kept chunks l 1 0 k q i := by
    rintro hqt mid' rfl hne hnames
    rw [hchunks] at hat hold ⊢
    refine .erase_outside hold hnew hx hk (List.cons_ne_nil _ _) hne hat (fun m hm => ?_)
      fun m hm => ?_
    · rcases List.mem_cons.mp hm with heq | hm
      · exact hqt (Prod.mk.inj heq).1
      · exact hqb (Prod.mk.inj (List.mem_singleton.mp hm)).1
    · rcases hnames _ hm with heq | heq
      · exact hqt heq
      · exact hqb heq
  rcases h with ⟨-, e, rest, -, hl⟩ | ⟨hsize, hl⟩
  · rw [hno] at hl
    by_cases hqt : q = t.no
    · exact hinside [e] _ hl Nat.one_pos hqt
    · refine houtside hqt [(t.no, t'.slots.entries ++ [e]), (b.no, rest)] ?_
        (List.cons_ne_nil _ _) fun c hc => ?_
      · rw [hl, List.append_assoc]
        rfl
      · rcases List.mem_cons.mp hc with rfl | hc
        · exact Or.inl rfl
        · obtain rfl := List.mem_singleton.mp hc
          exact Or.inr rfl
  · rw [hno] at hl
    by_cases hqt : q = t.no
    · refine hinside b.slots.entries _ hl ?_ hqt
      show 0 < b.slots.size
      omega
    · refine houtside hqt [(t.no, t'.slots.entries ++ b.slots.entries)] ?_
        (List.cons_ne_nil _ _) fun c hc => ?_
      · rw [hl, List.append_assoc]
        rfl
      · obtain rfl := List.mem_singleton.mp hc
        exact Or.inl rfl

variable [Inhabited κ] {s s' : IxIndex κ} {c : Ctx κ 0 H} {answer : IxAnswer} {iid : Iid}

/-- **A position that `delete_entry` spares** is kept. -/
theorem IxMem.WellFormed.delete_kept (horder : 2 < order)
    (hM : s.mem.WellFormed order (c.plug t)) (hkey : key ∈ t.leafKeys)
    (hstep : s.Step (.deleteEntry key, answer) s') {T' : Tree κ H'}
    (hT' : s'.mem.WellFormed order T') (hk : k ≤ 1)
    (hat : iid.At (c.plug t).chunks before after)
    (hspares : iid.DeleteSpares order s.mem.fileHdr.lastLeaf key k c t) :
    ChunkAt.Kept (c.plug t).chunks T'.chunks 1 0 k iid.pageNo iid.slotNo.toNat := by
  have hevens := hM.delete_leaves horder hkey hstep hT'
  have hchain := (hM.represents horder).chain
  have hnodup := hchain.nodup
  obtain ⟨hi, hat⟩ := hat.chunkAt
  have ht : t.Ordered := (c.ordered_plug.mp hM.ordered).1
  obtain ⟨hlt, -⟩ := t.lowerBound_stored ht hkey
  have hlt' : t.slots.lowerBound key < t.slots.entries.length := hlt
  -- the entry and those around it
  let u := t.slots.entries.take (t.slots.lowerBound key)
  let v := t.slots.entries.drop (t.slots.lowerBound key + 1)
  obtain ⟨x, hx⟩ : ∃ x, t.slots.entries = u ++ x :: v :=
    ⟨_, by rw [← List.drop_eq_getElem_cons hlt', List.take_append_drop]⟩
  have hu : u.length = t.slots.lowerBound key := List.length_take_of_le hlt.le
  have hremoved : (t.removed key).slots.entries = u ++ v := List.eraseIdx_eq_take_drop_succ ..
  have hsplit : (c.plug t).chunks = c.chunksBefore ++ [(t.no, t.slots.entries)] ++ c.chunksAfter :=
    c.plug_chunks t
  let U := chunkEntries c.chunksBefore ++ u
  let V := v ++ chunkEntries c.chunksAfter
  have hold : chunkEntries (c.plug t).chunks = U ++ x :: V := by
    rw [hsplit]
    simp only [chunkEntries_append, chunkEntries_cons, hx, U, V, List.append_assoc,
      List.cons_append, List.nil_append]
  have hnew : chunkEntries T'.chunks = U ++ V := by
    have hsplit' : (c.plug (t.removed key)).chunks =
        c.chunksBefore ++ [(t.no, u ++ v)] ++ c.chunksAfter := by
      rw [c.plug_chunks, ← hremoved]
      rfl
    rw [hevens.entries, ← Tree.chunkEntries_chunks, hsplit']
    simp only [chunkEntries_append, chunkEntries_cons, chunkEntries_nil, U, V, List.append_assoc,
      List.nil_append]
  -- no entry is twice in the tree before the call
  have hnot : x ∉ U ++ V := by
    have hentries := hM.search.nodup
    rw [← Tree.chunkEntries_chunks, hold] at hentries
    exact (List.nodup_cons.mp (List.nodup_middle.mp hentries)).1
  have hsize : t.slots.size = u.length + v.length + 1 := by
    show t.slots.entries.length = _
    rw [hx, List.length_append, List.length_cons]
    omega
  -- nothing moves to another leaf
  have hstays : T'.chunks = c.chunksBefore ++ [(t.no, u ++ v)] ++ c.chunksAfter →
      (iid.pageNo = t.no → iid.slotNo.toNat + k ≤ u.length ∧
        (iid.slotNo.toNat + 1 < t.slots.size ∨ c.chunksAfter = [])) →
      ChunkAt.Kept (c.plug t).chunks T'.chunks 1 0 k iid.pageNo iid.slotNo.toNat := by
    intro hchunks hfront
    by_cases hpage : iid.pageNo = t.no
    · rw [hpage] at hat ⊢
      obtain ⟨hpos, hvalid⟩ := hfront hpage
      rw [List.append_assoc] at hsplit hchunks
      refine .erase_inside hnodup hold hnew hnot hat hsplit hchunks ?_ (.inl ⟨rfl, ?_⟩)
      · rw [List.length_append]
        rcases hvalid with hvalid | hnil
        · exact Or.inl (by omega)
        · rcases Nat.lt_or_ge iid.slotNo.toNat (u.length + v.length) with h | h
          · exact Or.inl h
          · exact Or.inr ⟨hnil, by omega⟩
      · simp only [U, List.length_append]
        omega
    · rw [hchunks] at hnew ⊢
      rw [hsplit] at hat hold ⊢
      refine .erase_outside hold hnew hnot hk (List.cons_ne_nil _ _) (List.cons_ne_nil _ _) hat
        (fun l hl => hpage ?_) fun l hl => hpage ?_
      · exact (Prod.mk.inj (List.mem_singleton.mp hl)).1
      · exact (Prod.mk.inj (List.mem_singleton.mp hl)).1
  cases c with
  | top =>
    refine hstays (hevens.trans ?_) fun hpage => ⟨?_, Or.inr rfl⟩
    · show [(t.no, (t.removed key).slots.entries)] = _
      rw [hremoved]
      rfl
    · have := hspares hpage
      omega
  | down up no left k' right stale =>
    rw [Ctx.Evens] at hevens
    rw [Iid.DeleteSpares] at hspares
    by_cases hlarge : (order + 1) / 2 < t.slots.size
    · simp only [if_pos hlarge] at hevens
      rw [if_pos hlarge] at hspares
      refine hstays ?_ fun hpage => ?_
      · rw [hevens, Ctx.plug_chunks, ← hremoved]
        rfl
      · obtain ⟨hpos, hlast⟩ := hspares hpage
        refine ⟨by omega, ?_⟩
        rcases hlast with hlast | hlast
        · exact Or.inl (by omega)
        · refine Or.inr ?_
          by_contra hne
          rw [List.append_assoc] at hsplit
          exact hchain.lastLeaf_ne hsplit hne hlast
    · simp only [if_neg hlarge] at hevens
      rw [if_neg hlarge] at hspares
      rcases hevens with ⟨b, A, hlast, hbefore, heven⟩ | ⟨b, B, rfl, hfirst, hafter, heven⟩
      · rw [hlast] at hspares
        simp only at hspares
        refine heven.kept (t := t) ?_ hnodup rfl hx hremoved ?_ hk hat ?_
        · rw [hsplit, hbefore, List.append_assoc A]
          rfl
        · rw [hnew]
          exact hnot
        · split_ifs at hspares ⊢ with hlo
          · refine ⟨fun h => ?_, fun h => ?_⟩
            · have := hspares.1 h
              omega
            · have := hspares.2 h
              omega
          · exact hspares
      · have hspares' : (iid.pageNo = t.no → iid.slotNo + k ≤ t.slots.lowerBound key) ∧
            ∀ b ∈ right.head?, iid.pageNo ≠ b.2.no := hspares
        refine heven.kept (t := t) ?_ hnodup rfl hx hremoved ?_ hk hat (by omega) ⟨fun h => ?_, ?_⟩
        · rw [hsplit, hafter, List.append_assoc, List.append_assoc]
          rfl
        · rw [hnew]
          exact hnot
        · have := hspares'.1 h
          omega
        · exact hspares'.2 b hfirst

end Delete

end Rucbase
