import Rucbase.Lib.Chunks

/-!
# Positions in chunks that are edited

One entry goes into a list in chunks or out of it, and entries around it may move to a neighbouring
chunk, which may be new or may go.  A position that somebody holds keeps its name.  It is
`ChunkAt.Kept` if the name still is a position and the entries that stay are on the same sides of it.
For every kind of edit there is a theorem that says which positions are kept.
-/

variable {ι α : Type}

/-- The position is one before and after an edit, at most `down` entries nearer to the beginning and
at most `up` entries further from it, and of the entries that stay those before it are the same.
The first `k` entries behind it count as before it. -/
def ChunkAt.Kept (chunks chunks' : List (ι × List α)) (down up k : Nat) (q : ι) (i : Nat) : Prop :=
  ∃ before after before' after', ChunkAt chunks q i before after ∧
    ChunkAt chunks' q i before' after' ∧
    before.length ≤ before'.length + down ∧ before'.length ≤ before.length + up ∧
    ∀ e ∈ chunkEntries chunks, e ∈ chunkEntries chunks' →
      (e ∈ before ++ after.take k ↔ e ∈ before' ++ after'.take k)

namespace ChunkAt

section Places

variable {chunks A mid B : List (ι × List α)} {q : ι} {i : Nat} {l before after : List α}

/-- Where a position is, if the chunk is known. -/
theorem length_of_split (hnodup : (chunks.map Prod.fst).Nodup) (h : ChunkAt chunks q i before after)
    (hsplit : chunks = A ++ (q, l) :: B) :
    (i < l.length ∨ B = [] ∧ i = l.length) ∧ before.length = (chunkEntries A).length + i := by
  obtain ⟨A', l', B', hsplit', hi, rfl, rfl⟩ := h
  obtain ⟨rfl, rfl, rfl⟩ := chunk_split_unique hnodup hsplit hsplit'
  refine ⟨hi, ?_⟩
  rw [List.length_append, List.length_take_of_le (by omega)]

theorem of_split (hsplit : chunks = A ++ (q, l) :: B) (hi : i < l.length ∨ B = [] ∧ i = l.length) :
    ∃ before after, ChunkAt chunks q i before after ∧
      before.length = (chunkEntries A).length + i := by
  refine ⟨_, _, ⟨A, l, B, hsplit, hi, rfl, rfl⟩, ?_⟩
  rw [List.length_append, List.length_take_of_le (by omega)]

theorem take_entries (h : ChunkAt chunks q i before after) (k : Nat) :
    before ++ after.take k = (chunkEntries chunks).take (before.length + k) := by
  rw [← h.entries, List.take_length_add_append]

/-- **A position outside of the chunks that are replaced** stays one.  In front of them it stays where
it is, behind them it moves by the difference of their lengths. -/
theorem outside (h : ChunkAt (A ++ mid ++ B) q i before after) (hmid : mid ≠ [])
    (hq : ∀ l, (q, l) ∉ mid) (mid' : List (ι × List α)) :
    ∃ before' after', ChunkAt (A ++ mid' ++ B) q i before' after' ∧
      (before.length < (chunkEntries A).length ∧ before'.length = before.length ∨
        (chunkEntries A).length + (chunkEntries mid).length ≤ before.length ∧
          before'.length + (chunkEntries mid).length =
            before.length + (chunkEntries mid').length) := by
  obtain ⟨A₀, l, B₀, hsplit, hi, rfl, rfl⟩ := h
  rw [List.append_assoc] at hsplit
  rcases List.append_eq_append_iff.mp hsplit with ⟨C, rfl, hC⟩ | ⟨C, rfl, hC⟩
  · -- not in front of the chunks: behind them
    rcases List.append_eq_append_iff.mp hC with ⟨D, rfl, rfl⟩ | ⟨D, rfl, hD⟩
    · refine ⟨_, _, ⟨A ++ mid' ++ D, l, B₀, by simp, hi, rfl, rfl⟩, .inr ⟨?_, ?_⟩⟩
      · simp only [chunkEntries_append, List.length_append]
        omega
      · simp only [chunkEntries_append, List.length_append]
        omega
    · cases D with
      | nil =>
        obtain rfl : (q, l) :: B₀ = B := hD
        rw [List.append_nil] at hmid hq ⊢
        refine ⟨_, _, ⟨A ++ mid', l, B₀, rfl, hi, rfl, rfl⟩, .inr ⟨?_, ?_⟩⟩
        · simp only [chunkEntries_append, List.length_append]
          omega
        · simp only [chunkEntries_append, List.length_append]
          omega
      | cons c D =>
        obtain ⟨rfl, -⟩ := List.cons.inj hD
        exact absurd (List.mem_append_right _ List.mem_cons_self) (hq l)
  · cases C with
    | nil =>
      -- the first of the chunks
      cases mid with
      | nil => exact absurd rfl hmid
      | cons c mid =>
        obtain ⟨rfl, -⟩ := List.cons.inj hC
        exact absurd List.mem_cons_self (hq l)
    | cons c C =>
      obtain ⟨rfl, rfl⟩ := List.cons.inj hC
      have hlt : i < l.length := by
        rcases hi with hi | ⟨hnil, -⟩
        · exact hi
        · simp [hmid] at hnil
      refine ⟨_, _, ⟨A₀, l, C ++ (mid' ++ B), by simp, .inl hlt, rfl, rfl⟩, .inl ⟨?_, rfl⟩⟩
      rw [chunkEntries_append, chunkEntries_cons]
      simp only [List.length_append, List.length_take]
      omega

end Places

/-! ### One entry -/

theorem mem_take_insert_iff {u v : List α} {x e : α} (he : e ≠ x) {n n' : Nat}
    (h : n ≤ u.length ∧ n' = n ∨ u.length ≤ n ∧ n' = n + 1) :
    e ∈ (u ++ v).take n ↔ e ∈ (u ++ x :: v).take n' := by
  rcases h with ⟨hle, rfl⟩ | ⟨hle, rfl⟩
  · rw [List.take_append_of_le_length hle, List.take_append_of_le_length hle]
  · obtain ⟨m, rfl⟩ := Nat.exists_eq_add_of_le hle
    rw [Nat.add_assoc, List.take_length_add_append, List.take_length_add_append,
      List.take_succ_cons]
    simp [he]

namespace Kept

variable {chunks chunks' A mid mid' B : List (ι × List α)} {down up k : Nat} {q : ι} {i : Nat}
  {u v before after before' after' : List α} {x : α}

theorem refl (h : ChunkAt chunks q i before after) : Kept chunks chunks down up k q i :=
  ⟨_, _, _, _, h, h, by omega, by omega, fun _ _ _ => Iff.rfl⟩

theorem symm (h : Kept chunks chunks' down up k q i) : Kept chunks' chunks up down k q i := by
  obtain ⟨b, a, b', a', h, h', hdown, hup, hmem⟩ := h
  exact ⟨b', a', b, a, h', h, hup, hdown, fun e he he' => (hmem e he' he).symm⟩

/-- An entry goes in, and the position stays in front of it or moves up behind it. -/
theorem of_insert (hold : chunkEntries chunks = u ++ v) (hnew : chunkEntries chunks' = u ++ x :: v)
    (hx : x ∉ u ++ v) (h : ChunkAt chunks q i before after)
    (h' : ChunkAt chunks' q i before' after')
    (hpos : before.length + k ≤ u.length ∧ before'.length = before.length ∨
      u.length ≤ before.length + k ∧ before'.length = before.length + 1) :
    Kept chunks chunks' 0 1 k q i := by
  refine ⟨_, _, _, _, h, h', by omega, by omega, fun e he _ => ?_⟩
  rw [h.take_entries, h'.take_entries, hold, hnew]
  rw [hold] at he
  exact mem_take_insert_iff (fun hex => hx (by rw [← hex]; exact he)) (by omega)

/-- A position outside of the chunks where an entry goes in. -/
theorem insert_outside
    (hold : chunkEntries (A ++ mid ++ B) = (chunkEntries A ++ u) ++ (v ++ chunkEntries B))
    (hnew : chunkEntries (A ++ mid' ++ B) = (chunkEntries A ++ u) ++ x :: (v ++ chunkEntries B))
    (hx : x ∉ (chunkEntries A ++ u) ++ (v ++ chunkEntries B)) (hk : k ≤ 1) (hmid : mid ≠ [])
    (h : ChunkAt (A ++ mid ++ B) q i before after) (hq : ∀ l, (q, l) ∉ mid) :
    Kept (A ++ mid ++ B) (A ++ mid' ++ B) 0 1 k q i := by
  obtain ⟨before', after', h', hpos⟩ := h.outside hmid hq mid'
  have hlen := congrArg List.length hold
  have hlen' := congrArg List.length hnew
  simp only [chunkEntries_append, List.length_append, List.length_cons] at hlen hlen'
  refine of_insert hold hnew hx h h' ?_
  rw [List.length_append]
  omega

/-- A position outside of the chunks where an entry goes out. -/
theorem erase_outside
    (hold : chunkEntries (A ++ mid ++ B) = (chunkEntries A ++ u) ++ x :: (v ++ chunkEntries B))
    (hnew : chunkEntries (A ++ mid' ++ B) = (chunkEntries A ++ u) ++ (v ++ chunkEntries B))
    (hx : x ∉ (chunkEntries A ++ u) ++ (v ++ chunkEntries B)) (hk : k ≤ 1) (hmid : mid ≠ [])
    (hmid' : mid' ≠ []) (h : ChunkAt (A ++ mid ++ B) q i before after) (hq : ∀ l, (q, l) ∉ mid)
    (hq' : ∀ l, (q, l) ∉ mid') : Kept (A ++ mid ++ B) (A ++ mid' ++ B) 1 0 k q i := by
  obtain ⟨before', after', h', -⟩ := h.outside hmid hq mid'
  exact (insert_outside hnew hold hx hk hmid' h' hq').symm

/-- An entry goes out, and the position stays in front of it or moves down behind it. -/
theorem of_erase (hold : chunkEntries chunks = u ++ x :: v) (hnew : chunkEntries chunks' = u ++ v)
    (hx : x ∉ u ++ v) (h : ChunkAt chunks q i before after)
    (h' : ChunkAt chunks' q i before' after')
    (hpos : before.length + k ≤ u.length ∧ before'.length = before.length ∨
      u.length < before.length + k ∧ before'.length + 1 = before.length) :
    Kept chunks chunks' 1 0 k q i :=
  (of_insert hnew hold hx h' h (by omega)).symm

variable {A' B' : List (ι × List α)} {l l' : List α}

/-- An entry goes in, and the position is in a chunk that keeps its name: either the entry goes in
behind the position and nothing else moves, or it goes in before the position. -/
theorem insert_inside (hnodup : (chunks.map Prod.fst).Nodup) (hold : chunkEntries chunks = u ++ v)
    (hnew : chunkEntries chunks' = u ++ x :: v) (hx : x ∉ u ++ v)
    (h : ChunkAt chunks q i before after) (hsplit : chunks = A ++ (q, l) :: B)
    (hsplit' : chunks' = A' ++ (q, l') :: B') (hi : i < l'.length ∨ B' = [] ∧ i = l'.length)
    (hpos : (chunkEntries A').length = (chunkEntries A).length ∧
        (chunkEntries A).length + i + k ≤ u.length ∨
      (chunkEntries A').length = (chunkEntries A).length + 1 ∧
        u.length ≤ (chunkEntries A).length + i + k) :
    Kept chunks chunks' 0 1 k q i := by
  obtain ⟨-, hlen⟩ := h.length_of_split hnodup hsplit
  obtain ⟨before', after', h', hlen'⟩ := ChunkAt.of_split hsplit' hi
  exact of_insert hold hnew hx h h' (by omega)

/-- An entry goes out, and the position is in a chunk that keeps its name: either the entry was
behind the position and nothing else moves, or it was before the position. -/
theorem erase_inside (hnodup : (chunks.map Prod.fst).Nodup)
    (hold : chunkEntries chunks = u ++ x :: v) (hnew : chunkEntries chunks' = u ++ v)
    (hx : x ∉ u ++ v) (h : ChunkAt chunks q i before after) (hsplit : chunks = A ++ (q, l) :: B)
    (hsplit' : chunks' = A' ++ (q, l') :: B') (hi : i < l'.length ∨ B' = [] ∧ i = l'.length)
    (hpos : (chunkEntries A').length = (chunkEntries A).length ∧
        (chunkEntries A).length + i + k ≤ u.length ∨
      (chunkEntries A').length + 1 = (chunkEntries A).length ∧
        u.length < (chunkEntries A).length + i + k) :
    Kept chunks chunks' 1 0 k q i := by
  obtain ⟨-, hlen⟩ := h.length_of_split hnodup hsplit
  obtain ⟨before', after', h', hlen'⟩ := ChunkAt.of_split hsplit' hi
  exact of_erase hold hnew hx h h' (by omega)

/-- **Two positions stay in their order**: one of them is moved by one place at most. -/
theorem le_of_le {q' : ι} {i' k' : Nat} (hnodup : (chunks.map Prod.fst).Nodup)
    (hnodup' : (chunks'.map Prod.fst).Nodup) (hone : down + up ≤ 1)
    (h : Kept chunks chunks' down up k q i) (h' : Kept chunks chunks' down up k' q' i')
    {b a b' a' till beyond till' beyond' : List α} (hb : ChunkAt chunks q i b a)
    (hb' : ChunkAt chunks' q i b' a') (ht : ChunkAt chunks q' i' till beyond)
    (ht' : ChunkAt chunks' q' i' till' beyond') (hle : b.length ≤ till.length) :
    b'.length ≤ till'.length := by
  obtain ⟨b₁, a₁, b₂, a₂, hb₁, hb₂, -, hup, -⟩ := h
  obtain ⟨t₁, y₁, t₂, y₂, ht₁, ht₂, hdown, -, -⟩ := h'
  obtain ⟨rfl, -⟩ := hb.unique hnodup hb₁
  obtain ⟨rfl, -⟩ := hb'.unique hnodup' hb₂
  obtain ⟨rfl, -⟩ := ht.unique hnodup ht₁
  obtain ⟨rfl, -⟩ := ht'.unique hnodup' ht₂
  rcases Nat.lt_or_eq_of_le hle with hlt | heq
  · omega
  · -- the same position
    obtain ⟨rfl, rfl⟩ := hb.inj ht heq
    rw [(hb'.unique hnodup' ht').1]

end Kept

end ChunkAt
