import Mathlib.Data.List.Infix
import Mathlib.Data.List.Nodup

/-!
# Lists in chunks

A list that is stored in chunks, each under a name.  A position is the name of a chunk and an index
in the chunk.  The end of a chunk and the beginning of the next one are the same place, and only the
second name of it counts as a position (`ChunkAt`); the end of the last chunk is the end of the list.

A position then divides the list in one way (`ChunkAt.unique`), and no two positions divide it in
the same way (`ChunkAt.inj`), so a walk from one position to another (`ChunkAt.inside`,
`ChunkAt.cross`) can be told to end by comparing positions.
-/

variable {ι α : Type}

/-- The entries of all chunks. -/
def chunkEntries (chunks : List (ι × List α)) : List α := chunks.flatMap Prod.snd

/-- The index `i` in the chunk `q` is a position, with these entries before and behind it. -/
def ChunkAt (chunks : List (ι × List α)) (q : ι) (i : Nat) (before after : List α) : Prop :=
  ∃ A l B, chunks = A ++ (q, l) :: B ∧ (i < l.length ∨ B = [] ∧ i = l.length) ∧
    before = chunkEntries A ++ l.take i ∧ after = l.drop i ++ chunkEntries B

theorem chunkEntries_nil : chunkEntries ([] : List (ι × List α)) = [] := rfl

theorem chunkEntries_append (A B : List (ι × List α)) :
    chunkEntries (A ++ B) = chunkEntries A ++ chunkEntries B := List.flatMap_append

theorem chunkEntries_cons (c : ι × List α) (B : List (ι × List α)) :
    chunkEntries (c :: B) = c.2 ++ chunkEntries B := List.flatMap_cons

/-- Chunks that are in order, and follow each other in order, hold an ordered list. -/
theorem pairwise_chunkEntries {R : α → α → Prop} (htrans : ∀ {a b c}, R a b → R b c → R a c)
    {chunks : List (ι × List α)} (hin : ∀ c ∈ chunks, c.2.Pairwise R)
    (hnext : chunks.IsChain fun c c' => ∀ a ∈ c.2, ∀ b ∈ c'.2, R a b)
    (hne : ∀ c ∈ chunks.tail, c.2 ≠ []) : (chunkEntries chunks).Pairwise R := by
  induction chunks with
  | nil => exact List.Pairwise.nil
  | cons c B ih =>
    rw [chunkEntries_cons]
    cases B with
    | nil =>
      rw [chunkEntries_nil, List.append_nil]
      exact hin c List.mem_cons_self
    | cons c' B =>
      rw [List.isChain_cons_cons] at hnext
      have hrest := ih (fun d hd => hin d (List.mem_cons_of_mem c hd)) hnext.2
        fun d hd => hne d (List.mem_cons_of_mem c' hd)
      refine List.pairwise_append.mpr ⟨hin c List.mem_cons_self, hrest, fun a ha b hb => ?_⟩
      rw [chunkEntries_cons] at hb hrest
      rcases List.mem_append.mp hb with hb | hb
      · exact hnext.1 a ha b hb
      · -- through any entry of the next chunk
        obtain ⟨x, l, hx⟩ := List.exists_cons_of_ne_nil (hne c' List.mem_cons_self)
        have hmem : x ∈ c'.2 := by
          rw [hx]
          exact List.mem_cons_self
        exact htrans (hnext.1 a ha x hmem) ((List.pairwise_append.mp hrest).2.2 x hmem b hb)

/-- A chunk that has a name is found in one place only. -/
theorem chunk_split_unique {chunks A A' B B' : List (ι × List α)} {q : ι} {l l' : List α}
    (hnodup : (chunks.map Prod.fst).Nodup) (h : chunks = A ++ (q, l) :: B)
    (h' : chunks = A' ++ (q, l') :: B') : A = A' ∧ l = l' ∧ B = B' := by
  subst h
  induction A generalizing A' with
  | nil =>
    cases A' with
    | nil =>
      obtain ⟨h1, h2⟩ := List.cons.inj h'
      exact ⟨rfl, (Prod.mk.inj h1).2, h2⟩
    | cons c A' =>
      -- the name would be there twice
      rw [List.nil_append, List.cons_append, List.cons.injEq] at h'
      obtain ⟨rfl, rfl⟩ := h'
      rw [List.nil_append, List.map_cons, List.map_append, List.map_cons] at hnodup
      exact absurd (List.mem_append_right _ List.mem_cons_self) (List.nodup_cons.mp hnodup).1
  | cons c A ih =>
    rw [List.cons_append, List.map_cons] at hnodup
    cases A' with
    | nil =>
      rw [List.nil_append, List.cons_append, List.cons.injEq] at h'
      obtain ⟨rfl, -⟩ := h'
      rw [List.map_append, List.map_cons] at hnodup
      exact absurd (List.mem_append_right _ List.mem_cons_self) (List.nodup_cons.mp hnodup).1
    | cons c' A' =>
      rw [List.cons_append, List.cons_append, List.cons.injEq] at h'
      obtain ⟨rfl, htail⟩ := h'
      obtain ⟨rfl, hl, hB⟩ := ih (List.nodup_cons.mp hnodup).2 htail
      exact ⟨rfl, hl, hB⟩

/-- Chunks with the same names in the same order, each of them one of the others, are the same. -/
theorem chunks_eq_of_subset {chunks chunks' : List (ι × List α)}
    (hnames : chunks.map Prod.fst = chunks'.map Prod.fst) (hnodup : (chunks'.map Prod.fst).Nodup)
    (hsub : ∀ c ∈ chunks, c ∈ chunks') : chunks = chunks' := by
  have hlen : chunks.length = chunks'.length := by
    simpa only [List.length_map] using congrArg List.length hnames
  refine List.ext_getElem hlen fun n hn hn' => ?_
  have hname : chunks[n].1 = chunks'[n].1 := by
    have hget := congrArg (fun l : List ι => l[n]?) hnames
    simpa [hn, hn'] using hget
  exact List.inj_on_of_nodup_map hnodup (hsub _ (List.getElem_mem hn)) (List.getElem_mem hn') hname

namespace ChunkAt

variable {chunks : List (ι × List α)} {q q' : ι} {i i' : Nat} {before after before' after' : List α}

theorem entries (h : ChunkAt chunks q i before after) : before ++ after = chunkEntries chunks := by
  obtain ⟨A, l, B, rfl, -, rfl, rfl⟩ := h
  rw [chunkEntries_append, chunkEntries_cons, List.append_assoc,
    ← List.append_assoc (l.take i), List.take_append_drop]

/-- **A position divides the list in one way.** -/
theorem unique (hnodup : (chunks.map Prod.fst).Nodup) (h : ChunkAt chunks q i before after)
    (h' : ChunkAt chunks q i before' after') : before = before' ∧ after = after' := by
  obtain ⟨A, l, B, hsplit, -, rfl, rfl⟩ := h
  obtain ⟨A', l', B', hsplit', -, rfl, rfl⟩ := h'
  obtain ⟨rfl, rfl, rfl⟩ := chunk_split_unique hnodup hsplit hsplit'
  exact ⟨rfl, rfl⟩

/-- A position in front of another chunk has fewer entries before it. -/
theorem length_lt {A A' B B' : List (ι × List α)} {l l' : List α} (hlt : A.length < A'.length)
    (h : chunks = A ++ (q, l) :: B) (h' : chunks = A' ++ (q', l') :: B')
    (hi : i < l.length ∨ B = [] ∧ i = l.length) :
    (chunkEntries A ++ l.take i).length < (chunkEntries A' ++ l'.take i').length := by
  rw [h] at h'
  obtain ⟨C, hC⟩ : ∃ C, A' = A ++ (q, l) :: C := by
    rcases List.append_eq_append_iff.mp h' with ⟨C, rfl, hC⟩ | ⟨C, rfl, hC⟩
    · cases C with
      | nil => simp at hlt
      | cons c C =>
        obtain ⟨rfl, -⟩ := List.cons.inj hC
        exact ⟨C, rfl⟩
    · rw [List.length_append] at hlt
      omega
  have hi' : i < l.length := by
    rcases hi with hi | ⟨rfl, -⟩
    · exact hi
    · -- nothing comes after the last chunk
      have hlen := congrArg List.length h'
      rw [List.length_append, List.length_append] at hlen
      simp only [List.length_cons, List.length_nil] at hlen
      omega
  subst hC
  rw [chunkEntries_append, chunkEntries_cons]
  simp only [List.length_append, List.length_take]
  omega

/-- **No two positions divide the list in the same way.** -/
theorem inj (h : ChunkAt chunks q i before after) (h' : ChunkAt chunks q' i' before' after')
    (hlen : before.length = before'.length) : q = q' ∧ i = i' := by
  obtain ⟨A, l, B, hsplit, hi, rfl, rfl⟩ := h
  obtain ⟨A', l', B', hsplit', hi', rfl, rfl⟩ := h'
  rcases Nat.lt_trichotomy A.length A'.length with hlt | heq | hgt
  · exact absurd hlen (length_lt hlt hsplit hsplit' hi).ne
  · rw [hsplit] at hsplit'
    obtain ⟨rfl, hcons⟩ := List.append_inj hsplit' heq
    obtain ⟨hc, -⟩ := List.cons.inj hcons
    obtain ⟨rfl, rfl⟩ := Prod.mk.inj hc
    have h1 : i ≤ l.length := by omega
    have h2 : i' ≤ l.length := by omega
    rw [List.length_append, List.length_append, List.length_take_of_le h1,
      List.length_take_of_le h2] at hlen
    exact ⟨rfl, by omega⟩
  · exact absurd hlen (length_lt hgt hsplit' hsplit hi').ne'

/-! ### Walking -/

/-- The next position in the same chunk. -/
theorem inside {A B : List (ι × List α)} {l : List α} {x : α}
    (h : chunks = A ++ (q, l) :: B) (hx : l[i]? = some x) (hnext : i + 1 < l.length ∨ B = []) :
    ChunkAt chunks q (i + 1) (chunkEntries A ++ l.take i ++ [x])
      (l.drop (i + 1) ++ chunkEntries B) := by
  obtain ⟨hlt, rfl⟩ := List.getElem?_eq_some_iff.mp hx
  refine ⟨A, l, B, h, ?_, ?_, rfl⟩
  · rcases hnext with hlt' | rfl
    · exact Or.inl hlt'
    · by_cases heq : i + 1 = l.length
      · exact Or.inr ⟨rfl, heq⟩
      · exact Or.inl (by omega)
  · rw [List.append_assoc, List.take_append_getElem]

/-- From the last entry of a chunk to the next chunk. -/
theorem cross {A B : List (ι × List α)} {l l' : List α} {x : α}
    (h : chunks = A ++ (q, l) :: (q', l') :: B) (hx : l[i]? = some x) (hlast : i + 1 = l.length)
    (hne : l' ≠ [] ∨ B = []) :
    ChunkAt chunks q' 0 (chunkEntries A ++ l.take i ++ [x])
      (l.drop (i + 1) ++ chunkEntries ((q', l') :: B)) := by
  obtain ⟨hlt, rfl⟩ := List.getElem?_eq_some_iff.mp hx
  refine ⟨A ++ [(q, l)], l', B, ?_, ?_, ?_, ?_⟩
  · rw [h, List.append_assoc]
    rfl
  · rcases l'.eq_nil_or_concat with rfl | ⟨_, _, rfl⟩
    · rcases hne with hne | rfl
      · exact absurd rfl hne
      · exact Or.inr ⟨rfl, rfl⟩
    · exact Or.inl (by simp)
  · rw [chunkEntries_append, chunkEntries_cons, List.append_assoc, List.take_append_getElem, hlast,
      List.take_length, List.take_zero]
    simp [chunkEntries]
  · rw [hlast, List.drop_length, List.nil_append, List.drop_zero, chunkEntries_cons]

/-- The end of the last chunk. -/
theorem last {A : List (ι × List α)} {l : List α} (h : chunks = A ++ [(q, l)]) :
    ChunkAt chunks q l.length (chunkEntries chunks) [] := by
  refine ⟨A, l, [], h, Or.inr ⟨rfl, rfl⟩, ?_, ?_⟩
  · rw [h, chunkEntries_append, chunkEntries_cons, List.take_length]
    simp [chunkEntries]
  · simp [chunkEntries]

end ChunkAt
