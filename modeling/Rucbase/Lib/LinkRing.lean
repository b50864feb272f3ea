import Mathlib.Data.List.Chain
import Mathlib.Data.List.Nodup

/-!
# Circular doubly linked lists

A ring is a head and a list of other nodes; from the head, `next` visits the list in order and comes
back to the head, and `prev` goes the other way.  A node can be inserted after another
(`LinkRing.insertAfter`) and taken out (`LinkRing.remove`).
-/

variable {α : Type}

/-- The node `b` follows `a`. -/
def Linked (next prev : α → Option α) (a b : α) : Prop := next a = some b ∧ prev b = some a

/-- The links form a ring through the head and the list. -/
structure LinkRing (next prev : α → Option α) (head : α) (l : List α) : Prop where
  nodup : (head :: l).Nodup
  linked : List.IsChain (Linked next prev) (head :: (l ++ [head]))

namespace LinkRing

variable {next prev next' prev' : α → Option α} {head : α} {l A B : List α}

/-- The ring depends on the links of its nodes only. -/
theorem congr (h : LinkRing next prev head l) (hnext : ∀ a ∈ head :: l, next' a = next a)
    (hprev : ∀ a ∈ head :: l, prev' a = prev a) : LinkRing next' prev' head l := by
  refine ⟨h.nodup, h.linked.imp_of_mem_imp fun a b ha hb hab => ?_⟩
  have hmem : ∀ c, c ∈ head :: (l ++ [head]) → c ∈ head :: l := by
    intro c hc
    simpa [or_comm, or_left_comm] using hc
  exact ⟨(hnext a (hmem a ha)).trans hab.1, (hprev b (hmem b hb)).trans hab.2⟩

/-- The chain at a node of the ring: what leads to it, the node after it, and what follows. -/
theorem split {a : α} (h : LinkRing next prev head (A ++ a :: B)) :
    ∃ x C, B ++ [head] = x :: C ∧ List.IsChain (Linked next prev) ((head :: A) ++ [a]) ∧
      Linked next prev a x ∧ List.IsChain (Linked next prev) (x :: C) := by
  obtain ⟨x, C, hC⟩ := List.exists_cons_of_ne_nil (show B ++ [head] ≠ [] by simp)
  have hlinked := h.linked
  rw [show head :: (A ++ a :: B ++ [head]) = (head :: A) ++ a :: (x :: C) by simp [← hC],
    List.isChain_append_cons_cons] at hlinked
  exact ⟨x, C, hC, hlinked.1, hlinked.2.1, hlinked.2.2⟩

/-- The ring is closed. -/
theorem next_mem (h : LinkRing next prev head l) {a b : α} (ha : a ∈ head :: l)
    (hb : next a = some b) : b ∈ head :: l := by
  have hlinked := h.linked
  obtain ⟨A, B, hsplit⟩ := List.append_of_mem ha
  rw [show head :: (l ++ [head]) = (head :: l) ++ [head] from rfl, hsplit, List.append_assoc,
    List.cons_append] at hlinked
  obtain ⟨x, C, hC⟩ := List.exists_cons_of_ne_nil (show B ++ [head] ≠ [] by simp)
  rw [hC, List.isChain_append_cons_cons] at hlinked
  obtain rfl : b = x := Option.some.inj (hb.symm.trans hlinked.2.1.1)
  have hmem : b ∈ B ++ [head] := by
    rw [hC]
    exact List.mem_cons_self
  rw [hsplit]
  rcases List.mem_append.mp hmem with hB | hhead
  · exact List.mem_append_right _ (List.mem_cons_of_mem _ hB)
  · rw [List.mem_singleton.mp hhead, ← hsplit]
    exact List.mem_cons_self

/-- From a node to the head, `next` leads through one list only. -/
theorem walk_unique {a : α} {l' : List α} (hl : head ∉ l) (hl' : head ∉ l')
    (h : List.IsChain (Linked next prev) (a :: (l ++ [head])))
    (h' : List.IsChain (Linked next prev) (a :: (l' ++ [head]))) : l = l' := by
  have hstep : ∀ {b : α} {x y : α} {r r' : List α},
      List.IsChain (Linked next prev) (b :: x :: r) →
      List.IsChain (Linked next prev) (b :: y :: r') → x = y := fun hx hy =>
    Option.some.inj ((List.isChain_cons_cons.mp hx).1.1.symm.trans (List.isChain_cons_cons.mp hy).1.1)
  induction l generalizing a l' with
  | nil =>
    cases l' with
    | nil => rfl
    | cons y l' => exact absurd (hstep h h' ▸ List.mem_cons_self) hl'
  | cons x l ih =>
    cases l' with
    | nil => exact absurd (hstep h h' ▸ List.mem_cons_self) hl
    | cons y l' =>
      obtain rfl := hstep h h'
      have htail := ih (fun hm => hl (List.mem_cons_of_mem x hm))
        (fun hm => hl' (List.mem_cons_of_mem x hm)) (List.isChain_cons_cons.mp h).2
        (List.isChain_cons_cons.mp h').2
      rw [htail]

/-- **There is one ring through a head.** -/
theorem unique {l' : List α} (h : LinkRing next prev head l) (h' : LinkRing next prev head l') :
    l = l' :=
  walk_unique (List.nodup_cons.mp h.nodup).1 (List.nodup_cons.mp h'.nodup).1 h.linked h'.linked

/-- **Insert** a new node after a node of the ring. -/
theorem insertAfter {a q x : α} (h : LinkRing next prev head (A ++ a :: B))
    (hq : q ∉ head :: (A ++ a :: B)) (hx : next a = some x)
    (hnext : ∀ b, b ≠ a → b ≠ q → next' b = next b) (hnexta : next' a = some q)
    (hnextq : next' q = some x) (hprev : ∀ b, b ≠ x → b ≠ q → prev' b = prev b)
    (hprevq : prev' q = some a) (hprevx : prev' x = some q) :
    LinkRing next' prev' head (A ++ a :: q :: B) := by
  obtain ⟨y, C, hC, hfront, hay, hback⟩ := h.split
  obtain rfl : x = y := Option.some.inj (hx.symm.trans hay.1)
  have hnodup := h.nodup
  have hmem : ∀ b, b ∈ x :: C ↔ b ∈ B ∨ b = head := by
    intro b
    rw [← hC, List.mem_append, List.mem_singleton]
  have hxmem := (hmem x).mp List.mem_cons_self
  have hnodupC : (x :: C).Nodup := by
    rw [← hC]
    simp only [List.nodup_cons, List.mem_append, List.mem_cons, List.nodup_append] at hnodup ⊢
    grind
  refine ⟨?_, ?_⟩
  · simp only [List.nodup_cons, List.mem_append, List.mem_cons, List.nodup_append] at hnodup hq ⊢
    grind
  · rw [show head :: (A ++ a :: q :: B ++ [head]) = (head :: A) ++ a :: q :: (x :: C) by
      simp [← hC], List.isChain_append_cons_cons, List.isChain_cons_cons]
    refine ⟨?_, ⟨hnexta, hprevq⟩, ⟨hnextq, hprevx⟩, ?_⟩
    · -- in front of the node: no link starts there, and none ends behind it
      refine hfront.imp_of_mem_tail_imp fun s t hs ht hst => ?_
      have ht' : t ∈ A ∨ t = a := by simpa using ht
      have hs' : s = head ∨ s ∈ A ∨ s = a := by simpa using hs
      have htx : t ≠ x := by
        rintro rfl
        simp only [List.nodup_cons, List.mem_append, List.mem_cons, List.nodup_append] at hnodup
        grind
      have hsa : s ≠ a := by
        rintro rfl
        exact htx (Option.some.inj (hst.1.symm.trans hx))
      simp only [List.mem_cons, List.mem_append, not_or] at hq
      refine ⟨(hnext s hsa ?_).trans hst.1, (hprev t htx ?_).trans hst.2⟩
      · rintro rfl
        grind
      · rintro rfl
        grind
    · -- behind the node: the first link comes from the new node, the rest stays
      refine hback.imp_of_mem_tail_imp fun s t hs ht hst => ?_
      have hs' := (hmem s).mp hs
      have ht' : t ∈ C := ht
      have htmem := (hmem t).mp (List.mem_cons_of_mem x ht')
      have htx : t ≠ x := fun htx => (List.nodup_cons.mp hnodupC).1 (htx ▸ ht')
      simp only [List.mem_cons, List.mem_append, not_or] at hq
      have hsa : s ≠ a := by
        rintro rfl
        simp only [List.nodup_cons, List.mem_append, List.mem_cons, List.nodup_append] at hnodup
        grind
      refine ⟨(hnext s hsa ?_).trans hst.1, (hprev t htx ?_).trans hst.2⟩
      · rintro rfl
        grind
      · rintro rfl
        grind

/-- **Remove** a node from the ring. -/
theorem remove {a p x : α} (h : LinkRing next prev head (A ++ a :: B)) (hx : next a = some x)
    (hp : prev a = some p) (hnext : ∀ b, b ≠ p → next' b = next b) (hnextp : next' p = some x)
    (hprev : ∀ b, b ≠ x → prev' b = prev b) (hprevx : prev' x = some p) :
    LinkRing next' prev' head (A ++ B) := by
  obtain ⟨y, C, hC, hfront, hay, hback⟩ := h.split
  obtain rfl : x = y := Option.some.inj (hx.symm.trans hay.1)
  have hnodup := h.nodup
  have hmem : ∀ b, b ∈ x :: C ↔ b ∈ B ∨ b = head := by
    intro b
    rw [← hC, List.mem_append, List.mem_singleton]
  have hxmem := (hmem x).mp List.mem_cons_self
  have hnodupC : (x :: C).Nodup := by
    rw [← hC]
    simp only [List.nodup_cons, List.mem_append, List.mem_cons, List.nodup_append] at hnodup ⊢
    grind
  -- the node before is the last one in front
  obtain ⟨D, z, hD⟩ : ∃ D z, head :: A = D ++ [z] :=
    ⟨_, _, (List.dropLast_append_getLast (List.cons_ne_nil head A)).symm⟩
  rw [hD, List.append_assoc, List.singleton_append, List.isChain_append_cons_cons] at hfront
  obtain rfl : p = z := Option.some.inj (hp.symm.trans hfront.2.1.2)
  have hpa : ∀ {t}, Linked next prev p t → t = a :=
    fun hpt => Option.some.inj (hpt.1.symm.trans hfront.2.1.1)
  refine ⟨?_, ?_⟩
  · simp only [List.nodup_cons, List.mem_append, List.mem_cons, List.nodup_append] at hnodup ⊢
    grind
  · rw [show head :: (A ++ B ++ [head]) = D ++ p :: (x :: C) by
      rw [List.append_assoc, hC, ← List.cons_append, hD, List.append_assoc, List.singleton_append],
      List.isChain_append_cons_cons]
    refine ⟨?_, ⟨hnextp, hprevx⟩, ?_⟩
    · refine hfront.1.imp_of_mem_tail_imp fun s t hs ht hst => ?_
      have ht' : t ∈ A := by
        rw [← hD] at ht
        exact ht
      have hsp : s ≠ p := by
        rintro rfl
        rw [hpa hst] at ht'
        simp only [List.nodup_cons, List.mem_append, List.mem_cons, List.nodup_append] at hnodup
        grind
      have htx : t ≠ x := by
        rintro rfl
        simp only [List.nodup_cons, List.mem_append, List.mem_cons, List.nodup_append] at hnodup
        grind
      exact ⟨(hnext s hsp).trans hst.1, (hprev t htx).trans hst.2⟩
    · refine hback.imp_of_mem_tail_imp fun s t hs ht hst => ?_
      have ht' : t ∈ C := ht
      have htmem := (hmem t).mp (List.mem_cons_of_mem x ht')
      have htx : t ≠ x := fun htx => (List.nodup_cons.mp hnodupC).1 (htx ▸ ht')
      have hsp : s ≠ p := by
        rintro rfl
        rw [hpa hst] at htmem
        simp only [List.nodup_cons, List.mem_append, List.mem_cons, List.nodup_append] at hnodup
        grind
      exact ⟨(hnext s hsp).trans hst.1, (hprev t htx).trans hst.2⟩

end LinkRing
