import Mathlib.Order.Defs.LinearOrder
import Mathlib.Order.Lattice
import Mathlib.Tactic.Common

/-!
# Groups of keys with separators

A list of groups of keys, each with a separator in front of it.  In a separated list the separators
increase, a separator is above all groups before it, and it is not above its own group; the first
separator divides nothing and may be above its group (`Separated`).

Seen from one place of the list, this is a condition on the rest and a condition on the place
(`separated_iff`).  From there: groups may lose keys (`Separated.mono`), neighbours may be put
together (`Separated.merge`), a group may be divided (`Separated.divide_iff`), and a separator may be
replaced (`Separated.rekey_iff`).
-/

namespace Separators

variable {κ : Type} [LinearOrder κ]

/-- What stands in front of a separator is below it. -/
def Below (a : κ × List κ) (k : κ) : Prop := a.1 < k ∧ ∀ x ∈ a.2, x < k

/-- The separators divide the groups. -/
structure Separated (l : List (κ × List κ)) : Prop where
  below : l.Pairwise fun a b => Below a b.1
  above : ∀ e ∈ l.tail, ∀ x ∈ e.2, e.1 ≤ x

/-- The groups around a place. -/
structure Around (A B : List (κ × List κ)) : Prop where
  below : (A ++ B).Pairwise fun a b => Below a b.1
  left : ∀ e ∈ A.tail, ∀ x ∈ e.2, e.1 ≤ x
  right : ∀ e ∈ B, ∀ x ∈ e.2, e.1 ≤ x

/-- A separator and its group fit into a place. -/
structure Fits (A B : List (κ × List κ)) (k : κ) (l : List κ) : Prop where
  left : ∀ a ∈ A, Below a k
  own : A ≠ [] → ∀ x ∈ l, k ≤ x
  right : ∀ b ∈ B, Below (k, l) b.1

variable {A B : List (κ × List κ)} {k k' : κ} {l l' : List κ}

theorem Below.trans {a : κ × List κ} (ha : Below a k) (hk : k ≤ k') : Below a k' :=
  ⟨ha.1.trans_le hk, fun x hx => (ha.2 x hx).trans_le hk⟩

/-- A separated list, seen from one of its places. -/
theorem separated_iff : Separated (A ++ (k, l) :: B) ↔ Around A B ∧ Fits A B k l := by
  have htail : ∀ e, e ∈ (A ++ (k, l) :: B).tail ↔
      e ∈ A.tail ∨ e ∈ B ∨ (A ≠ [] ∧ e = (k, l)) := by
    intro e
    cases A with
    | nil => simp
    | cons a A =>
      simp only [List.cons_append, List.tail_cons, List.mem_append, List.mem_cons, ne_eq,
        reduceCtorEq, not_false_eq_true, true_and]
      tauto
  constructor
  · rintro ⟨hbelow, habove⟩
    rw [List.pairwise_append, List.pairwise_cons] at hbelow
    obtain ⟨hA, ⟨hright, hB⟩, hleft⟩ := hbelow
    refine ⟨⟨List.pairwise_append.mpr ⟨hA, hB, fun a ha b hb => ?_⟩, fun e he => ?_, fun e he => ?_⟩,
      fun a ha => hleft a ha _ List.mem_cons_self, fun hne => ?_, hright⟩
    · exact hleft a ha b (List.mem_cons_of_mem _ hb)
    · exact habove e ((htail e).mpr (Or.inl he))
    · exact habove e ((htail e).mpr (Or.inr (Or.inl he)))
    · exact habove (k, l) ((htail _).mpr (Or.inr (Or.inr ⟨hne, rfl⟩)))
  · rintro ⟨⟨hbelow, hl, hr⟩, hleft, hown, hright⟩
    rw [List.pairwise_append] at hbelow
    obtain ⟨hA, hB, hAB⟩ := hbelow
    refine ⟨List.pairwise_append.mpr ⟨hA, List.pairwise_cons.mpr ⟨hright, hB⟩, ?_⟩, fun e he => ?_⟩
    · intro a ha b hb
      rcases List.mem_cons.mp hb with rfl | hb
      · exact hleft a ha
      · exact hAB a ha b hb
    · rcases (htail e).mp he with he | he | ⟨hne, rfl⟩
      · exact hl e he
      · exact hr e he
      · exact hown hne

namespace Separated

/-- A group loses keys. -/
theorem mono (h : Separated (A ++ (k, l) :: B)) (hl : ∀ x ∈ l', x ∈ l) :
    Separated (A ++ (k, l') :: B) := by
  obtain ⟨hA, hF⟩ := separated_iff.mp h
  refine separated_iff.mpr ⟨hA, hF.left, fun hne x hx => hF.own hne x (hl x hx), fun b hb => ?_⟩
  exact ⟨(hF.right b hb).1, fun x hx => (hF.right b hb).2 x (hl x hx)⟩

/-- All groups before a place are below a separator if the last one is. -/
theorem below_of_last (h : Separated A) (hlast : ∀ a ∈ A.getLast?, Below a k) :
    ∀ a ∈ A, Below a k := by
  rcases List.eq_nil_or_concat A with rfl | ⟨A, z, rfl⟩
  · intro a ha
    cases ha
  · rw [List.concat_eq_append] at h hlast ⊢
    have hz : Below z k := hlast z (by simp)
    intro a ha
    rcases List.mem_append.mp ha with ha | ha
    · have haz := (List.pairwise_append.mp h.below).2.2 a ha z List.mem_cons_self
      exact haz.trans hz.1.le
    · rwa [List.mem_singleton.mp ha]

/-- A separator is replaced by another one that is not above the whole group. -/
theorem rekey_iff (h : Separated (A ++ (k, l) :: B)) {x : κ} (hx : x ∈ l) (hk : k' ≤ x) :
    Separated (A ++ (k', l) :: B) ↔
      (∀ a ∈ A.getLast?, Below a k') ∧ (A ≠ [] → ∀ y ∈ l, k' ≤ y) := by
  obtain ⟨hA, hF⟩ := separated_iff.mp h
  rw [separated_iff]
  constructor
  · rintro ⟨-, hF'⟩
    exact ⟨fun a ha => hF'.left a (List.mem_of_mem_getLast? ha), hF'.own⟩
  · rintro ⟨hlast, hown⟩
    have hsep : Separated A := ⟨(List.pairwise_append.mp hA.below).1, hA.left⟩
    refine ⟨hA, below_of_last hsep hlast, hown, fun b hb => ⟨?_, (hF.right b hb).2⟩⟩
    exact hk.trans_lt ((hF.right b hb).2 x hx)

/-- Two neighbouring groups are put together. -/
theorem merge (h : Separated (A ++ (k, l) :: (k', l') :: B)) :
    Separated (A ++ (k, l ++ l') :: B) := by
  have h' : Separated ((A ++ [(k, l)]) ++ (k', l') :: B) := by
    rwa [List.append_assoc]
  obtain ⟨-, hF⟩ := separated_iff.mp h
  obtain ⟨hA', hF'⟩ := separated_iff.mp h'
  have hkk : k < k' := (hF'.left (k, l) (by simp)).1
  have hright : ∀ b ∈ B, Below (k, l) b.1 := fun b hb => hF.right b (List.mem_cons_of_mem _ hb)
  have hbelow := hA'.below
  rw [List.append_assoc, List.pairwise_append, List.pairwise_append] at hbelow
  obtain ⟨hA, ⟨-, hB, -⟩, hAB⟩ := hbelow
  refine separated_iff.mpr ⟨⟨List.pairwise_append.mpr ⟨hA, hB, fun a ha b hb => ?_⟩, fun e he => ?_,
    hA'.right⟩, hF.left, fun hne x hx => ?_, fun b hb => ⟨(hright b hb).1, fun x hx => ?_⟩⟩
  · exact hAB a ha b (List.mem_append_right _ hb)
  · refine hA'.left e ?_
    cases A with
    | nil => cases he
    | cons a A => exact List.mem_append_left _ he
  · rcases List.mem_append.mp hx with hx | hx
    · exact hF.own hne x hx
    · exact hkk.le.trans (hF'.own (by simp) x hx)
  · rcases List.mem_append.mp hx with hx | hx
    · exact (hright b hb).2 x hx
    · exact (hF'.right b hb).2 x hx

/-- A group is divided in front of one of its keys, which becomes the separator. -/
theorem divide_iff (h : Separated (A ++ (k, l ++ l') :: B)) {e : κ} (he : e ∈ l')
    (hl : ∀ x ∈ l, x < e) (hl' : ∀ x ∈ l', e ≤ x) :
    Separated (A ++ (k, l) :: (e, l') :: B) ↔ k < e := by
  obtain ⟨hA, hF⟩ := separated_iff.mp h
  have hbelow := List.pairwise_append.mp hA.below
  have happend : A ++ (k, l) :: (e, l') :: B = (A ++ [(k, l)]) ++ (e, l') :: B := by simp
  rw [happend, separated_iff]
  constructor
  · rintro ⟨-, hF'⟩
    exact (hF'.left (k, l) (by simp)).1
  · intro hke
    -- the left part stands where the whole group stood
    have hleft : Separated (A ++ (k, l) :: B) :=
      h.mono fun x hx => List.mem_append_left _ hx
    refine ⟨⟨?_, fun d hd => ?_, hA.right⟩, fun a ha => ?_, fun _ => hl', fun b hb => ?_⟩
    · rw [List.append_assoc]
      exact hleft.below
    · rcases List.eq_nil_or_concat A with rfl | ⟨A', z, rfl⟩
      · cases hd
      · have hd' : d ∈ (A'.concat z).tail ∨ d = (k, l) := by
          rw [List.tail_append_of_ne_nil (by simp)] at hd
          simpa using hd
        rcases hd' with hd | rfl
        · exact hA.left d hd
        · exact fun x hx => hF.own (by simp) x (List.mem_append_left _ hx)
    · rcases List.mem_append.mp ha with ha | ha
      · exact (hF.left a ha).trans hke.le
      · obtain rfl := List.mem_singleton.mp ha
        exact ⟨hke, hl⟩
    · have hb' := hF.right b hb
      exact ⟨hb'.2 e (List.mem_append_right _ he), fun x hx => hb'.2 x (List.mem_append_right _ hx)⟩

end Separated

end Separators
