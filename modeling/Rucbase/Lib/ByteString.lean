import Mathlib.Tactic.Common
import Mathlib.Order.Basic

/-!
# Comparing byte strings

`memcmp` compares the first `n` bytes of two buffers, `padCompare` two strings of any lengths as if
the shorter one were filled up with zero bytes.  `memcmp_append` splits a comparison at any place;
from it follows how comparing over the length of one of the strings differs from comparing padded
strings (`memcmp_short`).  On strings of one length `memcmp` is the lexicographic order by bytes
(`memcmp_neg_iff`), and padding keeps that order if the strings have no zero bytes
(`pad_lt_pad_iff`).
-/

namespace ByteString

/-- `memcmp(a, b, n)`, as a sign; both buffers hold at least `n` bytes. -/
def memcmp : List UInt8 → List UInt8 → Nat → Int
  | a :: as, b :: bs, n + 1 => if a < b then -1 else if b < a then 1 else memcmp as bs n
  | _, _, _ => 0

/-- The string filled up with zero bytes. -/
def pad (n : Nat) (a : List UInt8) : List UInt8 := a ++ .replicate (n - a.length) 0

/-- The order of two strings, filled up with zero bytes to one length. -/
def padCompare (a b : List UInt8) : Int :=
  memcmp (pad (max a.length b.length) a) (pad (max a.length b.length) b) (max a.length b.length)

variable {a a' b b' : List UInt8} {n k : Nat}

@[simp]
theorem memcmp_zero (a b : List UInt8) : memcmp a b 0 = 0 := by
  unfold memcmp
  split
  · next h => cases h
  · rfl

@[simp]
theorem memcmp_self (a : List UInt8) (n : Nat) : memcmp a a n = 0 := by
  induction a generalizing n with
  | nil => rfl
  | cons x a ih =>
    cases n with
    | zero => simp
    | succ n => simp [memcmp, ih]

/-- The three results. -/
theorem memcmp_sign (a b : List UInt8) (n : Nat) :
    memcmp a b n = -1 ∨ memcmp a b n = 0 ∨ memcmp a b n = 1 := by
  induction n generalizing a b with
  | zero => simp
  | succ n ih =>
    cases a with
    | nil => simp [memcmp]
    | cons x a =>
      cases b with
      | nil => simp [memcmp]
      | cons y b =>
        rw [memcmp]
        split_ifs
        · exact Or.inl rfl
        · exact Or.inr (Or.inr rfl)
        · exact ih a b

/-- Swapping the buffers changes the sign. -/
theorem memcmp_swap (a b : List UInt8) (n : Nat) : memcmp b a n = -memcmp a b n := by
  induction n generalizing a b with
  | zero => simp
  | succ n ih =>
    cases a with
    | nil => cases b <;> rfl
    | cons x a =>
      cases b with
      | nil => rfl
      | cons y b =>
        simp only [memcmp]
        by_cases hlt : x < y
        · rw [if_pos hlt, if_neg (UInt8.lt_asymm hlt), if_pos hlt, Int.neg_neg]
        · rw [if_neg hlt, if_neg hlt]
          by_cases hgt : y < x
          · rw [if_pos hgt, if_pos hgt]
          · rw [if_neg hgt, if_neg hgt, ih]

/-- A comparison is decided by the first part unless that is equal. -/
theorem memcmp_append (h : a.length = b.length) (a' b' : List UInt8) (k : Nat) :
    memcmp (a ++ a') (b ++ b') (a.length + k) =
      if memcmp a b a.length = 0 then memcmp a' b' k else memcmp a b a.length := by
  induction a generalizing b with
  | nil =>
    obtain rfl := List.eq_nil_of_length_eq_zero h.symm
    simp
  | cons x a ih =>
    cases b with
    | nil => cases h
    | cons y b =>
      have ih := ih (Nat.succ.inj h)
      rw [List.length_cons, Nat.add_right_comm]
      simp only [List.cons_append, memcmp]
      split_ifs <;> simp_all

/-- Only the first `n` bytes matter. -/
theorem memcmp_take (a b : List UInt8) (n : Nat) : memcmp a (b.take n) n = memcmp a b n := by
  induction n generalizing a b with
  | zero => simp
  | succ n ih =>
    cases a with
    | nil => cases b <;> rfl
    | cons x a =>
      cases b with
      | nil => rfl
      | cons y b => simp only [List.take_succ_cons, memcmp, ih]

theorem take_memcmp (a b : List UInt8) (n : Nat) : memcmp (a.take n) b n = memcmp a b n := by
  rw [memcmp_swap, memcmp_take, ← memcmp_swap]

/-- Zero bytes come first. -/
theorem memcmp_zeros (b : List UInt8) (k : Nat) : memcmp (.replicate k 0) b k ≤ 0 := by
  induction k generalizing b with
  | zero => simp
  | succ k ih =>
    cases b with
    | nil => simp [memcmp]
    | cons y b =>
      simp only [List.replicate_succ, memcmp]
      by_cases hlt : (0 : UInt8) < y
      · simp [hlt]
      · have : ¬y < 0 := by simp
        simpa [hlt, this] using ih b

theorem padCompare_swap (a b : List UInt8) : padCompare b a = -padCompare a b := by
  unfold padCompare
  rw [Nat.max_comm, memcmp_swap]

/-- Strings of one length. -/
theorem padCompare_of_length_eq (h : a.length = b.length) :
    padCompare a b = memcmp a b a.length := by
  simp [padCompare, pad, h]

/-- A shorter string against a longer one: the first bytes decide unless they are equal. -/
theorem padCompare_of_length_le (h : a.length ≤ b.length) :
    padCompare a b = if memcmp a b a.length = 0
      then memcmp (.replicate (b.length - a.length) 0) (b.drop a.length) (b.length - a.length)
      else memcmp a b a.length := by
  have hsplit := memcmp_append (a := a) (b := b.take a.length) (by simp [h])
    (.replicate (b.length - a.length) 0) (b.drop a.length) (b.length - a.length)
  rw [List.take_append_drop, Nat.add_sub_cancel' h, memcmp_take] at hsplit
  simp only [padCompare, pad, Nat.max_eq_right h, Nat.sub_self, List.replicate_zero,
    List.append_nil]
  exact hsplit

/-- Comparing over the length of the shorter string can only miss that the longer one is greater. -/
theorem memcmp_short (h : a.length ≤ b.length) :
    0 < memcmp a b a.length ↔ 0 < padCompare a b := by
  rw [padCompare_of_length_le h]
  split_ifs with h0
  · have := memcmp_zeros (b.drop a.length) (b.length - a.length)
    omega
  · rfl

/-- Behind a common part the first bytes decide. -/
theorem memcmp_append_cons {x y : UInt8} (hlt : x < y) (a a' b' : List UInt8) (h : a.length < n) :
    memcmp (a ++ x :: a') (a ++ y :: b') n = -1 := by
  obtain ⟨k, rfl⟩ := Nat.exists_eq_add_of_lt h
  rw [Nat.add_assoc, memcmp_append rfl, memcmp_self, if_pos rfl]
  simp [memcmp, hlt]

/-- A string is greater than a shorter part of it that does not end in front of a zero byte. -/
theorem padCompare_append_cons {x : UInt8} (hx : 0 < x) (a a' : List UInt8) :
    padCompare (a ++ x :: a') a = 1 := by
  have hself : memcmp a (a ++ x :: a') a.length = 0 := by
    rw [← memcmp_take, List.take_left, memcmp_self]
  rw [padCompare_swap, padCompare_of_length_le (by simp), if_pos hself, List.drop_left]
  simp [List.replicate_succ, memcmp, hx]

/-- No part of a string is greater than it. -/
theorem padCompare_take_nonneg (a : List UInt8) (k : Nat) : 0 ≤ padCompare a (a.take k) := by
  have hself : memcmp (a.take k) a (a.take k).length = 0 := by
    rcases Nat.le_total k a.length with hk | hk
    · rw [List.length_take_of_le hk, take_memcmp, memcmp_self]
    · rw [List.take_of_length_le hk, memcmp_self]
  have hzeros := memcmp_zeros (a.drop (a.take k).length) (a.length - (a.take k).length)
  rw [padCompare_swap, padCompare_of_length_le (List.take_sublist k a).length_le, if_pos hself]
  omega

/-! ### The lexicographic order -/

/-- On buffers of one length `memcmp` is negative when the first one comes first by bytes. -/
theorem memcmp_neg_iff (ha : a.length = n) (hb : b.length = n) : memcmp a b n < 0 ↔ a < b := by
  induction a generalizing b n with
  | nil =>
    obtain rfl : n = 0 := ha.symm
    obtain rfl := List.eq_nil_of_length_eq_zero hb
    simp
  | cons x a ih =>
    cases b with
    | nil => exact absurd (ha.trans hb.symm) (Nat.succ_ne_zero _)
    | cons y b =>
      obtain rfl : n = a.length + 1 := ha.symm
      rw [List.cons_lt_cons_iff, memcmp]
      by_cases hlt : x < y
      · simp [hlt]
      · rw [if_neg hlt]
        by_cases hgt : y < x
        · simp [hgt, hlt, (UInt8.ne_of_lt hgt).symm]
        · have heq : x = y := UInt8.le_antisymm (UInt8.not_lt.mp hgt) (UInt8.not_lt.mp hlt)
          rw [if_neg hgt, ih rfl (Nat.succ.inj hb)]
          simp [heq]

@[simp]
theorem length_pad (h : a.length ≤ n) : (pad n a).length = n := by
  simp [pad, h]

@[simp]
theorem pad_nil (n : Nat) : pad n [] = .replicate n 0 := by
  simp [pad]

theorem pad_cons (x : UInt8) (a : List UInt8) (n : Nat) : pad (n + 1) (x :: a) = x :: pad n a := by
  simp [pad]

/-- A zero byte comes before every other byte, as the end of a string does. -/
theorem pad_lt_pad_iff (ha : a.length ≤ n) (hb : b.length ≤ n) (ha0 : 0 ∉ a) (hb0 : 0 ∉ b) :
    pad n a < pad n b ↔ a < b := by
  induction n generalizing a b with
  | zero =>
    obtain rfl := List.eq_nil_of_length_eq_zero (Nat.le_zero.mp ha)
    obtain rfl := List.eq_nil_of_length_eq_zero (Nat.le_zero.mp hb)
    simp
  | succ n ih =>
    cases a with
    | nil =>
      cases b with
      | nil => simp
      | cons y b =>
        -- the string that ends first is smaller, and so is its zero byte
        have hy : (0 : UInt8) < y := by
          rw [UInt8.pos_iff_ne_zero]
          rintro rfl
          exact hb0 (List.mem_cons_self ..)
        rw [pad_nil, List.replicate_succ, pad_cons, List.cons_lt_cons_iff]
        simp [hy]
    | cons x a =>
      have hx : x ≠ 0 := by
        rintro rfl
        exact ha0 (List.mem_cons_self ..)
      cases b with
      | nil =>
        rw [pad_nil, List.replicate_succ, pad_cons, List.cons_lt_cons_iff]
        simp [hx]
      | cons y b =>
        rw [pad_cons, pad_cons, List.cons_lt_cons_iff, List.cons_lt_cons_iff,
          ih (Nat.le_of_succ_le_succ ha) (Nat.le_of_succ_le_succ hb)
            (fun h => ha0 (List.mem_cons_of_mem x h)) fun h => hb0 (List.mem_cons_of_mem y h)]

/-- The string is in front of the zero bytes. -/
theorem takeWhile_pad (ha0 : 0 ∉ a) (n : Nat) : (pad n a).takeWhile (· ≠ 0) = a := by
  have hall : ∀ x ∈ a, decide (x ≠ 0) = true := by
    intro x hx
    rw [decide_eq_true_eq]
    rintro rfl
    exact ha0 hx
  rw [pad, List.takeWhile_append_of_pos hall]
  cases n - a.length <;> simp [List.replicate_succ]

end ByteString
