import Mathlib.Tactic.Common
import Mathlib.Tactic.Ring
import Rucbase.Lib.StateExcept

/-!
# Output to a bounded buffer

Programs that append to a buffer of a fixed capacity.  `Appends pos cap full m n a` says that `m`
appends exactly `n` bytes and returns `a`: it moves the position on by `n`, and stops with `full` if
there is no room for that many.  The amounts add up (`Appends.bind`, `Appends.forM`,
`Appends.foldlM`), so a program that only appends fits into the buffer exactly if their sum does.
-/

namespace Output

variable {ε σ α β : Type}

/-- `m` appends `n` bytes and returns `a`, or finds no room for them. -/
def Appends (pos : σ → Int) (cap : Int) (full : ε) (m : EStateM ε σ α) (n : Nat) (a : α) : Prop :=
  ∀ s, 0 ≤ pos s → pos s ≤ cap →
    if pos s + n ≤ cap then ∃ s', m s = .ok a s' ∧ pos s' = pos s + n
    else ∃ s', m s = .error full s'

namespace Appends

variable {pos : σ → Int} {cap : Int} {full : ε} {m : EStateM ε σ α} {n n' : Nat} {a : α}

theorem pure (a : α) : Appends pos cap full (pure a) 0 a := by
  intro s _ hs
  rw [if_pos (by simpa using hs)]
  exact ⟨s, rfl, by simp⟩

/-- One program after another. -/
theorem bind {f : α → EStateM ε σ β} {b : β} (hm : Appends pos cap full m n a)
    (hf : Appends pos cap full (f a) n' b) : Appends pos cap full (m >>= f) (n + n') b := by
  intro s hs0 hs
  have hfirst := hm s hs0 hs
  by_cases hn : pos s + n ≤ cap
  · rw [if_pos hn] at hfirst
    obtain ⟨s₁, hm₁, hpos₁⟩ := hfirst
    have hsum : pos s + ((n + n' : Nat) : Int) = pos s₁ + n' := by
      rw [hpos₁, Int.natCast_add, Int.add_assoc]
    rw [hsum, EStateM.bind_of_ok hm₁]
    exact hf s₁ (by omega) (by omega)
  · rw [if_neg hn] at hfirst
    obtain ⟨s₁, hm₁⟩ := hfirst
    rw [if_neg (by omega), EStateM.bind_of_error hm₁]
    exact ⟨s₁, rfl⟩

/-- One program after another, without a value between them. -/
theorem seq {m' : EStateM ε σ β} {b : β} (hm : Appends pos cap full m n a)
    (hm' : Appends pos cap full m' n' b) : Appends pos cap full (m >>= fun _ => m') (n + n') b :=
  hm.bind hm'

/-- A loop whose rounds append the same amount each. -/
theorem forM {f : β → EStateM ε σ Unit} {l : List β}
    (hf : ∀ x ∈ l, Appends pos cap full (f x) n ()) :
    Appends pos cap full (l.forM f) (l.length * n) () := by
  induction l with
  | nil =>
    rw [List.length_nil, Nat.zero_mul]
    exact pure ()
  | cons x l ih =>
    rw [List.forall_mem_cons] at hf
    have hlength : (x :: l).length * n = n + l.length * n := by
      rw [List.length_cons]
      ring
    rw [hlength]
    exact hf.1.seq (ih hf.2)

/-- A loop that carries a value. -/
theorem foldlM {f : α → β → EStateM ε σ α} {g : α → β → α} {l : List β}
    (hf : ∀ a, ∀ x ∈ l, Appends pos cap full (f a x) n (g a x)) (a : α) :
    Appends pos cap full (l.foldlM f a) (l.length * n) (l.foldl g a) := by
  induction l generalizing a with
  | nil =>
    rw [List.length_nil, Nat.zero_mul]
    exact pure a
  | cons x l ih =>
    have hlength : (x :: l).length * n = n + l.length * n := by
      rw [List.length_cons]
      ring
    rw [hlength, List.foldlM_cons]
    exact (hf a x List.mem_cons_self).bind
      (ih (fun a y hy => hf a y (List.mem_cons_of_mem _ hy)) (g a x))

end Appends

end Output
