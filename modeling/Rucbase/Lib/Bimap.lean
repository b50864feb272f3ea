import Mathlib.Logic.Function.Basic
import Mathlib.Tactic.Common

/-!
# Tables in two directions

Two partial functions, one from keys to values and one back, that are inverse to each other.  They
stay so when a new pair is put into both of them, or a pair is taken out of both.
-/

/-- The two tables hold the same pairs. -/
def Bimap {α β : Type} (f : α → Option β) (g : β → Option α) : Prop :=
  ∀ a b, f a = some b ↔ g b = some a

namespace Bimap

variable {α β : Type} {f : α → Option β} {g : β → Option α}

theorem empty : Bimap (fun _ : α => (none : Option β)) fun _ => none := by
  intro a b
  simp

/-- The value of a pair is in no other pair. -/
theorem eq_of_eq_some (h : Bimap f g) {a a' : α} {b : β} (ha : f a = some b)
    (ha' : f a' = some b) : a = a' := by
  rw [h] at ha ha'
  exact Option.some.inj (ha.symm.trans ha')

variable [DecidableEq α] [DecidableEq β]

/-- A pair whose parts are both new is put in. -/
theorem insert (h : Bimap f g) {a : α} {b : β} (ha : f a = none) (hb : g b = none) :
    Bimap (Function.update f a (some b)) (Function.update g b (some a)) := by
  intro a' b'
  rcases eq_or_ne a' a with rfl | hne <;> rcases eq_or_ne b' b with rfl | hne'
  · simp
  · -- `a` had no value before
    have hold : g b' ≠ some a' := by
      rw [ne_eq, ← h, ha]
      simp
    simp [hne', hne'.symm, hold]
  · have hold : f a' ≠ some b' := by
      rw [ne_eq, h, hb]
      simp
    simp [hne, hne.symm, hold]
  · rw [Function.update_of_ne hne, Function.update_of_ne hne']
    exact h a' b'

/-- A pair is taken out. -/
theorem erase (h : Bimap f g) {a : α} {b : β} (hab : f a = some b) :
    Bimap (Function.update f a none) (Function.update g b none) := by
  intro a' b'
  rcases eq_or_ne a' a with rfl | hne <;> rcases eq_or_ne b' b with rfl | hne'
  · simp
  · have hold : g b' ≠ some a' := by
      rw [ne_eq, ← h, hab, Option.some.injEq]
      exact hne'.symm
    simp [hne', hold]
  · have hold : f a' ≠ some b' := fun ha' => hne (h.eq_of_eq_some ha' hab)
    simp [hne, hold]
  · rw [Function.update_of_ne hne, Function.update_of_ne hne']
    exact h a' b'

end Bimap
