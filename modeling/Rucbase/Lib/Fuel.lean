import Rucbase.Lib.StateExcept

/-!
# Programs with a number of rounds

A recursion whose depth is not known in advance gets a number of rounds and throws when it has used
it up.  Such a program only gains results with more rounds (`Below`), so what it returns does not
depend on their number (`Returns.eq_of_ok`).
-/

namespace EStateM

variable {ε σ α β : Type}

/-- Whatever `x` returns, `y` returns. -/
def Below (x y : EStateM ε σ α) : Prop := ∀ s a s', x s = .ok a s' → y s = .ok a s'

namespace Below

variable {x y : EStateM ε σ α} {f g : α → EStateM ε σ β}

theorem refl (x : EStateM ε σ α) : Below x x := fun _ _ _ h => h

theorem throw (e : ε) (y : EStateM ε σ α) : Below (MonadExcept.throw e) y := by
  intro s a s' h
  cases h

theorem bind (hx : Below x y) (hf : ∀ a, Below (f a) (g a)) : Below (x >>= f) (y >>= g) := by
  intro s b s' h
  cases hxs : x s with
  | error e t =>
    rw [bind_of_error hxs] at h
    cases h
  | ok a t =>
    rw [bind_of_ok hxs] at h
    rw [bind_of_ok (hx s a t hxs)]
    exact hf a t b s' h

/-- The first part is the same on both sides. -/
theorem bind_right (x : EStateM ε σ α) (hf : ∀ a, Below (f a) (g a)) : Below (x >>= f) (x >>= g) :=
  (refl x).bind hf

theorem ite {p : Prop} [Decidable p] {x y x' y' : EStateM ε σ α} (h : Below x x')
    (h' : Below y y') : Below (if p then x else y) (if p then x' else y') := by
  by_cases hp : p
  · rw [if_pos hp, if_pos hp]
    exact h
  · rw [if_neg hp, if_neg hp]
    exact h'

/-- A function of the number of rounds that gains results with each one. -/
theorem of_le {op : Nat → EStateM ε σ α} (hop : ∀ n, Below (op n) (op (n + 1))) {m n : Nat}
    (hle : m ≤ n) : Below (op m) (op n) := by
  induction hle with
  | refl => exact refl _
  | step _ ih => exact fun s a s' h => hop _ s a s' (ih s a s' h)

end Below

/-- The program returns, if it gets enough rounds. -/
def Returns (op : Nat → EStateM ε σ α) (s : σ) (a : α) (s' : σ) : Prop :=
  ∃ rounds, op rounds s = .ok a s'

/-- **The number of rounds does not matter**, as long as there are enough. -/
theorem Returns.eq_of_ok {op : Nat → EStateM ε σ α} (hop : ∀ n, Below (op n) (op (n + 1)))
    {s s' t : σ} {a b : α} (h : Returns op s a s') {N : Nat} (hN : op N s = .ok b t) :
    a = b ∧ s' = t := by
  obtain ⟨n, hn⟩ := h
  have h1 := Below.of_le hop (Nat.le_max_left n N) s a s' hn
  have h2 := Below.of_le hop (Nat.le_max_right n N) s b t hN
  rw [h1] at h2
  exact ⟨(Result.ok.inj h2).1, (Result.ok.inj h2).2⟩

end EStateM
