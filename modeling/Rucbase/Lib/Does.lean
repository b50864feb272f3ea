import Rucbase.Lib.Run
import Rucbase.Lib.StateExcept

/-!
# Programs seen through a view of their state

`Does view x t a t'`: from every state that looks like `t`, the program `x` returns `a` and ends in a
state that looks like `t'`.  What the view leaves out may differ from run to run.  The rules follow
the program: `bind`, `get_bind`, `modify`.

`Reaches view x t y t'` stops on the way: from every state that looks like `t`, the program `x` comes
to a state that looks like `t'` with `y` left to do.

`Fails view x t`: from every state that looks like `t`, the program `x` ends by an exception.
-/

namespace EStateM

variable {ε σ τ α β : Type} {view : σ → τ} {t t' t'' : τ} {a : α} {b : β}

/-- From every state that looks like `t` the program returns `a` and ends in one that looks like
`t'`. -/
def Does (view : σ → τ) (x : EStateM ε σ α) (t : τ) (a : α) (t' : τ) : Prop :=
  ∀ s, view s = t → ∃ s', x s = .ok a s' ∧ view s' = t'

namespace Does

variable {x : EStateM ε σ α} {f : α → EStateM ε σ β}

theorem pure : Does view (Pure.pure a : EStateM ε σ α) t a t := fun s hs => ⟨s, rfl, hs⟩

theorem bind (hx : Does view x t a t') (hf : Does view (f a) t' b t'') :
    Does view (x >>= f) t b t'' := by
  intro s hs
  obtain ⟨s₁, h1, hs1⟩ := hx s hs
  obtain ⟨s₂, h2, hs2⟩ := hf s₁ hs1
  exact ⟨s₂, by rw [bind_of_ok h1, h2], hs2⟩

/-- The rest of the program may use whatever it finds in the state. -/
theorem get_bind {f : σ → EStateM ε σ β} (h : ∀ s, view s = t → Does view (f s) t b t') :
    Does view ((get : EStateM ε σ σ) >>= f) t b t' := by
  intro s hs
  exact h s hs s hs

theorem modifies {g : σ → σ} (h : ∀ s, view s = t → view (g s) = t') :
    Does view (modify g : EStateM ε σ PUnit) t ⟨⟩ t' := fun s hs => ⟨g s, rfl, h s hs⟩

/-- The first part may return what the view does not show, as long as the rest comes to the same. -/
theorem bind_exists
    (h : ∀ s, view s = t → ∃ a s', x s = .ok a s' ∧ Does view (f a) (view s') b t') :
    Does view (x >>= f) t b t' := by
  intro s hs
  obtain ⟨a, s₁, h1, hf⟩ := h s hs
  rw [bind_of_ok h1]
  exact hf s₁ rfl

/-- A list of calls, each of which does what a machine does. -/
theorem mapM_answers {γ : Type} {x : γ → EStateM ε σ β} {f : τ → γ → β × τ} {C : τ → γ → Prop}
    (hstep : ∀ t c, C t c → Does view (x c) t (f t c).1 (f t c).2) {l : List γ} {t : τ}
    (h : Meets C f t l) : Does view (l.mapM x) t (answers f t l).1 (answers f t l).2 := by
  induction l generalizing t with
  | nil => exact .pure
  | cons c l ih =>
    rw [List.mapM_cons]
    exact .bind (hstep t c h.1) (.bind (ih h.2) .pure)

/-- From one view of the state to a coarser one. -/
theorem coarsen {υ : Type} {g : τ → υ} {u u' : υ}
    (h : ∀ t, g t = u → ∃ t', Does view x t a t' ∧ g t' = u') :
    Does (fun s => g (view s)) x u a u' := by
  intro s hs
  obtain ⟨t', hdoes, ht'⟩ := h (view s) hs
  obtain ⟨s', hrun, hs'⟩ := hdoes s rfl
  subst hs'
  exact ⟨s', hrun, ht'⟩

end Does

/-- From every state that looks like `t` the program `x` comes to a state that looks like `t'`, where
`y` is left to do. -/
def Reaches (view : σ → τ) (x : EStateM ε σ α) (t : τ) (y : EStateM ε σ α) (t' : τ) : Prop :=
  ∀ s, view s = t → ∃ s', view s' = t' ∧ x s = y s'

namespace Reaches

variable {x y z : EStateM ε σ α} {f : α → EStateM ε σ β}

theorem refl (view : σ → τ) (x : EStateM ε σ α) (t : τ) : Reaches view x t x t :=
  fun s hs => ⟨s, hs, rfl⟩

theorem trans (hx : Reaches view x t y t') (hy : Reaches view y t' z t'') :
    Reaches view x t z t'' := by
  intro s hs
  obtain ⟨s₁, hs₁, h1⟩ := hx s hs
  obtain ⟨s₂, hs₂, h2⟩ := hy s₁ hs₁
  exact ⟨s₂, hs₂, h1.trans h2⟩

/-- The first part of the program is done. -/
theorem of_does (hx : Does view x t a t') : Reaches view (x >>= f) t (f a) t' := by
  intro s hs
  obtain ⟨s', h, hs'⟩ := hx s hs
  exact ⟨s', hs', bind_of_ok h⟩

theorem bind (hx : Reaches view x t y t') : Reaches view (x >>= f) t (y >>= f) t' := by
  intro s hs
  obtain ⟨s', hs', h⟩ := hx s hs
  refine ⟨s', hs', ?_⟩
  show EStateM.bind x f s = EStateM.bind y f s'
  unfold EStateM.bind
  rw [h]

theorem get_bind {f : σ → EStateM ε σ β} {y : EStateM ε σ β}
    (h : ∀ s, view s = t → Reaches view (f s) t y t') :
    Reaches view ((get : EStateM ε σ σ) >>= f) t y t' := by
  intro s hs
  exact h s hs s hs

/-- Nothing is left to do. -/
theorem pure_iff : Reaches view x t (Pure.pure a) t' ↔ Does view x t a t' := by
  constructor
  · intro h s hs
    obtain ⟨s', hs', hx⟩ := h s hs
    exact ⟨s', hx, hs'⟩
  · intro h s hs
    obtain ⟨s', hx, hs'⟩ := h s hs
    exact ⟨s', hs', hx⟩

end Reaches

/-- From every state that looks like `t` the program ends by an exception. -/
def Fails (view : σ → τ) (x : EStateM ε σ α) (t : τ) : Prop :=
  ∀ s, view s = t → ∃ e s', x s = .error e s'

theorem Fails.bind {x : EStateM ε σ α} {f : α → EStateM ε σ β} (hx : Fails view x t) :
    Fails view (x >>= f) t := by
  intro s hs
  obtain ⟨e, s', h⟩ := hx s hs
  exact ⟨e, s', bind_of_error h⟩

theorem Fails.get_bind {f : σ → EStateM ε σ β} (h : ∀ s, view s = t → Fails view (f s) t) :
    Fails view ((get : EStateM ε σ σ) >>= f) t := fun s hs => h s hs s hs

theorem Reaches.fails {x y : EStateM ε σ α} (hx : Reaches view x t y t') (hy : Fails view y t') :
    Fails view x t := by
  intro s hs
  obtain ⟨s₁, hs₁, h1⟩ := hx s hs
  obtain ⟨e, s', h2⟩ := hy s₁ hs₁
  exact ⟨e, s', h1.trans h2⟩

end EStateM
