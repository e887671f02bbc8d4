import Mathlib

/-!
# Computations that may panic

`Comp σ α` is a computation on a state `σ` that returns an `α` or panics.
`Simulates P Q m f` says that `m`, started in a state that `P` relates to one of
the pure transformer `f`, does not panic, returns what `f` returns and ends in a
state that `Q` relates to that of `f`. So it is both safety of `m` and equality
with `f`; the rules follow how computations are put together.
-/

namespace Simulation

variable {σ τ α β : Type}

/-- `none` is a panic. -/
abbrev Comp (σ : Type) := StateT σ Option

@[simp] theorem run_pure (a : α) (s : σ) : (pure a : Comp σ α) s = some (a, s) := rfl

@[simp] theorem run_get (s : σ) : (get : Comp σ σ) s = some (s, s) := rfl

@[simp] theorem run_set (s s' : σ) : (set s' : Comp σ PUnit) s = some (⟨⟩, s') := rfl

@[simp] theorem run_bind (m : Comp σ α) (k : α → Comp σ β) (s : σ) :
    (m >>= k) s = (m s).bind fun p => k p.1 p.2 := rfl

def Simulates (P Q : σ → τ → Prop) (m : Comp σ α) (f : τ → α × τ) : Prop :=
  ∀ s t, P s t → ∃ s', m s = some ((f t).1, s') ∧ Q s' (f t).2

/-- The same from one state `t` of the transformer, with what it returns there. -/
def Returns (P Q : σ → τ → Prop) (t : τ) (m : Comp σ α) (out : α × τ) : Prop :=
  ∀ s, P s t → ∃ s', m s = some (out.1, s') ∧ Q s' out.2

variable {P Q R : σ → τ → Prop} {t : τ}

variable {m : Comp σ α} {f : τ → α × τ}

theorem simulates_of_returns (h : ∀ t, Returns P Q t m (f t)) : Simulates P Q m f :=
  fun s t hs => h t s hs

theorem Simulates.returns (h : Simulates P Q m f) (t : τ) : Returns P Q t m (f t) :=
  fun s hs => h s t hs

theorem returns_pure (a : α) : Returns P P t (pure a : Comp σ α) (a, t) :=
  fun s h => ⟨s, rfl, h⟩

/-- First `m`, and then what follows it from where `m` ends and with the value it returns. -/
theorem Returns.bind {mid : α × τ} {k : α → Comp σ β} {out : β × τ} (hm : Returns P Q t m mid)
    (hk : Returns Q R mid.2 (k mid.1) out) : Returns P R t (m >>= k) out := by
  intro s h
  obtain ⟨s₁, hrun, h₁⟩ := hm s h
  obtain ⟨s₂, hrest, h₂⟩ := hk s₁ h₁
  refine ⟨s₂, ?_, h₂⟩
  rw [run_bind, hrun]
  exact hrest

/-- A first part that is simulated. -/
theorem Simulates.andThen {k : α → Comp σ β} {out : β × τ} (hm : Simulates P Q m f)
    (hk : Returns Q R (f t).2 (k (f t).1) out) : Returns P R t (m >>= k) out :=
  (hm.returns t).bind hk

end Simulation
