import Watcher.Lib.Run

/-!
# Programs that look at a system while it runs

A program that only reads sees a state that others keep changing: between two of
its reads the system takes any number of steps, so what it answers need not be
true of any one state. `Reads` is such a program, `Observed` says what it can
answer along a run of the system.

## Key results

- `Reach.became`: what is true at the end of a run and was not at its beginning
  has become true in one of its steps
- `observed_bind`, `observed_look`: a program is observed read by read
-/

namespace Run

universe u v

/-! ### From one state to a later one -/

section Reach

variable {σ : Type u} {α : Type v} {step : σ → α → Option σ} {s m t : σ}

/-- The system can come from the one state to the other. -/
def Reach (step : σ → α → Option σ) (s t : σ) : Prop := ∃ as, runSteps step s as = some t

/-- It holds at some moment on the way from the one state to the other. -/
def Sometime (step : σ → α → Option σ) (s t : σ) (P : σ → Prop) : Prop :=
  ∃ m, Reach step s m ∧ Reach step m t ∧ P m

namespace Reach

/-- A run without steps. -/
theorem refl (step : σ → α → Option σ) (s : σ) : Reach step s s := ⟨[], rfl⟩

/-- Two runs after another. -/
theorem trans (h : Reach step s m) (h' : Reach step m t) : Reach step s t := by
  obtain ⟨as, has⟩ := h
  obtain ⟨bs, hbs⟩ := h'
  exact ⟨as ++ bs, by rw [runSteps_append, has, Option.bind_some, hbs]⟩

/-- What every step preserves holds of every later state. -/
theorem invariant {I : σ → Prop} (hstep : ∀ {s a s'}, I s → step s a = some s' → I s')
    (h : Reach step s t) (hI : I s) : I t := by
  obtain ⟨as, has⟩ := h
  exact runSteps_invariant hstep hI has

/-- There is a step in which it became true. -/
theorem became {K : σ → Prop} (h : Reach step s t) (hs : ¬ K s) (ht : K t) :
    ∃ m a m', Reach step s m ∧ step m a = some m' ∧ Reach step m' t ∧ ¬ K m ∧ K m' := by
  obtain ⟨as, has⟩ := h
  induction as generalizing s with
  | nil =>
    rw [runSteps_nil, Option.some.injEq] at has
    exact absurd (has ▸ ht) hs
  | cons a as ih =>
    rw [runSteps_cons, Option.bind_eq_some_iff] at has
    obtain ⟨s₁, h₁, hrest⟩ := has
    by_cases hK : K s₁
    · exact ⟨s, a, s₁, refl step s, h₁, ⟨as, hrest⟩, hs, hK⟩
    · obtain ⟨m, b, m', hm, hstep, hm'⟩ := ih hK hrest
      have hfirst : Reach step s s₁ := ⟨[a], by rw [runSteps_cons, h₁]; rfl⟩
      exact ⟨m, b, m', hfirst.trans hm, hstep, hm'⟩

end Reach

/-- The way may be longer on both sides. -/
theorem Sometime.widen {s' t' : σ} {P : σ → Prop} (h : Sometime step s t P)
    (hs : Reach step s' s) (ht : Reach step t t') : Sometime step s' t' P := by
  obtain ⟨m, hm, hm', hP⟩ := h
  exact ⟨m, hs.trans hm, hm'.trans ht, hP⟩

end Reach

/-! ### Programs of reads -/

/-- A program that reads the state again and again and then answers. -/
inductive Reads (σ : Type u) (β : Type) : Type (max u 1) where
  | answer (b : β)
  | read {γ : Type} (f : σ → γ) (next : γ → Reads σ β)

namespace Reads

variable {σ : Type u} {β γ : Type}

/-- The second program goes on with what the first one answers. -/
def bind : Reads σ β → (β → Reads σ γ) → Reads σ γ
  | .answer b, next => next b
  | .read f rest, next => .read f fun x => (rest x).bind next

instance : Monad (Reads σ) where
  pure := .answer
  bind := .bind

/-- One read. -/
def look (f : σ → β) : Reads σ β := .read f .answer

end Reads

section Observed

variable {σ : Type u} {α : Type v} {step : σ → α → Option σ} {β γ : Type} {s m t : σ}

/-- Begun in the one state the program can have answered by the other: every read is made in some
    state in between, the next one in the same or a later state. -/
inductive Observed (step : σ → α → Option σ) : {β : Type} → σ → Reads σ β → σ → β → Prop
  | answer {β : Type} {s t : σ} {b : β} (h : Reach step s t) : Observed step s (.answer b) t b
  | read {β γ : Type} {s m t : σ} {f : σ → γ} {next : γ → Reads σ β} {b : β}
      (h : Reach step s m) (h' : Observed step m (next (f m)) t b) :
      Observed step s (.read f next) t b

/-- The answer, and the state it is given in, if the system takes these steps before each read and
    before the answer. -/
def Reads.follow (step : σ → α → Option σ) (s : σ) : Reads σ β → List (List α) → Option (σ × β)
  | .answer b, [as] => (runSteps step s as).map (·, b)
  | .read f next, as :: rest => (runSteps step s as).bind fun m => (next (f m)).follow step m rest
  | _, _ => none

variable {x : Reads σ β} {b : β}

/-- What is computed can be observed. -/
theorem observed_of_follow (ass : List (List α)) (h : x.follow step s ass = some (t, b)) :
    Observed step s x t b := by
  induction x generalizing s ass with
  | answer b' =>
    cases ass with
    | nil => cases h
    | cons as rest =>
      cases rest with
      | nil =>
        obtain ⟨m, hm, heq⟩ := Option.map_eq_some_iff.mp h
        obtain ⟨rfl, rfl⟩ := Prod.mk.inj heq
        exact .answer ⟨as, hm⟩
      | cons _ _ => cases h
  | read f next ih =>
    cases ass with
    | nil => cases h
    | cons as rest =>
      obtain ⟨m, hm, hrest⟩ := Option.bind_eq_some_iff.mp h
      exact .read ⟨as, hm⟩ (ih _ rest hrest)

/-- The answer comes later. -/
theorem Observed.reach (h : Observed step s x t b) : Reach step s t := by
  induction h with
  | answer h => exact h
  | read h _ ih => exact h.trans ih

/-- A program may as well have been begun before. -/
theorem Observed.of_reach (h : Reach step s m) (h' : Observed step m x t b) :
    Observed step s x t b := by
  cases h' with
  | answer hm => exact .answer (h.trans hm)
  | read hm hrest => exact .read (h.trans hm) hrest

/-- And it may have been waited for longer. -/
theorem Observed.to_reach (h : Observed step s x m b) (h' : Reach step m t) :
    Observed step s x t b := by
  induction h with
  | answer h => exact .answer (h.trans h')
  | read h _ ih => exact .read h (ih h')

@[simp] theorem observed_pure {c : β} : Observed step s (pure b) t c ↔ Reach step s t ∧ c = b := by
  constructor
  · intro h
    cases h with
    | answer h => exact ⟨h, rfl⟩
  · rintro ⟨h, rfl⟩
    exact .answer h

@[simp] theorem observed_look {f : σ → β} :
    Observed step s (Reads.look f) t b ↔ ∃ m, Reach step s m ∧ Reach step m t ∧ b = f m := by
  constructor
  · intro h
    cases h with
    | read hm hrest =>
      cases hrest with
      | answer h => exact ⟨_, hm, h, rfl⟩
  · rintro ⟨m, hm, h, rfl⟩
    exact .read hm (.answer h)

/-- One program after the other. -/
@[simp] theorem observed_bind {next : β → Reads σ γ} {c : γ} :
    Observed step s (x >>= next) t c ↔
      ∃ m b, Observed step s x m b ∧ Observed step m (next b) t c := by
  induction x generalizing s with
  | answer b =>
    constructor
    · intro h
      exact ⟨s, b, .answer (.refl step s), h⟩
    · rintro ⟨m, b', hx, hnext⟩
      obtain ⟨hm, rfl⟩ := observed_pure.mp hx
      exact .of_reach hm hnext
  | read f rest ih =>
    constructor
    · intro h
      cases h with
      | read hm hrest =>
        obtain ⟨m', b, hx, hnext⟩ := (ih _).mp hrest
        exact ⟨m', b, .read hm hx, hnext⟩
    · rintro ⟨m, b, hx, hnext⟩
      cases hx with
      | read hm hrest => exact .read hm ((ih _).mpr ⟨m, b, hrest, hnext⟩)

end Observed

end Run
