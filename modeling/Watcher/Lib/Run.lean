import Mathlib

/-!
# Runs of a guarded step function

A system is a step function `σ → α → Option σ`: `none` means that the action is
not possible in that state. A run takes a list of actions one after another.

Where a part of the state is only touched by some of the steps, the run can be
restricted to them (`runSteps_restrict`).

A machine whose steps answer is compared with another one by its answers
(`runCalls_simulates`).
-/

namespace Run

open Option

variable {σ α : Type _}

/-- The state after the actions, when each is possible in its turn. -/
def runSteps (step : σ → α → Option σ) : σ → List α → Option σ
  | s, [] => some s
  | s, a :: as => (step s a).bind fun s' => runSteps step s' as

@[simp] theorem runSteps_nil (step : σ → α → Option σ) (s : σ) : runSteps step s [] = some s := rfl

@[simp] theorem runSteps_cons (step : σ → α → Option σ) (s : σ) (a : α) (as : List α) :
    runSteps step s (a :: as) = (step s a).bind fun s' => runSteps step s' as := rfl

theorem runSteps_append (step : σ → α → Option σ) (s : σ) (as bs : List α) :
    runSteps step s (as ++ bs) = (runSteps step s as).bind fun s' => runSteps step s' bs := by
  induction as generalizing s with
  | nil => rfl
  | cons a as ih =>
    simp only [List.cons_append, runSteps_cons, bind_assoc]
    exact congrArg _ (funext ih)

/-- Where nothing is guarded every run is possible. -/
theorem runSteps_const (s : σ) (as : List α) : runSteps (fun _ _ => some s) s as = some s := by
  induction as with
  | nil => rfl
  | cons a as ih => exact ih

/-- The condition holds of every action of a run in the state it is taken in. -/
def throughout (step : σ → α → Option σ) (cond : σ → α → Bool) : σ → List α → Bool
  | _, [] => true
  | s, a :: as => cond s a && (step s a).elim true fun s' => throughout step cond s' as

/-- A condition that asks for nothing. -/
theorem throughout_true (step : σ → α → Option σ) (s : σ) (as : List α) :
    throughout step (fun _ _ => true) s as = true := by
  induction as generalizing s with
  | nil => rfl
  | cons a as ih =>
    rw [throughout, Bool.true_and]
    cases step s a with
    | none => rfl
    | some s' => exact ih s'

variable {step : σ → α → Option σ} {s s' : σ} {as : List α}

/-- What every step preserves that meets a condition holds after every run whose steps meet it. -/
theorem runSteps_invariant_of (I : σ → Prop) (cond : σ → α → Bool) (P : α → Prop)
    (hstep : ∀ {s a s'}, I s → cond s a = true → P a → step s a = some s' → I s') (hI : I s)
    (hcond : throughout step cond s as = true) (hP : ∀ a ∈ as, P a)
    (hrun : runSteps step s as = some s') : I s' := by
  induction as generalizing s with
  | nil =>
    rw [runSteps_nil, some.injEq] at hrun
    exact hrun ▸ hI
  | cons a as ih =>
    rw [runSteps_cons, bind_eq_some_iff] at hrun
    obtain ⟨s₁, h₁, hrest⟩ := hrun
    rw [throughout, h₁, elim_some, Bool.and_eq_true] at hcond
    rw [List.forall_mem_cons] at hP
    exact ih (hstep hI hcond.1 hP.1 h₁) hcond.2 hP.2 hrest

/-- What every step preserves holds after every run. -/
theorem runSteps_invariant {I : σ → Prop} (hstep : ∀ {s a s'}, I s → step s a = some s' → I s')
    (hI : I s) (hrun : runSteps step s as = some s') : I s' :=
  runSteps_invariant_of I (fun _ _ => true) (fun _ => True) (fun hI _ _ => hstep hI) hI
    (throughout_true step s as) (fun _ _ => trivial) hrun

/-- The actions of a run that are `own` in the state they are taken in. -/
def restrict (step : σ → α → Option σ) (own : σ → α → Bool) : σ → List α → List α
  | _, [] => []
  | s, a :: as =>
    match step s a with
    | none => []
    | some s' => if own s a then a :: restrict step own s' as else restrict step own s' as

/-- If the view of the state makes every own step along with it and does not see the others, then
    it makes the restricted run. -/
theorem runSteps_restrict {own : σ → α → Bool} {I : σ → Prop} {view : σ → σ}
    (hrun : runSteps step s as = some s') (hI : I s)
    (hinv : ∀ s a s', I s → step s a = some s' → I s')
    (hown : ∀ s a s', I s → step s a = some s' → own s a = true → step (view s) a = some (view s'))
    (hother : ∀ s a s', I s → step s a = some s' → own s a = false → view s' = view s) :
    runSteps step (view s) (restrict step own s as) = some (view s') := by
  induction as generalizing s with
  | nil =>
    rw [runSteps_nil, some.injEq] at hrun
    rw [restrict, runSteps_nil, hrun]
  | cons a as ih =>
    rw [runSteps_cons, bind_eq_some_iff] at hrun
    obtain ⟨s₁, h₁, hrest⟩ := hrun
    have hview := ih hrest (hinv s a s₁ hI h₁)
    -- an own step is taken by the view as well, another one leaves the view where it is
    rw [restrict, h₁]
    cases ha : own s a with
    | true =>
      simpa only [↓reduceIte, runSteps_cons, hown s a s₁ hI h₁ ha, bind_some] using hview
    | false => simpa only [Bool.false_eq_true, ↓reduceIte, ← hother s a s₁ hI h₁ ha] using hview

/-! ## Machines that answer -/

section Answers

variable {τ β κ : Type _}

/-- The state after the calls, and what each of them answered. -/
def runCalls (call : σ → α → σ × β) : σ → List α → σ × List β
  | s, [] => (s, [])
  | s, a :: as =>
    ((runCalls call (call s a).1 as).1, (call s a).2 :: (runCalls call (call s a).1 as).2)

@[simp] theorem runCalls_nil (call : σ → α → σ × β) (s : σ) : runCalls call s [] = (s, []) := rfl

@[simp] theorem runCalls_cons (call : σ → α → σ × β) (s : σ) (a : α) (as : List α) :
    runCalls call s (a :: as) =
      ((runCalls call (call s a).1 as).1, (call s a).2 :: (runCalls call (call s a).1 as).2) := rfl

/-- Two machines give the same answers if every call that the caller may make keeps them related
    and is answered alike. -/
theorem runCalls_simulates {caller : κ → α → Option κ} {callS : σ → α → σ × β}
    {callT : τ → α → τ × β} {R : κ → σ → τ → Prop}
    (hstep : ∀ c c' s t a, R c s t → caller c a = some c' →
      R c' (callS s a).1 (callT t a).1 ∧ (callS s a).2 = (callT t a).2)
    {c c' : κ} {s : σ} {t : τ} {as : List α} (hR : R c s t)
    (hcaller : runSteps caller c as = some c') :
    R c' (runCalls callS s as).1 (runCalls callT t as).1 ∧
      (runCalls callS s as).2 = (runCalls callT t as).2 := by
  induction as generalizing c s t with
  | nil =>
    rw [runSteps_nil, some.injEq] at hcaller
    exact ⟨hcaller ▸ hR, rfl⟩
  | cons a as ih =>
    rw [runSteps_cons, bind_eq_some_iff] at hcaller
    obtain ⟨c₁, h₁, hrest⟩ := hcaller
    obtain ⟨hR', hanswer⟩ := hstep c c₁ s t a hR h₁
    obtain ⟨hend, hanswers⟩ := ih hR' hrest
    rw [runCalls_cons, runCalls_cons]
    exact ⟨hend, by rw [hanswer, hanswers]⟩

end Answers

end Run
