import Watcher.Model.Health
import Watcher.Spec.ProcessFailures

/-!
# What the probes say

`healthz` and `readyz` are asked while the process runs, and their handlers read
one thing after the other. So an answer speaks of several moments between the
request and itself.

Two facts carry the results. What the handlers read is mostly not taken back: a
service marked as running stays so, and so does a stream once it is verified
(`Grows`). And the order of the start is an invariant: `starting` is reset after
the service has been marked (`Started`).

## Key results

- `Moves.grows`: what a step does not take back
- `Started.moves`: the order of the start
- `Process.probes_honest`: when a liveness probe can fail, and what an answer of `readyz` means
-/

namespace Nats

@[simp] theorem Life.close_streamVerified (l : Life) :
    l.close.streamVerified = l.streamVerified := by
  rw [Life.close]
  split <;> rfl

/-- Nor does the handler. -/
@[simp] theorem Life.onClosed_streamVerified (l : Life) :
    l.onClosed.streamVerified = l.streamVerified := by
  rw [Life.onClosed]
  split <;> rfl

/-- A goroutine that comes to know the stream goes on to publish. -/
theorem LifeMoves.streamVerified {ctxDone : Bool} {l l' : Life} {a : LifeAction}
    (h : LifeMoves ctxDone l a l') :
    l'.streamVerified = l.streamVerified ∨ l'.streamVerified = true ∧ l'.pc.inLoop = true := by
  cases h with
  | lost hconn => exact .inl l.close_streamVerified
  | closedHandler hclosing => exact .inl l.onClosed_streamVerified
  | found hpc => exact .inr ⟨rfl, rfl⟩
  | missing hpc => exact .inl (by cases ctxDone <;> rfl)
  | closed hpc hconn => exact .inl (by cases ctxDone <;> rfl)
  | _ => exact .inl rfl

end Nats

namespace Health

open Run

universe u v

variable {σ : Type u} {α : Type v} {step : σ → α → Option σ} {s t : σ}

/-- A liveness probe fails when its two questions are both answered with no. -/
theorem down_of_observed {c : Checker σ} {status : Status}
    (h : Observed step s c.healthHandler t (503, status)) :
    ∃ m m', Reach step s m ∧ Observed step m c.isRunning m' false ∧
      Observed step m' c.starting t false := by
  simp only [Checker.healthHandler, observed_bind] at h
  obtain ⟨m, subscriptions, hm, m', running, hrunning, h⟩ := h
  cases running with
  | true => simp at h
  | false =>
    simp only [Bool.false_eq_true, ↓reduceIte, observed_bind] at h
    obtain ⟨t', starting, hstarting, h⟩ := h
    cases starting with
    | true => simp at h
    | false =>
      simp only [Bool.false_eq_true, ↓reduceIte, observed_pure] at h
      exact ⟨m, m', hm.reach, hrunning, hstarting.to_reach h.1⟩

/-- Every check has said yes when it was asked. -/
theorem ready_of_observed {checks : List (ReadinessCheck σ)} (hreason : ∀ c ∈ checks, c.reason ≠ "")
    (h : Observed step s (firstFailing checks) t "") {check : ReadinessCheck σ}
    (hcheck : check ∈ checks) :
    ∃ m m', Reach step s m ∧ Observed step m check.ready m' true ∧ Reach step m' t := by
  induction checks generalizing s with
  | nil => cases hcheck
  | cons first rest ih =>
    rw [List.forall_mem_cons] at hreason
    simp only [firstFailing, observed_bind] at h
    obtain ⟨m, ready, hready, h⟩ := h
    cases ready with
    | false =>
      simp only [Bool.false_eq_true, ↓reduceIte, observed_pure] at h
      exact absurd h.2.symm hreason.1
    | true =>
      rcases List.mem_cons.mp hcheck with rfl | hcheck
      · exact ⟨s, m, .refl step s, hready, h.reach⟩
      · obtain ⟨m₁, m₂, hm, hread, ht⟩ := ih hreason.2 h hcheck
        exact ⟨m₁, m₂, hready.reach.trans hm, hread, ht⟩

/-- The check whose reason is given has said no when it was asked. -/
theorem unready_of_observed {checks : List (ReadinessCheck σ)} {reason : String}
    (hreason : reason ≠ "") (h : Observed step s (firstFailing checks) t reason) :
    ∃ check ∈ checks, check.reason = reason ∧
      ∃ m m', Reach step s m ∧ Observed step m check.ready m' false ∧ Reach step m' t := by
  induction checks generalizing s with
  | nil =>
    simp only [firstFailing, observed_pure] at h
    exact absurd h.2 hreason
  | cons first rest ih =>
    simp only [firstFailing, observed_bind] at h
    obtain ⟨m, ready, hready, h⟩ := h
    cases ready with
    | false =>
      simp only [Bool.false_eq_true, ↓reduceIte, observed_pure] at h
      exact ⟨first, List.mem_cons_self, h.2.symm, s, m, .refl step s, hready, h.1⟩
    | true =>
      obtain ⟨check, hcheck, hname, m₁, m₂, hm, hread, ht⟩ := ih h
      exact ⟨check, List.mem_cons_of_mem _ hcheck, hname, m₁, m₂, hready.reach.trans hm, hread, ht⟩

/-- The answer of `readyz` is made from the reason. -/
theorem reason_of_observed {c : Checker σ} {code : Nat} {body : ReadyBody}
    (h : Observed step s c.readyHandler t (code, body)) :
    Observed step s c.notReadyReason t body.reason ∧ (code = 200 ↔ body.reason = "") := by
  simp only [Checker.readyHandler, observed_bind, observed_pure] at h
  obtain ⟨m, reason, hreason, hm, hanswer⟩ := h
  by_cases hempty : reason = ""
  · simp only [hempty, ↓reduceIte, Prod.mk.injEq] at hanswer
    obtain ⟨rfl, rfl⟩ := hanswer
    exact ⟨hempty ▸ hreason.to_reach hm, by simp⟩
  · simp only [hempty, ↓reduceIte, Prod.mk.injEq] at hanswer
    obtain ⟨rfl, rfl⟩ := hanswer
    exact ⟨hreason.to_reach hm, by simp [hempty]⟩

end Health

namespace Main

open Cdc Nats Run Health

/-! ### What is not taken back -/

/-- What `q` has kept of `p`. -/
structure Grows (p q : Process) : Prop where
  running : p.serviceRunning = true → q.serviceRunning = true
  started : p.starting = false → q.starting = false
  verified : p.life.streamVerified = true → q.life.streamVerified = true
  stage : p.life.pc.stage ≠ .before → q.life.pc.stage ≠ .before
  postgres : p.postgres.pc ≠ .notStarted → q.postgres.pc ≠ .notStarted
  stored : p.pgListener = true → q.pgListener = true
  mysql : p.mysql.pc ≠ .notStarted → q.mysql.pc ≠ .notStarted
  http : p.http.pc ≠ .notStarted → q.http.pc ≠ .notStarted
  shutdown : p.http.shutdown = true → q.http.shutdown = true

theorem Grows.refl (p : Process) : Grows p p := ⟨id, id, id, id, id, id, id, id, id⟩

/-- One stretch after another. -/
theorem Grows.trans {p q r : Process} (h : Grows p q) (h' : Grows q r) : Grows p r where
  running := h'.running ∘ h.running
  started := h'.started ∘ h.started
  verified := h'.verified ∘ h.verified
  stage := h'.stage ∘ h.stage
  postgres := h'.postgres ∘ h.postgres
  stored := h'.stored ∘ h.stored
  mysql := h'.mysql ∘ h.mysql
  http := h'.http ∘ h.http
  shutdown := h'.shutdown ∘ h.shutdown

/-- The publisher moves on and nothing else does. -/
theorem Grows.setLife {p q : Process} (h : Grows p q) {life : Life}
    (hverified : q.life.streamVerified = true → life.streamVerified = true)
    (hstage : q.life.pc.stage ≠ .before → life.pc.stage ≠ .before) :
    Grows p { q with life := life } :=
  { h with
    verified := hverified ∘ h.verified
    stage := hstage ∘ h.stage }

/-- `listenLoop` moves on. -/
theorem Grows.setLoop (p : Process) {pc : LoopPc} (hpc : pc ≠ .notStarted) :
    Grows p (p.setLoop pc) :=
  { Grows.refl p with postgres := fun _ => hpc }

variable {cap : Nat} {cfg : Config} {p q s t : Process}

/-- No step takes anything of it back. -/
theorem Moves.grows {a : Action} (h : Moves cap cfg p a q) : Grows p q := by
  cases h with
  | missing hmain =>
    exact ⟨id, id, by simp [Process.unwind], by simp [Process.unwind], id, id, id, id, id⟩
  | verified r hmain bus hbus =>
    have hkept : (p.life.verified r).pc = p.life.pc ∧
        (p.life.streamVerified = true → (p.life.verified r).streamVerified = true) := by
      cases r <;> simp [Life.verified]
    exact ⟨id, id, hkept.2, by simp [hkept.1], id, id, id, id, id⟩
  | subscribed i hmain hwritten =>
    refine ⟨id, id, id, fun _ => ?_, id, id, id, fun _ => by simp, id⟩
    simp only [Life.start]
    split <;> simp [LifePc.stage]
  | postgresStarts helpers registered hmain hidle =>
    exact ⟨id, id, id, id, fun _ => by simp, id, id, id, id⟩
  | markPostgres hmain => exact ⟨fun _ => rfl, id, id, id, id, id, id, id, id⟩
  | storePostgres hmain => exact ⟨id, id, id, id, id, fun _ => rfl, id, id, id⟩
  | mysqlStarts hmain hidle => exact ⟨id, id, id, id, id, id, fun _ => by simp, id, id⟩
  | markMysql hmain => exact ⟨fun _ => rfl, id, id, id, id, id, id, id, id⟩
  | finishStart hmain => exact ⟨id, fun _ => rfl, id, id, id, id, id, id, id⟩
  | shutServer hmain => exact ⟨id, id, id, id, id, id, id, id, fun _ => rfl⟩
  -- `Stop` closes the connection after the goroutine has ended
  | join d hmain hjoined =>
    refine ⟨id, id, ?_, ?_, id, id, id, id, id⟩
    · intro hverified
      dsimp only
      split
      · rw [Life.close_streamVerified, hverified]
      · exact hverified
    · intro hstage
      dsimp only
      split
      · rw [Life.close_pc]
        exact hstage
      · exact hstage
  | life a life hlife =>
    have hmoves := Life.step_moves hlife
    refine (Grows.refl p).setLife ?_ (by rw [hmoves.stage]; exact id)
    intro hverified
    exact hmoves.streamVerified.elim (·.trans hverified) And.left
  | take event hpc bus hbus =>
    refine ⟨id, id, ?_, ?_, id, id, id, id, id⟩
    · intro hverified
      dsimp only
      split <;> exact hverified
    · intro hstage
      dsimp only
      split
      · simp [LifePc.stage]
      · exact hstage
  | channelClosed sub hpc hsub hclosed =>
    exact ⟨id, id, id, fun _ => by simp [LifePc.stage], id, id, id, id, id⟩
  | unsubscribe hpc bus hbus =>
    exact ⟨id, id, id, fun _ => by simp [LifePc.stage], id, id, id, id, id⟩
  | gone i hpc hwritten =>
    exact ⟨id, id, id, fun _ => by simp [LifePc.stage], id, id, id, id, id⟩
  | walConnected hpc hdone => exact .setLoop p (by simp)
  | walLost hpc hidle hdone => exact .setLoop p (by simp)
  | walRetry hpc => exact .setLoop p (by split <;> simp)
  | walEnds hdone hpc hidle => exact .setLoop p (by split <;> simp)
  | walStop hdone hpc => exact .setLoop p (by simp)
  | binlogFails hpc hidle => exact ⟨id, id, id, id, id, id, fun _ => by simp, id, id⟩
  | canalStop hpc hidle hclosed => exact ⟨id, id, id, id, id, id, fun _ => by simp, id, id⟩
  | serverFails hpc => exact ⟨id, id, id, id, id, id, id, fun _ => by simp, id⟩
  | serverStop hpc hshutdown => exact ⟨id, id, id, id, id, id, id, fun _ => by simp, id⟩
  | _ => exact ⟨id, id, id, id, id, id, id, id, id⟩

/-- Nor does a run take it back. -/
theorem Grows.of_reach (h : Reach (Process.step cap cfg) s t) : Grows s t := by
  refine h.invariant (I := Grows s) ?_ (.refl s)
  exact fun hgrows hstep => hgrows.trans (step_moves hstep).grows

/-! ### The order of the start -/

/-- At these places `run` has marked the service as running. -/
def MainPc.marked (cfg : Config) : MainPc → Bool
  | .storingPostgres => true
  | .startingMysql => cfg.postgres
  | .started => cfg.postgres || cfg.mysql
  | _ => false

/-- The start is over and `server.Shutdown` has not been called. -/
def MainPc.open : MainPc → Bool
  | .waiting | .stopping | .closing => true
  | _ => false

/-- In which order `run` starts and marks things. -/
structure Started (cfg : Config) (p : Process) : Prop where
  /-- The server is started after the publisher. -/
  nats : cfg.nats = true → p.http.pc ≠ .notStarted → p.life.pc.stage ≠ .before
  marked : p.main.marked cfg = true → p.serviceRunning = true
  postgres : p.main = .markingPostgres → p.postgres.pc ≠ .notStarted
  mysql : p.main = .markingMysql → p.mysql.pc ≠ .notStarted
  all : p.starting = false → cfg.postgres = true ∨ cfg.mysql = true → p.serviceRunning = true
  running : p.serviceRunning = true → p.postgres.pc ≠ .notStarted ∨ p.mysql.pc ≠ .notStarted
  closed : p.starting = false → p.main.open = true ∨ p.http.shutdown = true

namespace Started

/-- Nothing was started yet. -/
theorem init (cfg : Config) : Started cfg (init cfg) where
  nats hcfg hhttp := absurd (by simp [Main.init, hcfg]) hhttp
  marked hmarked := by
    simp only [Main.init] at hmarked
    split at hmarked <;> cases hmarked
  postgres hmain := by
    simp only [Main.init] at hmain
    split at hmain <;> cases hmain
  mysql hmain := by
    simp only [Main.init] at hmain
    split at hmain <;> cases hmain
  all hstarting := by cases hstarting
  running hrunning := by cases hrunning
  closed hstarting := by cases hstarting

/-- A step that neither starts anything nor reports it; `run` stays where it is, or goes to a place
    of which nothing is said. -/
theorem keep (h : Started cfg p) (hgrows : Grows p q)
    (hrunning : q.serviceRunning = p.serviceRunning) (hstarting : q.starting = p.starting)
    (hhttp : q.http.pc ≠ .notStarted → p.http.pc ≠ .notStarted)
    (hmain : q.main = p.main ∨ q.main.marked cfg = false ∧ q.main ≠ .markingPostgres ∧
      q.main ≠ .markingMysql ∧ (p.main.open = true → q.main.open = true)) : Started cfg q where
  nats hcfg hq := hgrows.stage (h.nats hcfg (hhttp hq))
  marked hmarked := by
    rcases hmain with hm | ⟨hm, -⟩
    · exact hrunning.trans (h.marked (hm ▸ hmarked))
    · exact absurd (hm.symm.trans hmarked) (by simp)
  postgres hq := by
    rcases hmain with hm | ⟨-, hm, -⟩
    · exact hgrows.postgres (h.postgres (hm ▸ hq))
    · exact absurd hq hm
  mysql hq := by
    rcases hmain with hm | ⟨-, -, hm, -⟩
    · exact hgrows.mysql (h.mysql (hm ▸ hq))
    · exact absurd hq hm
  all hq hcfg := hrunning.trans (h.all (hstarting.symm.trans hq) hcfg)
  running hq := (h.running (hrunning.symm.trans hq)).imp hgrows.postgres hgrows.mysql
  closed hq := by
    refine (h.closed (hstarting.symm.trans hq)).imp ?_ hgrows.shutdown
    intro hopen
    rcases hmain with hm | ⟨-, -, -, hm⟩
    · exact hm ▸ hopen
    · exact hm hopen

/-- Every step keeps the order. -/
theorem moves {a : Action} (h : Started cfg p) (hmoves : Moves cap cfg p a q) : Started cfg q := by
  have hgrows := hmoves.grows
  cases hmoves with
  | connectFails hmain =>
    exact h.keep hgrows rfl rfl id (.inr (by simp [Process.unwind, hmain, MainPc.marked,
      MainPc.open]))
  | connects conn hconn up hmain =>
    exact h.keep hgrows rfl rfl id (.inr (by simp [hmain, MainPc.marked, MainPc.open]))
  | lookUp hmain hconn =>
    exact h.keep hgrows rfl rfl id (.inr (by simp [hmain, MainPc.marked, MainPc.open]))
  | missing hmain =>
    exact h.keep hgrows rfl rfl id (.inr (by simp [Process.unwind, hmain, MainPc.marked,
      MainPc.open]))
  | verified r hmain bus hbus =>
    exact h.keep hgrows rfl rfl id (.inr (by simp [hmain, MainPc.marked, MainPc.open]))
  | subscribe hmain bus hbus =>
    refine h.keep hgrows rfl rfl id (.inr ?_)
    rcases hmain with hm | hm <;> simp [hm, MainPc.marked, MainPc.open]
  -- publisher and server are started together
  | subscribed i hmain hwritten =>
    refine ⟨fun _ _ => ?_, ?_, ?_, ?_, h.all, h.running, fun hs => .inr ?_⟩
    · simp only [Life.start]
      split <;> simp [LifePc.stage]
    · simp [MainPc.marked]
    · simp
    · simp
    · exact (h.closed hs).resolve_left (by simp [hmain, MainPc.open])
  | skipPostgres hmain hcfg =>
    exact h.keep hgrows rfl rfl id (.inr (by simp [hmain, hcfg, MainPc.marked, MainPc.open]))
  | postgresCancelled hmain hctx hidle =>
    exact h.keep hgrows rfl rfl id (.inr (by simp [Process.postgresFails, Process.unwind, hmain,
      MainPc.marked, MainPc.open]))
  | postgresFails hmain hidle =>
    exact h.keep hgrows rfl rfl id (.inr (by simp [Process.postgresFails, Process.unwind, hmain,
      MainPc.marked, MainPc.open]))
  | postgresStarts helpers registered hmain hidle =>
    refine ⟨h.nats, by simp [MainPc.marked], by simp, by simp, h.all, ?_, fun hs => .inr ?_⟩
    · exact fun _ => .inl (by simp)
    · exact (h.closed hs).resolve_left (by simp [hmain, MainPc.open])
  -- the mark comes after the start it stands for
  | markPostgres hmain =>
    refine ⟨h.nats, fun _ => rfl, by simp, by simp, fun _ _ => rfl, ?_, fun hs => .inr ?_⟩
    · exact fun _ => .inl (h.postgres hmain)
    · exact (h.closed hs).resolve_left (by simp [hmain, MainPc.open])
  | storePostgres hmain =>
    have hrunning := h.marked (by simp [hmain, MainPc.marked])
    refine ⟨h.nats, fun _ => hrunning, by simp, by simp, h.all, h.running, fun hs => .inr ?_⟩
    exact (h.closed hs).resolve_left (by simp [hmain, MainPc.open])
  | skipMysql hmain hcfg =>
    refine ⟨h.nats, fun hmarked => ?_, by simp, by simp, h.all, h.running, fun hs => .inr ?_⟩
    · exact h.marked (by simpa [hmain, hcfg, MainPc.marked] using hmarked)
    · exact (h.closed hs).resolve_left (by simp [hmain, MainPc.open])
  | mysqlFails hmain hidle =>
    exact h.keep hgrows rfl rfl id (.inr (by simp [Process.unwind, hmain, MainPc.marked,
      MainPc.open]))
  | mysqlStarts hmain hidle =>
    refine ⟨h.nats, by simp [MainPc.marked], by simp, by simp, h.all, ?_, fun hs => .inr ?_⟩
    · exact fun _ => .inr (by simp)
    · exact (h.closed hs).resolve_left (by simp [hmain, MainPc.open])
  | markMysql hmain =>
    refine ⟨h.nats, fun _ => rfl, by simp, by simp, fun _ _ => rfl, ?_, fun hs => .inr ?_⟩
    · exact fun _ => .inr (h.mysql hmain)
    · exact (h.closed hs).resolve_left (by simp [hmain, MainPc.open])
  -- with a source the service was marked on the way
  | finishStart hmain =>
    refine ⟨h.nats, by simp [MainPc.marked], by simp, by simp, fun _ hcfg => ?_, h.running, ?_⟩
    · exact h.marked (by simpa [hmain, MainPc.marked] using hcfg)
    · exact fun _ => .inl rfl
  | hearSignal hmain hctx =>
    exact h.keep hgrows rfl rfl id (.inr (by simp [MainPc.marked, MainPc.open]))
  | hearNats hmain =>
    exact h.keep hgrows rfl rfl id (.inr (by simp [MainPc.marked, MainPc.open]))
  | hearMysql hmain =>
    exact h.keep hgrows rfl rfl id (.inr (by simp [MainPc.marked, MainPc.open]))
  | stop hmain => exact h.keep hgrows rfl rfl id (.inr (by simp [MainPc.marked, MainPc.open]))
  | shutServer hmain =>
    exact ⟨h.nats, by simp [MainPc.marked], by simp, by simp, h.all, h.running, fun _ => .inr rfl⟩
  | drained a ha hmain =>
    exact h.keep hgrows rfl rfl id (.inr (by simp [hmain, MainPc.marked, MainPc.open]))
  | deferMysql rest hmain hdefers =>
    exact h.keep hgrows rfl rfl id (.inr (by simp [hmain, MainPc.marked, MainPc.open]))
  | deferPostgres rest hmain hdefers =>
    exact h.keep hgrows rfl rfl id (.inr (by simp [hmain, MainPc.marked, MainPc.open]))
  | deferNats rest hmain hdefers =>
    exact h.keep hgrows rfl rfl id (.inr (by simp [hmain, MainPc.marked, MainPc.open]))
  | deferShutdown rest hmain hdefers bus hbus =>
    exact h.keep hgrows rfl rfl id (.inr (by simp [hmain, MainPc.marked, MainPc.open]))
  | join d hmain hjoined =>
    refine h.keep hgrows rfl rfl id (.inr ?_)
    dsimp only
    split <;> simp [hmain, MainPc.marked, MainPc.open]
  | released a ha hmain =>
    exact h.keep hgrows rfl rfl id (.inr (by simp [hmain, MainPc.marked, MainPc.open]))
  | shut i hmain hwritten =>
    exact h.keep hgrows rfl rfl id (.inr (by simp [hmain, MainPc.marked, MainPc.open]))
  | finish hmain hdefers =>
    exact h.keep hgrows rfl rfl id (.inr (by simp [hmain, MainPc.marked, MainPc.open]))
  | serverFails hpc => exact h.keep hgrows rfl rfl (fun _ => by simp [hpc]) (.inl rfl)
  | serverStop hpc hshutdown => exact h.keep hgrows rfl rfl (fun _ => by simp [hpc]) (.inl rfl)
  | _ => exact h.keep hgrows rfl rfl id (.inl rfl)

/-- It holds after every run. -/
theorem of_run {actions : List Action}
    (hrun : runSteps (Process.step cap cfg) (Main.init cfg) actions = some p) : Started cfg p :=
  runSteps_invariant (fun h hstep => h.moves (step_moves hstep)) (.init cfg) hrun

end Started

/-! ### The checks of the process -/

namespace Process

/-- What the slot check saw when it said yes. -/
theorem slotUsable_of_observed (h : Observed (Process.step cap cfg) s slotUsable t true) :
    Sometime (Process.step cap cfg) s t fun m =>
      m.pgListener = true → m.postgres.slotUsable = true := by
  simp only [slotUsable, observed_bind, observed_look] at h
  obtain ⟨m, stored, ⟨k, hk, hm, rfl⟩, h⟩ := h
  cases hstored : k.pgListener with
  | false => exact ⟨k, hk, hm.trans h.reach, by simp [hstored]⟩
  | true =>
    simp only [hstored, ↓reduceIte, observed_look] at h
    obtain ⟨k', hk', ht, husable⟩ := h
    exact ⟨k', (hk.trans hm).trans hk', ht, fun _ => husable.symm⟩

/-- What the slot check saw when it said no. -/
theorem slotLost_of_observed (h : Observed (Process.step cap cfg) s slotUsable t false) :
    Sometime (Process.step cap cfg) s t fun m =>
      m.pgListener = true ∧ m.postgres.slotUsable = false := by
  simp only [slotUsable, observed_bind, observed_look] at h
  obtain ⟨m, stored, ⟨k, hk, hm, rfl⟩, h⟩ := h
  cases hstored : k.pgListener with
  | false => simp [hstored] at h
  | true =>
    simp only [hstored, ↓reduceIte, observed_look] at h
    obtain ⟨k', hk', ht, husable⟩ := h
    -- the listener is still stored when the sampler is asked
    exact ⟨k', (hk.trans hm).trans hk', ht, (Grows.of_reach (hm.trans hk')).stored hstored,
      husable.symm⟩

/-- What `Ready` saw when it said yes. -/
theorem publisherReady_of_observed (h : Observed (Process.step cap cfg) s publisherReady t true) :
    ∃ m m', Reach (Process.step cap cfg) s m ∧ m.life.conn = some .connected ∧
      Reach (Process.step cap cfg) m m' ∧ m'.life.streamVerified = true ∧
      Reach (Process.step cap cfg) m' t := by
  simp only [publisherReady, observed_bind, observed_look] at h
  obtain ⟨m, some, ⟨k, hk, hm, rfl⟩, h⟩ := h
  cases hsome : k.life.conn.isSome with
  | false => simp [hsome] at h
  | true =>
    simp only [hsome, ↓reduceIte, observed_bind, observed_look] at h
    obtain ⟨m', up, ⟨k', hk', hm', rfl⟩, h⟩ := h
    cases hup : k'.life.conn == some .connected with
    | false => simp [hup] at h
    | true =>
      simp only [hup, ↓reduceIte, observed_look] at h
      obtain ⟨k'', hk'', ht, hverified⟩ := h
      exact ⟨k', k'', (hk.trans hm).trans hk', by simpa using hup, hm'.trans hk'', hverified.symm,
        ht⟩

/-- What `Ready` saw when it said no. -/
theorem publisherUnready_of_observed
    (h : Observed (Process.step cap cfg) s publisherReady t false) :
    Sometime (Process.step cap cfg) s t fun m =>
      m.life.conn ≠ some .connected ∨ m.life.streamVerified = false := by
  simp only [publisherReady, observed_bind, observed_look] at h
  obtain ⟨m, some, ⟨k, hk, hm, rfl⟩, h⟩ := h
  cases hsome : k.life.conn.isSome with
  | false =>
    refine ⟨k, hk, hm.trans h.reach, .inl ?_⟩
    intro hconn
    simp [hconn] at hsome
  | true =>
    simp only [hsome, ↓reduceIte, observed_bind, observed_look] at h
    obtain ⟨m', up, ⟨k', hk', hm', rfl⟩, h⟩ := h
    cases hup : k'.life.conn == some .connected with
    | false => exact ⟨k', (hk.trans hm).trans hk', hm'.trans h.reach, .inl (by simpa using hup)⟩
    | true =>
      simp only [hup, ↓reduceIte, observed_look] at h
      obtain ⟨k'', hk'', ht, hverified⟩ := h
      exact ⟨k'', ((hk.trans hm).trans hk').trans (hm'.trans hk''), ht, .inr hverified.symm⟩

/-- The publisher's goroutine is where it takes events and publishes them, or the process is about
    to end. -/
def Publishes (p : Process) : Prop :=
  p.life.pc.inLoop = true ∨ p.ctxDone = true ∨ p.main.heard = true

/-- A publisher with a connection and a stream publishes. -/
theorem publishes_of_ready (htold : Told p) (hstarted : Started cfg p) (hnats : cfg.nats = true)
    (hserved : p.http.pc ≠ .notStarted) (hconn : p.life.conn = some .connected)
    (hverified : p.life.streamVerified = true) : p.Publishes := by
  cases hheard : p.main.heard with
  | true => exact .inr (.inr hheard)
  | false =>
    -- what is left are a goroutine that seeks the stream, and one that is over
    have hstage := hstarted.nats hnats hserved
    cases hended : p.life.pc.ended with
    | true =>
      rcases htold.life.ended_unready hended with hdone | hv | hc | hh
      · rw [natsDone, Bool.or_eq_true] at hdone
        rcases hdone with hctx | hcancelled
        · exact .inr (.inl hctx)
        · exact .inr (.inr (htold.cancelled hcancelled))
      · exact absurd (hv.symm.trans hverified) (by simp)
      · exact absurd (hc.symm.trans hconn) (by simp)
      · exact .inr (.inr hh)
    | false =>
      have hseeking : p.life.pc.seeking = false := by
        rw [← Bool.not_eq_true]
        exact fun hs => absurd ((htold.life.seeking hs).symm.trans hverified) (by simp)
      left
      cases hpc : p.life.pc <;>
        simp_all [LifePc.ended, LifePc.seeking, LifePc.inLoop, LifePc.stage]

/-- The stream becomes known to a goroutine that then publishes, once the server is up. -/
theorem publishes_of_verified {a : Action} (hinv : p.Inv cfg) (hstarted : Started cfg p)
    (hnats : cfg.nats = true) (hserved : p.http.pc ≠ .notStarted) (hmoves : Moves cap cfg p a q)
    (hbefore : p.life.streamVerified = false) (hafter : q.life.streamVerified = true) :
    q.Publishes := by
  have hstage := hstarted.nats hnats hserved
  have hsame (hlife : q.life.streamVerified = p.life.streamVerified) : q.Publishes :=
    absurd (hbefore.symm.trans (hlife.symm.trans hafter)) (by simp)
  cases hmoves with
  | missing hmain => exact hsame (by simp [Process.unwind])
  | verified r hmain bus hbus =>
    -- `run` has looked for the stream before it started the goroutine
    exact absurd (hinv.subscribed.not_started (.inl (by rw [hmain]; rfl))) hstage
  | join d hmain hjoined =>
    apply hsame
    dsimp only
    split
    · exact p.life.close_streamVerified
    · rfl
  | life a life hlife =>
    rcases (Life.step_moves hlife).streamVerified with hsv | ⟨-, hloop⟩
    · exact hsame hsv
    · exact .inl hloop
  | take event hpc bus hbus =>
    apply hsame
    dsimp only
    split <;> rfl
  | _ => exact hsame rfl

/-- What a probe can hold against the process. -/
def Lacks (cfg : Config) (p : Process) (reason : String) : Prop :=
  reason = listenerNotRunning ∧ p.serviceRunning = false ∨
  reason = slotReason ∧ p.pgListener = true ∧ p.postgres.slotUsable = false ∨
  reason = natsReason ∧ cfg.nats = true ∧
    (p.life.conn ≠ some .connected ∨ p.life.streamVerified = false)

/-- Between the connection was seen up and the stream known there was a moment at which the
    publisher published. -/
theorem publishes_between {m : Process} (hs : Reach (Process.step cap cfg) (Main.init cfg) s)
    (hnats : cfg.nats = true) (hserved : s.http.pc ≠ .notStarted)
    (hm : Reach (Process.step cap cfg) s m) (hconn : m.life.conn = some .connected)
    (ht : Reach (Process.step cap cfg) m t) (hverified : t.life.streamVerified = true) :
    Sometime (Process.step cap cfg) s t Publishes := by
  obtain ⟨actions, hrun⟩ := hs.trans hm
  cases hknown : m.life.streamVerified with
  | true =>
    have hserved' := (Grows.of_reach hm).http hserved
    exact ⟨m, hm, ht, publishes_of_ready (of_run hrun).2 (.of_run hrun) hnats hserved' hconn
      hknown⟩
  | false =>
    -- the stream has become known in between
    obtain ⟨k, a, k', hk, hstep, hk', hunknown, hnow⟩ :=
      ht.became (K := fun p => p.life.streamVerified = true) (by simp [hknown]) hverified
    obtain ⟨actions', hrun'⟩ := hs.trans (hm.trans hk)
    have hserved' := (Grows.of_reach (hm.trans hk)).http hserved
    have hpublishes := publishes_of_verified (of_run hrun').1 (.of_run hrun') hnats hserved'
      (step_moves hstep) (by simpa using hunknown) hnow
    have hone : Reach (Process.step cap cfg) k k' := ⟨[a], by rw [runSteps_cons, hstep]; rfl⟩
    exact ⟨k', (hm.trans hk).trans hone, hk', hpublishes⟩

/-- The checks of readiness, one for the slot and one for the publisher. -/
theorem mem_readiness {check : ReadinessCheck Process} :
    check ∈ (checker cfg).readiness ↔
      check = ⟨slotReason, slotUsable⟩ ∨
        cfg.nats = true ∧ check = ⟨natsReason, publisherReady⟩ := by
  cases hnats : cfg.nats <;>
    simp [checker, hnats, newChecker, Checker.withReadiness, Checker.withStartup]

@[simp] theorem checker_isRunning : (checker cfg).isRunning = Reads.look (·.serviceRunning) := by
  simp only [checker]
  split <;> rfl

/-- The start for its own. -/
@[simp] theorem checker_starting : (checker cfg).starting = Reads.look (·.starting) := by
  simp only [checker]
  split <;> rfl

/-- A service that is found running has been marked by then. -/
theorem running_of_observed {reason : String} (hreason : reason ≠ listenerNotRunning)
    (h : Observed (Process.step cap cfg) s (checker cfg).notReadyReason t reason) :
    t.serviceRunning = true ∧
      Observed (Process.step cap cfg) s (firstFailing (checker cfg).readiness) t reason := by
  simp only [Checker.notReadyReason, observed_bind, checker_isRunning, observed_look] at h
  obtain ⟨m, running, ⟨k, hk, hm, rfl⟩, h⟩ := h
  cases hrunning : k.serviceRunning with
  | false => simp [hrunning, hreason] at h
  | true =>
    simp only [hrunning, ↓reduceIte] at h
    exact ⟨(Grows.of_reach (hm.trans h.reach)).running hrunning, h.of_reach (hk.trans hm)⟩

/-- The reason that `readyz` gives is true when it looks. -/
theorem lacks_of_observed {reason : String} (hne : reason ≠ "")
    (h : Observed (Process.step cap cfg) s (checker cfg).notReadyReason t reason) :
    Sometime (Process.step cap cfg) s t fun m => m.Lacks cfg reason := by
  simp only [Checker.notReadyReason, observed_bind, checker_isRunning, observed_look] at h
  obtain ⟨m, running, ⟨k, hk, hm, rfl⟩, h⟩ := h
  cases hrunning : k.serviceRunning with
  | false =>
    simp only [hrunning, Bool.false_eq_true, ↓reduceIte, observed_pure] at h
    exact ⟨k, hk, hm.trans h.1, .inl ⟨h.2, hrunning⟩⟩
  | true =>
    simp only [hrunning, ↓reduceIte] at h
    obtain ⟨check, hcheck, rfl, m₁, m₂, hm₁, hread, hm₂⟩ := unready_of_observed hne h
    have hfirst := (hk.trans hm).trans hm₁
    rcases mem_readiness.mp hcheck with rfl | ⟨hnats, rfl⟩
    · obtain ⟨k', hk', ht, hlost⟩ := slotLost_of_observed hread
      exact ⟨k', hfirst.trans hk', ht.trans hm₂, .inr (.inl ⟨rfl, hlost⟩)⟩
    · obtain ⟨k', hk', ht, hunready⟩ := publisherUnready_of_observed hread
      exact ⟨k', hfirst.trans hk', ht.trans hm₂, .inr (.inr ⟨rfl, hnats, hunready⟩)⟩

end Process

/-- The probes of a process with a listener, asked when the server is up and answered later.

    The liveness probe fails only if the start came to its end in the meantime: when it was asked
    the service was not marked as running and `starting` was set, when it answers the service is
    marked and `starting` is reset.

    If `readyz` says ready, a listener has been started; at some moment in between its slot was
    usable, or its listener not stored yet; and with a publisher the stream is known, at some
    moment in between its connection was up, and at one its goroutine was in `publishLoop`, unless
    the process was about to end. If it says not ready, the reason was true at some moment in
    between. -/
theorem Process.probes_honest {cap : Nat} {cfg : Config} {actions : List Action} {s t : Process}
    (hrun : runSteps (Process.step cap cfg) (init cfg) actions = some s)
    (hcfg : cfg.postgres = true ∨ cfg.mysql = true) (hserved : s.http.pc ≠ .notStarted) :
    (∀ status, Observed (Process.step cap cfg) s (checker cfg).healthHandler t (503, status) →
      (s.serviceRunning = false ∧ s.starting = true) ∧
        t.serviceRunning = true ∧ t.starting = false) ∧
    (∀ body, Observed (Process.step cap cfg) s (checker cfg).readyHandler t (200, body) →
      (t.postgres.pc ≠ .notStarted ∨ t.mysql.pc ≠ .notStarted) ∧
      (Sometime (Process.step cap cfg) s t fun m =>
        m.pgListener = true → m.postgres.slotUsable = true) ∧
      (cfg.nats = true → t.life.streamVerified = true ∧
        (Sometime (Process.step cap cfg) s t fun m => m.life.conn = some .connected) ∧
        Sometime (Process.step cap cfg) s t Publishes)) ∧
    ∀ body, Observed (Process.step cap cfg) s (checker cfg).readyHandler t (503, body) →
      Sometime (Process.step cap cfg) s t fun m => m.Lacks cfg body.reason := by
  have hs : Reach (Process.step cap cfg) (init cfg) s := ⟨actions, hrun⟩
  refine ⟨?_, ?_, ?_⟩
  · intro status h
    obtain ⟨m, m', hm, hrunning, hstarting⟩ := down_of_observed h
    rw [Process.checker_isRunning, observed_look] at hrunning
    rw [Process.checker_starting, observed_look] at hstarting
    obtain ⟨k, hk, hk', hdown⟩ := hrunning
    obtain ⟨l, hl, hl', hover⟩ := hstarting
    -- the service is not marked at `k`, the start is over at `l`
    obtain ⟨actions', hrun'⟩ := hs.trans ((hm.trans hk).trans (hk'.trans hl))
    have hmarked := (Started.of_run hrun').all hover.symm hcfg
    have hsdown : s.serviceRunning = false := by
      rw [← Bool.not_eq_true]
      intro hup
      exact absurd (hdown.trans ((Grows.of_reach (hm.trans hk)).running hup)) (by simp)
    refine ⟨⟨hsdown, ?_⟩, (Grows.of_reach hl').running hmarked,
      (Grows.of_reach hl').started hover.symm⟩
    rw [← Bool.not_eq_false]
    intro hsover
    exact absurd (hsdown.symm.trans ((Started.of_run hrun).all hsover hcfg)) (by simp)
  · intro body h
    obtain ⟨hreason, hcode⟩ := reason_of_observed h
    rw [hcode.mp rfl] at hreason
    obtain ⟨hrunning, hchecks⟩ := Process.running_of_observed (by decide) hreason
    have hnames : ∀ c ∈ (Process.checker cfg).readiness, c.reason ≠ "" := by
      intro c hc
      rcases Process.mem_readiness.mp hc with rfl | ⟨-, rfl⟩ <;> decide
    obtain ⟨actions', hrun'⟩ := hs.trans h.reach
    refine ⟨(Started.of_run hrun').running hrunning, ?_, ?_⟩
    · obtain ⟨m, m', hm, hread, hm'⟩ :=
        ready_of_observed hnames hchecks (Process.mem_readiness.mpr (.inl rfl))
      exact (Process.slotUsable_of_observed hread).widen hm hm'
    · intro hnats
      obtain ⟨m, m', hm, hread, hm'⟩ :=
        ready_of_observed hnames hchecks (Process.mem_readiness.mpr (.inr ⟨hnats, rfl⟩))
      obtain ⟨k, l, hk, hconn, hl, hverified, hl'⟩ := Process.publisherReady_of_observed hread
      refine ⟨(Grows.of_reach (hl'.trans hm')).verified hverified, ?_, ?_⟩
      · exact ⟨k, hm.trans hk, hl.trans (hl'.trans hm'), hconn⟩
      · have hpublishes :=
          Process.publishes_between hs hnats hserved (hm.trans hk) hconn hl hverified
        exact hpublishes.widen (.refl _ s) (hl'.trans hm')
  · intro body h
    obtain ⟨hreason, hcode⟩ := reason_of_observed h
    exact Process.lacks_of_observed (fun hempty => absurd (hcode.mpr hempty) (by decide)) hreason

/-- `plainConfig` when the Postgres listener is to be started, and after the start. A liveness probe
    that asks for the service before and for the start afterwards fails; one of readiness that
    comes late enough succeeds. -/
theorem Process.probes_honest_straddling :
    ∃ s t, runSteps (Process.step 1 plainConfig) (init plainConfig) (lostWhilePublishing.take 8) =
        some s ∧
      runSteps (Process.step 1 plainConfig) (init plainConfig) (lostWhilePublishing.take 13) =
        some t ∧
      Observed (Process.step 1 plainConfig) s (checker plainConfig).healthHandler t
        (503, ⟨"DOWN", true, 1, listenerNotRunning⟩) ∧
      Observed (Process.step 1 plainConfig) s (checker plainConfig).readyHandler t
        (200, ⟨"ready", ""⟩) ∧
      t.serviceRunning = true ∧ t.life.streamVerified = true := by
  -- five steps lead from the one to the other
  refine ⟨_, _, rfl, rfl, have hdown := ?down; have hready := ?ready; ⟨hdown, hready, ?_, ?_⟩⟩
  case down => exact observed_of_follow [[], [], (lostWhilePublishing.drop 8).take 5, []] rfl
  case ready =>
    exact observed_of_follow [(lostWhilePublishing.drop 8).take 5, [], [], [], [], [], []] rfl
  · exact ((@Process.probes_honest 1 plainConfig (lostWhilePublishing.take 8) _ _ rfl (.inl rfl)
      (fun h => by cases h)).1 _ hdown).2.1
  · exact ((@Process.probes_honest 1 plainConfig (lostWhilePublishing.take 8) _ _ rfl (.inl rfl)
      (fun h => by cases h)).2.1 _ hready).2.2 rfl |>.1

end Main
