import Watcher.Lib.Run
import Watcher.Spec.ProcessInvariant

/-!
# Failures are heard

The process does its work as long as the publisher's goroutine, the replication
loop and canal's goroutine run. When one of them ends although nobody asked for
it, `run` is told: there is an error in a channel that it waits for, or the
client is about to put one there. So the process never idles with a dead part.

## Key results

- `LifeTold`, `Told`: the invariants
- `Process.never_idles`: the ends of the goroutines reach `run`
-/

namespace Nats

/-- The goroutine is past `publishLoop` and `awaitStream`. -/
def LifePc.ended : LifePc → Bool
  | .leaving | .unsubscribing _ | .exited => true
  | _ => false

/-- The goroutine is in `awaitStream`. -/
def LifePc.seeking : LifePc → Bool
  | .awaiting | .looking | .pausing => true
  | _ => false

/-- The goroutine is in `publishLoop`. -/
def LifePc.inLoop : LifePc → Bool
  | .selecting | .publishing _ _ | .reconnecting _ _ | .retrying _ _ => true
  | _ => false

theorem LifePc.inLoop_only {pc : LifePc} (h : pc.inLoop = true) :
    pc.ended = false ∧ pc.seeking = false := by
  cases pc <;> first | exact ⟨rfl, rfl⟩ | exact absurd h (by simp [LifePc.inLoop])

theorem LifePc.seeking_only {pc : LifePc} (h : pc.seeking = true) :
    pc.ended = false ∧ pc.inLoop = false := by
  cases pc <;> first | exact ⟨rfl, rfl⟩ | exact absurd h (by simp [LifePc.seeking])

/-- What no step of the goroutine or the client changes. -/
theorem LifeMoves.keeps {ctxDone : Bool} {l l' : Life} {a : LifeAction}
    (h : LifeMoves ctxDone l a l') :
    l'.cancelled = l.cancelled ∧ (l.conn ≠ none → l'.conn ≠ none) := by
  cases h with
  | up hconn => exact ⟨rfl, fun _ => by simp⟩
  | down hconn => exact ⟨rfl, fun _ => by simp⟩
  | lost hconn =>
    rw [Life.close]
    split
    · exact ⟨rfl, id⟩
    · exact ⟨rfl, fun _ => by simp⟩
  | closedHandler hclosing =>
    rw [Life.onClosed]
    split <;> exact ⟨rfl, id⟩
  | missing hpc => cases ctxDone <;> exact ⟨rfl, id⟩
  | closed hpc hconn => cases ctxDone <;> exact ⟨rfl, id⟩
  | _ => exact ⟨rfl, id⟩

theorem Life.close_conn (l : Life) : l.close.conn ≠ none := by
  rw [Life.close]
  split
  · rename_i hconn
    simp [hconn]
  · simp

/-- What is known of the publisher; `heard` says that `run` is on its way out. -/
structure LifeTold (ctxDone heard : Bool) (l : Life) : Prop where
  stopping : l.stopping = true → heard = true
  /-- A closed connection is reported, or about to be. -/
  closed : l.conn = some .closed → l.closing = true ∨ l.failed ≠ none ∨ heard = true
  ended : l.pc.ended = true →
    ctxDone = true ∨ l.failed ≠ none ∨ l.closing = true ∨ heard = true
  ended_unready : l.pc.ended = true →
    ctxDone = true ∨ l.streamVerified = false ∨ l.conn = some .closed ∨ heard = true
  seeking : l.pc.seeking = true → l.streamVerified = false
  inLoop : l.pc.inLoop = true → l.streamVerified = true

namespace LifeTold

variable {ctxDone heard : Bool} {l l' : Life}

/-- Nothing has happened yet. -/
theorem init : LifeTold false false newLife where
  stopping h := by cases h
  closed h := by cases h
  ended h := by cases h
  ended_unready h := by cases h
  seeking h := by cases h
  inLoop h := by cases h

/-- The context may be done and `run` on its way out by now. -/
theorem mono {ctxDone' heard' : Bool} (h : LifeTold ctxDone heard l)
    (hctx : ctxDone = true → ctxDone' = true) (hheard : heard = true → heard' = true) :
    LifeTold ctxDone' heard' l where
  stopping hs := hheard (h.stopping hs)
  closed hc := (h.closed hc).imp_right fun hr => hr.imp_right hheard
  ended ho := (h.ended ho).imp hctx fun hr => hr.imp_right fun hr => hr.imp_right hheard
  ended_unready ho :=
    (h.ended_unready ho).imp hctx fun hr => hr.imp_right fun hr => hr.imp_right hheard
  seeking := h.seeking
  inLoop := h.inLoop

/-- Once `run` is on its way out only the stream matters. -/
theorem of_heard (hseeking : l.pc.seeking = true → l.streamVerified = false)
    (hinLoop : l.pc.inLoop = true → l.streamVerified = true) : LifeTold ctxDone true l where
  stopping _ := rfl
  closed _ := .inr (.inr rfl)
  ended _ := .inr (.inr (.inr rfl))
  ended_unready _ := .inr (.inr (.inr rfl))
  seeking := hseeking
  inLoop := hinLoop

/-- The goroutine goes on in `publishLoop`. -/
theorem goOn (h : LifeTold ctxDone heard l) {pc : LifePc} (hverified : l.streamVerified = true)
    (hpc : pc.inLoop = true) : LifeTold ctxDone heard { l with pc := pc } where
  stopping := h.stopping
  closed := h.closed
  ended ho := absurd ((LifePc.inLoop_only hpc).1.symm.trans ho) (by simp)
  ended_unready ho := absurd ((LifePc.inLoop_only hpc).1.symm.trans ho) (by simp)
  seeking hs := absurd ((LifePc.inLoop_only hpc).2.symm.trans hs) (by simp)
  inLoop _ := hverified

/-- The goroutine goes on in `awaitStream`. -/
theorem seek (h : LifeTold ctxDone heard l) {pc : LifePc} (hverified : l.streamVerified = false)
    (hpc : pc.seeking = true) : LifeTold ctxDone heard { l with pc := pc } where
  stopping := h.stopping
  closed := h.closed
  ended ho := absurd ((LifePc.seeking_only hpc).1.symm.trans ho) (by simp)
  ended_unready ho := absurd ((LifePc.seeking_only hpc).1.symm.trans ho) (by simp)
  seeking _ := hverified
  inLoop hl := absurd ((LifePc.seeking_only hpc).2.symm.trans hl) (by simp)

/-- The goroutine is on its way out and goes on with it. -/
theorem goOut (h : LifeTold ctxDone heard l) (hpc : l.pc.ended = true) {pc : LifePc}
    (hpc' : pc.seeking = false ∧ pc.inLoop = false) :
    LifeTold ctxDone heard { l with pc := pc } where
  stopping := h.stopping
  closed := h.closed
  ended _ := h.ended hpc
  ended_unready _ := h.ended_unready hpc
  seeking hs := absurd (hpc'.1.symm.trans hs) (by simp)
  inLoop hl := absurd (hpc'.2.symm.trans hl) (by simp)

/-- There is no goroutine yet. -/
theorem unstarted (hpc : l.pc = .notStarted) (hstopping : l.stopping = true → heard = true)
    (hclosed : l.conn = some .closed → l.closing = true ∨ l.failed ≠ none ∨ heard = true) :
    LifeTold ctxDone heard l := by
  refine ⟨hstopping, hclosed, ?_, ?_, ?_, ?_⟩ <;>
    · rw [hpc]
      intro hpc'
      cases hpc'

/-- The goroutine leaves. -/
theorem leave (h : LifeTold ctxDone heard l)
    (htold : ctxDone = true ∨ l.failed ≠ none ∨ l.closing = true ∨ heard = true)
    (hunready : ctxDone = true ∨ l.streamVerified = false ∨ l.conn = some .closed ∨ heard = true) :
    LifeTold ctxDone heard { l with pc := .leaving } where
  stopping := h.stopping
  closed := h.closed
  ended _ := htold
  ended_unready _ := hunready
  seeking hs := by cases hs
  inLoop hl := by cases hl

/-- An error is put into the channel. -/
theorem fail (h : LifeTold ctxDone heard l) (err : LifeError) :
    LifeTold ctxDone heard (l.fail err) where
  stopping := h.stopping
  closed _ := .inr (.inl (by cases hf : l.failed <;> simp [Life.fail, hf]))
  ended _ := .inr (.inl (by cases hf : l.failed <;> simp [Life.fail, hf]))
  ended_unready := h.ended_unready
  seeking := h.seeking
  inLoop := h.inLoop

theorem fail_ne_none (l : Life) (err : LifeError) : (l.fail err).failed ≠ none := by
  cases hf : l.failed <;> simp [Life.fail, hf]

theorem giveUp (h : LifeTold ctxDone heard l) (err : LifeError)
    (hverified : l.streamVerified = false) : LifeTold ctxDone heard (l.giveUp ctxDone err) := by
  cases ctxDone with
  | true => exact h.leave (.inl rfl) (.inl rfl)
  | false => exact (h.fail err).leave (.inr (.inl (fail_ne_none l err))) (.inr (.inl hverified))

theorem close (h : LifeTold ctxDone heard l) : LifeTold ctxDone heard l.close := by
  rw [Life.close]
  split
  · exact h
  · exact { h with
      closed := fun _ => .inl rfl
      ended := fun _ => .inr (.inr (.inl rfl))
      ended_unready := fun _ => .inr (.inr (.inl rfl)) }

/-- The connection changes between up and down. -/
theorem setConn (h : LifeTold ctxDone heard l) (hconn : l.conn ≠ some .closed)
    {conn : Connection} (hconn' : conn ≠ .closed) :
    LifeTold ctxDone heard { l with conn := some conn } :=
  { h with
    closed := fun hc => absurd (Option.some.inj hc) hconn'
    ended_unready := fun ho => by
      rcases h.ended_unready ho with hd | hv | hc | hh
      · exact .inl hd
      · exact .inr (.inl hv)
      · exact absurd hc hconn
      · exact .inr (.inr (.inr hh)) }

theorem closedHandler (h : LifeTold ctxDone heard l) :
    LifeTold ctxDone heard { l.onClosed with closing := false } := by
  rw [Life.onClosed]
  split
  · rename_i hstopping
    have hheard := h.stopping hstopping
    subst hheard
    exact of_heard h.seeking h.inLoop
  · have hfail := h.fail .connectionClosed
    have hne := fail_ne_none l .connectionClosed
    exact { hfail with
      closed := fun _ => .inr (.inl hne)
      ended := fun _ => .inr (.inl hne) }

/-- Every step of the goroutine or the client keeps this. -/
theorem moves {a : LifeAction} (h : LifeTold ctxDone heard l) (hmoves : LifeMoves ctxDone l a l') :
    LifeTold ctxDone heard l' := by
  -- in `publishLoop` the stream was found before
  have hloop : ∀ {event form}, l.pc = .publishing event form ∨ l.pc = .reconnecting event form ∨
      l.pc = .retrying event form → l.streamVerified = true := by
    intro event form hpc
    apply h.inLoop
    rcases hpc with hpc | hpc | hpc <;> rw [hpc] <;> rfl
  have hseek : ∀ {pc}, l.pc = pc → pc.seeking = true → l.streamVerified = false :=
    fun hpc hs => h.seeking (hpc ▸ hs)
  cases hmoves with
  | up hconn => exact h.setConn (by simp [hconn]) (by simp)
  | down hconn => exact h.setConn (by simp [hconn]) (by simp)
  | lost hconn => exact h.close
  | closedHandler hclosing => exact h.closedHandler
  | found hpc =>
    refine ⟨h.stopping, h.closed, ?_, ?_, ?_, fun _ => rfl⟩ <;>
      · intro hpc'
        cases hpc'
  | missing hpc => exact h.giveUp _ (hseek hpc rfl)
  | lookupFails hpc =>
    cases ctxDone with
    | true => exact h.leave (.inl rfl) (.inl rfl)
    | false => exact h.seek (hseek hpc rfl) rfl
  | awake hpc => exact h.seek (hseek hpc rfl) rfl
  | connected hpc hconn => exact h.seek (hseek hpc rfl) rfl
  | closed hpc hconn => exact h.giveUp _ (hseek hpc rfl)
  | acked event form hpc => exact h.goOn (hloop (.inl hpc)) rfl
  | tooLarge event form hpc => exact h.goOn (hloop (.inl hpc)) (by cases form <;> rfl)
  | attemptFails a event form hpc ha =>
    exact h.goOn (hloop (.inl hpc)) (by split <;> rfl)
  | retry event form hpc => exact h.goOn (hloop (.inr (.inr hpc))) rfl
  | reconnected event form hpc hconn => exact h.goOn (hloop (.inr (.inl hpc))) rfl
  | disconnected event form hpc hconn =>
    -- `deliver` says nothing, but the client does
    refine h.leave (.inr ?_) (.inr (.inr (.inl hconn)))
    rcases h.closed hconn with hc | hf | hh
    · exact .inr (.inl hc)
    · exact .inl hf
    · exact .inr (.inr hh)
  | doneWaiting hdone hpc => exact h.leave (.inl hdone) (.inl hdone)
  | doneRetrying hdone event form hpc =>
    rcases hpc with ⟨hpc, -⟩ | hpc
    · exact h.goOn (hloop (.inr (.inl hpc))) rfl
    · exact h.goOn (hloop (.inr (.inr hpc))) rfl

end LifeTold

end Nats

namespace Main

open Cdc Nats Run

/-- `run` has got past `waitForShutdown`, or has failed before. -/
def MainPc.heard : MainPc → Bool
  | .stopping | .closing | .draining | .unwinding | .joining _ | .releasing | .shutting _
  | .returned => true
  | _ => false

/-- What `run` knows, or is about to hear. -/
structure Told (p : Process) : Prop where
  shut : p.bus.Shut
  begun : p.bus.Begun
  shutdown : p.bus.shutdownBegan ≠ none → p.main.heard = true
  /-- `Connect` has returned. -/
  conn : p.main = .verifying ∨ p.main = .looking ∨ (∃ i, p.main = .subscribing i) ∨
    p.life.pc.stage ≠ .before → p.life.conn ≠ none
  life : LifeTold p.natsDone p.main.heard p.life
  cancelled : p.life.cancelled = true → p.main.heard = true
  canal : p.mysql.pc = .exited → p.mysql.failed = true ∨ p.main.heard = true
  /-- Nobody has stopped the MySQL listener. -/
  canal_runs : p.mysql.pc = .running →
    p.mysql.running = true ∧ p.mysql.closed = false ∨ p.main.heard = true
  loop : p.postgres.pc = .exited → p.ctxDone = true ∨ p.main.heard = true
  /-- Nobody has stopped the Postgres listener. -/
  loop_runs : p.postgres.pc ≠ .notStarted →
    p.postgres.running = true ∧ p.postgres.cancelled = false ∨ p.main.heard = true

namespace Told

variable {cap : Nat} {cfg : Config} {p q : Process}

/-- At the start there is nothing to hear. -/
theorem init (cfg : Config) : Told (init cfg) where
  shut := .init
  begun := .init
  shutdown h := absurd rfl h
  conn h := by
    simp only [Main.init] at h
    split at h <;> simp [newLife, LifePc.stage] at h
  life := by
    have hheard : (Main.init cfg).main.heard = false := by
      simp only [Main.init]
      split <;> rfl
    rw [hheard]
    exact .init
  cancelled h := by cases h
  canal h := by cases h
  canal_runs h := by cases h
  loop h := by cases h
  loop_runs h := absurd rfl h

/-- Once `run` is on its way out there is nothing to hear. -/
theorem of_heard (hshut : q.bus.Shut) (hbegun : q.bus.Begun) (hheard : q.main.heard = true)
    (hconn : q.life.pc.stage ≠ .before → q.life.conn ≠ none)
    (hseeking : q.life.pc.seeking = true → q.life.streamVerified = false)
    (hinLoop : q.life.pc.inLoop = true → q.life.streamVerified = true) : Told q where
  shut := hshut
  begun := hbegun
  shutdown _ := hheard
  conn h := by
    rcases h with hm | hm | ⟨i, hm⟩ | hs
    · rw [hm] at hheard
      cases hheard
    · rw [hm] at hheard
      cases hheard
    · rw [hm] at hheard
      cases hheard
    · exact hconn hs
  life := by
    rw [hheard]
    exact .of_heard hseeking hinLoop
  cancelled _ := hheard
  canal _ := .inr hheard
  canal_runs _ := .inr hheard
  loop _ := .inr hheard
  loop_runs _ := .inr hheard

/-- A step that leaves the bus and the publisher alone. -/
theorem exit (h : Told p) (hbus : q.bus = p.bus) (hlife : q.life = p.life)
    (hheard : q.main.heard = true) : Told q := by
  apply of_heard (hbus ▸ h.shut) (hbus ▸ h.begun) hheard
  · rw [hlife]
    exact fun hs => h.conn (.inr (.inr (.inr hs)))
  · rw [hlife]
    exact h.life.seeking
  · rw [hlife]
    exact h.life.inLoop

/-- `run` goes on with its start. -/
theorem goOn (h : Told p) (main : MainPc) (hheard : p.main.heard = main.heard)
    (hmain : main = .verifying ∨ main = .looking ∨ (∃ i, main = .subscribing i) →
      p.life.conn ≠ none) : Told { p with main := main } where
  shut := h.shut
  begun := h.begun
  shutdown hs := hheard ▸ h.shutdown hs
  conn hm := by
    rcases hm with hm | hm | hm | hs
    · exact hmain (.inl hm)
    · exact hmain (.inr (.inl hm))
    · exact hmain (.inr (.inr hm))
    · exact h.conn (.inr (.inr (.inr hs)))
  life := by
    have hlife := h.life
    rw [hheard] at hlife
    exact hlife
  cancelled hc := hheard ▸ h.cancelled hc
  canal hc := hheard ▸ h.canal hc
  canal_runs hc := hheard ▸ h.canal_runs hc
  loop hc := hheard ▸ h.loop hc
  loop_runs hc := hheard ▸ h.loop_runs hc

/-- The bus takes a step that is no call to `Shutdown`. -/
theorem setBus (h : Told p) {bus : Bus} {a : BusAction} (hbus : p.bus.step cap a = some bus)
    (hshutdown : bus.shutdownBegan = p.bus.shutdownBegan) : Told { p with bus := bus } :=
  { h with
    shut := (h.shut.step h.begun hbus).1
    begun := (h.shut.step h.begun hbus).2
    shutdown := fun hs => h.shutdown (hshutdown ▸ hs) }

/-- The publisher moves on. -/
theorem setLife (h : Told p) (life : Life) (hcancelled : life.cancelled = p.life.cancelled)
    (hconn : p.main = .verifying ∨ p.main = .looking ∨ (∃ i, p.main = .subscribing i) ∨
      life.pc.stage ≠ .before → life.conn ≠ none)
    (hlife : LifeTold p.natsDone p.main.heard life) : Told { p with life := life } :=
  { h with
    conn := hconn
    life := by
      show LifeTold (p.ctxDone || life.cancelled) p.main.heard life
      rw [hcancelled]
      exact hlife
    cancelled := fun hc => h.cancelled (hcancelled ▸ hc) }

/-- Told only reads these parts. -/
theorem copy (h : Told p) (hbus : q.bus = p.bus) (hctx : q.ctxDone = p.ctxDone)
    (hmain : q.main = p.main) (hlife : q.life = p.life) (hpostgres : q.postgres = p.postgres)
    (hmysql : q.mysql = p.mysql) : Told q := by
  obtain ⟨bus, ctxDone, main, defers, hands, life, postgres, mysql, http, stored, starting, running,
    result⟩ := q
  dsimp only at hbus hctx hmain hlife hpostgres hmysql
  subst hbus hctx hmain hlife hpostgres hmysql
  exact ⟨h.shut, h.begun, h.shutdown, h.conn, h.life, h.cancelled, h.canal, h.canal_runs, h.loop,
    h.loop_runs⟩

theorem setHands (h : Told p) (s : Source) (new : Hands) : Told (p.setHands s new) :=
  h.copy rfl rfl rfl rfl rfl rfl

/-- `listenLoop` moves on. -/
theorem setLoop (h : Told p) {pc : LoopPc} (hpc : p.postgres.pc ≠ .notStarted)
    (hexited : pc = .exited → p.ctxDone = true ∨ p.main.heard = true) : Told (p.setLoop pc) :=
  ⟨h.shut, h.begun, h.shutdown, h.conn, h.life, h.cancelled, h.canal, h.canal_runs, hexited,
    fun _ => h.loop_runs hpc⟩

/-- The loop ends when its context is done or the listener was stopped. -/
theorem postgresDone_iff (h : Told p) (hpc : p.postgres.pc ≠ .notStarted)
    (hdone : p.postgresDone = true ∨ p.postgres.running = false) :
    p.ctxDone = true ∨ p.main.heard = true := by
  rcases h.loop_runs hpc with ⟨hrunning, hcancelled⟩ | hheard
  · rcases hdone with hdone | hdone
    · rw [Process.postgresDone, hcancelled, Bool.or_false] at hdone
      exact .inl hdone
    · exact absurd (hrunning.symm.trans hdone) (by simp)
  · exact .inr hheard

/-- Every step keeps what `run` knows. -/
theorem moves {a : Action} (h : Told p) (hinv : p.Inv cfg) (hmoves : Moves cap cfg p a q) :
    Told q := by
  have hshut : ∀ {bus b}, p.bus.step cap b = some bus → bus.Shut ∧ bus.Begun :=
    fun hbus => h.shut.step h.begun hbus
  -- while `run` connects and subscribes, the publishing goroutine is not there yet
  have hunstarted : p.main.early = true ∨ (∃ i, p.main = .subscribing i) →
      p.life.pc = .notStarted := by
    intro hm
    have hstage := hinv.subscribed.not_started hm
    cases hpc : p.life.pc with
    | notStarted => rfl
    | _ => rw [hpc] at hstage; cases hstage
  cases hmoves with
  | signal =>
    exact { h with
      life := h.life.mono (fun _ => rfl) id
      loop := fun _ => .inl rfl }
  | connectFails hmain => exact h.exit rfl rfl rfl
  | connects conn hconn up hmain =>
    have hpc := hunstarted (.inl (by rw [hmain]; rfl))
    have hlife : LifeTold p.natsDone p.main.heard { p.life with conn := some conn } :=
      .unstarted hpc h.life.stopping fun hc => absurd (Option.some.inj hc) hconn
    have htold := h.setLife { p.life with conn := some conn } rfl (fun _ => by simp) hlife
    exact htold.goOn .verifying (by rw [hmain]; rfl) fun _ => by simp
  | lookUp hmain hconn =>
    exact h.goOn .looking (by rw [hmain]; rfl) fun _ => h.conn (.inl hmain)
  -- `Start` fails, and `run` returns its error
  | missing hmain =>
    have hlife := h.life.close
    exact of_heard h.shut h.begun rfl (fun _ => p.life.close_conn) hlife.seeking hlife.inLoop
  | verified r hmain bus hbus =>
    have hpc := hunstarted (.inl (by rw [hmain]; rfl))
    have hconn := h.conn (.inr (.inl hmain))
    have htold : Told { p with life := p.life.verified r } := by
      cases r with
      | found =>
        exact h.setLife _ rfl (fun _ => hconn) (.unstarted hpc h.life.stopping h.life.closed)
      | _ => exact h
    have hbegan : bus.shutdownBegan = p.bus.shutdownBegan := Bus.shutdownBegan_step hbus (by simp)
    refine (htold.setBus hbus hbegan).goOn (.subscribing _) (by rw [hmain]; rfl) fun _ => ?_
    cases r <;> exact hconn
  | subscribe hmain bus hbus =>
    have hbegan : bus.shutdownBegan = p.bus.shutdownBegan := Bus.shutdownBegan_step hbus (by simp)
    refine (h.setBus hbus hbegan).goOn (.subscribing _) ?_ fun _ => h.conn ?_
    · rcases hmain with hm | hm <;> rw [hm] <;> rfl
    · exact hmain.imp_right .inl
  | subscribed i hmain hwritten =>
    have hconn := h.conn (.inr (.inr (.inl ⟨i, hmain⟩)))
    have hlife : LifeTold p.natsDone p.main.heard p.life.start := by
      unfold Life.start
      split
      · rename_i hverified
        exact h.life.goOn hverified rfl
      · rename_i hverified
        exact h.life.seek (by simpa using hverified) rfl
    have htold := (h.setLife p.life.start rfl (fun _ => hconn) hlife).goOn .startingPostgres
      (by rw [hmain]; rfl) fun _ => hconn
    exact htold.copy rfl rfl rfl rfl rfl rfl
  | skipPostgres hmain hcfg => exact h.goOn .startingMysql (by rw [hmain]; rfl) (by simp)
  | postgresCancelled hmain hctx hidle => exact h.exit rfl rfl rfl
  | postgresFails hmain hidle => exact h.exit rfl rfl rfl
  | postgresRows events hmain hcfg hidle => exact h.setHands _ _
  | postgresStarts helpers registered hmain hidle =>
    have htold := h.goOn .markingPostgres (by rw [hmain]; rfl) (by simp)
    exact { htold with
      loop := fun hpc => by cases hpc
      loop_runs := fun _ => .inl ⟨rfl, rfl⟩ }
  | markPostgres hmain =>
    exact (h.goOn .storingPostgres (by rw [hmain]; rfl) (by simp)).copy rfl rfl rfl rfl rfl rfl
  | storePostgres hmain =>
    exact (h.goOn .startingMysql (by rw [hmain]; rfl) (by simp)).copy rfl rfl rfl rfl rfl rfl
  | skipMysql hmain hcfg => exact h.goOn .started (by rw [hmain]; rfl) (by simp)
  | mysqlFails hmain hidle => exact h.exit rfl rfl rfl
  | mysqlRows events hmain hcfg hidle => exact h.setHands _ _
  | mysqlStarts hmain hidle =>
    have htold := h.goOn .markingMysql (by rw [hmain]; rfl) (by simp)
    exact { htold with
      canal := fun hpc => by cases hpc
      canal_runs := fun _ => .inl ⟨rfl, rfl⟩ }
  | markMysql hmain =>
    exact (h.goOn .started (by rw [hmain]; rfl) (by simp)).copy rfl rfl rfl rfl rfl rfl
  | finishStart hmain =>
    exact (h.goOn .waiting (by rw [hmain]; rfl) (by simp)).copy rfl rfl rfl rfl rfl rfl
  | hearSignal hmain hctx => exact h.exit rfl rfl rfl
  | hearNats hmain =>
    exact of_heard h.shut h.begun rfl (fun hs => h.conn (.inr (.inr (.inr hs)))) h.life.seeking
      h.life.inLoop
  | hearMysql hmain => exact h.exit rfl rfl rfl
  | stop hmain => exact h.exit rfl rfl rfl
  | shutServer hmain => exact h.exit rfl rfl rfl
  | drained a ha hmain => exact h.exit rfl rfl rfl
  | deferMysql rest hmain hdefers => exact h.exit rfl rfl rfl
  | deferPostgres rest hmain hdefers => exact h.exit rfl rfl rfl
  | deferNats rest hmain hdefers =>
    exact of_heard h.shut h.begun rfl (fun hs => h.conn (.inr (.inr (.inr hs)))) h.life.seeking
      h.life.inLoop
  | deferShutdown rest hmain hdefers bus hbus =>
    exact of_heard (hshut hbus).1 (hshut hbus).2 rfl (fun hs => h.conn (.inr (.inr (.inr hs))))
      h.life.seeking h.life.inLoop
  | deferCancel rest hmain hdefers => exact h.exit rfl rfl (by rw [hmain]; rfl)
  | join d hmain hjoined =>
    have hlife := h.life.close
    have hheard : MainPc.heard (if d = .stopPostgres ∧ p.postgres.registered = true then .releasing
        else .unwinding) = true := by
      split <;> rfl
    refine of_heard h.shut h.begun hheard ?_ ?_ ?_ <;> dsimp only
    · split
      · exact fun _ => p.life.close_conn
      · exact fun hs => h.conn (.inr (.inr (.inr hs)))
    · split
      · exact hlife.seeking
      · exact h.life.seeking
    · split
      · exact hlife.inLoop
      · exact h.life.inLoop
  | released a ha hmain => exact h.exit rfl rfl rfl
  | shut i hmain hwritten => exact h.exit rfl rfl rfl
  | finish hmain hdefers => exact h.exit rfl rfl rfl
  | life a life hlife =>
    have hm := Life.step_moves hlife
    exact h.setLife life hm.keeps.1 (hm.stage ▸ fun hs => hm.keeps.2 (h.conn hs)) (h.life.moves hm)
  | take event hpc bus hbus =>
    have hconn := h.conn (.inr (.inr (.inr (by simp [hpc, LifePc.stage]))))
    have hverified := h.life.inLoop (by rw [hpc]; rfl)
    have htold := h.setBus hbus (Bus.shutdownBegan_step hbus (by simp))
    apply htold.setLife
    · split <;> rfl
    · intro _
      split <;> exact hconn
    · split
      · exact h.life.goOn hverified rfl
      · exact h.life
  | channelClosed sub hpc hsub hclosed =>
    -- only `Shutdown` closes a channel, and `run` calls it on its way out
    have hheard := h.shutdown (h.shut sub (List.mem_of_getElem? hsub) hclosed)
    refine h.setLife _ rfl (fun _ => h.conn (.inr (.inr (.inr (by simp [hpc, LifePc.stage]))))) ?_
    exact h.life.leave (.inr (.inr (.inr hheard))) (.inr (.inr (.inr hheard)))
  | unsubscribe hpc bus hbus =>
    have htold := h.setBus hbus (Bus.shutdownBegan_step hbus (by simp))
    have hconn := h.conn (.inr (.inr (.inr (by simp [hpc, LifePc.stage]))))
    refine htold.setLife _ rfl (fun _ => hconn) ?_
    exact h.life.goOut (by rw [hpc]; rfl) ⟨rfl, rfl⟩
  | gone i hpc hwritten =>
    refine h.setLife _ rfl (fun _ => h.conn (.inr (.inr (.inr (by simp [hpc, LifePc.stage]))))) ?_
    exact h.life.goOut (by rw [hpc]; rfl) ⟨rfl, rfl⟩
  | bus a ha bus hbus =>
    exact h.setBus hbus (Bus.shutdownBegan_step hbus (by rintro rfl; cases ha))
  | hand s event todo hhands bus hbus =>
    exact (h.setBus hbus (Bus.shutdownBegan_step hbus (by simp))).setHands s _
  | handed s todo i hhands hhandled => exact h.setHands _ _
  | walConnected hpc hdone => exact h.setLoop (by simp [hpc]) (by simp)
  | walLost hpc hidle hdone =>
    exact h.setLoop (by rcases hpc with hpc | hpc <;> simp [hpc]) (by simp)
  | walRetry hpc =>
    have hne : p.postgres.pc ≠ .notStarted := by simp [hpc]
    refine h.setLoop hne fun hexited => h.postgresDone_iff hne (.inr ?_)
    cases hrunning : p.postgres.running with
    | false => rfl
    | true => simp [hrunning] at hexited
  | walMessage events hpc hidle => exact h.setHands _ _
  | walEnds hdone hpc hidle =>
    have hne : p.postgres.pc ≠ .notStarted := by simp [hpc]
    exact h.setLoop hne fun _ => h.postgresDone_iff hne (.inl hdone)
  | walStop hdone hpc =>
    have hne : p.postgres.pc ≠ .notStarted := by
      rcases hpc with hpc | hpc <;> simp [hpc]
    exact h.setLoop hne fun _ => h.postgresDone_iff hne (.inl hdone)
  | helperStop hdone hpos => exact { h with loop := h.loop, loop_runs := h.loop_runs }
  | sampled usable => exact { h with loop := h.loop, loop_runs := h.loop_runs }
  | binlogEvent events hpc hidle => exact h.setHands _ _
  | binlogFails hpc hidle =>
    refine { h with canal := fun _ => ?_, canal_runs := fun hr => by cases hr }
    exact (h.canal_runs hpc).imp (fun hr => by simp [hr.1]) id
  | canalStop hpc hidle hclosed =>
    refine { h with canal := fun _ => .inr ?_, canal_runs := fun hr => by cases hr }
    exact (h.canal_runs hpc).resolve_left fun hr => absurd (hr.2.symm.trans hclosed) (by simp)
  | saverStop hsaver => exact { h with canal := h.canal, canal_runs := h.canal_runs }
  | serverFails hpc => exact h.copy rfl rfl rfl rfl rfl rfl
  | serverStop hpc hshutdown => exact h.copy rfl rfl rfl rfl rfl rfl

end Told

/-! ### Whole runs -/

/-- What holds after every run. -/
theorem Process.of_run {cap : Nat} {cfg : Config} {actions : List Action} {p : Process}
    (hrun : runSteps (Process.step cap cfg) (init cfg) actions = some p) :
    p.Inv cfg ∧ Told p := by
  refine runSteps_invariant (I := fun p => p.Inv cfg ∧ Told p) ?_ ⟨.init cfg, .init cfg⟩ hrun
  rintro s a t ⟨hinv, htold⟩ hstep
  have hmoves := step_moves hstep
  exact ⟨hinv.moves hmoves, htold.moves hinv hmoves⟩

/-- While `run` waits and one of the goroutines that carry the events has ended, it can hear of it,
    at the latest when the client has run `onClosed`. -/
theorem Process.never_idles {cap : Nat} {cfg : Config} {actions : List Action} {p : Process}
    (hrun : runSteps (Process.step cap cfg) (init cfg) actions = some p)
    (hmain : p.main = .waiting)
    (hended : p.life.pc.ended = true ∨ p.postgres.pc = .exited ∨ p.mysql.pc = .exited) :
    (∃ w, (p.step cap cfg (.hear w)).isSome = true) ∨
      ∃ q, p.step cap cfg (.life .closedHandler) = some q ∧
        (q.step cap cfg (.hear .nats)).isSome = true := by
  obtain ⟨-, htold⟩ := Process.of_run hrun
  have hheard : p.main.heard = false := by rw [hmain]; rfl
  have hsignal : p.ctxDone = true → (p.step cap cfg (.hear .signal)).isSome = true := by
    intro hctx
    simp [Process.step, Process.hear, hmain, hctx]
  rcases hended with hpc | hpc | hpc
  · rcases htold.life.ended hpc with hdone | hfailed | hclosing | hh
    · rw [Process.natsDone, Bool.or_eq_true] at hdone
      rcases hdone with hctx | hcancelled
      · exact .inl ⟨.signal, hsignal hctx⟩
      · exact absurd (hheard.symm.trans (htold.cancelled hcancelled)) (by simp)
    · refine .inl ⟨.nats, ?_⟩
      simp [Process.step, Process.hear, hmain, Option.isSome_iff_ne_none.mpr hfailed]
    · -- the client is about to report the closed connection
      have hstopping : p.life.stopping = false := by
        rw [← Bool.not_eq_true]
        exact fun hs => absurd (hheard.symm.trans (htold.life.stopping hs)) (by simp)
      refine .inr ⟨{ p with life := { p.life.onClosed with closing := false } }, ?_, ?_⟩
      · simp [Process.step, Life.step, hclosing]
      · have hsome := Option.isSome_iff_ne_none.mpr
          (LifeTold.fail_ne_none p.life .connectionClosed)
        simp [Process.step, Process.hear, hmain, Life.onClosed, hstopping, hsome]
    · exact absurd (hheard.symm.trans hh) (by simp)
  · rcases htold.loop hpc with hctx | hh
    · exact .inl ⟨.signal, hsignal hctx⟩
    · exact absurd (hheard.symm.trans hh) (by simp)
  · rcases htold.canal hpc with hfailed | hh
    · refine .inl ⟨.mysql, ?_⟩
      simp [Process.step, Process.hear, hmain, hfailed]
    · exact absurd (hheard.symm.trans hh) (by simp)

/-- NATS and Postgres. -/
def plainConfig : Config := ⟨true, true, false, false⟩

/-- The connection is closed for good while an event is being published. -/
def lostWhilePublishing : List Action :=
  [.connect (some true), .main, .verify .found, .bus (.prepare 0), .bus (.announce 0),
    .bus (.acquire 0), .bus (.body 0), .main, .postgresStarts 1 true, .main, .main, .main, .main,
    .walConnected, .walMessage [newEvent .insert [] [] [] [] []], .hand .postgres,
    .bus (.check 0), .bus (.rlock 0), .bus (.send 0), .take, .life .lost,
    .life (.publishFn .failed), .life .look]

theorem Process.never_idles_lostWhilePublishing :
    ∃ p, runSteps (Process.step 1 plainConfig) (init plainConfig) lostWhilePublishing = some p ∧
      p.main = .waiting ∧ p.life.pc.ended = true ∧
      ((∃ w, (p.step 1 plainConfig (.hear w)).isSome = true) ∨
        ∃ q, p.step 1 plainConfig (.life .closedHandler) = some q ∧
          (q.step 1 plainConfig (.hear .nats)).isSome = true) := by
  refine ⟨_, rfl, rfl, rfl, ?_⟩
  exact @Process.never_idles 1 _ lostWhilePublishing _ rfl rfl (.inl rfl)

end Main
