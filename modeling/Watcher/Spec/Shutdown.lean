import Watcher.Spec.Probes

/-!
# The process comes to its end

Once the root context is done everybody goes home: what waits under a context
returns, the publisher's goroutine leaves its loop and closes `done` of its
subscription, which lets go whoever is blocked on the full channel, and then the
wait groups of the deferred calls empty one after the other.

No step of that needs anything from outside but the time to pass that `run` gives
to `server.Shutdown` and to the release of the slot (`Process.canWork`), and every
one of them leaves less to be done (`Process.work_moves`). The two calls of `run`
that take no context are apart: while it is in `nats.Connect` or asks the MySQL
server, the signal is not heard.

Nobody waits for the HTTP server. Its goroutine, and the requests that have
outlasted `server.Shutdown`, end with the process.
-/

namespace Nats

/-- How far the publisher's goroutine is from its end. -/
def LifePc.rank (conn : Option Connection) : LifePc → Nat
  | .notStarted => 0
  | .awaiting => 36
  | .looking => 35
  | .pausing => 36
  | .selecting => 35
  | .publishing _ _ => 37
  -- if the connection is up again there is one more attempt
  | .reconnecting _ _ => if conn = some .connected then 38 else 36
  | .retrying _ _ => 36
  | .leaving => 34
  | .unsubscribing _ => 1
  | .exited => 0

/-- The goroutine, and the handler the client has to call. -/
def Life.rank (l : Life) : Nat := l.pc.rank l.conn + if l.closing then 1 else 0

theorem LifePc.rank_closed_le (pc : LifePc) (conn : Option Connection) :
    pc.rank (some .closed) ≤ pc.rank conn := by
  cases pc <;> simp [LifePc.rank]
  split <;> omega

theorem Life.rank_close (l : Life) : l.close.rank ≤ l.rank + 1 := by
  by_cases hclosed : l.conn = some .closed
  · simp [Life.close, hclosed]
  · have hle := l.pc.rank_closed_le l.conn
    simp only [Life.close, hclosed, Life.rank, ↓reduceIte]
    omega

theorem Life.rank_start (l : Life) : l.start.rank ≤ l.rank + 36 := by
  obtain ⟨conn, verified, stopping, cancelled, failed, closing, pc⟩ := l
  cases verified <;> simp [Life.start, Life.rank, LifePc.rank] <;> omega

/-- Each step of the goroutine's own work brings it closer to its end. -/
theorem LifeMoves.rank {ctxDone : Bool} {l l' : Life} {a : LifeAction}
    (h : LifeMoves ctxDone l a l') (ha : a.isWork = true) : l'.rank < l.rank := by
  cases h with
  | up hconn => cases ha
  | down hconn => cases ha
  | lost hconn => cases ha
  | closedHandler hclosing =>
    have hpc := l.onClosed_pc
    have hconn : l.onClosed.conn = l.conn := by
      rw [Life.onClosed]
      split <;> rfl
    simp only [Life.rank, hclosing, hpc, hconn]
    simp
  | found hpc => cases ha
  | missing hpc => cases ha
  | lookupFails hpc => cases ha
  | awake hpc => cases ha
  | connected hpc hconn => simp [Life.rank, LifePc.rank, hpc]
  | closed hpc hconn =>
    cases ctxDone <;> simp [Life.giveUp, Life.fail, Life.rank, LifePc.rank, hpc]
  | acked event form hpc => cases ha
  | tooLarge event form hpc => cases ha
  | attemptFails a event form hpc ha' =>
    -- after a lost connection the wait for a new one comes first
    by_cases hlost : l.connectionLost = true
    · have hconn : l.conn ≠ some .connected := by
        intro hc
        simp [Life.connectionLost, hc] at hlost
      simp [Life.rank, LifePc.rank, hpc, hlost, hconn]
    · simp [Life.rank, LifePc.rank, hpc, hlost]
  | retry event form hpc => cases ha
  | reconnected event form hpc hconn => simp [Life.rank, LifePc.rank, hpc, hconn]
  | disconnected event form hpc hconn => simp [Life.rank, LifePc.rank, hpc, hconn]
  | doneWaiting hdone hpc =>
    rcases hpc with hpc | hpc | hpc | hpc <;> simp [Life.rank, LifePc.rank, hpc]
  | doneRetrying hdone event form hpc =>
    rcases hpc with ⟨hpc, hconn⟩ | hpc
    · simp [Life.rank, LifePc.rank, hpc, hconn]
    · simp [Life.rank, LifePc.rank, hpc]

end Nats

namespace Main

open Cdc Nats Run List

/-- The actions that are the work of the process itself, the end of its own deadlines included. -/
def Action.isWork : Action → Bool
  | .hear _ | .main | .take | .channelClosed | .unsubscribe | .gone | .hand _ | .handed _ => true
  | .walStop | .helperStop | .canalStop | .saverStop | .serverStop | .deadline => true
  | .life a => a.isWork
  | .bus a => a.isWork
  | _ => false

/-! ### The work that is left -/

/-- How far `run` is from its end; a call that is deferred on the way counts for 50 more. -/
def MainPc.rank : MainPc → Nat
  | .connecting => 0
  | .verifying => 400
  | .looking => 399
  | .subscribing _ => 300
  | .startingPostgres => 168
  | .markingPostgres => 167
  | .storingPostgres => 166
  | .startingMysql => 115
  | .markingMysql => 165
  | .started => 114
  | .waiting => 113
  | .stopping => 112
  | .closing => 111
  | .draining => 110
  | .unwinding => 100
  | .joining _ => 105
  | .releasing => 102
  | .shutting _ => 103
  | .returned => 0

/-- An event weighs as much as its way through the bus. -/
def Hands.rank (h : Hands) : Nat := 64 * h.todo.length + if h.call.isSome then 1 else 0

/-- How far `listenLoop` is from its end. -/
def LoopPc.rank : LoopPc → Nat
  | .streaming => 2
  | .connecting => 1
  | .sleeping => 1
  | _ => 0

/-- The loop and its helpers. -/
def PostgresPart.rank (l : PostgresPart) : Nat := l.pc.rank + l.helpers

/-- How far canal is from its end. -/
def CanalPc.rank : CanalPc → Nat
  | .running => 1
  | _ => 0

/-- Canal and `offsetSaver`. -/
def MysqlPart.rank (l : MysqlPart) : Nat := l.pc.rank + if l.saver then 1 else 0

/-- The server's own goroutine. -/
def HttpPart.rank (l : HttpPart) : Nat := if l.pc = .serving then 1 else 0

namespace Process

/-- What the sources still have to hand over. -/
def handing (p : Process) : Nat :=
  (p.hands .run).rank + (p.hands .postgres).rank + (p.hands .mysql).rank

/-- How much the process can do before somebody from outside does something. -/
def work (p : Process) : Nat :=
  8 * p.bus.work + p.life.rank + p.handing + p.main.rank + 50 * p.defers.length +
    p.postgres.rank + p.mysql.rank + p.http.rank

/-- What a source has to hand over counts apart from the rest. -/
theorem work_setHands (p : Process) (s : Source) (new : Hands) :
    (p.setHands s new).work + (p.hands s).rank = p.work + new.rank := by
  have hhanding : (p.setHands s new).handing + (p.hands s).rank = p.handing + new.rank := by
    cases s <;> simp [handing, setHands] <;> omega
  have hbus : (p.setHands s new).bus = p.bus := rfl
  have hlife : (p.setHands s new).life = p.life := rfl
  have hmain : (p.setHands s new).main = p.main := rfl
  have hdefers : (p.setHands s new).defers = p.defers := rfl
  have hpostgres : (p.setHands s new).postgres = p.postgres := rfl
  have hmysql : (p.setHands s new).mysql = p.mysql := rfl
  have hhttp : (p.setHands s new).http = p.http := rfl
  simp only [work, hbus, hlife, hmain, hdefers, hpostgres, hmysql, hhttp]
  omega

/-- So does the bus. -/
theorem work_setBus (p : Process) (bus : Bus) :
    work { p with bus := bus } + 8 * p.bus.work = p.work + 8 * bus.work := by
  simp only [work, handing]
  omega

variable {cap : Nat} {cfg : Config} {p q : Process}

/-- Every step of the work leaves less of it. -/
theorem work_moves {a : Action} (h : p.Inv cfg) (hmoves : Moves cap cfg p a q)
    (ha : a.isWork = true) : q.work < p.work := by
  cases hmoves with
  | signal => cases ha
  | connectFails hmain => cases ha
  | connects conn hconn up hmain => cases ha
  | lookUp hmain hconn => simp [work, handing, hmain, MainPc.rank]
  | missing hmain => cases ha
  | verified r hmain bus hbus => cases ha
  | subscribe hmain bus hbus =>
    have hnil := (h.subscribed.early (by rcases hmain with hm | hm <;> rw [hm] <;> rfl)).1
    have hbus' := Bus.work_callSubscribe hnil hbus
    rcases hmain with hm | hm <;> simp only [work, handing, hm, MainPc.rank, hbus'] <;> omega
  | subscribed i hmain hwritten =>
    have hrank := p.life.rank_start
    simp only [work, handing, hmain, MainPc.rank, length_cons, HttpPart.rank, ↓reduceIte]
    omega
  | skipPostgres hmain hcfg => simp [work, handing, hmain, MainPc.rank]
  | postgresCancelled hmain hctx hidle =>
    simp only [work, handing, Process.postgresFails, Process.unwind, hmain, MainPc.rank]
    omega
  | postgresFails hmain hidle => cases ha
  | postgresRows events hmain hcfg hidle => cases ha
  | postgresStarts helpers registered hmain hidle => cases ha
  | markPostgres hmain => simp [work, handing, hmain, MainPc.rank]
  | storePostgres hmain =>
    simp only [work, handing, hmain, MainPc.rank, length_cons]
    omega
  | skipMysql hmain hcfg => simp [work, handing, hmain, MainPc.rank]
  | mysqlFails hmain hidle => cases ha
  | mysqlRows events hmain hcfg hidle => cases ha
  | mysqlStarts hmain hidle => cases ha
  | markMysql hmain =>
    simp only [work, handing, hmain, MainPc.rank, length_cons]
    omega
  | finishStart hmain => simp [work, handing, hmain, MainPc.rank]
  | hearSignal hmain hctx => simp [work, handing, hmain, MainPc.rank]
  | hearNats hmain =>
    have hrank : Life.rank { p.life with failed := none } = p.life.rank := rfl
    simp [work, handing, hmain, MainPc.rank, hrank]
  | hearMysql hmain =>
    simp only [work, handing, hmain, MainPc.rank, MysqlPart.rank]
    omega
  | stop hmain => simp [work, handing, hmain, MainPc.rank]
  | shutServer hmain => simp [work, handing, hmain, MainPc.rank, HttpPart.rank]
  | drained a ha' hmain => simp [work, handing, hmain, MainPc.rank]
  | deferMysql rest hmain hdefers =>
    simp only [work, handing, hmain, MainPc.rank, hdefers, length_cons, MysqlPart.rank]
    omega
  | deferPostgres rest hmain hdefers =>
    simp only [work, handing, hmain, MainPc.rank, hdefers, length_cons, PostgresPart.rank]
    omega
  | deferNats rest hmain hdefers =>
    have hrank : p.life.stop.rank = p.life.rank := rfl
    simp only [work, handing, hmain, MainPc.rank, hdefers, length_cons, hrank]
    omega
  | deferShutdown rest hmain hdefers bus hbus =>
    have hbus' := (Bus.work_callShutdown hbus).1
    simp only [work, handing, hmain, MainPc.rank, hdefers, length_cons, hbus']
    omega
  | deferCancel rest hmain hdefers =>
    simp only [work, handing, hmain, MainPc.rank, hdefers, length_cons]
    omega
  | join d hmain hjoined =>
    have hrank := p.life.rank_close
    have hnext : MainPc.rank (if d = .stopPostgres ∧ p.postgres.registered = true then .releasing
        else .unwinding) ≤ 102 := by
      split <;> simp [MainPc.rank]
    have hpc : (MainPc.joining d).rank = 105 := rfl
    simp only [work, handing, hmain, hpc]
    split <;> omega
  | released a ha' hmain => simp [work, handing, hmain, MainPc.rank]
  | shut i hmain hwritten => simp [work, handing, hmain, MainPc.rank]
  | finish hmain hdefers => simp [work, handing, hmain, MainPc.rank, hdefers]
  | life a life hlife =>
    have hrank := (Life.step_moves hlife).rank ha
    simp only [work, handing]
    omega
  | take event hpc bus hbus =>
    have hbus' := Bus.work_step h.progress hbus rfl
    simp only [work, handing]
    split
    · simp only [Life.rank, LifePc.rank, hpc]
      omega
    · omega
  | channelClosed sub hpc hsub hclosed =>
    simp only [work, handing, Life.rank, LifePc.rank, hpc]
    omega
  | unsubscribe hpc bus hbus =>
    have hbus' := (Bus.work_callUnsubscribe hbus).1
    simp only [work, handing, Life.rank, LifePc.rank, hpc, hbus']
    omega
  | gone i hpc hwritten =>
    simp only [work, handing, Life.rank, LifePc.rank, hpc]
    omega
  | bus a ha' bus hbus =>
    have hbus' := Bus.work_step h.progress hbus ha
    simp only [work, handing]
    omega
  | hand s event todo hhands bus hbus =>
    have hbus' := Bus.work_callHandle hbus
    -- 64 covers a call of `HandleEvent` on at most one subscription
    have hroom := h.subscribed.room_le
    have hset := p.work_setHands s ⟨todo, some p.bus.handles.length⟩
    have hput := (p.setHands s ⟨todo, some p.bus.handles.length⟩).work_setBus bus
    simp only [hhands, Hands.rank, length_cons, Option.isSome_none, Option.isSome_some,
      Bool.false_eq_true, ↓reduceIte] at hset
    have hbus : (p.setHands s ⟨todo, some p.bus.handles.length⟩).bus = p.bus := rfl
    rw [hbus] at hput
    dsimp only
    omega
  | handed s todo i hhands hhandled =>
    have hset := p.work_setHands s ⟨todo, none⟩
    simp only [hhands, Hands.rank, Option.isSome_none, Option.isSome_some, Bool.false_eq_true,
      ↓reduceIte] at hset
    omega
  | walConnected hpc hdone => cases ha
  | walLost hpc hidle hdone => cases ha
  | walRetry hpc => cases ha
  | walMessage events hpc hidle => cases ha
  | walEnds hdone hpc hidle =>
    simp only [work, handing, Process.setLoop, PostgresPart.rank, hpc]
    split <;> simp only [LoopPc.rank] <;> omega
  | walStop hdone hpc =>
    rcases hpc with hpc | hpc <;> simp only [work, handing, Process.setLoop, PostgresPart.rank,
      hpc, LoopPc.rank] <;> omega
  | helperStop hdone hpos =>
    simp only [work, handing, PostgresPart.rank]
    omega
  | sampled usable => cases ha
  | binlogEvent events hpc hidle => cases ha
  | binlogFails hpc hidle => cases ha
  | canalStop hpc hidle hclosed =>
    simp only [work, handing, MysqlPart.rank, hpc, CanalPc.rank]
    omega
  | saverStop hsaver =>
    simp only [work, handing, MysqlPart.rank, hsaver, Bool.false_eq_true, ↓reduceIte]
    omega
  | serverFails hpc => cases ha
  | serverStop hpc hshutdown => simp [work, handing, HttpPart.rank, hpc]

/-- A run of the work is no longer than the work there is. -/
theorem work_run (h : p.Inv cfg) {actions : List Action} (hwork : ∀ a ∈ actions, a.isWork = true)
    (hrun : runSteps (Process.step cap cfg) p actions = some q) :
    q.work + actions.length ≤ p.work := by
  induction actions generalizing p with
  | nil =>
    rw [runSteps_nil, Option.some.injEq] at hrun
    rw [hrun]
    exact Nat.le_refl _
  | cons a actions ih =>
    rw [runSteps_cons, Option.bind_eq_some_iff] at hrun
    obtain ⟨p₁, h₁, hrest⟩ := hrun
    have hmoves := step_moves h₁
    have hlt := work_moves h hmoves (hwork a mem_cons_self)
    have hle := ih (h.moves hmoves) (fun b hb => hwork b (mem_cons_of_mem _ hb)) hrest
    rw [length_cons]
    omega

/-! ### There is always something to do -/

/-- Something can be done that needs nothing from outside, or a deadline can pass. -/
def CanWork (cap : Nat) (cfg : Config) (p : Process) : Prop :=
  ∃ a : Action, a.isWork = true ∧ (p.step cap cfg a).isSome = true

theorem natsDone_of_ctxDone (hctx : p.ctxDone = true) : p.natsDone = true := by
  simp [natsDone, hctx]

theorem postgresDone_of_ctxDone (hctx : p.ctxDone = true) : p.postgresDone = true := by
  simp [postgresDone, hctx]

theorem mysqlDone_of_ctxDone (hctx : p.ctxDone = true) : p.mysqlDone = true := by
  simp [mysqlDone, hctx]

theorem canWork_of_life {a : LifeAction} (ha : a.isWork = true)
    (hstep : (p.life.step p.natsDone a).isSome = true) : p.CanWork cap cfg :=
  ⟨.life a, ha, by rw [Process.step, Option.isSome_map]; exact hstep⟩

theorem canWork_of_bus (h : p.bus.CanWorkInside cap) : p.CanWork cap cfg := by
  obtain ⟨a, ha, hinside, hstep⟩ := h
  refine ⟨.bus a, ha, ?_⟩
  simp only [Process.step, hinside, ↓reduceIte, Option.isSome_map]
  exact hstep

/-- The publisher's goroutine finds out that the context is done wherever it is. -/
theorem canWork_of_live (h : p.Inv cfg) (htold : Told p) (hctx : p.ctxDone = true)
    (hlive : p.life.pc.stage = .live) : p.CanWork cap cfg := by
  have hdone := natsDone_of_ctxDone hctx
  have hconn : p.life.conn ≠ none :=
    htold.conn (.inr (.inr (.inr (by rw [hlive]; decide))))
  cases hpc : p.life.pc with
  | notStarted =>
    rw [hpc] at hlive
    cases hlive
  | unsubscribing i =>
    rw [hpc] at hlive
    cases hlive
  | exited =>
    rw [hpc] at hlive
    cases hlive
  | leaving =>
    refine ⟨.unsubscribe, rfl, ?_⟩
    have hsub := h.subscribed.live hlive
    simp [Process.step, stepNats, hpc, Bus.step, Bus.act, subscription, hsub]
  | awaiting =>
    -- the connection is looked at before the context
    obtain ⟨conn, hconn⟩ := Option.ne_none_iff_exists'.mp hconn
    cases conn with
    | disconnected =>
      exact canWork_of_life (a := .done) rfl (by simp [Life.step, hdone, Life.done, hpc, hconn])
    | connected =>
      exact canWork_of_life (a := .look) rfl (by simp [Life.step, Life.look, hpc, hconn])
    | closed =>
      exact canWork_of_life (a := .look) rfl (by simp [Life.step, Life.look, hpc, hconn])
  | reconnecting event form =>
    obtain ⟨conn, hconn⟩ := Option.ne_none_iff_exists'.mp hconn
    cases conn with
    | disconnected =>
      exact canWork_of_life (a := .done) rfl (by simp [Life.step, hdone, Life.done, hpc, hconn])
    | connected =>
      exact canWork_of_life (a := .look) rfl (by simp [Life.step, Life.look, hpc, hconn])
    | closed =>
      exact canWork_of_life (a := .look) rfl (by simp [Life.step, Life.look, hpc, hconn])
  | looking => exact canWork_of_life (a := .done) rfl (by simp [Life.step, hdone, Life.done, hpc])
  | pausing => exact canWork_of_life (a := .done) rfl (by simp [Life.step, hdone, Life.done, hpc])
  | selecting =>
    exact canWork_of_life (a := .done) rfl (by simp [Life.step, hdone, Life.done, hpc])
  | publishing event form =>
    exact canWork_of_life (a := .done) rfl (by simp [Life.step, hdone, Life.done, hpc])
  | retrying event form =>
    exact canWork_of_life (a := .done) rfl (by simp [Life.step, hdone, Life.done, hpc])

/-- A call of the bus that has not returned moves on, or the publisher does, on its way out. -/
theorem canWork_of_unfinished (h : p.Inv cfg) (htold : Told p) (hcap : 0 < cap)
    (hctx : p.ctxDone = true) (hunfinished : p.bus.Unfinished) : p.CanWork cap cfg := by
  have hleft (hstage : (∃ i, p.life.pc.stage = .unsubscribing i) ∨ p.life.pc.stage = .exited) :
      p.CanWork cap cfg := by
    obtain ⟨sub, hsub, hbegan⟩ := h.subscribed.left hstage
    have hle := h.subscribed.subs_le
    have honly : p.bus.subs = [sub] := by
      cases hsubs : p.bus.subs with
      | nil => simp [hsubs, subscription] at hsub
      | cons first rest =>
        rw [hsubs, length_cons] at hle
        have hrest : rest = [] := length_eq_zero_iff.mp (by omega)
        rw [hsubs, subscription, getElem?_cons_zero, Option.some.injEq] at hsub
        rw [hsub, hrest]
    exact canWork_of_bus (h.progress.canWorkInside_of_left hcap hunfinished honly hbegan)
  cases hstage : p.life.pc.stage with
  | live => exact canWork_of_live h htold hctx hstage
  | unsubscribing i => exact hleft (.inl ⟨i, hstage⟩)
  | exited => exact hleft (.inr hstage)
  | before =>
    have hsent : ∀ sub ∈ p.bus.subs, sub.sent = [] := by
      rcases h.subscribed.before hstage with hroom | ⟨i, hmain⟩
      · simp [Subscribed.subs_nil hroom]
      · exact (h.subscribed.subscribing i hmain).2.2.1
    exact canWork_of_bus (h.progress.canWorkInside_of_unsent hcap hunfinished hsent)

/-- A writing call has returned, or there is work. -/
theorem written_or_canWork (h : p.Inv cfg) (htold : Told p) (hcap : 0 < cap)
    (hctx : p.ctxDone = true) {i : Nat} (hi : i < p.bus.writes.length) :
    written p.bus i = true ∨ p.CanWork cap cfg := by
  by_cases hret : (p.bus.writes[i]).pc = .returned
  · exact .inl (written_iff.mpr ⟨_, getElem?_eq_getElem hi, hret⟩)
  · exact .inr (canWork_of_unfinished h htold hcap hctx (.inr ⟨_, getElem_mem hi, hret⟩))

/-- Whoever has something to hand over gets on with it. -/
theorem canWork_of_hands (h : p.Inv cfg) (htold : Told p) (hcap : 0 < cap)
    (hctx : p.ctxDone = true) {s : Source} (hbusy : (p.hands s).idle = false) :
    p.CanWork cap cfg := by
  cases hhands : p.hands s with
  | mk todo call =>
    cases call with
    | some i =>
      have hi : i < p.bus.handles.length := h.calls.made s i (by rw [hhands])
      cases hfin : (p.bus.handles[i]).pc.finished with
      | true =>
        have hhandled : handled p.bus i = true :=
          handled_iff.mpr ⟨_, getElem?_eq_getElem hi, hfin⟩
        exact ⟨.handed s, rfl, by simp [Process.step, stepHands, hhands, hhandled]⟩
      | false =>
        exact canWork_of_unfinished h htold hcap hctx (.inl ⟨_, getElem_mem hi, hfin⟩)
    | none =>
      cases todo with
      | nil => simp [hhands, Hands.idle] at hbusy
      | cons event todo =>
        have hidle := h.calls.producer_idle (show (p.hands s).call = none by rw [hhands])
        have hall : (p.bus.handles.all fun c => c.producer != s.id || c.pc.finished) = true := by
          rw [all_eq_true]
          intro c hc
          by_cases hproducer : c.producer = s.id
          · simp [hidle c hc hproducer]
          · simp [hproducer]
        refine ⟨.hand s, rfl, ?_⟩
        simp [Process.step, stepHands, hhands, Bus.step, Bus.act, hall]

/-- `run` is in a call that is given no context: `nats.Connect`, or the start of canal. -/
def asking (cfg : Config) (p : Process) : Bool :=
  p.main == .connecting || (p.main == .startingMysql && cfg.mysql && (p.hands .run).idle)

/-- What a deferred call waits for comes. -/
theorem canWork_of_joining (h : p.Inv cfg) (htold : Told p) (hcap : 0 < cap)
    (hctx : p.ctxDone = true) {d : Deferred} (hmain : p.main = .joining d) :
    p.CanWork cap cfg := by
  by_cases hjoined : p.joined d = true
  · exact ⟨.main, rfl, by simp [Process.step, stepMain, hmain, hjoined]⟩
  cases d with
  | shutdown => exact absurd rfl hjoined
  | cancel => exact absurd rfl hjoined
  | stopMysql =>
    have hdone := mysqlDone_of_ctxDone hctx
    by_cases hsaver : p.mysql.saver = true
    · exact ⟨.saverStop, rfl, by simp [Process.step, stepCanal, hdone, hsaver]⟩
    have hpc : p.mysql.pc = .running := by
      by_contra hpc
      exact hjoined (by simp [joined, hpc, hsaver])
    cases hidle : (p.hands .mysql).idle with
    | false => exact canWork_of_hands h htold hcap hctx hidle
    | true =>
      -- `Stop` has closed canal before it waits
      have hclosed := h.stacked.closed hmain
      exact ⟨.canalStop, rfl, by simp [Process.step, stepCanal, hpc, hidle, hclosed]⟩
  | stopPostgres =>
    have hdone := postgresDone_of_ctxDone hctx
    by_cases hhelpers : 0 < p.postgres.helpers
    · exact ⟨.helperStop, rfl, by simp [Process.step, stepLoop, hdone, hhelpers]⟩
    -- the loop itself is left
    have hzero : p.postgres.helpers = 0 := by omega
    cases hidle : (p.hands .postgres).idle with
    | false => exact canWork_of_hands h htold hcap hctx hidle
    | true =>
      refine ⟨.walStop, rfl, ?_⟩
      cases hpc : p.postgres.pc with
      | notStarted => exact absurd (by simp [joined, hpc, hzero]) hjoined
      | exited => exact absurd (by simp [joined, hpc, hzero]) hjoined
      | streaming => simp [Process.step, stepLoop, hdone, hpc, hidle]
      | connecting => simp [Process.step, stepLoop, hdone, hpc]
      | sleeping => simp [Process.step, stepLoop, hdone, hpc]
  | stopNats =>
    cases hstage : p.life.pc.stage with
    | live => exact canWork_of_live h htold hctx hstage
    | before =>
      cases hpc : p.life.pc <;> simp [hpc, LifePc.stage] at hstage
      exact absurd (by simp [joined, hpc]) hjoined
    | exited =>
      cases hpc : p.life.pc <;> simp [hpc, LifePc.stage] at hstage
      exact absurd (by simp [joined, hpc]) hjoined
    | unsubscribing i =>
      have hpc : p.life.pc = .unsubscribing i := by
        cases hpc : p.life.pc <;> simp [hpc, LifePc.stage] at hstage
        rw [hstage]
      -- the goroutine is in `Unsubscribe`
      have hi := h.writers.life_made i hstage
      refine (written_or_canWork h htold hcap hctx hi).elim (fun hwritten => ?_) id
      exact ⟨.gone, rfl, by simp [Process.step, stepNats, hpc, hwritten]⟩

theorem isSome_subscribe (p : Process) : (p.subscribe cap).isSome = true := by
  simp [subscribe, Bus.step, Bus.act]

/-- So can a deferred function. -/
theorem isSome_defer (p : Process) (d : Deferred) (rest : List Deferred) :
    (p.defer cap d rest).isSome = true := by
  cases d <;> simp [defer, Bus.step, Bus.act]

/-- Once the context is done there is always work, until `run` returns. -/
theorem canWork (h : p.Inv cfg) (htold : Told p) (hcap : 0 < cap) (hctx : p.ctxDone = true)
    (hmain : p.main ≠ .returned) (hasking : p.asking cfg = false) : p.CanWork cap cfg := by
  cases hpc : p.main with
  | returned => exact absurd hpc hmain
  | connecting => simp [asking, hpc] at hasking
  | verifying =>
    refine ⟨.main, rfl, ?_⟩
    simp only [Process.step, stepMain, hpc]
    split
    · rfl
    · exact p.isSome_subscribe
  | looking =>
    refine ⟨.main, rfl, ?_⟩
    simp only [Process.step, stepMain, hpc, hctx, ↓reduceIte]
    exact p.isSome_subscribe
  | subscribing i =>
    have hi := h.writers.main_made i (by rw [hpc]; rfl)
    refine (written_or_canWork h htold hcap hctx hi).elim (fun hwritten => ?_) id
    exact ⟨.main, rfl, by simp [Process.step, stepMain, hpc, hwritten]⟩
  | startingPostgres =>
    cases hidle : (p.hands .run).idle with
    | false => exact canWork_of_hands h htold hcap hctx hidle
    | true =>
      refine ⟨.main, rfl, ?_⟩
      cases hcfg : cfg.postgres <;> simp [Process.step, stepMain, hpc, hcfg, hctx, hidle]
  | markingPostgres => exact ⟨.main, rfl, by simp [Process.step, stepMain, hpc]⟩
  | storingPostgres => exact ⟨.main, rfl, by simp [Process.step, stepMain, hpc]⟩
  | markingMysql => exact ⟨.main, rfl, by simp [Process.step, stepMain, hpc]⟩
  | started => exact ⟨.main, rfl, by simp [Process.step, stepMain, hpc]⟩
  | startingMysql =>
    cases hidle : (p.hands .run).idle with
    | false => exact canWork_of_hands h htold hcap hctx hidle
    | true =>
      -- with a MySQL listener `run` would be in a call without a context
      have hcfg : cfg.mysql = false := by simpa [asking, hpc, hidle] using hasking
      exact ⟨.main, rfl, by simp [Process.step, stepMain, hpc, hcfg]⟩
  | waiting => exact ⟨.hear .signal, rfl, by simp [Process.step, hear, hpc, hctx]⟩
  | stopping => exact ⟨.main, rfl, by simp [Process.step, stepMain, hpc]⟩
  | closing => exact ⟨.main, rfl, by simp [Process.step, stepMain, hpc]⟩
  -- the two deadlines of `run`
  | draining => exact ⟨.deadline, rfl, by simp [Process.step, stepServer, hpc]⟩
  | releasing => exact ⟨.deadline, rfl, by simp [Process.step, stepServer, hpc]⟩
  | unwinding =>
    refine ⟨.main, rfl, ?_⟩
    cases hdefers : p.defers with
    | nil => simp [Process.step, stepMain, hpc, hdefers]
    | cons d rest =>
      simp only [Process.step, stepMain, hpc, hdefers]
      exact p.isSome_defer d rest
  | joining d => exact canWork_of_joining h htold hcap hctx hpc
  | shutting i =>
    have hi := h.writers.main_made i (by rw [hpc]; rfl)
    refine (written_or_canWork h htold hcap hctx hi).elim (fun hwritten => ?_) id
    exact ⟨.main, rfl, by simp [Process.step, stepMain, hpc, hwritten]⟩

/-! ### What is left when `run` has returned -/

/-- Every goroutine that was started has ended but those of the HTTP server, and so has every call
    of the bus; after a start that succeeded the server has been told to end. -/
structure Ended (p : Process) : Prop where
  nats : p.life.pc = .notStarted ∨ p.life.pc = .exited
  postgres : (p.postgres.pc = .notStarted ∨ p.postgres.pc = .exited) ∧ p.postgres.helpers = 0
  mysql : p.mysql.pc ≠ .running ∧ p.mysql.saver = false
  calls : ¬ p.bus.Unfinished
  http : p.starting = false → p.http.shutdown = true

/-- When `run` has returned everybody is gone. -/
theorem Inv.ended (h : p.Inv cfg) (hstarted : Started cfg p) (hmain : p.main = .returned) :
    p.Ended := by
  have hdefers := h.stacked.returned hmain
  have hnone {d : Deferred} (hd : d ∈ p.defers ∨ p.main.minds = some d) : False := by
    rcases hd with hd | hd
    · simp [hdefers] at hd
    · rw [hmain] at hd
      cases hd
  have hpostgres : ¬ ((p.postgres.pc ≠ .notStarted ∧ p.postgres.pc ≠ .exited) ∨
      0 < p.postgres.helpers) := fun hs => hnone (h.stacked.postgres hs)
  have hmysql : ¬ (p.mysql.pc = .running ∨ p.mysql.saver = true) :=
    fun hs => hnone (h.stacked.mysql hs)
  have hnats : ¬ (p.life.pc.stage = .live ∨ ∃ i, p.life.pc.stage = .unsubscribing i) :=
    fun hs => hnone (h.stacked.nats hs)
  refine ⟨?_, ?_, by simpa using hmysql, ?_, fun hs => ?_⟩
  · cases hpc : p.life.pc <;> simp [hpc, LifePc.stage] at hnats ⊢
  · exact ⟨by tauto, by omega⟩
  · rintro (⟨c, hc, hfin⟩ | ⟨w, hw, hret⟩)
    · -- its caller would still be there
      obtain ⟨i, hi⟩ := mem_iff_getElem?.mp hc
      obtain ⟨s, -, hcall⟩ := h.calls.owned i c hi hfin
      have hbusy : (p.hands s).idle = false := by simp [Hands.idle, hcall]
      cases s with
      | run => simpa [hmain] using h.busy.run hbusy
      | postgres => exact hpostgres (.inl (by simp [h.busy.postgres hbusy]))
      | mysql => exact hmysql (.inl (h.busy.mysql hbusy))
    · obtain ⟨i, hi⟩ := mem_iff_getElem?.mp hw
      rcases h.writers.owned i w hi hret with hcall | hstage
      · rw [hmain] at hcall
        cases hcall
      · exact hnats (.inr ⟨i, hstage⟩)
  · exact (hstarted.closed hs).resolve_left (by simp [hmain, MainPc.open])

end Process

/-- However the goroutines of the process interleave: once the root context is done there is
    always a step left that needs nothing from outside, or the end of a deadline of `run`, as long
    as `run` has not returned and is not in a call that takes no context; there are only so many
    such steps; and when `run` returns, all goroutines but those of the HTTP server have ended, and
    so have all calls of the bus. `run` is on its way out only if the context is done or the start
    has failed. -/
theorem Process.shutdown_ends {cap : Nat} (hcap : 0 < cap) {cfg : Config} {actions : List Action}
    {p : Process} (hrun : runSteps (Process.step cap cfg) (init cfg) actions = some p) :
    (p.ctxDone = true → p.main ≠ .returned → p.asking cfg = false → p.CanWork cap cfg) ∧
    (∃ bound, ∀ work q, (∀ a ∈ work, a.isWork = true) →
      runSteps (Process.step cap cfg) p work = some q → work.length ≤ bound) ∧
    (p.main = .returned → p.Ended) ∧
    (p.main.exiting = true → p.ctxDone = true ∨ p.result = .startFailed) := by
  obtain ⟨hinv, htold⟩ := Process.of_run hrun
  refine ⟨Process.canWork hinv htold hcap, ⟨p.work, ?_⟩, hinv.ended (.of_run hrun), hinv.exiting⟩
  intro work q hwork hq
  have hle := Process.work_run hinv hwork hq
  omega

/-- The failure of `lostWhilePublishing` is heard, the context cancelled and the server shut down,
    which then waits for a request that nobody answers. -/
theorem Process.shutdown_ends_lostWhilePublishing :
    ∃ p, runSteps (Process.step 1 plainConfig) (init plainConfig)
        (lostWhilePublishing ++ [.life .closedHandler, .hear .nats, .main, .main]) = some p ∧
      p.ctxDone = true ∧ p.main = .draining ∧ p.CanWork 1 plainConfig := by
  refine ⟨_, rfl, rfl, rfl, ?_⟩
  exact (@Process.shutdown_ends 1 Nat.one_pos plainConfig
    (lostWhilePublishing ++ [.life .closedHandler, .hear .nats, .main, .main]) _ rfl).1 rfl
    (fun he => by cases he) rfl

end Main
