import Watcher.Model.Process
import Watcher.Spec.BusFrame

/-!
# What a step of the process can do

`Main.Moves` lists the steps of the process with their guards, `Nats.LifeMoves` those
of the publisher's goroutine and the client; the invariants of the process and the
bound on its work are shown by cases on them.
-/

namespace Nats

open Cdc Option

/-- The actions of the publisher's goroutine and the client, and their effects. -/
inductive LifeMoves (ctxDone : Bool) (l : Life) : LifeAction → Life → Prop where
  -- the client
  | up (hconn : l.conn = some .disconnected) :
      LifeMoves ctxDone l .up { l with conn := some .connected }
  | down (hconn : l.conn = some .connected) :
      LifeMoves ctxDone l .down { l with conn := some .disconnected }
  | lost (hconn : l.conn ≠ none) : LifeMoves ctxDone l .lost l.close
  | closedHandler (hclosing : l.closing = true) :
      LifeMoves ctxDone l .closedHandler { l.onClosed with closing := false }
  -- `awaitStream`
  | found (hpc : l.pc = .looking) :
      LifeMoves ctxDone l (.lookup .found) { l with streamVerified := true, pc := .selecting }
  | missing (hpc : l.pc = .looking) :
      LifeMoves ctxDone l (.lookup .missing) (l.giveUp ctxDone .streamMissing)
  | lookupFails (hpc : l.pc = .looking) :
      LifeMoves ctxDone l (.lookup .failed)
        { l with pc := if ctxDone then .leaving else .pausing }
  | awake (hpc : l.pc = .pausing) : LifeMoves ctxDone l .timer { l with pc := .awaiting }
  | connected (hpc : l.pc = .awaiting) (hconn : l.conn = some .connected) :
      LifeMoves ctxDone l .look { l with pc := .looking }
  | closed (hpc : l.pc = .awaiting) (hconn : l.conn = some .closed) :
      LifeMoves ctxDone l .look (l.giveUp ctxDone .connectionClosed)
  -- `publishLoop`
  | acked (event : Event) (form : SendForm) (hpc : l.pc = .publishing event form) :
      LifeMoves ctxDone l (.publishFn .ok) { l with pc := .selecting }
  | tooLarge (event : Event) (form : SendForm) (hpc : l.pc = .publishing event form) :
      LifeMoves ctxDone l (.publishFn .tooLarge)
        { l with pc := (form.next.map (.publishing event)).getD .selecting }
  | attemptFails (a : LifeAction) (event : Event) (form : SendForm)
      (hpc : l.pc = .publishing event form) (ha : a = .publishFn .failed ∨ a = .done) :
      LifeMoves ctxDone l a
        { l with pc := if l.connectionLost then .reconnecting event form else .retrying event form }
  | retry (event : Event) (form : SendForm) (hpc : l.pc = .retrying event form) :
      LifeMoves ctxDone l .timer { l with pc := .publishing event form }
  | reconnected (event : Event) (form : SendForm) (hpc : l.pc = .reconnecting event form)
      (hconn : l.conn = some .connected) :
      LifeMoves ctxDone l .look { l with pc := .publishing event form }
  | disconnected (event : Event) (form : SendForm) (hpc : l.pc = .reconnecting event form)
      (hconn : l.conn = some .closed) : LifeMoves ctxDone l .look { l with pc := .leaving }
  -- the end of the context
  | doneWaiting (hdone : ctxDone = true)
      (hpc : l.pc = .awaiting ∨ l.pc = .looking ∨ l.pc = .pausing ∨ l.pc = .selecting) :
      LifeMoves ctxDone l .done { l with pc := .leaving }
  | doneRetrying (hdone : ctxDone = true) (event : Event) (form : SendForm)
      (hpc : l.pc = .reconnecting event form ∧ l.conn = some .disconnected ∨
        l.pc = .retrying event form) : LifeMoves ctxDone l .done { l with pc := .selecting }

namespace Life

variable {ctxDone : Bool} {l l' : Life}

/-- The goroutine looks at the connection. -/
theorem look_moves (h : l.look ctxDone = some l') : LifeMoves ctxDone l .look l' := by
  unfold look at h
  split at h
  · rename_i hpc hconn
    exact some.inj h ▸ .connected hpc hconn
  · rename_i hpc hconn
    exact some.inj h ▸ .closed hpc hconn
  · rename_i event form hpc hconn
    exact some.inj h ▸ .reconnected event form hpc hconn
  · rename_i event form hpc hconn
    exact some.inj h ▸ .disconnected event form hpc hconn
  · cases h

/-- It finds the context done. -/
theorem done_moves (hdone : ctxDone = true) (h : l.done = some l') :
    LifeMoves ctxDone l .done l' := by
  unfold done at h
  split at h
  · rename_i hpc
    split at h
    · exact some.inj h ▸ .doneWaiting hdone (.inl hpc)
    · cases h
  · rename_i hpc
    exact some.inj h ▸ .doneWaiting hdone (.inr (.inl hpc))
  · rename_i hpc
    exact some.inj h ▸ .doneWaiting hdone (.inr (.inr (.inl hpc)))
  · rename_i hpc
    exact some.inj h ▸ .doneWaiting hdone (.inr (.inr (.inr hpc)))
  · rename_i event form hpc
    exact some.inj h ▸ .attemptFails .done event form hpc (.inr rfl)
  · rename_i event form hpc
    split at h
    · rename_i hconn
      exact some.inj h ▸ .doneRetrying hdone event form (.inl ⟨hpc, hconn⟩)
    · cases h
  · rename_i event form hpc
    exact some.inj h ▸ .doneRetrying hdone event form (.inr hpc)
  · cases h

/-- Every step is one of the moves. -/
theorem step_moves {a : LifeAction} (h : l.step ctxDone a = some l') :
    LifeMoves ctxDone l a l' := by
  unfold step at h
  split at h
  · split at h
    · rename_i hconn
      exact some.inj h ▸ .up hconn
    · cases h
  · split at h
    · rename_i hconn
      exact some.inj h ▸ .down hconn
    · cases h
  · split at h
    · cases h
    · rename_i hconn
      -- only a connection that was made can be lost
      exact some.inj h ▸ .lost hconn
  · split at h
    · rename_i r hpc
      cases r with
      | found => exact some.inj h ▸ .found hpc
      | missing => exact some.inj h ▸ .missing hpc
      | failed => exact some.inj h ▸ .lookupFails hpc
    · cases h
  · split at h
    · rename_i r _ event form hpc
      cases r with
      | ok => exact some.inj h ▸ .acked event form hpc
      | tooLarge => exact some.inj h ▸ .tooLarge event form hpc
      | failed => exact some.inj h ▸ .attemptFails _ event form hpc (.inl rfl)
    · cases h
  · split at h
    · rename_i hpc
      exact some.inj h ▸ .awake hpc
    · rename_i event form hpc
      exact some.inj h ▸ .retry event form hpc
    · cases h
  · exact look_moves h
  · split at h
    · rename_i hdone
      exact done_moves hdone h
    · cases h
  · split at h
    · rename_i hclosing
      exact some.inj h ▸ .closedHandler hclosing
    · cases h

end Life

end Nats

namespace Main

open Cdc Nats Process Option

/-- The actions and their effects. -/
inductive Moves (cap : Nat) (cfg : Config) (p : Process) : Action → Process → Prop where
  | signal : Moves cap cfg p .signal { p with ctxDone := true }
  -- `startNATS`
  | connectFails (hmain : p.main = .connecting) :
      Moves cap cfg p (.connect none) (p.unwind .startFailed)
  | connects (conn : Connection) (hconn : conn ≠ .closed) (up : Bool)
      (hmain : p.main = .connecting) :
      Moves cap cfg p (.connect (some up))
        { p with life := { p.life with conn := some conn }, main := .verifying }
  | lookUp (hmain : p.main = .verifying) (hconn : p.life.conn = some .connected) :
      Moves cap cfg p .main { p with main := .looking }
  | missing (hmain : p.main = .looking) :
      Moves cap cfg p (.verify .missing) ({ p with life := p.life.close }.unwind .startFailed)
  | verified (r : Lookup) (hmain : p.main = .looking) (bus : Bus)
      (hbus : p.bus.step cap (.callSubscribe .global) = some bus) :
      Moves cap cfg p (.verify r)
        { p with life := p.life.verified r, bus := bus, main := .subscribing p.bus.writes.length }
  | subscribe (hmain : p.main = .verifying ∨ p.main = .looking) (bus : Bus)
      (hbus : p.bus.step cap (.callSubscribe .global) = some bus) :
      Moves cap cfg p .main { p with bus := bus, main := .subscribing p.bus.writes.length }
  | subscribed (i : Nat) (hmain : p.main = .subscribing i) (hwritten : written p.bus i = true) :
      Moves cap cfg p .main
        { p with
          life := p.life.start
          defers := .stopNats :: p.defers
          http := { p.http with pc := .serving }
          main := .startingPostgres }
  -- `startPostgres`
  | skipPostgres (hmain : p.main = .startingPostgres) (hcfg : cfg.postgres = false) :
      Moves cap cfg p .main { p with main := .startingMysql }
  | postgresCancelled (hmain : p.main = .startingPostgres) (hctx : p.ctxDone = true)
      (hidle : (p.hands .run).idle = true) : Moves cap cfg p .main p.postgresFails
  | postgresFails (hmain : p.main = .startingPostgres) (hidle : (p.hands .run).idle = true) :
      Moves cap cfg p .postgresFails p.postgresFails
  | postgresRows (events : List Event) (hmain : p.main = .startingPostgres)
      (hcfg : cfg.postgres = true) (hidle : (p.hands .run).idle = true) :
      Moves cap cfg p (.postgresRows events) (p.setHands .run ⟨events, none⟩)
  | postgresStarts (helpers : Nat) (registered : Bool) (hmain : p.main = .startingPostgres)
      (hidle : (p.hands .run).idle = true) :
      Moves cap cfg p (.postgresStarts helpers registered)
        { p with
          postgres := ⟨.connecting, true, false, helpers, registered, true⟩
          main := .markingPostgres }
  | markPostgres (hmain : p.main = .markingPostgres) :
      Moves cap cfg p .main { p with serviceRunning := true, main := .storingPostgres }
  | storePostgres (hmain : p.main = .storingPostgres) :
      Moves cap cfg p .main
        { p with
          pgListener := true
          defers := .stopPostgres :: p.defers
          main := .startingMysql }
  -- `startMySQL`
  | skipMysql (hmain : p.main = .startingMysql) (hcfg : cfg.mysql = false) :
      Moves cap cfg p .main { p with main := .started }
  | mysqlFails (hmain : p.main = .startingMysql) (hidle : (p.hands .run).idle = true) :
      Moves cap cfg p .mysqlFails (p.unwind .startFailed)
  | mysqlRows (events : List Event) (hmain : p.main = .startingMysql)
      (hcfg : cfg.mysql = true) (hidle : (p.hands .run).idle = true) :
      Moves cap cfg p (.mysqlRows events) (p.setHands .run ⟨events, none⟩)
  | mysqlStarts (hmain : p.main = .startingMysql) (hidle : (p.hands .run).idle = true) :
      Moves cap cfg p .mysqlStarts
        { p with
          mysql := ⟨.running, true, false, false, cfg.offsetStore, false⟩
          main := .markingMysql }
  | markMysql (hmain : p.main = .markingMysql) :
      Moves cap cfg p .main
        { p with serviceRunning := true, defers := .stopMysql :: p.defers, main := .started }
  | finishStart (hmain : p.main = .started) :
      Moves cap cfg p .main { p with starting := false, main := .waiting }
  -- `waitForShutdown`
  | hearSignal (hmain : p.main = .waiting) (hctx : p.ctxDone = true) :
      Moves cap cfg p (.hear .signal) { p with main := .stopping }
  | hearNats (hmain : p.main = .waiting) :
      Moves cap cfg p (.hear .nats)
        { p with
          life := { p.life with failed := none }
          main := .stopping
          result := .natsFailed }
  | hearMysql (hmain : p.main = .waiting) :
      Moves cap cfg p (.hear .mysql)
        { p with
          mysql := { p.mysql with failed := false }
          main := .stopping
          result := .mysqlFailed }
  -- the way out
  | stop (hmain : p.main = .stopping) :
      Moves cap cfg p .main { p with ctxDone := true, main := .closing }
  | shutServer (hmain : p.main = .closing) :
      Moves cap cfg p .main
        { p with http := { p.http with shutdown := true }, main := .draining }
  | drained (a : Action) (ha : a = .drained ∨ a = .deadline) (hmain : p.main = .draining) :
      Moves cap cfg p a { p with main := .unwinding }
  | deferMysql (rest : List Deferred) (hmain : p.main = .unwinding)
      (hdefers : p.defers = .stopMysql :: rest) :
      Moves cap cfg p .main
        { p with
          defers := rest
          mysql := { p.mysql with running := false, closed := true, cancelled := true }
          main := .joining .stopMysql }
  | deferPostgres (rest : List Deferred) (hmain : p.main = .unwinding)
      (hdefers : p.defers = .stopPostgres :: rest) :
      Moves cap cfg p .main
        { p with
          defers := rest
          postgres := { p.postgres with running := false, cancelled := true }
          main := .joining .stopPostgres }
  | deferNats (rest : List Deferred) (hmain : p.main = .unwinding)
      (hdefers : p.defers = .stopNats :: rest) :
      Moves cap cfg p .main
        { p with defers := rest, life := p.life.stop, main := .joining .stopNats }
  | deferShutdown (rest : List Deferred) (hmain : p.main = .unwinding)
      (hdefers : p.defers = .shutdown :: rest) (bus : Bus)
      (hbus : p.bus.step cap .callShutdown = some bus) :
      Moves cap cfg p .main
        { p with defers := rest, bus := bus, main := .shutting p.bus.writes.length }
  | deferCancel (rest : List Deferred) (hmain : p.main = .unwinding)
      (hdefers : p.defers = .cancel :: rest) :
      Moves cap cfg p .main { p with defers := rest, ctxDone := true }
  | join (d : Deferred) (hmain : p.main = .joining d) (hjoined : p.joined d = true) :
      Moves cap cfg p .main
        { p with
          life := if d = .stopNats then p.life.close else p.life
          main := if d = .stopPostgres ∧ p.postgres.registered then .releasing else .unwinding }
  | released (a : Action) (ha : a = .released ∨ a = .deadline) (hmain : p.main = .releasing) :
      Moves cap cfg p a { p with main := .unwinding }
  | shut (i : Nat) (hmain : p.main = .shutting i) (hwritten : written p.bus i = true) :
      Moves cap cfg p .main { p with main := .unwinding }
  | finish (hmain : p.main = .unwinding) (hdefers : p.defers = []) :
      Moves cap cfg p .main { p with main := .returned }
  -- the publisher's goroutine
  | life (a : LifeAction) (life : Life) (hlife : p.life.step p.natsDone a = some life) :
      Moves cap cfg p (.life a) { p with life := life }
  | take (event : Event) (hpc : p.life.pc = .selecting) (bus : Bus)
      (hbus : p.bus.step cap (.receive subscription) = some bus) :
      Moves cap cfg p .take
        { p with
          bus := bus
          life := if shouldPublish event.type then { p.life with pc := .publishing event .full }
            else p.life }
  | channelClosed (sub : Subscriber) (hpc : p.life.pc = .selecting)
      (hsub : p.bus.subs[subscription]? = some sub) (hclosed : sub.chClosed = true) :
      Moves cap cfg p .channelClosed { p with life := { p.life with pc := .leaving } }
  | unsubscribe (hpc : p.life.pc = .leaving) (bus : Bus)
      (hbus : p.bus.step cap (.callUnsubscribe subscription) = some bus) :
      Moves cap cfg p .unsubscribe
        { p with
          bus := bus
          life := { p.life with pc := .unsubscribing p.bus.writes.length } }
  | gone (i : Nat) (hpc : p.life.pc = .unsubscribing i) (hwritten : written p.bus i = true) :
      Moves cap cfg p .gone { p with life := { p.life with pc := .exited } }
  -- the bus
  | bus (a : BusAction) (ha : a.inside = true) (bus : Bus) (hbus : p.bus.step cap a = some bus) :
      Moves cap cfg p (.bus a) { p with bus := bus }
  | hand (s : Source) (event : Event) (todo : List Event)
      (hhands : p.hands s = ⟨event :: todo, none⟩) (bus : Bus)
      (hbus : p.bus.step cap (.callHandle s.id event) = some bus) :
      Moves cap cfg p (.hand s)
        { p.setHands s ⟨todo, some p.bus.handles.length⟩ with bus := bus }
  | handed (s : Source) (todo : List Event) (i : Nat) (hhands : p.hands s = ⟨todo, some i⟩)
      (hhandled : handled p.bus i = true) :
      Moves cap cfg p (.handed s) (p.setHands s ⟨todo, none⟩)
  -- `listenLoop`
  | walConnected (hpc : p.postgres.pc = .connecting) (hdone : p.postgresDone = false) :
      Moves cap cfg p .walConnected (p.setLoop .streaming)
  | walLost (hpc : p.postgres.pc = .connecting ∨ p.postgres.pc = .streaming)
      (hidle : (p.hands .postgres).idle = true) (hdone : p.postgresDone = false) :
      Moves cap cfg p .walLost (p.setLoop .sleeping)
  | walRetry (hpc : p.postgres.pc = .sleeping) :
      Moves cap cfg p .walRetry (p.setLoop (if p.postgres.running then .connecting else .exited))
  | walMessage (events : List Event) (hpc : p.postgres.pc = .streaming)
      (hidle : (p.hands .postgres).idle = true) :
      Moves cap cfg p (.walMessage events) (p.setHands .postgres ⟨events, none⟩)
  | walEnds (hdone : p.postgresDone = true) (hpc : p.postgres.pc = .streaming)
      (hidle : (p.hands .postgres).idle = true) :
      Moves cap cfg p .walStop (p.setLoop (if p.postgres.running then .connecting else .exited))
  | walStop (hdone : p.postgresDone = true)
      (hpc : p.postgres.pc = .connecting ∨ p.postgres.pc = .sleeping) :
      Moves cap cfg p .walStop (p.setLoop .exited)
  | helperStop (hdone : p.postgresDone = true) (hpos : 0 < p.postgres.helpers) :
      Moves cap cfg p .helperStop
        { p with postgres := { p.postgres with helpers := p.postgres.helpers - 1 } }
  | sampled (usable : Bool) :
      Moves cap cfg p (.sampled usable)
        { p with postgres := { p.postgres with slotUsable := usable } }
  -- canal's goroutine and `offsetSaver`
  | binlogEvent (events : List Event) (hpc : p.mysql.pc = .running)
      (hidle : (p.hands .mysql).idle = true) :
      Moves cap cfg p (.binlogEvent events) (p.setHands .mysql ⟨events, none⟩)
  | binlogFails (hpc : p.mysql.pc = .running) (hidle : (p.hands .mysql).idle = true) :
      Moves cap cfg p .binlogFails
        { p with
          mysql := { p.mysql with pc := .exited, failed := p.mysql.running || p.mysql.failed } }
  | canalStop (hpc : p.mysql.pc = .running) (hidle : (p.hands .mysql).idle = true)
      (hclosed : p.mysql.closed = true) :
      Moves cap cfg p .canalStop { p with mysql := { p.mysql with pc := .exited } }
  | saverStop (hsaver : p.mysql.saver = true) :
      Moves cap cfg p .saverStop { p with mysql := { p.mysql with saver := false } }
  -- the HTTP server
  | serverFails (hpc : p.http.pc = .serving) :
      Moves cap cfg p .serverFails { p with http := { p.http with pc := .exited } }
  | serverStop (hpc : p.http.pc = .serving) (hshutdown : p.http.shutdown = true) :
      Moves cap cfg p .serverStop { p with http := { p.http with pc := .exited } }

variable {cap : Nat} {cfg : Config} {p q : Process}

theorem subscribe_moves (h : p.subscribe cap = some q) :
    ∃ bus, p.bus.step cap (.callSubscribe .global) = some bus ∧
      q = { p with bus := bus, main := .subscribing p.bus.writes.length } := by
  obtain ⟨bus, hbus, rfl⟩ := map_eq_some_iff.mp h
  exact ⟨bus, hbus, rfl⟩

/-- The deferred call on top of the stack. -/
theorem defer_moves {d : Deferred} {rest : List Deferred} (hmain : p.main = .unwinding)
    (hdefers : p.defers = d :: rest) (h : p.defer cap d rest = some q) :
    Moves cap cfg p .main q := by
  cases d with
  | stopMysql => exact some.inj h ▸ .deferMysql rest hmain hdefers
  | stopPostgres => exact some.inj h ▸ .deferPostgres rest hmain hdefers
  | stopNats => exact some.inj h ▸ .deferNats rest hmain hdefers
  | shutdown =>
    simp only [defer, map_eq_some_iff] at h
    obtain ⟨bus, hbus, rfl⟩ := h
    exact .deferShutdown rest hmain hdefers bus hbus
  | cancel => exact some.inj h ▸ .deferCancel rest hmain hdefers

/-- What `run` does by itself. -/
theorem stepMain_moves (h : p.stepMain cap cfg = some q) : Moves cap cfg p .main q := by
  unfold stepMain at h
  split at h
  · -- verifying
    rename_i hmain
    split at h
    · rename_i hconn
      exact some.inj h ▸ .lookUp hmain hconn
    · obtain ⟨bus, hbus, rfl⟩ := subscribe_moves h
      exact .subscribe (.inl hmain) bus hbus
  · -- looking
    rename_i hmain
    split at h
    · obtain ⟨bus, hbus, rfl⟩ := subscribe_moves h
      exact .subscribe (.inr hmain) bus hbus
    · cases h
  · -- subscribing
    rename_i i hmain
    split at h
    · rename_i hwritten
      exact some.inj h ▸ .subscribed i hmain hwritten
    · cases h
  · -- startingPostgres
    rename_i hmain
    split at h
    · rename_i hcfg
      exact some.inj h ▸ .skipPostgres hmain (by simpa using hcfg)
    · split at h
      · rename_i hguard
        rw [Bool.and_eq_true] at hguard
        exact some.inj h ▸ .postgresCancelled hmain hguard.1 hguard.2
      · cases h
  · -- markingPostgres
    rename_i hmain
    exact some.inj h ▸ .markPostgres hmain
  · -- storingPostgres
    rename_i hmain
    exact some.inj h ▸ .storePostgres hmain
  · -- startingMysql
    rename_i hmain
    split at h
    · rename_i hcfg
      exact some.inj h ▸ .skipMysql hmain (by simpa using hcfg)
    · cases h
  · -- markingMysql
    rename_i hmain
    exact some.inj h ▸ .markMysql hmain
  · -- started
    rename_i hmain
    exact some.inj h ▸ .finishStart hmain
  · -- stopping
    rename_i hmain
    exact some.inj h ▸ .stop hmain
  · -- closing
    rename_i hmain
    exact some.inj h ▸ .shutServer hmain
  · -- unwinding
    rename_i hmain
    split at h
    · rename_i hdefers
      exact some.inj h ▸ .finish hmain hdefers
    · rename_i d rest hdefers
      exact defer_moves hmain hdefers h
  · -- joining
    rename_i d hmain
    split at h
    · rename_i hjoined
      exact some.inj h ▸ .join d hmain hjoined
    · cases h
  · -- shutting
    rename_i i hmain
    split at h
    · rename_i hwritten
      exact some.inj h ▸ .shut i hmain hwritten
    · cases h
  · cases h

/-- What `run` waits for. -/
theorem hear_moves {w : Heard} (h : p.hear w = some q) : Moves cap cfg p (.hear w) q := by
  unfold hear at h
  split at h
  · rename_i hmain
    cases w with
    | signal =>
      simp only at h
      split at h
      · rename_i hctx
        exact some.inj h ▸ .hearSignal hmain hctx
      · cases h
    | nats =>
      simp only at h
      split at h
      · exact some.inj h ▸ .hearNats hmain
      · cases h
    | mysql =>
      simp only at h
      split at h
      · exact some.inj h ▸ .hearMysql hmain
      · cases h
  · cases h

/-- What the servers answer while the process starts. -/
theorem stepStart_moves {a : Action} (h : p.stepStart cap cfg a = some q) :
    Moves cap cfg p a q := by
  unfold stepStart at h
  split at h
  · -- `nats.Connect` fails
    split at h
    · rename_i hmain
      exact some.inj h ▸ .connectFails hmain
    · cases h
  · -- it succeeds, with a server or without
    split at h
    · rename_i up hmain
      exact some.inj h ▸ .connects _ (by split <;> simp) up hmain
    · cases h
  · -- the stream was looked up
    split at h
    · rename_i r hmain
      split at h
      · exact some.inj h ▸ .missing hmain
      · rename_i hr
        obtain ⟨bus, hbus, rfl⟩ := subscribe_moves h
        exact .verified r hmain bus hbus
    · cases h
  · -- rows of the Postgres snapshot
    split at h
    · rename_i events hguard
      exact some.inj h ▸ .postgresRows events hguard.1 hguard.2.1 hguard.2.2
    · cases h
  · -- the Postgres listener has started
    split at h
    · rename_i helpers registered hguard
      exact some.inj h ▸ .postgresStarts helpers registered hguard.1 hguard.2.2
    · cases h
  · -- it has not
    split at h
    · rename_i hguard
      exact some.inj h ▸ .postgresFails hguard.1 hguard.2.2
    · cases h
  · -- rows of the MySQL snapshot
    split at h
    · rename_i events hguard
      exact some.inj h ▸ .mysqlRows events hguard.1 hguard.2.1 hguard.2.2
    · cases h
  · -- the MySQL listener has started
    split at h
    · rename_i hguard
      exact some.inj h ▸ .mysqlStarts hguard.1 hguard.2.2
    · cases h
  · -- it has not
    split at h
    · rename_i hguard
      exact some.inj h ▸ .mysqlFails hguard.1 hguard.2.2
    · cases h
  · cases h

/-- `listenLoop` and its helpers. -/
theorem stepLoop_moves {a : Action} (h : p.stepLoop a = some q) : Moves cap cfg p a q := by
  unfold stepLoop at h
  split at h
  · -- connected
    split at h
    · rename_i hguard
      exact some.inj h ▸ .walConnected hguard.1 hguard.2
    · cases h
  · -- the connection is lost, or was not made
    split at h
    · rename_i hguard
      exact some.inj h ▸ .walLost hguard.1 hguard.2.1 hguard.2.2
    · cases h
  · -- after the pause
    split at h
    · rename_i hpc
      exact some.inj h ▸ .walRetry hpc
    · cases h
  · -- a message
    split at h
    · rename_i events hguard
      exact some.inj h ▸ .walMessage events hguard.1 hguard.2.1
    · cases h
  · -- the context is done; what follows depends on where the loop is
    split at h
    · rename_i hdone
      split at h
      · rename_i hpc
        split at h
        · rename_i hidle
          exact some.inj h ▸ .walEnds hdone hpc hidle
        · cases h
      · rename_i hpc
        exact some.inj h ▸ .walStop hdone (.inl hpc)
      · rename_i hpc
        exact some.inj h ▸ .walStop hdone (.inr hpc)
      · cases h
    · cases h
  · -- a helper ends
    split at h
    · rename_i hguard
      exact some.inj h ▸ .helperStop hguard.1 hguard.2
    · cases h
  · -- the slot is sampled
    split at h
    · exact some.inj h ▸ .sampled _
    · cases h
  · cases h

/-- canal and `offsetSaver`. -/
theorem stepCanal_moves {a : Action} (h : p.stepCanal a = some q) : Moves cap cfg p a q := by
  unfold stepCanal at h
  split at h
  · -- a binlog event
    split at h
    · rename_i events hguard
      exact some.inj h ▸ .binlogEvent events hguard.1 hguard.2
    · cases h
  · -- canal fails
    split at h
    · rename_i hguard
      exact some.inj h ▸ .binlogFails hguard.1 hguard.2.1
    · cases h
  · -- canal was closed
    split at h
    · rename_i hguard
      exact some.inj h ▸ .canalStop hguard.1 hguard.2.1 hguard.2.2
    · cases h
  · -- `offsetSaver` ends
    split at h
    · rename_i hguard
      exact some.inj h ▸ .saverStop hguard.2
    · cases h
  · cases h

/-- The HTTP server and the two deadlines of `run`. -/
theorem stepServer_moves {a : Action} (h : p.stepServer a = some q) : Moves cap cfg p a q := by
  unfold stepServer at h
  split at h
  · -- the server fails
    split at h
    · rename_i hpc
      exact some.inj h ▸ .serverFails hpc
    · cases h
  · -- it was shut down
    split at h
    · rename_i hguard
      exact some.inj h ▸ .serverStop hguard.1 hguard.2
    · cases h
  · -- the last request is answered
    split at h
    · rename_i hmain
      exact some.inj h ▸ .drained _ (.inl rfl) hmain
    · cases h
  · -- the slot is released
    split at h
    · rename_i hmain
      exact some.inj h ▸ .released _ (.inl rfl) hmain
    · cases h
  · -- one of these took too long
    split at h
    · rename_i hmain
      rcases hmain with hmain | hmain
      · exact some.inj h ▸ .drained _ (.inr rfl) hmain
      · exact some.inj h ▸ .released _ (.inr rfl) hmain
    · cases h
  · cases h

/-- The publisher's goroutine at the bus. -/
theorem stepNats_moves {a : Action} (h : p.stepNats cap a = some q) : Moves cap cfg p a q := by
  unfold stepNats at h
  split at h
  · -- an event is taken from the channel
    split at h
    · rename_i sent hpc hhead
      obtain ⟨bus, hbus, rfl⟩ := map_eq_some_iff.mp h
      exact .take sent.event hpc bus hbus
    · cases h
  · -- the channel is closed and empty
    split at h
    · rename_i sub hpc hsub
      split at h
      · rename_i hguard
        rw [Bool.and_eq_true] at hguard
        exact some.inj h ▸ .channelClosed sub hpc hsub hguard.1
      · cases h
    · cases h
  · -- the loop was left
    split at h
    · rename_i hpc
      obtain ⟨bus, hbus, rfl⟩ := map_eq_some_iff.mp h
      exact .unsubscribe hpc bus hbus
    · cases h
  · -- `Unsubscribe` has returned
    split at h
    · rename_i i hpc
      split at h
      · rename_i hwritten
        exact some.inj h ▸ .gone i hpc hwritten
      · cases h
    · cases h
  · cases h

/-- A source hands its events over. -/
theorem stepHands_moves {a : Action} (h : p.stepHands cap a = some q) : Moves cap cfg p a q := by
  unfold stepHands at h
  split at h
  · -- `HandleEvent` is called
    split at h
    · rename_i s _ event todo hhands
      obtain ⟨bus, hbus, rfl⟩ := map_eq_some_iff.mp h
      exact .hand s event todo hhands bus hbus
    · cases h
  · -- it has returned
    split at h
    · rename_i s _ todo i hhands
      split at h
      · rename_i hhandled
        exact some.inj h ▸ .handed s todo i hhands hhandled
      · cases h
    · cases h
  · cases h

/-- Every step is one of the moves. -/
theorem step_moves {a : Action} (h : p.step cap cfg a = some q) : Moves cap cfg p a q := by
  unfold Process.step at h
  split at h
  · exact some.inj h ▸ .signal
  · exact stepMain_moves h
  · exact hear_moves h
  · obtain ⟨life, hlife, rfl⟩ := map_eq_some_iff.mp h
    exact .life _ life hlife
  · split at h
    · rename_i ha
      obtain ⟨bus, hbus, rfl⟩ := map_eq_some_iff.mp h
      exact .bus _ ha bus hbus
    · cases h
  all_goals first
    | exact stepNats_moves h
    | exact stepHands_moves h
    | exact stepLoop_moves h
    | exact stepCanal_moves h
    | exact stepServer_moves h
    | exact stepStart_moves h

end Main
