import Watcher.Model.Bus
import Watcher.Model.PublisherLife

/-!
# The process (`main.go`)

`run` starts the publisher and the listeners, waits for a signal or a failure,
and leaves through its deferred calls. With it run the goroutine of the publisher,
the replication loop, canal's goroutine, the helpers of the listeners and the HTTP
server; they meet in the bus, at the contexts, in the wait groups and in the few
variables that the probes read.

The root context is done from the signal, or the call of `stop`, on; the contexts
of the publisher and the listeners are done with it or by their own `Stop`. A
call that is given a context returns once that is done. What the listeners hand
to the bus is left open: after any message they may hand over any events. On its
way out `run` waits twice under a deadline of its own, for the requests the server
still answers and for the database to release the slot; a call of `Close` of a
client and the last write of the offset file are taken to return.

The calls under which the deferred ones are stacked are in `Process.defers`, the
one to be run first in front.
-/

namespace Main

open Cdc Nats

/-- Those who hand events to the bus: `run` itself during a snapshot, `listenLoop`, and canal's
    goroutine. -/
inductive Source where
  | run
  | postgres
  | mysql
  deriving DecidableEq, Repr

def Source.id : Source → Nat
  | .run => 0
  | .postgres => 1
  | .mysql => 2

/-- What is left to hand over, and the call to `HandleEvent` under way. -/
structure Hands where
  todo : List Event
  call : Option Nat
  deriving DecidableEq, Repr

def Hands.none : Hands := ⟨[], .none⟩

def Hands.idle (h : Hands) : Bool := h.todo.isEmpty && h.call.isNone

inductive Deferred where
  /-- `mysqlListener.Stop` -/
  | stopMysql
  /-- `listener.Stop` -/
  | stopPostgres
  /-- `pub.Stop` -/
  | stopNats
  /-- `service.Shutdown` -/
  | shutdown
  /-- `stop` -/
  | cancel
  deriving DecidableEq, Repr

/-- Where `run` is. -/
inductive MainPc where
  /-- In `nats.Connect`. -/
  | connecting
  /-- Before `verifyStreamIfConnected`. -/
  | verifying
  /-- In the `ensureStream` of `verifyStreamIfConnected`. -/
  | looking
  /-- In `SubscribeAll`, which is this call of the bus. -/
  | subscribing (call : Nat)
  /-- In `startPostgres`. -/
  | startingPostgres
  /-- Before the `MarkRunning` of `startPostgres`. -/
  | markingPostgres
  /-- Before `pgListener.Store`. -/
  | storingPostgres
  /-- In `startMySQL`. -/
  | startingMysql
  /-- Before the `MarkRunning` of `startMySQL`. -/
  | markingMysql
  /-- Before `starting.Store(false)`. -/
  | started
  /-- In `waitForShutdown`. -/
  | waiting
  /-- Before `stop`. -/
  | stopping
  /-- Before `server.Shutdown`. -/
  | closing
  /-- In `server.Shutdown`. -/
  | draining
  /-- Between deferred calls. -/
  | unwinding
  /-- In the `wg.Wait` of a deferred call. -/
  | joining (d : Deferred)
  /-- In the `releaseSlotOwnership` of `listener.Stop`. -/
  | releasing
  /-- In `service.Shutdown`, which is this call of the bus. -/
  | shutting (call : Nat)
  | returned
  deriving DecidableEq, Repr

/-- What `run` returns. -/
inductive Result where
  | ok
  | startFailed
  | natsFailed
  | mysqlFailed
  deriving DecidableEq, Repr

/-- Where `listenLoop` is. -/
inductive LoopPc where
  | notStarted
  /-- Before a session streams. -/
  | connecting
  /-- In the loop of `connectAndStream`. -/
  | streaming
  /-- Between two calls of `connectAndStream`. -/
  | sleeping
  | exited
  deriving DecidableEq, Repr

structure PostgresPart where
  pc : LoopPc
  running : Bool
  cancelled : Bool
  /-- The other goroutines of the listener's wait group that run. -/
  helpers : Nat
  /-- There is a `registry`: the slot has an owner to be released. -/
  registered : Bool
  /-- What the last sample of the slot has found. -/
  slotUsable : Bool
  deriving DecidableEq, Repr

/-- Where canal's goroutine is. -/
inductive CanalPc where
  | notStarted
  | running
  | exited
  deriving DecidableEq, Repr

structure MysqlPart where
  pc : CanalPc
  running : Bool
  /-- `canal.Close` was called. -/
  closed : Bool
  cancelled : Bool
  /-- `offsetSaver` runs. -/
  saver : Bool
  /-- There is an error in the channel `failed`. -/
  failed : Bool
  deriving DecidableEq, Repr

/-- Where the goroutine of `startHTTPServer` is. -/
inductive HttpPc where
  | notStarted
  /-- In `ListenAndServe`. -/
  | serving
  | exited
  deriving DecidableEq, Repr

structure HttpPart where
  pc : HttpPc
  /-- `server.Shutdown` was called. -/
  shutdown : Bool
  deriving DecidableEq, Repr

structure Config where
  nats : Bool
  postgres : Bool
  mysql : Bool
  /-- `offset_file` is set. -/
  offsetStore : Bool
  deriving DecidableEq, Repr

structure Process where
  bus : Bus
  /-- The root context is done. -/
  ctxDone : Bool
  main : MainPc
  defers : List Deferred
  hands : Source → Hands
  life : Life
  postgres : PostgresPart
  mysql : MysqlPart
  http : HttpPart
  /-- `pgListener` is set. -/
  pgListener : Bool
  /-- `starting` -/
  starting : Bool
  /-- `service.running` -/
  serviceRunning : Bool
  result : Result

/-- `run` up to the first call that can wait. -/
def init (cfg : Config) : Process where
  bus := newService
  ctxDone := false
  main := if cfg.nats then .connecting else .startingPostgres
  defers := [.shutdown, .cancel]
  hands := fun _ => .none
  life := newLife
  postgres := ⟨.notStarted, false, false, 0, false, true⟩
  mysql := ⟨.notStarted, false, false, false, false, false⟩
  http := ⟨if cfg.nats then .notStarted else .serving, false⟩
  pgListener := false
  starting := true
  serviceRunning := false
  result := .ok

/-- Which case of `waitForShutdown` is taken. -/
inductive Heard where
  | signal
  | nats
  | mysql
  deriving DecidableEq, Repr

inductive Action where
  -- from outside
  | signal
  /-- `nats.Connect` returns, with or without an error. -/
  | connect (conn : Option Bool)
  | verify (r : Lookup)
  /-- `startPostgres` reads rows for its snapshot, succeeds or fails. -/
  | postgresRows (events : List Event)
  | postgresStarts (helpers : Nat) (registered : Bool)
  | postgresFails
  | mysqlRows (events : List Event)
  | mysqlStarts
  | mysqlFails
  /-- `listenLoop`: a session starts, ends with an error, delivers a message; a wait is over. -/
  | walConnected
  | walLost
  | walRetry
  | walMessage (events : List Event)
  /-- A sample of the slot. -/
  | sampled (usable : Bool)
  /-- Canal: an event of the binlog, or an error. -/
  | binlogEvent (events : List Event)
  | binlogFails
  /-- `ListenAndServe` returns with an error, which is only logged. -/
  | serverFails
  /-- The connections of the server have become idle. -/
  | drained
  /-- The database answers to `releaseSlotOwnership`. -/
  | released
  -- the goroutines
  | hear (h : Heard)
  | main
  | life (a : LifeAction)
  | take
  | channelClosed
  | unsubscribe
  | gone
  | bus (a : BusAction)
  | hand (s : Source)
  | handed (s : Source)
  | walStop
  | helperStop
  | canalStop
  | saverStop
  | serverStop
  /-- The time that `server.Shutdown` or `releaseSlotOwnership` is given has passed. -/
  | deadline
  deriving DecidableEq, Repr

/-- The place of the publisher's subscription, the only one, among those of the bus. -/
def subscription : Nat := 0

/-- The writing call `i` has returned. -/
def written (bus : Bus) (i : Nat) : Bool :=
  match bus.writes[i]? with
  | some w => w.pc == .returned
  | none => false

/-- The call `i` to `HandleEvent` has returned. -/
def handled (bus : Bus) (i : Nat) : Bool :=
  match bus.handles[i]? with
  | some c => c.pc.finished
  | none => false

namespace Process

variable (cap : Nat) (cfg : Config)

/-- The context of the publisher. -/
def natsDone (p : Process) : Bool := p.ctxDone || p.life.cancelled

/-- The context of `listenLoop` and its helpers. -/
def postgresDone (p : Process) : Bool := p.ctxDone || p.postgres.cancelled

/-- The context of `offsetSaver`. -/
def mysqlDone (p : Process) : Bool := p.ctxDone || p.mysql.cancelled

def setHands (p : Process) (s : Source) (h : Hands) : Process :=
  { p with hands := fun t => if t = s then h else p.hands t }

/-- `run` returns, through its deferred calls. -/
def unwind (p : Process) (result : Result) : Process :=
  { p with main := .unwinding, result := result }

/-- `run` calls `SubscribeAll`. -/
def subscribe (p : Process) : Option Process :=
  (p.bus.step cap (.callSubscribe .global)).map fun bus =>
    { p with bus := bus, main := .subscribing p.bus.writes.length }

/-- `startPostgres` fails: with the context done this is no error. -/
def postgresFails (p : Process) : Process := p.unwind (if p.ctxDone then .ok else .startFailed)

/-- All that `run` waits for in the deferred call. -/
def joined (p : Process) : Deferred → Bool
  | .stopMysql => p.mysql.pc != .running && !p.mysql.saver
  | .stopPostgres =>
    (p.postgres.pc == .notStarted || p.postgres.pc == .exited) && p.postgres.helpers == 0
  | .stopNats => p.life.pc == .notStarted || p.life.pc == .exited
  | _ => true

/-- The next deferred call begins. -/
def defer (p : Process) (d : Deferred) (rest : List Deferred) : Option Process :=
  let p := { p with defers := rest }
  match d with
  | .stopMysql =>
    let mysql := { p.mysql with running := false, closed := true, cancelled := true }
    some { p with mysql := mysql, main := .joining d }
  | .stopPostgres =>
    let postgres := { p.postgres with running := false, cancelled := true }
    some { p with postgres := postgres, main := .joining d }
  | .stopNats => some { p with life := p.life.stop, main := .joining d }
  | .shutdown =>
    (p.bus.step cap .callShutdown).map fun bus =>
      { p with bus := bus, main := .shutting p.bus.writes.length }
  | .cancel => some { p with ctxDone := true }

/-- What `run` does by itself. -/
def stepMain (p : Process) : Option Process :=
  match p.main with
  | .verifying =>
    if p.life.conn = some .connected then some { p with main := .looking } else p.subscribe cap
  | .looking =>
    -- a lookup under a context that is done fails, and that is left to `awaitStream`
    if p.ctxDone then p.subscribe cap else none
  | .subscribing i =>
    if written p.bus i then
      some { p with
        life := p.life.start
        defers := .stopNats :: p.defers
        http := { p.http with pc := .serving }
        main := .startingPostgres }
    else none
  | .startingPostgres =>
    if !cfg.postgres then some { p with main := .startingMysql }
    else if p.ctxDone && (p.hands .run).idle then some p.postgresFails
    else none
  | .markingPostgres => some { p with serviceRunning := true, main := .storingPostgres }
  | .storingPostgres =>
    some { p with
      pgListener := true
      defers := .stopPostgres :: p.defers
      main := .startingMysql }
  | .startingMysql => if !cfg.mysql then some { p with main := .started } else none
  | .markingMysql =>
    some { p with
      serviceRunning := true
      defers := .stopMysql :: p.defers
      main := .started }
  | .started => some { p with starting := false, main := .waiting }
  | .stopping => some { p with ctxDone := true, main := .closing }
  | .closing => some { p with http := { p.http with shutdown := true }, main := .draining }
  | .unwinding =>
    match p.defers with
    | [] => some { p with main := .returned }
    | d :: rest => p.defer cap d rest
  | .joining d =>
    if p.joined d then
      some { p with
        life := if d = .stopNats then p.life.close else p.life
        main := if d = .stopPostgres ∧ p.postgres.registered then .releasing else .unwinding }
    else none
  | .shutting i => if written p.bus i then some { p with main := .unwinding } else none
  | _ => none

/-- `waitForShutdown` -/
def hear (p : Process) (h : Heard) : Option Process :=
  if p.main = .waiting then
    match h with
    | .signal => if p.ctxDone then some { p with main := .stopping } else none
    | .nats =>
      if p.life.failed.isSome then
        some { p with
          life := { p.life with failed := none }
          main := .stopping
          result := .natsFailed }
      else none
    | .mysql =>
      if p.mysql.failed then
        some { p with
          mysql := { p.mysql with failed := false }
          main := .stopping
          result := .mysqlFailed }
      else none
  else none

/-- What `run` does when a call it has made returns. -/
def stepStart (p : Process) : Action → Option Process
  | .connect none => if p.main = .connecting then some (p.unwind .startFailed) else none
  | .connect (some up) =>
    if p.main = .connecting then
      let conn : Connection := if up then .connected else .disconnected
      some { p with life := { p.life with conn := some conn }, main := .verifying }
    else none
  | .verify r =>
    if p.main = .looking then
      match r with
      -- `Start` closes the connection and fails
      | .missing => some ({ p with life := p.life.close }.unwind .startFailed)
      | r => { p with life := p.life.verified r }.subscribe cap
    else none
  | .postgresRows events =>
    if p.main = .startingPostgres ∧ cfg.postgres = true ∧ (p.hands .run).idle = true then
      some (p.setHands .run ⟨events, none⟩)
    else none
  | .postgresStarts helpers registered =>
    if p.main = .startingPostgres ∧ cfg.postgres = true ∧ (p.hands .run).idle = true then
      some { p with
        postgres := ⟨.connecting, true, false, helpers, registered, true⟩
        main := .markingPostgres }
    else none
  | .postgresFails =>
    if p.main = .startingPostgres ∧ cfg.postgres = true ∧ (p.hands .run).idle = true then
      some p.postgresFails
    else none
  | .mysqlRows events =>
    if p.main = .startingMysql ∧ cfg.mysql = true ∧ (p.hands .run).idle = true then
      some (p.setHands .run ⟨events, none⟩)
    else none
  | .mysqlStarts =>
    if p.main = .startingMysql ∧ cfg.mysql = true ∧ (p.hands .run).idle = true then
      some { p with
        mysql := ⟨.running, true, false, false, cfg.offsetStore, false⟩
        main := .markingMysql }
    else none
  | .mysqlFails =>
    if p.main = .startingMysql ∧ cfg.mysql = true ∧ (p.hands .run).idle = true then
      some (p.unwind .startFailed)
    else none
  | _ => none

def setLoop (p : Process) (pc : LoopPc) : Process :=
  { p with postgres := { p.postgres with pc := pc } }

/-- `listenLoop`, between messages. -/
def stepLoop (p : Process) : Action → Option Process
  | .walConnected =>
    if p.postgres.pc = .connecting ∧ p.postgresDone = false then some (p.setLoop .streaming)
    else none
  | .walLost =>
    if (p.postgres.pc = .connecting ∨ p.postgres.pc = .streaming) ∧
        (p.hands .postgres).idle = true ∧ p.postgresDone = false then
      some (p.setLoop .sleeping)
    else none
  | .walRetry =>
    if p.postgres.pc = .sleeping then
      some (p.setLoop (if p.postgres.running then .connecting else .exited))
    else none
  | .walMessage events =>
    if p.postgres.pc = .streaming ∧ (p.hands .postgres).idle = true ∧ p.postgresDone = false ∧
        p.postgres.running = true then
      some (p.setHands .postgres ⟨events, none⟩)
    else none
  | .walStop =>
    if p.postgresDone then
      match p.postgres.pc with
      | .streaming =>
        -- `connectAndStream` returns nil, and is called again while the listener runs
        if (p.hands .postgres).idle then
          some (p.setLoop (if p.postgres.running then .connecting else .exited))
        else none
      | .connecting | .sleeping => some (p.setLoop .exited)
      | _ => none
    else none
  | .helperStop =>
    if p.postgresDone ∧ 0 < p.postgres.helpers then
      some { p with postgres := { p.postgres with helpers := p.postgres.helpers - 1 } }
    else none
  | .sampled usable =>
    -- `sampleSlotStats` is one of the helpers
    if 0 < p.postgres.helpers then
      some { p with postgres := { p.postgres with slotUsable := usable } }
    else none
  | _ => none

/-- Canal's goroutine between binlog events, and `offsetSaver`. -/
def stepCanal (p : Process) : Action → Option Process
  | .binlogEvent events =>
    if p.mysql.pc = .running ∧ (p.hands .mysql).idle = true then
      some (p.setHands .mysql ⟨events, none⟩)
    else none
  | .binlogFails =>
    -- the channel has room for one error
    if p.mysql.pc = .running ∧ (p.hands .mysql).idle = true ∧
        (p.mysql.running = false ∨ p.mysql.failed = false) then
      some { p with
        mysql := { p.mysql with pc := .exited, failed := p.mysql.running || p.mysql.failed } }
    else none
  | .canalStop =>
    if p.mysql.pc = .running ∧ (p.hands .mysql).idle = true ∧ p.mysql.closed = true then
      some { p with mysql := { p.mysql with pc := .exited } }
    else none
  | .saverStop =>
    if p.mysqlDone ∧ p.mysql.saver = true then
      some { p with mysql := { p.mysql with saver := false } }
    else none
  | _ => none

/-- The goroutine of the HTTP server, and the two waits of `run` that have a deadline. -/
def stepServer (p : Process) : Action → Option Process
  | .serverFails =>
    if p.http.pc = .serving then some { p with http := { p.http with pc := .exited } } else none
  | .serverStop =>
    if p.http.pc = .serving ∧ p.http.shutdown = true then
      some { p with http := { p.http with pc := .exited } }
    else none
  | .drained => if p.main = .draining then some { p with main := .unwinding } else none
  | .released => if p.main = .releasing then some { p with main := .unwinding } else none
  | .deadline =>
    if p.main = .draining ∨ p.main = .releasing then some { p with main := .unwinding } else none
  | _ => none

/-- What the publisher's goroutine does with the bus. -/
def stepNats (p : Process) : Action → Option Process
  | .take =>
    match p.life.pc, p.bus.subs[subscription]?.bind fun sub => sub.buffered.head? with
    | .selecting, some sent =>
      (p.bus.step cap (.receive subscription)).map fun bus =>
        { p with
          bus := bus
          -- `deliver` passes over what is not to be published
          life := if shouldPublish sent.event.type then
              { p.life with pc := .publishing sent.event .full }
            else p.life }
    | _, _ => none
  | .channelClosed =>
    match p.life.pc, p.bus.subs[subscription]? with
    | .selecting, some sub =>
      -- a closed channel still gives what is in it
      if sub.chClosed && sub.buffered.isEmpty then
        some { p with life := { p.life with pc := .leaving } }
      else none
    | _, _ => none
  | .unsubscribe =>
    if p.life.pc = .leaving then
      (p.bus.step cap (.callUnsubscribe subscription)).map fun bus =>
        { p with
          bus := bus
          life := { p.life with pc := .unsubscribing p.bus.writes.length } }
    else none
  | .gone =>
    match p.life.pc with
    | .unsubscribing i =>
      if written p.bus i then some { p with life := { p.life with pc := .exited } } else none
    | _ => none
  | _ => none

/-- Handing events over one after the other. -/
def stepHands (p : Process) : Action → Option Process
  | .hand s =>
    match p.hands s with
    | ⟨event :: todo, none⟩ =>
      (p.bus.step cap (.callHandle s.id event)).map fun bus =>
        { p.setHands s ⟨todo, some p.bus.handles.length⟩ with bus := bus }
    | _ => none
  | .handed s =>
    match p.hands s with
    | ⟨todo, some i⟩ => if handled p.bus i then some (p.setHands s ⟨todo, none⟩) else none
    | _ => none
  | _ => none

/-- One step of the process, whose bus has buffers of `cap` events. -/
def step (p : Process) (a : Action) : Option Process :=
  match a with
  | .signal => some { p with ctxDone := true }
  | .main => p.stepMain cap cfg
  | .hear h => p.hear h
  | .life a => (p.life.step p.natsDone a).map fun life => { p with life := life }
  | .bus a =>
    if a.inside then (p.bus.step cap a).map fun bus => { p with bus := bus } else none
  | .take | .channelClosed | .unsubscribe | .gone => p.stepNats cap a
  | .hand _ | .handed _ => p.stepHands cap a
  | .walConnected | .walLost | .walRetry | .walMessage _ | .walStop | .helperStop | .sampled _ =>
    p.stepLoop a
  | .binlogEvent _ | .binlogFails | .canalStop | .saverStop => p.stepCanal a
  | .serverFails | .serverStop | .drained | .released | .deadline => p.stepServer a
  | _ => p.stepStart cap cfg a

end Process

end Main
