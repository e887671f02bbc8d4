import Watcher.Model.Publisher

/-!
# The life of the publisher (`internal/nats/publisher.go`, `internal/nats/connection.go`)

What `Model.Publisher` leaves out: the connection with its handlers, the search
for the stream before the first event, and the channel of failures.
`publishWithRetry` and `publishLoop` are here again as places where the goroutine
of `Start` can be, since it shares the process with others: each action is what
happens between two points at which somebody else can look.

The goroutine's dealings with the bus (receiving, unsubscribing) are steps of the
process, `Model.Process`. How long it waits is left out, and so is what is logged.
-/

namespace Nats

open Cdc

/-- The errors that end the publisher. -/
inductive LifeError where
  /-- `errStreamMissing` -/
  | streamMissing
  /-- `errConnectionClosed` -/
  | connectionClosed
  deriving DecidableEq, Repr

/-- What `ensureStream` returns. -/
inductive Lookup where
  | found
  | missing
  | failed
  deriving DecidableEq, Repr

/-- What is sent of an event: all of it, its key, nothing. -/
inductive SendForm where
  | full
  | truncated
  | stripped
  deriving DecidableEq, Repr

/-- What is sent once a form was too large. -/
def SendForm.next : SendForm → Option SendForm
  | .full => some .truncated
  | .truncated => some .stripped
  | .stripped => none

/-- Where the goroutine of `Start` is. -/
inductive LifePc where
  /-- `Start` has not come to it. -/
  | notStarted
  /-- In the `waitConnected` of `awaitStream`. -/
  | awaiting
  /-- In the `ensureStream` of `awaitStream`. -/
  | looking
  /-- In the `sleepContext` of `awaitStream`. -/
  | pausing
  /-- In the `select` of `publishLoop`. -/
  | selecting
  /-- In `publishFn`. -/
  | publishing (event : Event) (form : SendForm)
  /-- In the `waitConnected` of `publishWithRetry`. -/
  | reconnecting (event : Event) (form : SendForm)
  /-- In the `select` of `publishWithRetry`. -/
  | retrying (event : Event) (form : SendForm)
  /-- Before the deferred `unsub`. -/
  | leaving
  /-- In `unsub`, which is this call of the bus. -/
  | unsubscribing (call : Nat)
  | exited
  deriving DecidableEq, Repr

structure Life where
  /-- Absent until `Connect` has returned. -/
  conn : Option Connection
  streamVerified : Bool
  stopping : Bool
  /-- The context of `Start` was cancelled by `Stop`. -/
  cancelled : Bool
  /-- The channel `failed`, which has room for one error. -/
  failed : Option LifeError
  /-- The connection was closed and `onClosed` has not run yet. -/
  closing : Bool
  pc : LifePc
  deriving DecidableEq, Repr

/-- `NewPublisher` -/
def newLife : Life where
  conn := none
  streamVerified := false
  stopping := false
  cancelled := false
  failed := none
  closing := false
  pc := .notStarted

inductive LifeAction where
  -- the client
  | up
  | down
  | lost
  -- what the goroutine waits for
  | lookup (r : Lookup)
  | publishFn (r : PublishResult)
  | timer
  -- what the goroutine and the client do by themselves
  | look
  | done
  | closedHandler
  deriving DecidableEq, Repr

namespace Life

/-- `fail`: an error that finds the channel full is dropped. -/
def fail (l : Life) (err : LifeError) : Life := { l with failed := l.failed.or (some err) }

/-- `connectionLost` -/
def connectionLost (l : Life) : Bool := l.conn != none && l.conn != some .connected

/-- `onClosed` -/
def onClosed (l : Life) : Life := if l.stopping then l else l.fail .connectionClosed

/-- `conn.Close()`; the client calls `onClosed` soon afterwards, unless the connection was closed
    before. -/
def close (l : Life) : Life :=
  if l.conn = some .closed then l else { l with conn := some .closed, closing := true }

/-- `verifyStreamIfConnected` after the lookup, but for the error it returns. -/
def verified (l : Life) : Lookup → Life
  | .found => { l with streamVerified := true }
  | _ => l

/-- `Start` starts the goroutine. -/
def start (l : Life) : Life := { l with pc := if l.streamVerified then .selecting else .awaiting }

/-- `Stop` up to `wg.Wait`. -/
def stop (l : Life) : Life := { l with stopping := true, cancelled := true }

/-- The goroutine is left with an error of `awaitStream`, which is reported unless the context is
    done. -/
def giveUp (l : Life) (ctxDone : Bool) (err : LifeError) : Life :=
  { if ctxDone then l else l.fail err with pc := .leaving }

/-- `awaitStream` after `ensureStream`. -/
def lookedUp (l : Life) (ctxDone : Bool) : Lookup → Life
  | .found => { l with streamVerified := true, pc := .selecting }
  | .missing => l.giveUp ctxDone .streamMissing
  | .failed => { l with pc := if ctxDone then .leaving else .pausing }

/-- `publishWithRetry` and its callers after `publishFn`. -/
def attempted (l : Life) (event : Event) (form : SendForm) : PublishResult → Life
  | .ok => { l with pc := .selecting }
  | .tooLarge =>
    -- an event that is too large without any data is given up
    { l with pc := (form.next.map (.publishing event)).getD .selecting }
  | .failed =>
    { l with pc := if l.connectionLost then .reconnecting event form else .retrying event form }

/-- `waitConnected` looks at the connection and returns, if it is up or closed for good. -/
def look (l : Life) (ctxDone : Bool) : Option Life :=
  match l.pc, l.conn with
  | .awaiting, some .connected => some { l with pc := .looking }
  | .awaiting, some .closed => some (l.giveUp ctxDone .connectionClosed)
  | .reconnecting event form, some .connected => some { l with pc := .publishing event form }
  -- `deliver` stops the loop
  | .reconnecting _ _, some .closed => some { l with pc := .leaving }
  | _, _ => none

/-- What the goroutine waits in ends because the context is done. -/
def done (l : Life) : Option Life :=
  match l.pc with
  -- `waitConnected` asks for the context only while the connection is down
  | .awaiting => if l.conn = some .disconnected then some { l with pc := .leaving } else none
  | .looking | .pausing | .selecting => some { l with pc := .leaving }
  | .publishing event form => some (l.attempted event form .failed)
  -- the error is that of the context, and `deliver` lets the loop go on
  | .reconnecting _ _ =>
    if l.conn = some .disconnected then some { l with pc := .selecting } else none
  | .retrying _ _ => some { l with pc := .selecting }
  | _ => none

/-- One step of the goroutine or of the client, where the context is done or not. -/
def step (ctxDone : Bool) (l : Life) : LifeAction → Option Life
  | .up => if l.conn = some .disconnected then some { l with conn := some .connected } else none
  | .down => if l.conn = some .connected then some { l with conn := some .disconnected } else none
  | .lost => if l.conn = none then none else some l.close
  | .lookup r => if l.pc = .looking then some (l.lookedUp ctxDone r) else none
  | .publishFn r =>
    match l.pc with
    | .publishing event form => some (l.attempted event form r)
    | _ => none
  | .timer =>
    match l.pc with
    | .pausing => some { l with pc := .awaiting }
    | .retrying event form => some { l with pc := .publishing event form }
    | _ => none
  | .look => l.look ctxDone
  | .done => if ctxDone then l.done else none
  | .closedHandler => if l.closing then some { l.onClosed with closing := false } else none

end Life

/-- The actions that need nothing from outside. -/
def LifeAction.isWork : LifeAction → Bool
  | .look | .done | .closedHandler => true
  | _ => false

end Nats
