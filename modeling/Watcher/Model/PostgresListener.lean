import Watcher.Model.AckGate

/-!
# The Postgres listener (`internal/postgres/listener.go`)

What the streaming loop does with decoded messages, keepalives and status
updates. Connecting, the snapshot, lag metrics and heartbeats are left out: they
touch neither the parser nor the gate.
-/

namespace Postgres

open Cdc

/-- `LSN.String` of pglogrepl: both halves in hexadecimal. -/
def LSN.string (lsn : LSN) : GoString :=
  hexUpper (lsn.toNat / 2 ^ 32) ++ ascii "/" ++ hexUpper (lsn.toNat % 2 ^ 32)

structure Listener where
  parser : Parser
  ack : AckGate
  /-- Publishable events of the open transaction so far. -/
  txnIndex : Nat

/-- `NewListener`, after `PublishedObserver` has wired a publisher. -/
def newGatedListener (tables : List GoString) (captureDDL : Bool) : Listener where
  parser := newParser tables captureDDL
  ack := newAckGate.enable
  txnIndex := 0

namespace Listener

/-- The name of the publishable event with index `txnIndex` in its transaction. -/
def sourceID (transaction : LSN) (txnIndex : Nat) : GoString :=
  ascii "pg:" ++ transaction.string ++ ascii ":" ++ itoa txnIndex

/-- The event, named after its place in the open transaction. -/
def named (l : Listener) (event : Event) : Event :=
  { event with sourceID := sourceID l.parser.txnFinalLSN l.txnIndex }

/-- `emit`: the listener afterwards, and the event as the bus took it, if it did. -/
def emit (service : Service) (l : Listener) (event : Event) : Listener × Option Event :=
  let deliver (event : Event) := if service.handleEvent event then some event else none
  match event.type with
  | .begin => ({ l with txnIndex := 0, ack := l.ack.begin }, deliver event)
  | .commit => ({ l with ack := l.ack.committed l.parser.txnEndLSN }, deliver event)
  | _ =>
    if isPublishable event.type then
      let (ack, event) := l.ack.hand (l.named event)
      -- the index counts the event even when the bus refuses it
      let ack := if service.handleEvent event then ack else ack.unhand
      ({ l with txnIndex := l.txnIndex + 1, ack := ack }, deliver event)
    -- heartbeats
    else (l, deliver event)

/-- Emit several events; what the bus took of them, in order. -/
def emitAll (service : Service) (l : Listener) : List Event → Listener × List Event
  | [] => (l, [])
  | event :: events =>
    let (l, taken) := l.emit service event
    let (l, rest) := l.emitAll service events
    (l, taken.toList ++ rest)

/-- `handleXLogData` of a message received at `lsn`: the events that the parser passes to the
    event handler come before the one it returns. -/
def handleXLogData (service : Service) (l : Listener) (data : List UInt8) (lsn : GoString) :
    Listener × List Event :=
  let parsed := l.parser.parse data lsn
  let l := { l with parser := parsed.parser }
  l.emitAll service (parsed.handled ++ parsed.event.toList)

/-- A new connection: `connectAndStream` after streaming has started. -/
def newSession (l : Listener) : Listener := { l with ack := l.ack.newSession }

/-- `sendStatus`: the position that goes to the primary. -/
def sendStatus (l : Listener) : LSN × Listener :=
  let (flush, ack) := l.ack.flush
  (flush, { l with ack := ack })

/-- `handleKeepalive`: a status is sent when the primary asks for one or when the position moved
    since the last one. -/
def handleKeepalive (l : Listener) (serverWALEnd : LSN) (replyRequested : Bool)
    (lastFlushSent : LSN) : Option LSN × Listener :=
  let l := { l with ack := l.ack.idle serverWALEnd }
  if replyRequested then
    let (flush, l) := l.sendStatus
    (some flush, l)
  else
    let (flush, ack) := l.ack.flush
    let l := { l with ack := ack }
    if flush = lastFlushSent then (none, l)
    -- acks may have come in since, so the gate is asked again
    else
      let (flush, l) := l.sendStatus
      (some flush, l)

end Listener

end Postgres
