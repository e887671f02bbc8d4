import Watcher.Model.Cdc

/-!
# The event bus as a concurrent program (`internal/cdc/service.go`)

Any number of goroutines call the service at the same time. A call is a program
counter that moves from one step to the next; the steps are what the goroutines
can see of each other: taking and leaving the lock, sending to a subscriber's
channel, closing `done`, loading and swapping `closed`.

The lock is a `sync.RWMutex`: a call to `Lock` first becomes the only announced
writer (`rw.w`), from then on no new reader gets in, and it holds the lock once
the readers are gone. What a writer does under the lock is one step, since no
other call can look at the subscriber lists meanwhile.

Besides the state of the program the model records what was put into each
channel by which call, and when calls began and ended. A moment is the number
of steps taken so far.
-/

namespace Cdc

/-! ### Subscribers -/

inductive Kind where
  | global
  | table (name : GoString)
  deriving DecidableEq, Repr

/-- An event that was put into a channel, and the call to `HandleEvent` that did it. -/
structure Sent where
  call : Nat
  event : Event
  deriving DecidableEq, Repr

structure Subscriber where
  kind : Kind
  /-- Everything put into `ch`, in order. -/
  sent : List Sent
  /-- How many of these the consumer has received. -/
  received : Nat
  /-- `done` is closed. -/
  done : Bool
  /-- `ch` is closed. -/
  chClosed : Bool
  /-- Subscribed, with neither its unsubscribe nor Shutdown having taken effect. -/
  live : Bool
  /-- The consumer still receives. -/
  consuming : Bool
  subscribedAt : Nat
  unsubBegan : Option Nat
  deriving DecidableEq, Repr

/-- `newSubscriber` at the moment `now`. -/
def newSubscriber (kind : Kind) (now : Nat) : Subscriber where
  kind := kind
  sent := []
  received := 0
  done := false
  chClosed := false
  live := true
  consuming := true
  subscribedAt := now
  unsubBegan := none

/-- What is in the channel. -/
def Subscriber.buffered (sub : Subscriber) : List Sent := sub.sent.drop sub.received

/-- A buffer of `cap` events has no room left. -/
def Subscriber.full (cap : Nat) (sub : Subscriber) : Bool := cap ≤ sub.buffered.length

/-- The events a subscriber is meant to get. -/
def Kind.wants : Kind → Event → Bool
  | .global, _ => true
  | .table name, e => e.table != [] && isTableEvent e.type && e.table == name

/-! ### Calls -/

inductive HandlePc where
  /-- Before the closed and JSON checks. -/
  | checking
  /-- In `RLock`. -/
  | locking
  /-- Holding the read lock with these subscribers still to serve; `blocked` is the slow path of
      `deliver` for the first of them. -/
  | delivering (todo : List Nat) (blocked : Bool)
  | returned (accepted : Bool) (ended : Nat)
  deriving DecidableEq, Repr

/-- A call to `HandleEvent`. -/
structure HandleCall where
  producer : Nat
  event : Event
  began : Nat
  pc : HandlePc
  deriving DecidableEq, Repr

def HandlePc.reading : HandlePc → Bool
  | .delivering _ _ => true
  | _ => false

def HandlePc.finished : HandlePc → Bool
  | .returned _ _ => true
  | _ => false

/-- The calls that take the write lock. -/
inductive WriteOp where
  | subscribe (kind : Kind)
  | unsubscribe (sub : Nat)
  | shutdown
  deriving DecidableEq, Repr

inductive WritePc where
  /-- Before `Lock`: unsubscribe has yet to close `done`, Shutdown to set `closed`. -/
  | start
  /-- In `Lock`, behind another writer. -/
  | waiting
  /-- In `Lock`, waiting for the readers to leave. -/
  | announced
  | holding
  | returned
  deriving DecidableEq, Repr

structure WriteCall where
  op : WriteOp
  pc : WritePc
  deriving DecidableEq, Repr

/-! ### The service -/

/-- `map[string][]*subscriber` -/
abbrev SubMap := List (GoString × List Nat)

/-- `m[table]`, empty when there is no such key. -/
def SubMap.get (m : SubMap) (table : GoString) : List Nat := (m.lookup table).getD []

/-- `delete(m, table)` -/
def SubMap.delete (m : SubMap) (table : GoString) : SubMap := m.filter fun e => e.1 != table

/-- `m[table] = subs` -/
def SubMap.put (m : SubMap) (table : GoString) (subs : List Nat) : SubMap :=
  (table, subs) :: m.delete table

structure Bus where
  /-- Steps taken so far. -/
  time : Nat
  closed : Bool
  /-- Subscribers are named by their place in `subs`. -/
  globalSubs : List Nat
  tableSubs : SubMap
  subs : List Subscriber
  handles : List HandleCall
  writes : List WriteCall
  /-- The call that is announced as writer or holds the write lock. -/
  writer : Option Nat
  shutdownBegan : Option Nat
  deriving DecidableEq, Repr

/-- `NewService` -/
def newService : Bus where
  time := 0
  closed := false
  globalSubs := []
  tableSubs := []
  subs := []
  handles := []
  writes := []
  writer := none
  shutdownBegan := none

inductive BusAction where
  /-- A producer calls `HandleEvent`. -/
  | callHandle (producer : Nat) (event : Event)
  | callSubscribe (kind : Kind)
  | callUnsubscribe (sub : Nat)
  | callShutdown
  /-- A consumer stops receiving: only one whose unsubscribe has been called does. -/
  | stop (sub : Nat)
  | receive (sub : Nat)
  -- the steps of a call to `HandleEvent`
  | check (call : Nat)
  | rlock (call : Nat)
  | send (call : Nat)
  | block (call : Nat)
  | giveUp (call : Nat)
  | poll (call : Nat)
  | finish (call : Nat)
  -- the steps of a call that takes the write lock
  | prepare (call : Nat)
  | announce (call : Nat)
  | acquire (call : Nat)
  | body (call : Nat)
  deriving DecidableEq, Repr

/-- The steps within a call. -/
def BusAction.inside : BusAction → Bool
  | .callHandle _ _ | .callSubscribe _ | .callUnsubscribe _ | .callShutdown => false
  | .stop _ | .receive _ => false
  | _ => true

namespace Bus

/-- The subscribers that `HandleEvent` serves, in order. -/
def targets (s : Bus) (e : Event) : List Nat :=
  s.globalSubs ++ if e.table != [] && isTableEvent e.type then s.tableSubs.get e.table else []

def setHandle (s : Bus) (i : Nat) (pc : HandlePc) : Bus :=
  { s with handles := s.handles.modify i fun c => { c with pc := pc } }

def setWrite (s : Bus) (i : Nat) (pc : WritePc) : Bus :=
  { s with writes := s.writes.modify i fun w => { w with pc := pc } }

def setSub (s : Bus) (x : Nat) (f : Subscriber → Subscriber) : Bus :=
  { s with subs := s.subs.modify x f }

/-- The step is over. -/
def tick (s : Bus) : Bus := { s with time := s.time + 1 }

/-- A call to the unsubscribe function of `x` begins. -/
def beginUnsubscribe (s : Bus) (x : Nat) : Bus :=
  let s := s.setSub x fun sub => { sub with unsubBegan := sub.unsubBegan.or (some s.time) }
  { s with writes := s.writes ++ [⟨.unsubscribe x, .start⟩] }

/-- What happens before `Lock`. -/
def prepareOp (s : Bus) (i : Nat) : WriteOp → Bus
  | .subscribe _ => s.setWrite i .waiting
  | .unsubscribe x => (s.setSub x fun sub => { sub with done := true }).setWrite i .waiting
  | .shutdown =>
    if s.closed then s.setWrite i .returned else { s.setWrite i .waiting with closed := true }

/-- `Subscribe` and `SubscribeAll` under the lock. -/
def addSubscriber (s : Bus) (kind : Kind) : Bus :=
  let x := s.subs.length
  let s := { s with subs := s.subs ++ [newSubscriber kind s.time] }
  match kind with
  | .global => { s with globalSubs := s.globalSubs ++ [x] }
  | .table t => { s with tableSubs := s.tableSubs.put t (s.tableSubs.get t ++ [x]) }

/-- The unsubscribe function of `x` under the lock. -/
def removeSubscriber (s : Bus) (x : Nat) : Bus :=
  match s.subs[x]? with
  | none => s
  | some sub =>
    let s := s.setSub x fun sub => { sub with live := false }
    match sub.kind with
    | .global => { s with globalSubs := s.globalSubs.erase x }
    | .table t =>
      let m :=
        if x ∈ s.tableSubs.get t then s.tableSubs.put t ((s.tableSubs.get t).erase x)
        else s.tableSubs
      { s with tableSubs := if m.get t = [] then m.delete t else m }

/-- The subscribers in either collection. -/
def listed (s : Bus) : List Nat := s.globalSubs ++ s.tableSubs.flatMap Prod.snd

/-- `Shutdown` under the lock: every listed channel is closed. -/
def closeAll (s : Bus) : Bus :=
  { s with
    subs := s.subs.mapIdx fun x sub =>
      if x ∈ s.listed then { sub with chClosed := true, live := false } else sub
    globalSubs := []
    tableSubs := [] }

/-- What a call does under the write lock. -/
def perform (s : Bus) : WriteOp → Bus
  | .subscribe kind => s.addSubscriber kind
  | .unsubscribe x => s.removeSubscriber x
  | .shutdown => s.closeAll

/-- One step of the call `i` to `HandleEvent`. -/
def stepHandle (cap : Nat) (s : Bus) (i : Nat) (c : HandleCall) : BusAction → Option Bus
  | .check _ =>
    match c.pc with
    | .checking =>
      if Service.handleEvent ⟨s.closed⟩ c.event then some (s.setHandle i .locking)
      else some (s.setHandle i (.returned false s.time))
    | _ => none
  | .rlock _ =>
    match c.pc, s.writer with
    | .locking, none => some (s.setHandle i (.delivering (s.targets c.event) false))
    | _, _ => none
  | .send _ =>
    match c.pc with
    | .delivering (x :: todo) _ =>
      match s.subs[x]? with
      | some sub =>
        if sub.full cap then none
        else
          let s := s.setSub x fun sub => { sub with sent := sub.sent ++ [⟨i, c.event⟩] }
          some (s.setHandle i (.delivering todo false))
      | none => none
    | _ => none
  | .block _ =>
    match c.pc with
    | .delivering (x :: todo) false =>
      match s.subs[x]? with
      | some sub =>
        if sub.full cap then some (s.setHandle i (.delivering (x :: todo) true)) else none
      | none => none
    | _ => none
  | .giveUp _ =>
    -- `done` is closed, or the timer fires and `closed` is set
    match c.pc with
    | .delivering (x :: todo) true =>
      match s.subs[x]? with
      | some sub =>
        if sub.done || s.closed then some (s.setHandle i (.delivering todo false)) else none
      | none => none
    | _ => none
  | .poll _ =>
    -- the timer fires and `closed` is not set
    match c.pc with
    | .delivering (_ :: _) true => if s.closed then none else some s
    | _ => none
  | .finish _ =>
    match c.pc with
    | .delivering [] _ => some (s.setHandle i (.returned true s.time))
    | _ => none
  | _ => none

/-- One step of the writing call `i`. -/
def stepWrite (s : Bus) (i : Nat) (w : WriteCall) : BusAction → Option Bus
  | .prepare _ => if w.pc = .start then some (s.prepareOp i w.op) else none
  | .announce _ =>
    if w.pc = .waiting ∧ s.writer = none then
      some { s.setWrite i .announced with writer := some i }
    else none
  | .acquire _ =>
    if w.pc = .announced ∧ s.handles.all (fun c => !c.pc.reading) = true then
      some (s.setWrite i .holding)
    else none
  | .body _ =>
    if w.pc = .holding then some { (s.perform w.op).setWrite i .returned with writer := none }
    else none
  | _ => none

/-- What an action does, apart from the passing of time. -/
def act (cap : Nat) (s : Bus) : BusAction → Option Bus
  | .callHandle producer event =>
    -- a producer makes one call after the other
    if s.handles.all (fun c => c.producer != producer || c.pc.finished) then
      some { s with handles := s.handles ++ [⟨producer, event, s.time, .checking⟩] }
    else none
  | .callSubscribe kind => some { s with writes := s.writes ++ [⟨.subscribe kind, .start⟩] }
  | .callUnsubscribe x => if x < s.subs.length then some (s.beginUnsubscribe x) else none
  | .callShutdown =>
    some { s with
      writes := s.writes ++ [⟨.shutdown, .start⟩]
      shutdownBegan := s.shutdownBegan.or (some s.time) }
  | .stop x =>
    match s.subs[x]? with
    | some sub =>
      if sub.unsubBegan.isSome then some (s.setSub x fun sub => { sub with consuming := false })
      else none
    | none => none
  | .receive x =>
    match s.subs[x]? with
    | some sub =>
      if sub.consuming && !sub.buffered.isEmpty then
        some (s.setSub x fun sub => { sub with received := sub.received + 1 })
      else none
    | none => none
  | .check i => s.handles[i]?.bind fun c => s.stepHandle cap i c (.check i)
  | .rlock i => s.handles[i]?.bind fun c => s.stepHandle cap i c (.rlock i)
  | .send i => s.handles[i]?.bind fun c => s.stepHandle cap i c (.send i)
  | .block i => s.handles[i]?.bind fun c => s.stepHandle cap i c (.block i)
  | .giveUp i => s.handles[i]?.bind fun c => s.stepHandle cap i c (.giveUp i)
  | .poll i => s.handles[i]?.bind fun c => s.stepHandle cap i c (.poll i)
  | .finish i => s.handles[i]?.bind fun c => s.stepHandle cap i c (.finish i)
  | .prepare i => s.writes[i]?.bind fun w => s.stepWrite i w (.prepare i)
  | .announce i => s.writes[i]?.bind fun w => s.stepWrite i w (.announce i)
  | .acquire i => s.writes[i]?.bind fun w => s.stepWrite i w (.acquire i)
  | .body i => s.writes[i]?.bind fun w => s.stepWrite i w (.body i)

/-- One step of the service with buffers of `cap` events (`defaultChanBuffer` in the source). -/
def step (cap : Nat) (s : Bus) (a : BusAction) : Option Bus := (s.act cap a).map tick

/-! ### What callers can ask -/

/-- `TotalSubscriberCount` -/
def totalSubscriberCount (s : Bus) : Nat :=
  s.globalSubs.length + (s.tableSubs.map fun e => e.2.length).sum

/-- `HasTableSubscribers` -/
def hasTableSubscribers (s : Bus) (table : GoString) : Bool := (s.tableSubs.lookup table).isSome

end Bus

end Cdc
