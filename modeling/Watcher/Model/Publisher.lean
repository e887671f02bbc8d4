import Watcher.Model.Cdc

/-!
# The NATS publisher (`internal/nats/publisher.go`)

The publisher is run against a script: what its surroundings look like at each
moment it looks at them. The script decides what `publishFn` returns, whether
the connection is up, whether the context is done and which ready case a
`select` takes. A run ends when the script does: whatever the publisher waits
for then is outside the observation.

How long the publisher waits between attempts is left out, and so is what is
logged and counted. The JSON form of an event is a function of the event and
making it never fails, so a call of `publishFn` is given the event itself.
-/

namespace Nats

open Cdc

/-- What one call of `publishFn` returns; `tooLarge` is what `isTooLarge` recognises. -/
inductive PublishResult where
  | ok
  | tooLarge
  | failed
  deriving DecidableEq, Repr

/-- The arguments of one call of `publishFn`; its data is the JSON form of `payload`. -/
structure Attempt where
  subject : GoString
  payload : Event
  msgID : GoString
  deriving DecidableEq, Repr

/-- The state of the connection. A publisher without one does as if it was connected. -/
inductive Connection where
  | connected
  | disconnected
  | closed
  deriving DecidableEq, Repr

/-- What the publisher sees when it looks. -/
structure Moment where
  ctxDone : Bool
  connection : Connection
  /-- What `publishFn` returns when it is called now. -/
  publishFn : Attempt → PublishResult
  /-- Which case a `select` takes when the context is done and the other case is ready too. -/
  prefersDone : Bool

/-- A `select` takes the case `<-ctx.Done()`. -/
def Moment.selectsDone (m : Moment) : Bool := m.ctxDone && m.prefersDone

/-- `connectionLost` -/
def Moment.connectionLost (m : Moment) : Bool := m.connection != .connected

/-- What the publisher does; `index` is the place of the event among those read. -/
inductive Entry where
  | attempt (index : Nat) (attempt : Attempt) (result : PublishResult)
  | notify (observer index : Nat) (event : Event)
  deriving DecidableEq, Repr

inductive PublishError where
  | tooLarge
  /-- `errConnectionClosed` -/
  | connectionClosed
  /-- The context's error. -/
  | canceled
  deriving DecidableEq, Repr

/-- How a call ends, if it does before the script ends. -/
inductive Outcome where
  | ok
  | error (err : PublishError)
  | blocked
  deriving DecidableEq, Repr

/-- How a call ends, what is left of the script, and what was done. -/
structure Sending where
  outcome : Outcome
  rest : List Moment
  log : List Entry

/-- The fields of `Publisher` that sending uses. -/
structure Publisher where
  subjectPrefix : GoString
  /-- How many observers are registered. -/
  observers : Nat
  lastAckedLSN : GoString
  deriving DecidableEq, Repr

/-- `messageID`; `next` is the fresh id that an event without a source position gets. -/
def messageID (subjectPrefix next : GoString) (event : Event) : GoString :=
  if event.sourceID = [] then next else subjectPrefix ++ ascii "/" ++ event.sourceID

/-- `sanitizeSubjectToken` -/
def sanitizeSubjectToken (s : GoString) : GoString :=
  s.map fun b => if b ∈ ascii ".*> " then 0x5f else b

def buildSubject (subjectPrefix schema table : GoString) : GoString :=
  let schema := if schema = [] then ascii "default" else schema
  let table := if table = [] then ascii "_ddl" else table
  subjectPrefix ++ ascii "." ++ sanitizeSubjectToken schema ++ ascii "." ++
    sanitizeSubjectToken table

/-- Where `publishWithRetry` is: before an attempt, after one that failed, or in the loop of
    `waitConnected`. -/
inductive Phase where
  | attempting
  | failed
  | waiting
  deriving DecidableEq, Repr

/-- `publishWithRetry`, with the loop of `waitConnected` in it. -/
def publishWithRetry (index : Nat) (a : Attempt) : Phase → List Moment → Sending
  | _, [] => ⟨.blocked, [], []⟩
  | .attempting, m :: ms =>
    match m.publishFn a with
    -- no attempt follows a success or a refusal for size
    | .ok => ⟨.ok, ms, [.attempt index a .ok]⟩
    | .tooLarge => ⟨.error .tooLarge, ms, [.attempt index a .tooLarge]⟩
    | .failed =>
      let r := publishWithRetry index a .failed ms
      { r with log := .attempt index a .failed :: r.log }
  | .failed, m :: ms =>
    if m.connectionLost then publishWithRetry index a .waiting ms
    -- otherwise it waits for the delay or the end of the context
    else if m.selectsDone then ⟨.error .canceled, ms, []⟩
    else publishWithRetry index a .attempting ms
  | .waiting, m :: ms =>
    match m.connection with
    | .connected => publishWithRetry index a .attempting ms
    | .closed => ⟨.error .connectionClosed, ms, []⟩
    | .disconnected =>
      -- the next tick, or the end of the context
      if m.selectsDone then ⟨.error .canceled, ms, []⟩ else publishWithRetry index a .waiting ms

/-- `shouldPublish` -/
def shouldPublish (t : EventType) : Bool := isPublishable t

def send (index : Nat) (subject : GoString) (event : Event) (msgID : GoString)
    (ms : List Moment) : Sending :=
  publishWithRetry index ⟨subject, event, msgID⟩ .attempting ms

/-- What is done when the call before it failed as too large. -/
def Sending.orTooLarge (r : Sending) (next : List Moment → Sending) : Sending :=
  if r.outcome = .error .tooLarge then
    let r' := next r.rest
    { r' with log := r.log ++ r'.log }
  else r

section Send

variable (keyOnly : EventType → GoString → List GoString → GoString)

/-- `sendTruncated`: the key only, or nothing when even that is too large. -/
def sendTruncated (index : Nat) (subject : GoString) (event : Event) (msgID : GoString)
    (ms : List Moment) : Sending :=
  (send index subject (event.truncated keyOnly) msgID ms).orTooLarge
    (send index subject event.stripped msgID)

namespace Publisher

/-- `publish`; `next` is the fresh id. -/
def publish (p : Publisher) (index : Nat) (next : GoString) (event : Event) (ms : List Moment) :
    Sending × Publisher :=
  let subject := buildSubject p.subjectPrefix event.schema event.table
  let msgID := messageID p.subjectPrefix next event
  let r := (send index subject event msgID ms).orTooLarge
    (sendTruncated keyOnly index subject event msgID)
  -- on an error nobody hears of the event, whatever the error is
  if r.outcome = .ok then
    ({ r with log := r.log ++ (List.range p.observers).map fun i => .notify i index event },
      if event.lsn ≠ [] then { p with lastAckedLSN := event.lsn } else p)
  else (r, p)

/-- `deliver`; the Boolean tells whether the loop may continue. Where the script ends during the
    call, there is nothing left to continue with. -/
def deliver (p : Publisher) (index : Nat) (next : GoString) (event : Event) (ms : List Moment) :
    Bool × Sending × Publisher :=
  if !shouldPublish event.type then (true, ⟨.ok, ms, []⟩, p)
  else
    let (r, p) := p.publish keyOnly index next event ms
    -- every other error, also that of a context that is done, lets the loop go on
    (r.outcome != .error .connectionClosed, r, p)

/-- `publishLoop` over the events of the channel, the first of which has this index; `next` gives
    the fresh ids. -/
def publishLoop (next : Nat → GoString) :
    Publisher → Nat → List Event → List Moment → List Entry × Publisher
  | p, _, [], _ => ([], p)
  | p, _, _ :: _, [] => ([], p)
  | p, index, event :: events, m :: ms =>
    if m.selectsDone then ([], p)
    else
      let (continues, r, p) := p.deliver keyOnly index (next index) event ms
      if continues then
        let (log, p) := publishLoop next p (index + 1) events r.rest
        (r.log ++ log, p)
      else (r.log, p)

end Publisher

end Send

end Nats
