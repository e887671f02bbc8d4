import Mathlib

/-!
# The replication loop (`internal/postgres/listener.go`)

`listenLoop` calls `connectAndStream` again and again and waits between failed
calls. What the calls meet is a script: whether the connection opens, whether
replication starts, and round by round what the streaming loop receives.
`running` and the context are turned off by signals that may come between any
two of their readings; once off they stay off, as `Stop` and a context do.

A script may be over while a session still streams (`Outcome.streaming`). What
the messages do to the listener is in `Model.PostgresListener`; here only
matters whether handling them returned an error.
-/

namespace Postgres.Reconnect

/-- `running` and whether the context is done. -/
structure Flags where
  running : Bool
  cancelled : Bool
  deriving DecidableEq, Repr

/-- What happens to the flags before they are read next. -/
structure Signals where
  stop : Bool := false
  cancel : Bool := false
  deriving DecidableEq, Repr

def Flags.after (f : Flags) (s : Signals) : Flags where
  running := f.running && !s.stop
  cancelled := f.cancelled || s.cancel

/-- One round of the loop of `connectAndStream`: whether `ReceiveMessage`, `handleMessage` and
    `maintainHeartbeatAndStatus` return without an error. -/
structure Round where
  before : Signals := {}
  receiving : Signals := {}
  received : Bool
  handled : Bool
  maintained : Bool
  deriving DecidableEq, Repr

/-- What one call of `connectAndStream` meets. -/
structure Attempt where
  /-- `openReplicationConn` succeeds. -/
  opened : Bool
  /-- `startReplication` succeeds; to recreate the slot afterwards makes no success of it. -/
  replicating : Bool
  rounds : List Round
  deriving DecidableEq, Repr

/-- Replication was started in this attempt. -/
def Attempt.started (a : Attempt) : Bool := a.opened && a.replicating

inductive Outcome where
  /-- an error is returned -/
  | failed
  /-- `nil` is returned -/
  | ended
  | streaming
  deriving DecidableEq, Repr

/-- The loop of `connectAndStream`. -/
def streamLoop : Flags → List Round → Outcome × Flags
  | f, [] => (.streaming, f)
  | f, round :: rounds =>
    let f := f.after round.before
    if !f.running then (.ended, f)
    else if f.cancelled then (.ended, f)
    else
      let f := f.after round.receiving
      if !round.received then
        if f.cancelled then (.ended, f) else (.failed, f)
      else if !round.handled then (.failed, f)
      else if !round.maintained then (.failed, f)
      else streamLoop f rounds

def connectAndStream (f : Flags) (a : Attempt) : Outcome × Flags :=
  if !a.opened then (.failed, f)
  else if !a.replicating then (.failed, f)
  else streamLoop f a.rounds

/-! ### Durations, in nanoseconds -/

def second : Nat := 1000000000

def maxReconnectDelay : Nat := 30 * second

/-- One turn of `listenLoop`. -/
structure Turn where
  before : Signals := {}
  attempt : Attempt
  /-- before the context is asked once the attempt has failed -/
  failing : Signals := {}
  waiting : Signals := {}
  deriving DecidableEq, Repr

/-- A wait of `listenLoop`: the attempt that failed before it and its length. -/
structure Wait where
  attempt : Attempt
  delay : Nat
  deriving DecidableEq, Repr

/-- The waits of `listenLoop` from a turn on at which the delay is `delay`. -/
def listenLoop : Flags → (delay : Nat) → List Turn → List Wait
  | _, _, [] => []
  | f, delay, turn :: turns =>
    let f := f.after turn.before
    if !f.running then []
    else
      match connectAndStream f turn.attempt with
      | (.streaming, _) => []
      | (.ended, f) => listenLoop f second turns  -- reset on success
      | (.failed, f) =>
        let f := f.after turn.failing
        if f.cancelled then []
        else
          let f := f.after turn.waiting
          ⟨turn.attempt, delay⟩ ::
            if f.cancelled then [] else listenLoop f (min (delay * 2) maxReconnectDelay) turns

/-- The waits of one `listenLoop`, started with the first delay. -/
def waits (f : Flags) (turns : List Turn) : List Wait := listenLoop f second turns

end Postgres.Reconnect
