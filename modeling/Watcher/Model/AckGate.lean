import Watcher.ForStd.UInt64
import Watcher.Lib.Pending
import Watcher.Model.Pgoutput

/-!
# Which position may be confirmed to the primary (`internal/postgres/ackgate.go`)

The gate numbers every publishable event in hand-off order and confirms a
commit's end only once every event handed up to that commit is acked.

`pendingCommit` is an entry of `Pending`: `lastSequence` is its count and `end`
its value, merged by `max`.
-/

namespace Postgres

open Cdc

structure AckGate where
  gated : Bool
  /-- Highest sequence acked. -/
  acked : Nat
  /-- Events handed so far. -/
  handed : Nat
  inTxn : Bool
  commits : List (Pending.Entry LSN)
  confirmable : LSN
  deriving DecidableEq, Repr

def newAckGate : AckGate := ⟨false, 0, 0, false, [], 0⟩

namespace AckGate

def enable (g : AckGate) : AckGate := { g with gated := true }

def begin (g : AckGate) : AckGate := { g with inTxn := true }

/-- Number a publishable event that is about to be passed to the bus. -/
def hand (g : AckGate) (event : Event) : AckGate × Event :=
  let handed := g.handed + 1
  ({ g with handed := handed }, { event with sequence := handed })

/-- Take back the last `hand`: the bus refused that event. -/
def unhand (g : AckGate) : AckGate := { g with handed := g.handed - 1 }

/-- Close the open transaction, whose commit ends at `endLSN`. -/
def committed (g : AckGate) (endLSN : LSN) : AckGate :=
  { g with inTxn := false, commits := Pending.record max g.handed endLSN g.commits }

/-- Forget the transaction a dropped connection interrupted. -/
def newSession (g : AckGate) : AckGate := { g with inTxn := false }

def ackedSequence (g : AckGate) : Nat := if g.gated then g.acked else g.handed

/-- A handed event still awaits its ack. -/
def pending (g : AckGate) : Bool := g.ackedSequence < g.handed

def settle (g : AckGate) : AckGate :=
  let (confirmable, commits) := Pending.settle max g.ackedSequence g.confirmable g.commits
  { g with confirmable := confirmable, commits := commits }

/-- Offer the position of a keepalive. -/
def idle (g : AckGate) (position : LSN) : AckGate :=
  let g := g.settle
  -- something streamed before the position is not delivered yet
  if g.inTxn || 0 < g.commits.length || g.pending then g
  else { g with confirmable := max g.confirmable position }

/-- The publisher's callback; events that were not numbered here are ignored. -/
def observePublished (g : AckGate) (event : Event) : AckGate :=
  if event.sequence = 0 then g else { g with acked := max g.acked event.sequence }

/-- The position that is safe to confirm. -/
def flush (g : AckGate) : LSN × AckGate :=
  let g := g.settle
  (g.confirmable, g)

end AckGate

end Postgres
