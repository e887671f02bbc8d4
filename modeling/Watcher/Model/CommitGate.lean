import Watcher.Lib.Pending
import Watcher.Model.Cdc

/-!
# Which binlog position may be persisted (`internal/mysql/ackgate.go`)

The gate persists only transaction boundaries, and only once every event handed
before that boundary is acked. `pendingCommit` is an entry of `Pending`:
`lastHanded` is its count and `pos` its value; the newer boundary replaces the
older one.
-/

namespace Mysql

open Cdc

structure BinlogPosition where
  file : GoString
  position : Nat
  deriving DecidableEq, Repr

/-- The zero value: no position. -/
def BinlogPosition.none : BinlogPosition := ⟨[], 0⟩

def BinlogPosition.string (p : BinlogPosition) : GoString := p.file ++ ascii ":" ++ itoa p.position

/-- Marks the source ids of events this listener hands to the bus. -/
def sourcePrefix : GoString := ascii "mysql:"

/-- Where the first event of a binlog file starts. -/
def minBinlogPosition : Nat := 4

def ownEvent (event : Event) : Bool :=
  sourcePrefix.isPrefixOf event.sourceID && isPublishable event.type

structure CommitGate where
  gated : Bool
  /-- Own events acked. -/
  acked : Nat
  /-- Own events handed. -/
  handed : Nat
  commits : List (Pending.Entry BinlogPosition)
  confirmed : BinlogPosition
  deriving DecidableEq, Repr

def newCommitGate : CommitGate := ⟨false, 0, 0, [], BinlogPosition.none⟩

namespace CommitGate

def enable (g : CommitGate) : CommitGate := { g with gated := true }

/-- Count an event the bus accepted for publishing. -/
def hand (g : CommitGate) : CommitGate := { g with handed := g.handed + 1 }

/-- Record a transaction boundary; what is not a place to resume from is ignored. -/
def committed (g : CommitGate) (pos : BinlogPosition) : CommitGate :=
  if pos.file = [] || pos.position < minBinlogPosition then g
  else { g with commits := Pending.record (fun _ newer => newer) g.handed pos g.commits }

/-- The publisher's callback; events this listener did not hand are ignored. -/
def observePublished (g : CommitGate) (event : Event) : CommitGate :=
  if ownEvent event then { g with acked := g.acked + 1 } else g

/-- `Confirmable`: the newest boundary whose events are all acked, and whether there is one. -/
def confirmable (g : CommitGate) : (BinlogPosition × Bool) × CommitGate :=
  -- without a publisher every handed event counts as acked
  let acked := if g.gated then g.acked else g.handed
  let (confirmed, commits) := Pending.settle (fun _ newer => newer) acked g.confirmed g.commits
  ((confirmed, decide (confirmed.file ≠ [])), { g with confirmed := confirmed, commits := commits })

end CommitGate

end Mysql
