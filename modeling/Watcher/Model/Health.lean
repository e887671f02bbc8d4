import Watcher.Lib.Reads
import Watcher.Model.Process

/-!
# The health endpoints (`internal/health/health.go`)

The handlers run beside the process they ask about, and nothing stands still while
they do: every function a checker is given is a program of reads, and so is a
handler. They are generic in what is read; `Process.checker` is the checker of
`startHTTPServer`.

Left out is how the answers are written.
-/

namespace Health

open Run

universe u

variable {σ : Type u}

/-- A check of readiness. -/
structure ReadinessCheck (σ : Type u) where
  reason : String
  ready : Reads σ Bool

structure Checker (σ : Type u) where
  isRunning : Reads σ Bool
  subscriberFn : Reads σ Nat
  readiness : List (ReadinessCheck σ)
  /-- Absent unless `WithStartup` was called. -/
  isStarting : Option (Reads σ Bool)

/-- The body of an answer of `HealthHandler`. -/
structure Status where
  status : String
  cdcEnabled : Bool
  subscriptions : Nat
  reason : String
  deriving DecidableEq, Repr

structure ReadyBody where
  status : String
  reason : String
  deriving DecidableEq, Repr

def listenerNotRunning : String := "CDC listener not running"

def newChecker (isRunning : Reads σ Bool) (subscriberFn : Reads σ Nat) : Checker σ where
  isRunning := isRunning
  subscriberFn := subscriberFn
  readiness := []
  isStarting := none

/-- The loop of `notReadyReason`: the reason of the first check that fails. -/
def firstFailing : List (ReadinessCheck σ) → Reads σ String
  | [] => pure ""
  | check :: rest => do
    if ← check.ready then firstFailing rest else pure check.reason

namespace Checker

def withReadiness (c : Checker σ) (reason : String) (ready : Reads σ Bool) : Checker σ :=
  { c with readiness := c.readiness ++ [⟨reason, ready⟩] }

def withStartup (c : Checker σ) (isStarting : Reads σ Bool) : Checker σ :=
  { c with isStarting := some isStarting }

def starting (c : Checker σ) : Reads σ Bool := c.isStarting.getD (pure false)

/-- `HealthHandler`: the status code and the body. -/
def healthHandler (c : Checker σ) : Reads σ (Nat × Status) := do
  let subscriptions ← c.subscriberFn
  if ← c.isRunning then
    pure (200, ⟨"UP", true, subscriptions, ""⟩)
  else if ← c.starting then
    pure (200, ⟨"STARTING", true, subscriptions, ""⟩)
  else
    pure (503, ⟨"DOWN", true, subscriptions, listenerNotRunning⟩)

def notReadyReason (c : Checker σ) : Reads σ String := do
  if ← c.isRunning then firstFailing c.readiness else pure listenerNotRunning

/-- `ReadyHandler`: the status code and the body. -/
def readyHandler (c : Checker σ) : Reads σ (Nat × ReadyBody) := do
  let reason ← c.notReadyReason
  pure (if reason = "" then (200, ⟨"ready", ""⟩) else (503, ⟨"not ready", reason⟩))

end Checker

end Health

namespace Main

open Health Run

def slotReason : String := "replication slot dropped or invalidated"

def natsReason : String := "NATS not connected"

namespace Process

/-- What `run` gives to `startHTTPServer` to ask for the slot: there is nothing to ask before the
    listener is stored. -/
def slotUsable : Reads Process Bool := do
  if ← Reads.look (·.pgListener) then Reads.look (·.postgres.slotUsable) else pure true

/-- `Ready` of the publisher. -/
def publisherReady : Reads Process Bool := do
  if ← Reads.look (·.life.conn.isSome) then
    if ← Reads.look (·.life.conn == some .connected) then Reads.look (·.life.streamVerified)
    else pure false
  else pure false

/-- The checker of `startHTTPServer`. -/
def checker (cfg : Config) : Checker Process :=
  let running : Reads Process Bool := Reads.look (·.serviceRunning)
  let checker := ((newChecker running (Reads.look (·.bus.totalSubscriberCount))).withStartup
    (Reads.look (·.starting))).withReadiness slotReason slotUsable
  if cfg.nats then checker.withReadiness natsReason publisherReady else checker

end Process

end Main
