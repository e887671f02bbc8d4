import Watcher.Json.Scanner
import Watcher.Model.GoString

/-!
# Change events and the event bus (`internal/cdc`)

The event that both listeners build and the publisher sends, and the decision
of `Service.HandleEvent` whether the bus takes an event. The wall-clock
`Timestamp` of an event is left out: nothing but its JSON form reads it.
-/

namespace Cdc

inductive EventType where
  | begin
  | commit
  | insert
  | update
  | delete
  | ddl
  | truncate
  | heartbeat
  deriving DecidableEq, Repr

structure Event where
  type : EventType
  schema : GoString
  table : GoString
  data : GoString
  rawMessage : GoString
  lsn : GoString
  sourceTimestamp : Int
  /-- Identifies the change at its source; empty when there is no position. -/
  sourceID : GoString
  /-- Place in the listener's hand-off order; 0 when the listener does not gate. -/
  sequence : Nat
  dataTruncated : Bool
  keyColumns : List GoString
  deriving DecidableEq, Repr

/-- `NewEvent`: every field that is not an argument has its zero value. -/
def newEvent (typ : EventType) (schema table data rawMessage lsn : GoString) : Event where
  type := typ
  schema := schema
  table := table
  data := data
  rawMessage := rawMessage
  lsn := lsn
  sourceTimestamp := 0
  sourceID := []
  sequence := 0
  dataTruncated := false
  keyColumns := []

def newEventWithSourceTS (typ : EventType) (schema table data rawMessage lsn : GoString)
    (sourceTimestamp : Int) : Event :=
  { newEvent typ schema table data rawMessage lsn with sourceTimestamp := sourceTimestamp }

/-- Events of these types are forwarded to NATS. -/
def isPublishable : EventType → Bool
  | .insert | .update | .delete | .ddl | .truncate => true
  | _ => false

def isTableEvent : EventType → Bool
  | .insert | .update | .delete | .truncate => true
  | _ => false

/-- `Stripped`: a copy without any data, marked truncated. -/
def Event.stripped (e : Event) : Event := { e with data := [], dataTruncated := true }

/-- `Truncated`: a copy with only what `keyOnly` keeps of the row. -/
def Event.truncated (keyOnly : EventType → GoString → List GoString → GoString) (e : Event) :
    Event :=
  if isTableEvent e.type then { e.stripped with data := keyOnly e.type e.data e.keyColumns }
  else e.stripped

def isValidJSON (data : GoString) : Bool := Json.valid data

/-- What `HandleEvent` reads of the service besides its subscribers. -/
structure Service where
  closed : Bool
  deriving DecidableEq, Repr

/-- `HandleEvent`: whether the event is accepted, in which case it is passed to every
    subscriber. Only the data of table events is checked; DDL data is SQL. -/
def Service.handleEvent (s : Service) (event : Event) : Bool :=
  if s.closed then false
  else if isTableEvent event.type && event.data != [] && !isValidJSON event.data then false
  else true

/-- Valid data is all an open service asks for. -/
theorem Service.handleEvent_of_valid {s : Service} (hopen : s.closed = false) {event : Event}
    (h : Json.valid event.data = true) : s.handleEvent event = true := by
  simp [Service.handleEvent, hopen, isValidJSON, h]

/-- A service that has not been shut down. -/
def Service.opened : Service := ⟨false⟩

end Cdc
