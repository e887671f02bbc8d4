import Watcher.Model.CommitGate
import Watcher.Model.Escape

/-!
# The MySQL listener (`internal/mysql/listener.go`)

The callbacks that canal makes while it reads the binlog. A callback first
updates the handler's own fields and then performs effects, one after another:
events for the bus, which count toward the gate once they are accepted
(`Effect.emit`) or not at all (`Effect.handle`), and transaction boundaries for
the gate (`Effect.committed`). Acks and the offset saver run concurrently and
touch only the gate, so they may come between any two effects, and between an
event's acceptance and its being counted.

Starting canal and the snapshot are left out.
-/

namespace Mysql

open Cdc Jsonutil

/-! ## Rows as JSON -/

/-- A column value as canal decodes it. Of kinds that other packages format, the formatted text
    is kept. -/
inductive Value where
  | nil
  | int (n : Int)
  | float (text : GoString)
  | bool (b : Bool)
  | bytes (s : GoString)
  | string (s : GoString)
  | time (formatted text : GoString)
  /-- Anything else: its JSON encoding, if it has one, and its text. -/
  | other (marshalled : Option GoString) (text : GoString)
  deriving DecidableEq, Repr

/-- The verb `%d`. -/
def formatInt : Int → GoString
  | .ofNat n => itoa n
  | .negSucc n => ascii "-" ++ itoa (n + 1)

/-- The text of a value: its bytes, or what the verb `%v` prints. -/
def Value.text : Value → GoString
  | .nil => []
  | .int n => formatInt n
  | .float text => text
  | .bool b => if b then ascii "true" else ascii "false"
  | .bytes s => s
  | .string s => s
  | .time _ text => text
  | .other _ text => text

structure Column where
  name : GoString
  /-- The column has type JSON. -/
  isJSON : Bool
  deriving DecidableEq, Repr

structure Table where
  schema : GoString
  name : GoString
  columns : List Column
  deriving DecidableEq, Repr

private def quote (s : GoString) : GoString := [0x22] ++ s ++ [0x22]

def appendValue (val : Value) (isJSON : Bool) : GoString :=
  if isJSON && Json.valid val.text then val.text
  else
    match val with
    | .nil => ascii "null"
    | .int n => formatInt n
    | .float text => text
    | .bool b => if b then ascii "true" else ascii "false"
    | .bytes s => quote (escapeString s)
    | .string s => quote (escapeString s)
    | .time formatted _ => quote formatted
    | .other (some marshalled) _ => marshalled
    | .other none text => quote text

/-- The members from column index `i` on. -/
def rowMembers (row : List Value) : Nat → List Column → GoString
  | _, [] => []
  | i, col :: cols =>
    let value := match row[i]? with
      | none | some .nil => ascii "null"
      | some val => appendValue val col.isJSON
    (if 0 < i then ascii ", " else []) ++ [0x22] ++ escapeString col.name ++ ascii "\":" ++ value ++
      rowMembers row (i + 1) cols

def rowToJSON (table : Table) (row : List Value) : GoString :=
  [0x7b] ++ rowMembers row 0 table.columns ++ [0x7d]

/-! ## Callbacks -/

inductive RowsAction where
  | insert
  | update
  | delete
  deriving DecidableEq, Repr

/-- `canal.RowsEvent`; `logPos` is the position in its header, if it has one. -/
structure RowsEvent where
  table : Table
  action : RowsAction
  rows : List (List Value)
  logPos : Option Nat
  deriving DecidableEq, Repr

/-- `rowCount` -/
def rowCount (e : RowsEvent) : Nat :=
  match e.action with
  | .update => e.rows.length / 2
  | _ => e.rows.length

/-- The header of a GTID event. -/
structure GTIDHeader where
  logPos : Nat
  eventSize : Nat
  deriving DecidableEq, Repr

inductive Callback where
  | gtid (header : Option GTIDHeader)
  | row (event : RowsEvent)
  | ddl (nextPos : BinlogPosition) (schema query : GoString)
  | xid (nextPos : BinlogPosition)
  | rotate (nextLogName : GoString) (position : Nat)
  deriving DecidableEq, Repr

inductive Effect where
  | emit (event : Event)
  | handle (event : Event)
  | committed (pos : BinlogPosition)
  deriving DecidableEq, Repr

/-- The fields of `eventHandler` that the callbacks use, besides the service and the gate. -/
structure EventHandler where
  currentFile : GoString
  /-- The end of the GTID event of the open transaction. -/
  txn : BinlogPosition
  /-- Rows without a position of their own seen in it so far. -/
  txnRows : Nat
  deriving DecidableEq, Repr

/-- A handler at the start of streaming from a position in `file`. -/
def EventHandler.new (file : GoString) : EventHandler := ⟨file, BinlogPosition.none, 0⟩

/-- `errUnplacedRow`: a row with neither a position nor an enclosing transaction. -/
inductive RowError where
  | unplacedRow
  deriving DecidableEq, Repr

/-- The id of a row of the event that ends at `lsn`. -/
def positionID (lsn : GoString) (row : Nat) : GoString :=
  sourcePrefix ++ lsn ++ ascii ":" ++ itoa row

/-- The id of the row with index `row` in the transaction at `lsn`. -/
def transactionID (lsn : GoString) (row : Nat) : GoString :=
  sourcePrefix ++ lsn ++ ascii ":txn:" ++ itoa row

/-- The id of the DDL statement that ends at `nextPos`. -/
def ddlID (nextPos : BinlogPosition) : GoString :=
  sourcePrefix ++ nextPos.file ++ ascii ":" ++ itoa nextPos.position ++ ascii ":ddl"

namespace EventHandler

/-- `rowIDs`: how the rows of an event are named, if they are, and the position they carry. -/
def rowIDs (h : EventHandler) (e : RowsEvent) :
    Except RowError (EventHandler × Option (Nat → GoString) × GoString) :=
  match e.logPos with
  | none => .ok (h, none, [])
  | some logPos =>
    -- before the first file is known, rows have no id
    if h.currentFile = [] then .ok (h, none, [])
    else if logPos ≠ 0 then
      let lsn := (BinlogPosition.mk h.currentFile logPos).string
      .ok (h, some (positionID lsn), lsn)
    -- position 0: an event inside a compressed payload
    else if h.txn.file = [] then .error .unplacedRow
    else
      let lsn := h.txn.string
      let first := h.txnRows
      .ok ({ h with txnRows := h.txnRows + rowCount e },
        some (fun row => transactionID lsn (first + row)), lsn)

/-- Give an event its id, when there is one. -/
def nameRow (rowID : Option (Nat → GoString)) (event : Event) (row : Nat) : Event :=
  match rowID with
  | none => event
  | some id => { event with sourceID := id row }

/-- The events of the rows from index `i` on, one each. -/
def singleRows (make : GoString → Event) (table : Table) (rowID : Option (Nat → GoString)) :
    Nat → List (List Value) → List Effect
  | _, [] => []
  | i, row :: rows =>
    .emit (nameRow rowID (make (rowToJSON table row)) i) :: singleRows make table rowID (i + 1) rows

/-- The events of the rows from index `2 * i` on, one for an old and a new row each. -/
def pairedRows (make : GoString → Event) (table : Table) (rowID : Option (Nat → GoString)) :
    Nat → List (List Value) → List Effect
  | i, old :: new :: rows =>
    let data := ascii "\x7b\"old\":" ++ rowToJSON table old ++ ascii ", \"new\":" ++
      rowToJSON table new ++ ascii "\x7d"
    .emit (nameRow rowID (make data) i) :: pairedRows make table rowID (i + 1) rows
  -- a last row without a partner is not published
  | _, _ => []

theorem mem_singleRows {make : GoString → Event} {table : Table} {rowID : Option (Nat → GoString)}
    {i : Nat} {rows : List (List Value)} {eff : Effect}
    (h : eff ∈ singleRows make table rowID i rows) :
    ∃ data row, eff = .emit (nameRow rowID (make data) row) := by
  induction rows generalizing i with
  | nil => exact nomatch h
  | cons row rows ih =>
    rcases List.mem_cons.mp h with rfl | h
    · exact ⟨_, _, rfl⟩
    · exact ih h

theorem mem_pairedRows {make : GoString → Event} {table : Table} {rowID : Option (Nat → GoString)}
    {i : Nat} {rows : List (List Value)} {eff : Effect}
    (h : eff ∈ pairedRows make table rowID i rows) :
    ∃ data row, eff = .emit (nameRow rowID (make data) row) := by
  fun_induction pairedRows make table rowID i rows with
  | case1 i old new rows data ih =>
    rcases List.mem_cons.mp h with rfl | h
    · exact ⟨_, _, rfl⟩
    · exact ih h
  | case2 => exact nomatch h

def onRow (h : EventHandler) (e : RowsEvent) : Except RowError (EventHandler × List Effect) := do
  let (h, rowID, lsn) ← h.rowIDs e
  let make (typ : EventType) (raw : GoString) (data : GoString) : Event :=
    newEvent typ e.table.schema e.table.name data raw lsn
  match e.action with
  | .insert => return (h, singleRows (make .insert (ascii "INSERT")) e.table rowID 0 e.rows)
  | .update => return (h, pairedRows (make .update (ascii "UPDATE")) e.table rowID 0 e.rows)
  | .delete => return (h, singleRows (make .delete (ascii "DELETE")) e.table rowID 0 e.rows)

/-- `OnGTID`: a transaction opens, and where its GTID event starts is a boundary. -/
def onGTID (h : EventHandler) (header : Option GTIDHeader) : EventHandler × List Effect :=
  -- whatever was open before is closed, also when the new one cannot be placed
  let h := { h with txn := BinlogPosition.none, txnRows := 0 }
  match header with
  | none => (h, [])
  | some header =>
    if h.currentFile = [] || header.logPos = 0 then (h, [])
    else
      ({ h with txn := ⟨h.currentFile, header.logPos⟩ },
        if header.eventSize ≤ header.logPos then
          [.committed ⟨h.currentFile, header.logPos - header.eventSize⟩]
        else [])

def onRotate (h : EventHandler) (nextLogName : GoString) (position : Nat) :
    EventHandler × List Effect :=
  -- the event has a 64-bit position, the gate a 32-bit one
  ({ h with currentFile := nextLogName }, [.committed ⟨nextLogName, position % 2 ^ 32⟩])

/-- `OnDDL`: the statement itself is the data. -/
def onDDL (h : EventHandler) (nextPos : BinlogPosition) (schema query : GoString) :
    EventHandler × List Effect :=
  let event := newEvent .ddl schema [] query (ascii "DDL") []
  let event := if nextPos.file ≠ [] then { event with sourceID := ddlID nextPos } else event
  (h, [.emit event, .committed nextPos])

def onXID (h : EventHandler) (nextPos : BinlogPosition) : EventHandler × List Effect :=
  (h, [.handle (newEvent .commit [] [] [] (ascii "COMMIT") []), .committed nextPos])

/-- One callback. -/
def call (h : EventHandler) : Callback → Except RowError (EventHandler × List Effect)
  | .gtid header => .ok (h.onGTID header)
  | .row event => h.onRow event
  | .ddl nextPos schema query => .ok (h.onDDL nextPos schema query)
  | .xid nextPos => .ok (h.onXID nextPos)
  | .rotate nextLogName position => .ok (h.onRotate nextLogName position)

end EventHandler

/-! ## The offset saver -/

/-- What `saveConfirmedOffset` reads and writes: the gate, the offset saved last and the file. -/
structure OffsetSaver where
  gate : CommitGate
  savedOffset : BinlogPosition
  deriving DecidableEq, Repr

/-- `saveConfirmedOffset`: the position passed to the store, if any. `saved` tells whether the
    store could write it. -/
def OffsetSaver.saveConfirmedOffset (s : OffsetSaver) (saved : Bool) :
    Option BinlogPosition × OffsetSaver :=
  let ((pos, ok), gate) := s.gate.confirmable
  let s := { s with gate := gate }
  -- nothing to save, or nothing new
  if !ok || pos = s.savedOffset then (none, s)
  else if saved then (some pos, { s with savedOffset := pos })
  -- it is tried again the next time
  else (some pos, s)

/-- What `Confirmable` returns is what it leaves in the gate. -/
theorem confirmable_fst (g : CommitGate) :
    g.confirmable.1 = (g.confirmable.2.confirmed, decide (g.confirmable.2.confirmed.file ≠ [])) :=
  rfl

/-- The store is only passed what `Confirmable` returned. -/
theorem saveConfirmedOffset_cases (saver : OffsetSaver) (saved : Bool) :
    ∃ pos savedOffset,
      saver.saveConfirmedOffset saved = (pos, ⟨saver.gate.confirmable.2, savedOffset⟩) ∧
      (pos = none ∨ pos = some saver.gate.confirmable.2.confirmed ∧
        saver.gate.confirmable.2.confirmed.file ≠ []) := by
  have hfst := confirmable_fst saver.gate
  rcases hc : saver.gate.confirmable with ⟨⟨pos, ok⟩, gate⟩
  simp only [hc, Prod.mk.injEq] at hfst
  obtain ⟨rfl, rfl⟩ := hfst
  simp only [OffsetSaver.saveConfirmedOffset, hc]
  by_cases hskip : (!decide (gate.confirmed.file ≠ []) ||
      decide (gate.confirmed = saver.savedOffset)) = true
  · rw [if_pos hskip]
    exact ⟨_, _, rfl, Or.inl rfl⟩
  · rw [if_neg hskip]
    have hfile : gate.confirmed.file ≠ [] := fun hnil => hskip (by simp [hnil])
    cases saved with
    | true => exact ⟨_, _, rfl, Or.inr ⟨rfl, hfile⟩⟩
    | false => exact ⟨_, _, rfl, Or.inr ⟨rfl, hfile⟩⟩

end Mysql
