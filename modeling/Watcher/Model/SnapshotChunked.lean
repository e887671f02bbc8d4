import Watcher.Model.CopyDump

/-!
# Chunked snapshots (`internal/postgres/snapshot_chunked.go`)

A table is read with one query per chunk: past the last value of one column of
its primary key, or by offset if there is no key.

The values are those the driver returns, of a type `V` that the snapshot only
formats and passes on. What the connection returns is a parameter, and may
differ from call to call. The loops are given fuel; without enough of it they
return nothing.
-/

namespace Postgres

open Cdc Jsonutil

variable {V : Type}

/-! ### The connection -/

inductive SqlArg (V : Type) where
  | value (v : V)
  | int (n : Int)

/-- The values of a row; `none` is NULL. -/
abbrev SqlRow (V : Type) := List (Option V)

/-- The rows a query returns, and whether reading them failed after that. -/
structure Reply (V : Type) where
  rows : List (SqlRow V)
  failed : Bool

structure Conn (V : Type) where
  /-- The reply to a query with its arguments; calls are numbered. -/
  query : (call : Nat) → GoString → List (SqlArg V) → Reply V
  /-- `fetchColumnNames`, or nothing if it fails. -/
  columnNames : (schema table : GoString) → Option (List GoString)
  /-- The row that the query of `fetchPrimaryKey` returns, or nothing if it fails. -/
  primaryKey : (schema table : GoString) → Option (Option GoString)

def Conn.fetchPrimaryKey (conn : Conn V) (schema table : GoString) : Option GoString :=
  (conn.primaryKey schema table).map fun row => row.getD []

/-! ### Events -/

/-- What is written for a value; `format` is the verb `%v`. -/
def snapshotCell (format : V → GoString) : Option V → GoString
  | none => ascii "null"
  | some v => [0x22] ++ escapeString (format v) ++ [0x22]

/-- The members from column `i` on. -/
def snapshotMembers (format : V → GoString) (values : SqlRow V) : Nat → List GoString → GoString
  | _, [] => []
  | i, col :: columns =>
    (if 0 < i then ascii ", " else []) ++ [0x22] ++ escapeString col ++ ascii "\":" ++
      snapshotCell format values[i]?.join ++ snapshotMembers format values (i + 1) columns

def buildSnapshotEvent (format : V → GoString) (schema table : GoString) (columns : List GoString)
    (values : SqlRow V) : Event :=
  newEvent .insert schema table ([0x7b] ++ snapshotMembers format values 0 columns ++ [0x7d])
    (ascii "INSERT") []

/-! ### Chunks -/

structure ChunkSpec where
  schema : GoString
  table : GoString
  pk : GoString
  columns : List GoString
  chunkSize : Int

inductive SnapshotError where
  | invalidTable (name : GoString)
  | columns
  | primaryKey
  | invalidPrimaryKey (name : GoString)
  | query
  deriving DecidableEq, Repr

def quoteName (name : GoString) : GoString := [0x22] ++ name ++ [0x22]

def ChunkSpec.colList (s : ChunkSpec) : GoString :=
  (ascii ", ").intercalate (s.columns.map quoteName)

def buildChunkQuery (colList qSchema qTable qPK : GoString) (lastValue : Option V)
    (chunkSize : Int) : GoString × List (SqlArg V) :=
  match lastValue with
  | none =>
    (ascii "SELECT " ++ colList ++ ascii " FROM " ++ qSchema ++ ascii "." ++ qTable ++
      ascii " ORDER BY " ++ qPK ++ ascii " LIMIT $1", [.int chunkSize])
  | some v =>
    (ascii "SELECT " ++ colList ++ ascii " FROM " ++ qSchema ++ ascii "." ++ qTable ++
      ascii " WHERE " ++ qPK ++ ascii " > $1 ORDER BY " ++ qPK ++ ascii " LIMIT $2",
      [.value v, .int chunkSize])

/-- The query for the chunk past `lastValue`. -/
def ChunkSpec.chunkQuery (s : ChunkSpec) (lastValue : Option V) : GoString × List (SqlArg V) :=
  buildChunkQuery s.colList (quoteName s.schema) (quoteName s.table) (quoteName s.pk) lastValue
    s.chunkSize

/-- `lastValue` after a row: its value in the first column named as the key. -/
def ChunkSpec.advance (s : ChunkSpec) (lastValue : Option V) (values : SqlRow V) : Option V :=
  match s.columns.idxOf? s.pk with
  | some i => values[i]?.join
  | none => lastValue

/-- What `fetchChunk` hands over and returns. -/
structure Chunk (V : Type) where
  events : List Event
  count : Nat
  lastValue : Option V
  failed : Bool

def fetchChunk (conn : Conn V) (format : V → GoString) (s : ChunkSpec) (call : Nat)
    (query : GoString × List (SqlArg V)) : Chunk V :=
  let reply := conn.query call query.1 query.2
  { events := reply.rows.map (buildSnapshotEvent format s.schema s.table s.columns)
    count := reply.rows.length
    lastValue := reply.rows.foldl s.advance none
    failed := reply.failed }

/-- The loop of `snapshotByPK`: the events handed over, and the error it ended with. -/
def keysetLoop (conn : Conn V) (format : V → GoString) (s : ChunkSpec) :
    (fuel call : Nat) → (lastValue : Option V) → Option (List Event × Option SnapshotError)
  | 0, _, _ => none
  | fuel + 1, call, lastValue =>
    let chunk := fetchChunk conn format s call (s.chunkQuery lastValue)
    if chunk.failed then some (chunk.events, some .query)
    else if (chunk.count : Int) < s.chunkSize then some (chunk.events, none)
    else
      (keysetLoop conn format s fuel (call + 1) chunk.lastValue).map fun (events, err) =>
        (chunk.events ++ events, err)

def snapshotByPK (conn : Conn V) (format : V → GoString) (s : ChunkSpec) (fuel : Nat) :
    Option (List Event × Option SnapshotError) :=
  if !validIdentifier s.pk then some ([], some (.invalidPrimaryKey s.pk))
  else keysetLoop conn format s fuel 0 none

def ChunkSpec.offsetQuery (s : ChunkSpec) : GoString :=
  ascii "SELECT " ++ s.colList ++ ascii " FROM " ++ quoteName s.schema ++ ascii "." ++
    quoteName s.table ++ ascii " ORDER BY 1 LIMIT $1 OFFSET $2"

/-- The loop of `snapshotByOffset`. -/
def offsetLoop (conn : Conn V) (format : V → GoString) (s : ChunkSpec) :
    (fuel call offset : Nat) → Option (List Event × Option SnapshotError)
  | 0, _, _ => none
  | fuel + 1, call, offset =>
    let chunk := fetchChunk conn format s call
      (s.offsetQuery, [.int s.chunkSize, .int offset])
    if chunk.failed then some (chunk.events, some .query)
    else if (chunk.count : Int) < s.chunkSize then some (chunk.events, none)
    else
      (offsetLoop conn format s fuel (call + 1) (offset + chunk.count)).map fun (events, err) =>
        (chunk.events ++ events, err)

def snapshotByOffset (conn : Conn V) (format : V → GoString) (s : ChunkSpec) (fuel : Nat) :
    Option (List Event × Option SnapshotError) :=
  offsetLoop conn format s fuel 0 0

/-! ### Tables -/

def snapshotTable (conn : Conn V) (format : V → GoString) (schema table : GoString)
    (chunkSize : Int) (fuel : Nat) : Option (List Event × Option SnapshotError) :=
  if !validIdentifier table then some ([], some (.invalidTable table))
  else
    match conn.columnNames schema table with
    | none => some ([], some .columns)
    | some columns =>
      match conn.fetchPrimaryKey schema table with
      | none => some ([], some .primaryKey)
      | some pk =>
        let s : ChunkSpec := ⟨schema, table, pk, columns, chunkSize⟩
        if pk ≠ [] then snapshotByPK conn format s fuel else snapshotByOffset conn format s fuel

end Postgres
