import Watcher.ForStd.BigEndian
import Watcher.Model.Cdc
import Watcher.Model.Escape

/-!
# The pgoutput parser (`internal/postgres/parser.go`)

`Reader` is the bounds-checked cursor over one message, `Parser` the state kept
between messages, and `Parser.parse` one call of `Parse`. A TRUNCATE of several
relations produces several events: all but the first go to the event handler
while the message is parsed (`Parsed.handled`), the first is returned
(`Parsed.event`).

Writing the schema history is left out: it reads the relation that was decoded
and influences neither the parser's state nor any event.
-/

namespace Postgres

open Cdc Jsonutil

/-- A write-ahead log position. -/
abbrev LSN := UInt64

/-! ## Reader -/

/-- Cursor over the bytes of one message; `err` is set once a read went past the end. -/
structure Reader where
  data : List UInt8
  pos : Nat
  err : Bool
  deriving DecidableEq, Repr

namespace Reader

def remaining (r : Reader) : Nat := r.data.length - r.pos

def canRead (r : Reader) (n : Nat) : Bool := !r.err && decide (r.pos + n ≤ r.data.length)

/-- Take the next `n` bytes; a read that does not fit yields nothing and spoils the reader. -/
def readBytes (r : Reader) (n : Nat) : List UInt8 × Reader :=
  if r.canRead n then ((r.data.drop r.pos).take n, { r with pos := r.pos + n })
  else ([], { r with err := true })

/-- A big-endian number of `n` bytes, 0 when it does not fit. -/
def readUint (r : Reader) (n : Nat) : Nat × Reader :=
  let (bs, r) := r.readBytes n
  (beNat bs, r)

def readByte (r : Reader) : UInt8 × Reader :=
  let (bs, r) := r.readBytes 1
  (bs.headD 0, r)

def readUint16 (r : Reader) : Nat × Reader := r.readUint 2

def readUint32 (r : Reader) : Nat × Reader := r.readUint 4

def readUint64 (r : Reader) : Nat × Reader := r.readUint 8

/-- Bytes up to the next NUL, which is skipped; the whole rest when there is none. -/
def readCString (r : Reader) : GoString × Reader :=
  let s := (r.data.drop r.pos).takeWhile (· != 0)
  let pos := r.pos + s.length
  (s, { r with pos := if pos < r.data.length then pos + 1 else pos })

end Reader

/-! ## Parser state -/

structure RelationInfo where
  nameSpace : GoString
  name : GoString
  columns : List GoString
  typeOIDs : List Nat
  /-- The replica identity columns (column flag bit 1). -/
  keyColumns : List GoString
  deriving DecidableEq, Repr

structure Parser where
  /-- Empty means all tables. -/
  tableFilter : List GoString
  captureDDL : Bool
  relationMap : Nat → Option RelationInfo
  txnFinalLSN : LSN
  txnEndLSN : LSN

/-- `NewParser` -/
def newParser (tableFilter : List GoString) (captureDDL : Bool) : Parser where
  tableFilter := tableFilter
  captureDDL := captureDDL
  relationMap := fun _ => none
  txnFinalLSN := 0
  txnEndLSN := 0

/-- What one call of `Parse` leaves behind. -/
structure Parsed where
  parser : Parser
  /-- Events passed to the event handler, in order, while the message was parsed. -/
  handled : List Event
  /-- The event returned. -/
  event : Option Event

/-- PostgreSQL epoch, 2000-01-01, in Unix milliseconds. -/
def pgEpochOffsetMillis : Int := 946684800000

def ddlLogTable : GoString := ascii "_cdc_ddl_log"

def slotOwnersTable : GoString := ascii "excalibase_cdc_slot_owners"

/-- int8, int2, int4, oid, float4, float8 and numeric. -/
def numericOIDs : List Nat := [20, 21, 23, 26, 700, 701, 1700]

def boolOID : Nat := 16

/-- json and jsonb. -/
def jsonOIDs : List Nat := [114, 3802]

def isNumericOID (oid : Nat) : Bool := numericOIDs.contains oid

def isJSONOID (oid : Nat) : Bool := jsonOIDs.contains oid

/-! ## Row images -/

def skipTupleValue (r : Reader) (colType : UInt8) : Reader :=
  if colType = 0x74 then  -- 't'
    let (n, r) := r.readUint32
    (r.readBytes n).2
  else r

/-- How the text of a value is written for a column of type `typeOID`. -/
def renderText (typeOID : Nat) (value : GoString) : GoString :=
  if isNumericOID typeOID then value
  else if typeOID = boolOID then
    if value = ascii "t" then ascii "true" else ascii "false"
  else if isJSONOID typeOID && Json.valid value then value
  else [0x22] ++ escapeString value ++ [0x22]

def writeTextValue (r : Reader) (typeOID : Nat) : GoString × Reader :=
  let (length, r) := r.readUint32
  let (value, r) := r.readBytes length
  (renderText typeOID value, r)

def writeTupleValue (r : Reader) (colType : UInt8) (typeOID : Nat) : GoString × Reader :=
  if colType = 0x6e then (ascii "null", r)  -- 'n'
  else if colType = 0x74 then writeTextValue r typeOID  -- 't'
  else (ascii "\"unknown\"", r)

/-- The columns from index `i` on, `n` of them, when `written` members are already there. -/
def tupleLoop (rel : RelationInfo) (keyOnly : Bool) :
    (n i written : Nat) → Reader → GoString × Reader
  | 0, _, _, r => ([], r)
  | n + 1, i, written, r =>
    let (colType, r) := r.readByte
    -- a column that the RELATION message does not describe is named by its index
    let colName := rel.columns.getD i (ascii "col_" ++ itoa i)
    -- an unchanged TOAST value, or a column outside the key of a key-only image
    if colType = 0x75 || (keyOnly && !rel.keyColumns.contains colName) then
      tupleLoop rel keyOnly n (i + 1) written (skipTupleValue r colType)
    else
      let typeOID := rel.typeOIDs.getD i 0
      let separator := if 0 < written then ascii ", " else []
      let (value, r) := writeTupleValue r colType typeOID
      let (rest, r) := tupleLoop rel keyOnly n (i + 1) (written + 1) r
      (separator ++ [0x22] ++ escapeString colName ++ ascii "\":" ++ value ++ rest, r)

/-- `parseTupleData`: one row image as a JSON object. -/
def parseTupleData (r : Reader) (rel : RelationInfo) (keyOnly : Bool) : GoString × Reader :=
  if r.remaining < 2 then (ascii "\x7b\x7d", r)
  else
    let (numCols, r) := r.readUint16
    let (body, r) := tupleLoop rel keyOnly numCols 0 0 r
    ([0x7b] ++ body ++ [0x7d], r)

/-! ## Messages -/

namespace Parser

def passesFilter (p : Parser) (tableName : GoString) : Bool :=
  if tableName = slotOwnersTable then false
  else if p.tableFilter.length = 0 then true
  else p.tableFilter.contains tableName

def parseBegin (p : Parser) (r : Reader) (lsn : GoString) : Parsed :=
  if 20 ≤ r.remaining then
    let (finalLSN, r) := r.readUint64
    let (pgMicros, _) := r.readUint64
    let sourceTS := pgEpochOffsetMillis + (pgMicros / 1000 : Nat)
    ⟨{ p with txnFinalLSN := UInt64.ofNat finalLSN }, [],
      some (newEventWithSourceTS .begin [] [] [] (ascii "BEGIN") lsn sourceTS)⟩
  -- a short message: the LSN of the transaction before it stays
  else ⟨p, [], some (newEvent .begin [] [] [] (ascii "BEGIN") lsn)⟩

/-- flags(1), commit LSN(8), end LSN(8), commit timestamp(8) -/
def parseCommit (p : Parser) (r : Reader) (lsn : GoString) : Parsed :=
  if 25 ≤ r.remaining then
    let (_, r) := r.readByte
    let (_, r) := r.readUint64
    let (endLSN, r) := r.readUint64
    let (pgMicros, _) := r.readUint64
    let sourceTS := pgEpochOffsetMillis + (pgMicros / 1000 : Nat)
    ⟨{ p with txnEndLSN := UInt64.ofNat endLSN }, [],
      some (newEventWithSourceTS .commit [] [] [] (ascii "COMMIT") lsn sourceTS)⟩
  -- a short message: there is no end to confirm
  else ⟨{ p with txnEndLSN := 0 }, [], some (newEvent .commit [] [] [] (ascii "COMMIT") lsn)⟩

/-- The column descriptions of a RELATION message: names, type OIDs and key columns. -/
def relationLoop : Nat → Reader → (List GoString × List Nat × List GoString) × Reader
  | 0, r => (([], [], []), r)
  | n + 1, r =>
    let (flags, r) := r.readByte
    let (column, r) := r.readCString
    let (typeOID, r) := r.readUint32
    let (_, r) := r.readUint32
    let ((columns, typeOIDs, keyColumns), r) := relationLoop n r
    ((column :: columns, typeOID :: typeOIDs,
      if flags &&& 1 = 1 then column :: keyColumns else keyColumns), r)

def parseRelation (p : Parser) (r : Reader) : Parsed :=
  let (relID, r) := r.readUint32
  let (nameSpace, r) := r.readCString
  let (name, r) := r.readCString
  let (_, r) := r.readByte
  let (numCols, r) := r.readUint16
  let ((columns, typeOIDs, keyColumns), _) := relationLoop numCols r
  let info : RelationInfo := ⟨nameSpace, name, columns, typeOIDs, keyColumns⟩
  ⟨{ p with relationMap := fun id => if id = relID then some info else p.relationMap id }, [], none⟩

def parseInsert (p : Parser) (r : Reader) (lsn : GoString) : Parsed :=
  let (relID, r) := r.readUint32
  match p.relationMap relID with
  | none => ⟨p, [], none⟩
  | some rel =>
    -- the log of DDL statements is not subject to the filter
    if p.captureDDL && rel.name = ddlLogTable then
      let (_, r) := r.readByte
      let (data, _) := parseTupleData r rel false
      ⟨p, [], some (newEvent .ddl rel.nameSpace [] data (ascii "DDL") lsn)⟩
    else if !p.passesFilter rel.name then ⟨p, [], none⟩
    else
      let (_, r) := r.readByte
      let (data, _) := parseTupleData r rel false
      ⟨p, [], some { newEvent .insert rel.nameSpace rel.name data (ascii "INSERT") lsn with
        keyColumns := rel.keyColumns }⟩

/-- The optional old image of an UPDATE; a byte that does not announce one is put back. -/
def parseOldImage (r : Reader) (rel : RelationInfo) : GoString × Reader :=
  if 0 < r.remaining then
    let (tupleType, r) := r.readByte
    if tupleType = 0x4b || tupleType = 0x4f then  -- 'K', 'O'
      let (oldData, r) := parseTupleData r rel (tupleType = 0x4b)
      (ascii "\"old\":" ++ oldData, r)
    else ([], { r with pos := r.pos - 1 })
  else ([], r)

/-- The new image of an UPDATE, after the `written` bytes of the old one. -/
def parseNewImage (r : Reader) (rel : RelationInfo) (written : GoString) : GoString :=
  if 0 < r.remaining then
    let (tupleType, r) := r.readByte
    if tupleType = 0x4e then  -- 'N'
      let (newData, _) := parseTupleData r rel false
      (if written ≠ [] then ascii ", " else []) ++ ascii "\"new\":" ++ newData
    else []
  else []

def parseUpdate (p : Parser) (r : Reader) (lsn : GoString) : Parsed :=
  let (relID, r) := r.readUint32
  match p.relationMap relID with
  | none => ⟨p, [], none⟩
  | some rel =>
    if !p.passesFilter rel.name then ⟨p, [], none⟩
    else
      let (oldImage, r) := parseOldImage r rel
      let newImage := parseNewImage r rel oldImage
      ⟨p, [], some { newEvent .update rel.nameSpace rel.name
          ([0x7b] ++ oldImage ++ newImage ++ [0x7d]) (ascii "UPDATE") lsn with
        keyColumns := rel.keyColumns }⟩

def parseDelete (p : Parser) (r : Reader) (lsn : GoString) : Parsed :=
  let (relID, r) := r.readUint32
  match p.relationMap relID with
  | none => ⟨p, [], none⟩
  | some rel =>
    if !p.passesFilter rel.name then ⟨p, [], none⟩
    else if 0 < r.remaining then
      let (tupleType, r) := r.readByte
      let (data, _) := parseTupleData r rel (tupleType = 0x4b)  -- 'K'
      ⟨p, [], some { newEvent .delete rel.nameSpace rel.name data (ascii "DELETE") lsn with
        keyColumns := rel.keyColumns }⟩
    -- no image at all; the event has no key columns either
    else
      ⟨p, [], some (newEvent .delete rel.nameSpace rel.name (ascii "\x7b\x7d")
        (ascii "DELETE") lsn)⟩

/-- The relations of a TRUNCATE: the first event is kept to be returned, the others go to the
    event handler as they come. -/
def truncateLoop (p : Parser) (options : UInt8) (lsn : GoString) :
    Nat → Reader → Option Event → List Event → Option Event × List Event
  | 0, _, first, handled => (first, handled)
  | n + 1, r, first, handled =>
    let (relID, r) := r.readUint32
    match p.relationMap relID with
    | none => truncateLoop p options lsn n r first handled
    | some rel =>
      if !p.passesFilter rel.name then truncateLoop p options lsn n r first handled
      else
        let e := newEvent .truncate rel.nameSpace rel.name
          (ascii "\x7b\"options\":" ++ itoa options.toNat ++ ascii "\x7d") (ascii "TRUNCATE") lsn
        match first with
        | none => truncateLoop p options lsn n r (some e) handled
        | some _ => truncateLoop p options lsn n r first (handled ++ [e])

def parseTruncate (p : Parser) (r : Reader) (lsn : GoString) : Parsed :=
  let (numRelations, r) := r.readUint32
  let (options, r) := r.readByte
  let (first, handled) := truncateLoop p options lsn numRelations r none []
  ⟨p, handled, first⟩

/-- `Parse` -/
def parse (p : Parser) (data : List UInt8) (lsn : GoString) : Parsed :=
  match data with
  | [] => ⟨p, [], none⟩
  | msgType :: _ =>
    let r : Reader := ⟨data, 1, false⟩
    if msgType = 0x42 then p.parseBegin r lsn  -- 'B'
    else if msgType = 0x43 then p.parseCommit r lsn  -- 'C'
    else if msgType = 0x52 then p.parseRelation r  -- 'R'
    else if msgType = 0x49 then p.parseInsert r lsn  -- 'I'
    else if msgType = 0x55 then p.parseUpdate r lsn  -- 'U'
    else if msgType = 0x44 then p.parseDelete r lsn  -- 'D'
    else if msgType = 0x54 then p.parseTruncate r lsn  -- 'T'
    -- TYPE, ORIGIN, MESSAGE and what later protocol versions add
    else ⟨p, [], none⟩

end Parser

end Postgres
