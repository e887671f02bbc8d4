import Watcher.Lib.Simulation
import Watcher.Model.Pgoutput

/-!
# The pgoutput parser with its bounds (`internal/postgres/parser.go`)

`Model.Pgoutput` reads a message with list operations that cannot fail. Here the
same functions index and slice as the source does: `pos` is a 64-bit `int`, its
arithmetic wraps around, and an index or slice out of range panics. `trace` is
no field of the source: it keeps every value that `pos` has taken.
-/

namespace Postgres.Checked

open Cdc Jsonutil Simulation

/-- The value of `int` arithmetic that gives `x` without overflow. -/
def int64 (x : Int) : Int := (x + 2 ^ 63) % 2 ^ 64 - 2 ^ 63

/-- `reader` -/
structure Reader where
  data : List UInt8
  pos : Int
  err : Bool
  trace : List Int

abbrev M := Comp Reader

/-! ## Reader -/

/-- `xs[i]` -/
def index {α : Type} (xs : List α) (i : Int) : M α :=
  fun r => if 0 ≤ i then xs[i.toNat]?.map fun x => (x, r) else none

/-- `r.data[lo:hi]`; `hi` may not pass the length either, whatever the capacity is. -/
def slice (lo hi : Int) : M (List UInt8) := fun r =>
  if 0 ≤ lo ∧ lo ≤ hi ∧ hi ≤ r.data.length then
    some ((r.data.drop lo.toNat).take (hi - lo).toNat, r)
  else none

/-- An assignment to `r.pos`. -/
def setPos (x : Int) : M Unit := fun r =>
  some ((), { r with pos := int64 x, trace := int64 x :: r.trace })

def remaining : M Int := do
  let r ← get
  return int64 (r.data.length - r.pos)

def canRead (n : Int) : M Bool := do
  let r ← get
  if r.err then return false
  else if int64 (r.pos + n) > r.data.length then
    set { r with err := true }
    return false
  else return true

def readByte : M UInt8 := do
  if ← canRead 1 then
    let r ← get
    let b ← index r.data r.pos
    setPos (r.pos + 1)
    return b
  else return 0

def readBytes (n : Int) : M (List UInt8) := do
  if ← canRead n then
    let r ← get
    let b ← slice r.pos (int64 (r.pos + n))
    setPos (r.pos + n)
    return b
  else return []

/-- `binary.BigEndian.Uint16`, `Uint32` and `Uint64`: they index the last of their `n` bytes. -/
def bigEndian (n : Nat) (b : List UInt8) : M Nat := do
  let _ ← index b (n - 1)
  return beNat (b.take n)

/-- `readUint16`, `readUint32` and `readUint64` for their `n` bytes. -/
def readUint (n : Nat) : M Nat := do
  if ← canRead n then
    let r ← get
    let b ← slice r.pos r.data.length
    let v ← bigEndian n b
    setPos (r.pos + n)
    return v
  else return 0

def readUint16 : M Nat := readUint 2

def readUint32 : M Nat := readUint 4

def readUint64 : M Nat := readUint 8

/-- The loop of `readCString`; to run out of rounds counts as a panic. -/
def skipToNul : (rounds : Nat) → M Unit
  | 0 => fun _ => none
  | rounds + 1 => do
    let r ← get
    if r.pos < r.data.length then
      let b ← index r.data r.pos
      if b ≠ 0 then
        setPos (r.pos + 1)
        skipToNul rounds
      else return ()
    else return ()

def readCString : M GoString := do
  let start ← get
  skipToNul (start.data.length + 1)
  let r ← get
  let s ← slice start.pos r.pos
  if r.pos < r.data.length then
    setPos (r.pos + 1)
    return s
  else return s

/-! ## Row images -/

def skipTupleValue (colType : UInt8) : M Unit :=
  if colType = 0x74 then do  -- 't'
    let n ← readUint32
    let _ ← readBytes n
    return ()
  else return ()

def writeTextValue (typeOID : Nat) : M GoString := do
  let length ← readUint32
  let value ← readBytes length
  return renderText typeOID value

def writeTupleValue (colType : UInt8) (typeOID : Nat) : M GoString :=
  if colType = 0x6e then return ascii "null"  -- 'n'
  else if colType = 0x74 then writeTextValue typeOID  -- 't'
  else return ascii "\"unknown\""

/-- `xs[i]` where the source tests `i < len(xs)` first. -/
def indexOr {α : Type} (xs : List α) (i : Nat) (default : α) : M α :=
  if i < xs.length then index xs i else return default

def tupleLoop (rel : RelationInfo) (keyOnly : Bool) : (n i written : Nat) → M GoString
  | 0, _, _ => return []
  | n + 1, i, written => do
    let colType ← readByte
    let colName ← indexOr rel.columns i (ascii "col_" ++ itoa i)
    if colType = 0x75 || (keyOnly && !rel.keyColumns.contains colName) then
      skipTupleValue colType
      tupleLoop rel keyOnly n (i + 1) written
    else
      let typeOID ← indexOr rel.typeOIDs i 0
      let separator := if 0 < written then ascii ", " else []
      let value ← writeTupleValue colType typeOID
      let rest ← tupleLoop rel keyOnly n (i + 1) (written + 1)
      return separator ++ [0x22] ++ escapeString colName ++ ascii "\":" ++ value ++ rest

def parseTupleData (rel : RelationInfo) (keyOnly : Bool) : M GoString := do
  let left ← remaining
  if left < 2 then return ascii "\x7b\x7d"
  else
    let numCols ← readUint16
    let body ← tupleLoop rel keyOnly numCols 0 0
    return [0x7b] ++ body ++ [0x7d]

/-! ## Messages -/

def parseBegin (p : Parser) (lsn : GoString) : M Parsed := do
  let left ← remaining
  if 20 ≤ left then
    let finalLSN ← readUint64
    let pgMicros ← readUint64
    let _ ← readUint32
    let sourceTS := pgEpochOffsetMillis + (pgMicros / 1000 : Nat)
    return ⟨{ p with txnFinalLSN := UInt64.ofNat finalLSN }, [],
      some (newEventWithSourceTS .begin [] [] [] (ascii "BEGIN") lsn sourceTS)⟩
  else return ⟨p, [], some (newEvent .begin [] [] [] (ascii "BEGIN") lsn)⟩

def parseCommit (p : Parser) (lsn : GoString) : M Parsed := do
  let left ← remaining
  if 25 ≤ left then
    let _ ← readByte
    let _ ← readUint64
    let endLSN ← readUint64
    let pgMicros ← readUint64
    let sourceTS := pgEpochOffsetMillis + (pgMicros / 1000 : Nat)
    return ⟨{ p with txnEndLSN := UInt64.ofNat endLSN }, [],
      some (newEventWithSourceTS .commit [] [] [] (ascii "COMMIT") lsn sourceTS)⟩
  else return ⟨{ p with txnEndLSN := 0 }, [], some (newEvent .commit [] [] [] (ascii "COMMIT") lsn)⟩

def relationLoop : Nat → M (List GoString × List Nat × List GoString)
  | 0 => return ([], [], [])
  | n + 1 => do
    let flags ← readByte
    let column ← readCString
    let typeOID ← readUint32
    let _ ← readUint32
    let rest ← relationLoop n
    return (column :: rest.1, typeOID :: rest.2.1,
      if flags &&& 1 = 1 then column :: rest.2.2 else rest.2.2)

/-- The column definitions for the schema history, from index `i` on. -/
def colDefs (columns : List GoString) (typeOIDs : List Nat) :
    (n i : Nat) → M (List (GoString × Nat))
  | 0, _ => return []
  | n + 1, i => do
    let name ← index columns i
    let typeOID ← index typeOIDs i
    let rest ← colDefs columns typeOIDs n (i + 1)
    return (name, typeOID) :: rest

/-- `schemaStore` says whether the parser has one; what is saved there is not read again. -/
def parseRelation (p : Parser) (schemaStore : Bool) : M Parsed := do
  let relID ← readUint32
  let nameSpace ← readCString
  let name ← readCString
  let _ ← readByte
  let numCols ← readUint16
  let cols ← relationLoop numCols
  let info : RelationInfo := ⟨nameSpace, name, cols.1, cols.2.1, cols.2.2⟩
  let _ ← if schemaStore then colDefs cols.1 cols.2.1 cols.1.length 0 else pure []
  return ⟨{ p with relationMap := fun id => if id = relID then some info else p.relationMap id },
    [], none⟩

def parseInsert (p : Parser) (lsn : GoString) : M Parsed := do
  let relID ← readUint32
  match p.relationMap relID with
  | none => return ⟨p, [], none⟩
  | some rel =>
    if p.captureDDL && rel.name = ddlLogTable then
      let _ ← readByte
      let data ← parseTupleData rel false
      return ⟨p, [], some (newEvent .ddl rel.nameSpace [] data (ascii "DDL") lsn)⟩
    else if !p.passesFilter rel.name then return ⟨p, [], none⟩
    else
      let _ ← readByte
      let data ← parseTupleData rel false
      return ⟨p, [], some { newEvent .insert rel.nameSpace rel.name data (ascii "INSERT") lsn with
        keyColumns := rel.keyColumns }⟩

def parseOldImage (rel : RelationInfo) : M GoString := do
  let left ← remaining
  if 0 < left then
    let tupleType ← readByte
    if tupleType = 0x4b || tupleType = 0x4f then  -- 'K', 'O'
      let oldData ← parseTupleData rel (tupleType = 0x4b)
      return ascii "\"old\":" ++ oldData
    else
      -- put back, even when the read failed and took nothing
      let r ← get
      setPos (r.pos - 1)
      return []
  else return []

def parseNewImage (rel : RelationInfo) (written : GoString) : M GoString := do
  let left ← remaining
  if 0 < left then
    let tupleType ← readByte
    if tupleType = 0x4e then  -- 'N'
      let newData ← parseTupleData rel false
      return (if written ≠ [] then ascii ", " else []) ++ ascii "\"new\":" ++ newData
    else return []
  else return []

def parseUpdate (p : Parser) (lsn : GoString) : M Parsed := do
  let relID ← readUint32
  match p.relationMap relID with
  | none => return ⟨p, [], none⟩
  | some rel =>
    if !p.passesFilter rel.name then return ⟨p, [], none⟩
    else
      let oldImage ← parseOldImage rel
      let newImage ← parseNewImage rel oldImage
      return ⟨p, [], some { newEvent .update rel.nameSpace rel.name
          ([0x7b] ++ oldImage ++ newImage ++ [0x7d]) (ascii "UPDATE") lsn with
        keyColumns := rel.keyColumns }⟩

def parseDelete (p : Parser) (lsn : GoString) : M Parsed := do
  let relID ← readUint32
  match p.relationMap relID with
  | none => return ⟨p, [], none⟩
  | some rel =>
    if !p.passesFilter rel.name then return ⟨p, [], none⟩
    else
      let left ← remaining
      if 0 < left then
        let tupleType ← readByte
        let data ← parseTupleData rel (tupleType = 0x4b)  -- 'K'
        return ⟨p, [], some { newEvent .delete rel.nameSpace rel.name data (ascii "DELETE") lsn with
          keyColumns := rel.keyColumns }⟩
      else
        return ⟨p, [], some (newEvent .delete rel.nameSpace rel.name (ascii "\x7b\x7d")
          (ascii "DELETE") lsn)⟩

def truncateLoop (p : Parser) (options : UInt8) (lsn : GoString) :
    Nat → Option Event → List Event → M (Option Event × List Event)
  | 0, first, handled => return (first, handled)
  | n + 1, first, handled => do
    let relID ← readUint32
    match p.relationMap relID with
    | none => truncateLoop p options lsn n first handled
    | some rel =>
      if !p.passesFilter rel.name then truncateLoop p options lsn n first handled
      else
        let e := newEvent .truncate rel.nameSpace rel.name
          (ascii "\x7b\"options\":" ++ itoa options.toNat ++ ascii "\x7d") (ascii "TRUNCATE") lsn
        match first with
        | none => truncateLoop p options lsn n (some e) handled
        | some _ => truncateLoop p options lsn n first (handled ++ [e])

def parseTruncate (p : Parser) (lsn : GoString) : M Parsed := do
  let numRelations ← readUint32
  let options ← readByte
  let events ← truncateLoop p options lsn numRelations none []
  return ⟨p, events.2, events.1⟩

/-- The switch of `Parse` on the type of the message. -/
def parseMessage (p : Parser) (schemaStore : Bool) (msgType : UInt8) (lsn : GoString) : M Parsed :=
  if msgType = 0x42 then parseBegin p lsn  -- 'B'
  else if msgType = 0x43 then parseCommit p lsn  -- 'C'
  else if msgType = 0x52 then parseRelation p schemaStore  -- 'R'
  else if msgType = 0x49 then parseInsert p lsn  -- 'I'
  else if msgType = 0x55 then parseUpdate p lsn  -- 'U'
  else if msgType = 0x44 then parseDelete p lsn  -- 'D'
  else if msgType = 0x54 then parseTruncate p lsn  -- 'T'
  else return ⟨p, [], none⟩

/-- `Parse`: what it leaves behind and every position the reader was at, or a panic. -/
def parse (p : Parser) (schemaStore : Bool) (data : List UInt8) (lsn : GoString) :
    Option (Parsed × List Int) :=
  if data.length = 0 then some (⟨p, [], none⟩, [])
  else
    match data[0]? with
    | none => none
    | some msgType =>
      (parseMessage p schemaStore msgType lsn ⟨data, 1, false, [1]⟩).map fun (parsed, r) =>
        (parsed, r.trace)

end Postgres.Checked
