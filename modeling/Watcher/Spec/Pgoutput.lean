import Watcher.Json.Write
import Watcher.Model.Pgoutput

/-!
# pgoutput messages and what they mean

The messages of protocol version 1 as data, their wire format (`Message.encode`)
and a reference interpretation (`Config.events`): the change events a message
stands for, given the latest RELATION message of each relation id. Nothing here
refers to the parser; `PgoutputCorrect` proves that it computes this.

What the wire format can carry is built into the types: names have no NUL, a
relation has fewer than 2^16 columns, a text fits its 32-bit length.
-/

namespace Postgres

open Cdc Jsonutil

/-! ## Messages -/

/-- One column value of a row image. -/
inductive TupleValue where
  | null
  | unchanged
  | text (value : GoString) (fits : value.length < 2 ^ 32)
  deriving DecidableEq, Repr

structure ColumnDesc where
  flags : UInt8
  name : GoString
  typeOID : UInt32
  typeModifier : UInt32
  deriving DecidableEq, Repr

/-- The column belongs to the replica identity. -/
def ColumnDesc.isKey (c : ColumnDesc) : Bool := c.flags &&& 1 = 1

/-- The description of a relation that a RELATION message carries. -/
structure RelationDesc where
  id : UInt32
  nameSpace : GoString
  name : GoString
  replicaIdentity : UInt8
  columns : List ColumnDesc
  nameSpace_nul : 0 ∉ nameSpace
  name_nul : 0 ∉ name
  columns_nul : ∀ c ∈ columns, 0 ∉ c.name
  columns_lt : columns.length < 2 ^ 16
  columns_nodup : (columns.map ColumnDesc.name).Nodup
  deriving DecidableEq

/-- What an old row image holds: the replica identity (`K`) or the whole row (`O`). -/
inductive ImageKind where
  | key
  | full
  deriving DecidableEq, Repr

/-- Microseconds since the PostgreSQL epoch. -/
abbrev PgTime := { micros : Nat // micros < 2 ^ 63 }

inductive Message where
  | begin (finalLSN : UInt64) (time : PgTime) (xid : UInt32)
  | commit (flags : UInt8) (commitLSN endLSN : UInt64) (time : PgTime)
  | relation (rel : RelationDesc)
  | insert (rel : UInt32) (new : List TupleValue)
  | update (rel : UInt32) (old : Option (ImageKind × List TupleValue)) (new : List TupleValue)
  | delete (rel : UInt32) (kind : ImageKind) (old : List TupleValue)
  | truncate (options : UInt8) (rels : List UInt32) (fits : rels.length < 2 ^ 32)

/-! ## Wire format -/

def TupleValue.encode : TupleValue → List UInt8
  | .null => [0x6e]
  | .unchanged => [0x75]
  | .text value _ => 0x74 :: (beBytes 4 value.length ++ value)

def encodeTuple (t : List TupleValue) : List UInt8 :=
  beBytes 2 t.length ++ t.flatMap TupleValue.encode

def ImageKind.encode : ImageKind → UInt8
  | .key => 0x4b
  | .full => 0x4f

def ColumnDesc.encode (c : ColumnDesc) : List UInt8 :=
  c.flags :: (c.name ++ 0 :: (beBytes 4 c.typeOID.toNat ++ beBytes 4 c.typeModifier.toNat))

def RelationDesc.encode (rel : RelationDesc) : List UInt8 :=
  beBytes 4 rel.id.toNat ++ (rel.nameSpace ++ 0 :: (rel.name ++ 0 :: rel.replicaIdentity ::
    (beBytes 2 rel.columns.length ++ rel.columns.flatMap ColumnDesc.encode)))

/-- The bytes of a message. -/
def Message.encode : Message → List UInt8
  | .begin finalLSN time xid =>
    0x42 :: (beBytes 8 finalLSN.toNat ++ (beBytes 8 time.val ++ beBytes 4 xid.toNat))
  | .commit flags commitLSN endLSN time =>
    0x43 :: flags :: (beBytes 8 commitLSN.toNat ++ (beBytes 8 endLSN.toNat ++ beBytes 8 time.val))
  | .relation rel => 0x52 :: rel.encode
  | .insert rel new => 0x49 :: (beBytes 4 rel.toNat ++ 0x4e :: encodeTuple new)
  | .update rel none new => 0x55 :: (beBytes 4 rel.toNat ++ 0x4e :: encodeTuple new)
  | .update rel (some (kind, old)) new =>
    0x55 :: (beBytes 4 rel.toNat ++ kind.encode :: (encodeTuple old ++ 0x4e :: encodeTuple new))
  | .delete rel kind old => 0x44 :: (beBytes 4 rel.toNat ++ kind.encode :: encodeTuple old)
  | .truncate options rels _ =>
    0x54 :: (beBytes 4 rels.length ++ options :: rels.flatMap fun id => beBytes 4 id.toNat)

/-! ## Reference interpretation -/

/-- The latest description of each relation. -/
abbrev Catalog := UInt32 → Option RelationDesc

def Catalog.empty : Catalog := fun _ => none

/-- Only a RELATION message changes what is known. -/
def Catalog.learn (cat : Catalog) : Message → Catalog
  | .relation rel => fun id => if id = rel.id then some rel else cat id
  | _ => cat

/-- How a column's values appear in JSON. -/
inductive ValueKind where
  | number
  | boolean
  | json
  | string
  deriving DecidableEq, Repr

def ValueKind.ofOID (oid : UInt32) : ValueKind :=
  -- int8, int2, int4, oid, float4, float8 and numeric
  if oid ∈ [20, 21, 23, 26, 700, 701, 1700] then .number
  else if oid = 16 then .boolean
  -- json and jsonb
  else if oid ∈ [114, 3802] then .json
  else .string

/-- A text as a JSON string. -/
def quoted (s : GoString) : GoString := 0x22 :: escapeString s ++ [0x22]

/-- The JSON text of a value; `none` when the message does not carry the value. -/
def TupleValue.json (kind : ValueKind) : TupleValue → Option GoString
  | .null => some (ascii "null")
  | .unchanged => none
  | .text value _ =>
    match kind with
    | .number => some value
    | .boolean => some (if value = ascii "t" then ascii "true" else ascii "false")
    | .json => some (if Json.valid value then value else quoted value)
    | .string => some (quoted value)

/-- The members of a row image, in column order: those columns whose value the image carries.
    An image of the key says nothing about the other columns. -/
def imageMembers (kind : ImageKind) (columns : List ColumnDesc) (t : List TupleValue) :
    List (GoString × GoString) :=
  (columns.zip t).filterMap fun (c, v) =>
    if kind = .key ∧ ¬c.isKey then none
    else (v.json (ValueKind.ofOID c.typeOID)).map fun j => (escapeString c.name, j)

/-- A row image as a JSON object. -/
def RelationDesc.image (rel : RelationDesc) (kind : ImageKind) (t : List TupleValue) : GoString :=
  Json.object (imageMembers kind rel.columns t)

/-- The names of the replica identity columns. -/
def RelationDesc.keyColumns (rel : RelationDesc) : List GoString :=
  (rel.columns.filter ColumnDesc.isKey).map ColumnDesc.name

/-- The data of an UPDATE: the old image, when there is one, and the new image. -/
def RelationDesc.updateData (rel : RelationDesc) (old : Option (ImageKind × List TupleValue))
    (new : List TupleValue) : GoString :=
  match old with
  | none => Json.object [(ascii "new", rel.image .full new)]
  | some (kind, t) =>
    Json.object [(ascii "old", rel.image kind t), (ascii "new", rel.image .full new)]

/-- The configuration that decides which changes are reported. -/
structure Config where
  /-- Empty means all tables. -/
  tables : List GoString
  captureDDL : Bool

namespace Config

/-- Row changes of this relation are reported. -/
def captures (cfg : Config) (rel : RelationDesc) : Bool :=
  decide (rel.name ≠ slotOwnersTable) && (cfg.tables.isEmpty || cfg.tables.contains rel.name)

/-- Inserts into this relation are DDL statements. -/
def isDDLLog (cfg : Config) (rel : RelationDesc) : Bool :=
  cfg.captureDDL && decide (rel.name = ddlLogTable)

/-- Unix milliseconds of a commit time. -/
def sourceTS (time : PgTime) : Int := 946684800000 + (time.val / 1000 : Nat)

/-- A row event of `rel`. -/
def rowEvent (typ : EventType) (rel : RelationDesc) (data rawMessage lsn : GoString) : Event :=
  { newEvent typ rel.nameSpace rel.name data rawMessage lsn with keyColumns := rel.keyColumns }

def ddlEvent (rel : RelationDesc) (new : List TupleValue) (lsn : GoString) : Event :=
  newEvent .ddl rel.nameSpace [] (rel.image .full new) (ascii "DDL") lsn

def truncateEvent (options : UInt8) (rel : RelationDesc) (lsn : GoString) : Event :=
  newEvent .truncate rel.nameSpace rel.name
    (Json.object [(ascii "options", itoa options.toNat)]) (ascii "TRUNCATE") lsn

/-- The events a message stands for, given what is known of the relations. -/
def events (cfg : Config) (cat : Catalog) (lsn : GoString) : Message → List Event
  | .begin _ time _ =>
    [newEventWithSourceTS .begin [] [] [] (ascii "BEGIN") lsn (sourceTS time)]
  | .commit _ _ _ time =>
    [newEventWithSourceTS .commit [] [] [] (ascii "COMMIT") lsn (sourceTS time)]
  | .relation _ => []
  | .insert id new =>
    match cat id with
    | none => []
    | some rel =>
      -- the DDL log is read whatever the list of tables says
      if cfg.isDDLLog rel then [ddlEvent rel new lsn]
      else if cfg.captures rel then
        [rowEvent .insert rel (rel.image .full new) (ascii "INSERT") lsn]
      else []
  | .update id old new =>
    match cat id with
    | none => []
    | some rel =>
      if cfg.captures rel then
        [rowEvent .update rel (rel.updateData old new) (ascii "UPDATE") lsn]
      else []
  | .delete id kind old =>
    match cat id with
    | none => []
    | some rel =>
      if cfg.captures rel then
        [rowEvent .delete rel (rel.image kind old) (ascii "DELETE") lsn]
      else []
  | .truncate options ids _ =>
    ids.filterMap fun id =>
      (cat id).bind fun rel =>
        if cfg.captures rel then some (truncateEvent options rel lsn) else none

end Config

/-- The row images of a message have one value per column of the relation they are for. -/
def Message.FitsCatalog (cat : Catalog) : Message → Prop
  | .insert id new => ∀ rel, cat id = some rel → new.length = rel.columns.length
  | .update id old new => ∀ rel, cat id = some rel → new.length = rel.columns.length ∧
      ∀ kind t, old = some (kind, t) → t.length = rel.columns.length
  | .delete id _ old => ∀ rel, cat id = some rel → old.length = rel.columns.length
  | _ => True

end Postgres
