import Watcher.ForStd.Digits
import Watcher.Model.GoString

/-!
# Schema history store (`internal/schema`)

`FileHistoryStore` keeps the schema versions of each table in a JSON file of
its own and, once a table has been read or saved, in memory. The files are what
a later store on the same directory starts from.

File operations succeed here, so a file is what `encoding/json` reads back from
it: the entries that were written, each string coerced to UTF-8.
-/

namespace Schema

structure ColumnDef where
  name : GoString
  typeName : GoString
  typeOID : Int
  deriving DecidableEq, Repr

structure HistoryEntry where
  position : GoString
  schema : GoString
  table : GoString
  columns : List ColumnDef
  timestamp : Int
  deriving DecidableEq, Repr

/-! ### What is on disk -/

def ColumnDef.reread (c : ColumnDef) : ColumnDef :=
  { c with name := Utf8.reread c.name, typeName := Utf8.reread c.typeName }

def HistoryEntry.reread (e : HistoryEntry) : HistoryEntry :=
  { e with
    position := Utf8.reread e.position
    schema := Utf8.reread e.schema
    table := Utf8.reread e.table
    columns := e.columns.map ColumnDef.reread }

/-- The path elements of a file below the history directory. -/
abbrev FilePath := List GoString

/-- `filepath.Join(s.dir, key+".json")`: empty and `.` elements are dropped. An element `..` would
    be resolved as well, but needs a name with a dot in it. -/
def filePath (key : GoString) : FilePath :=
  ((key ++ ascii ".json").splitOn 0x2f).filter fun c => c != [] && c != ascii "."

/-- The history directory: what is read back from each file that exists. -/
abbrev Disk := FilePath → Option (List HistoryEntry)

/-! ### The store -/

/-- `s.cache`, by `schema.table`. -/
structure FileHistoryStore where
  cache : GoString → Option (List HistoryEntry)

/-- `NewFileHistoryStore` -/
def newFileHistoryStore : FileHistoryStore := ⟨fun _ => none⟩

def FileHistoryStore.put (s : FileHistoryStore) (key : GoString) (entries : List HistoryEntry) :
    FileHistoryStore :=
  ⟨fun k => if k = key then some entries else s.cache k⟩

/-- `loadEntries`: a table without a file is not cached. -/
def FileHistoryStore.loadEntries (s : FileHistoryStore) (disk : Disk) (key : GoString) :
    List HistoryEntry × FileHistoryStore :=
  match s.cache key with
  | some cached => (cached, s)
  | none =>
    match disk (filePath key) with
    | none => ([], s)
    | some entries => (entries, s.put key entries)

/-- `writeFile`: the file is replaced by what the cache holds. -/
def FileHistoryStore.writeFile (s : FileHistoryStore) (disk : Disk) (key : GoString) : Disk :=
  fun path =>
    if path = filePath key then some (((s.cache key).getD []).map HistoryEntry.reread)
    else disk path

/-- The key of a table in the cache. -/
def key (schema table : GoString) : GoString := schema ++ ascii "." ++ table

/-- The entry as it is saved: without a timestamp it is given the present one. -/
def HistoryEntry.stamped (entry : HistoryEntry) (now : Int) : HistoryEntry :=
  if entry.timestamp = 0 then { entry with timestamp := now } else entry

/-- `Save` -/
def FileHistoryStore.save (s : FileHistoryStore) (disk : Disk) (entry : HistoryEntry) (now : Int) :
    FileHistoryStore × Disk :=
  let entry := entry.stamped now
  let k := key entry.schema entry.table
  -- the file is not consulted: what the cache does not hold is not kept
  let s := s.put k ((s.cache k).getD [] ++ [entry])
  (s, s.writeFile disk k)

/-- `GetHistory` -/
def FileHistoryStore.getHistory (s : FileHistoryStore) (disk : Disk) (schema table : GoString) :
    List HistoryEntry × FileHistoryStore :=
  s.loadEntries disk (key schema table)

/-- `GetLatest` -/
def FileHistoryStore.getLatest (s : FileHistoryStore) (disk : Disk) (schema table : GoString) :
    Option HistoryEntry × FileHistoryStore :=
  let (entries, s) := s.loadEntries disk (key schema table)
  (entries.getLast?, s)

/-! ### Lemmas -/

@[simp] theorem FileHistoryStore.cache_put (s : FileHistoryStore) (k k' : GoString)
    (es : List HistoryEntry) : (s.put k es).cache k' = if k' = k then some es else s.cache k' := rfl

theorem HistoryEntry.stamped_schema (e : HistoryEntry) (now : Int) :
    (e.stamped now).schema = e.schema := by
  unfold stamped
  split <;> rfl

theorem HistoryEntry.stamped_table (e : HistoryEntry) (now : Int) :
    (e.stamped now).table = e.table := by
  unfold stamped
  split <;> rfl

/-- What `Save` leaves in the cache. -/
theorem FileHistoryStore.save_cache (s : FileHistoryStore) (disk : Disk) (e : HistoryEntry)
    (now : Int) (k : GoString) :
    (s.save disk e now).1.cache k =
      if k = key e.schema e.table then
        some ((s.cache (key e.schema e.table)).getD [] ++ [e.stamped now])
      else s.cache k := by
  simp only [save, cache_put, HistoryEntry.stamped_schema, HistoryEntry.stamped_table]

/-- What `Save` leaves on disk. -/
theorem FileHistoryStore.save_disk (s : FileHistoryStore) (disk : Disk) (e : HistoryEntry)
    (now : Int) (path : FilePath) :
    (s.save disk e now).2 path =
      if path = filePath (key e.schema e.table) then
        some (((s.cache (key e.schema e.table)).getD [] ++ [e.stamped now]).map
          HistoryEntry.reread)
      else disk path := by
  simp only [save, writeFile, cache_put, HistoryEntry.stamped_schema, HistoryEntry.stamped_table,
    ↓reduceIte, Option.getD_some]

/-- Names without a dot make different keys for different tables. -/
theorem key_inj {schema schema' table table' : GoString} (htable : 0x2e ∉ table)
    (htable' : 0x2e ∉ table') (h : key schema table = key schema' table') :
    schema = schema' ∧ table = table' := by
  simp only [key, ascii, String.toList, List.append_assoc] at h
  exact List.append_cons_inj_of_notMem_right htable htable' h

end Schema
