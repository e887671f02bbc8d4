import Watcher.Model.SchemaHistory

/-!
# The files of the schema history (`internal/schema`)

`Model.SchemaHistory` is about names without dots and files that can be read and
written. Here the names are arbitrary, the path of a file is what `filepath.Join`
makes of the directory and the key, and file operations may fail: a file may hold
something that cannot be read, and a write may be refused, which leaves the file as
it was but not the cache.

For readable files and writes that succeed the operations are those of
`Model.SchemaHistory` (`loadFrom_eq`, `saveTo_eq`).
-/

namespace Schema

/-! ### Paths -/

/-- One element of a path in `filepath.Clean`; `out` holds the elements so far, the last first. -/
def cleanStep (rooted : Bool) (out : List GoString) (c : GoString) : List GoString :=
  if c = [] ∨ c = ascii "." then out
  else if c = ascii ".." then
    match out with
    | [] => if rooted then [] else [c]
    | e :: es => if e = ascii ".." then c :: e :: es else es
  else c :: out

/-- An ordinary name is kept. -/
theorem cleanStep_name (rooted : Bool) (out : List GoString) {c : GoString} (hempty : c ≠ [])
    (hdot : c ≠ ascii ".") (hdots : c ≠ ascii "..") : cleanStep rooted out c = c :: out := by
  unfold cleanStep
  rw [if_neg (not_or.mpr ⟨hempty, hdot⟩), if_neg hdots]

/-- A path: whether it starts at the root, and its elements, the last first. -/
structure CleanPath where
  rooted : Bool
  elements : List GoString
  deriving DecidableEq, Repr

/-- `filepath.Join(dir, key+".json")`; the directory of a store is not empty. -/
def historyPath (dir key : GoString) : CleanPath where
  rooted := dir.head? = some 0x2f
  elements := ((dir ++ 0x2f :: (key ++ ascii ".json")).splitOn 0x2f).foldl
    (cleanStep (dir.head? = some 0x2f)) []

/-! ### Files that may be broken -/

inductive FileContent where
  /-- reading or decoding it fails -/
  | broken
  | entries (es : List HistoryEntry)
  deriving DecidableEq, Repr

/-- What is found at each path; the path is of any type, so that both models can use it. -/
abbrev Files (φ : Type) := φ → Option FileContent

variable {φ : Type} [DecidableEq φ]

namespace FileHistoryStore

/-- `loadEntries`; without a result it fails. -/
def loadFrom (s : FileHistoryStore) (path : GoString → φ) (files : Files φ) (key : GoString) :
    Option (List HistoryEntry) × FileHistoryStore :=
  match s.cache key with
  | some cached => (some cached, s)
  | none =>
    match files (path key) with
    | none => (some [], s)
    | some .broken => (none, s)
    | some (.entries es) => (some es, s.put key es)

/-- `Save`; `written` is whether `writeFile` succeeds. -/
def saveTo (s : FileHistoryStore) (path : GoString → φ) (files : Files φ) (entry : HistoryEntry)
    (now : Int) (written : Bool) : FileHistoryStore × Files φ :=
  let entry := entry.stamped now
  let k := key entry.schema entry.table
  let es := (s.cache k).getD [] ++ [entry]
  (s.put k es, fun p =>
    if written && p = path k then some (.entries (es.map HistoryEntry.reread)) else files p)

theorem loadFrom_eq (s : FileHistoryStore) (disk : Disk) (k : GoString) :
    s.loadFrom filePath (fun p => (disk p).map .entries) k =
      (some (s.loadEntries disk k).1, (s.loadEntries disk k).2) := by
  unfold loadFrom loadEntries
  cases s.cache k with
  | some cached => rfl
  | none =>
    dsimp only
    cases disk (filePath k) with
    | none => rfl
    | some es => rfl

theorem saveTo_eq (s : FileHistoryStore) (disk : Disk) (e : HistoryEntry) (now : Int) :
    s.saveTo filePath (fun p => (disk p).map .entries) e now true =
      ((s.save disk e now).1, fun p => ((s.save disk e now).2 p).map .entries) := by
  refine Prod.ext rfl ?_
  funext p
  dsimp only
  rw [save_disk]
  by_cases hp : p = filePath (key e.schema e.table)
  · simp [saveTo, HistoryEntry.stamped_schema, HistoryEntry.stamped_table, hp]
  · simp [saveTo, HistoryEntry.stamped_schema, HistoryEntry.stamped_table, hp]

end FileHistoryStore

end Schema
