import Watcher.Json.Write
import Watcher.Model.Cdc
import Watcher.Model.Escape
import Watcher.Model.LineScanner

/-!
# Snapshots from a pg_dump file (`internal/postgres/snapshot_dump.go`)

The dump is read line by line. A line that starts with a `COPY` header opens a
section: the lines after it are rows with tabs between their values, up to a
line `\.`.
-/

namespace Postgres

open Cdc Jsonutil

/-- The longest line that is read. -/
def maxCopyLine : Nat := 10 * 1024 * 1024

/-! ### Headers -/

/-- The classes of `identifierRegex`: the first character, and the others. -/
def isIdentifierStart (c : UInt8) : Bool :=
  0x61 ≤ c && c ≤ 0x7a || 0x41 ≤ c && c ≤ 0x5a || c == 0x5f

def isIdentifierPart (c : UInt8) : Bool := isIdentifierStart c || 0x30 ≤ c && c ≤ 0x39

/-- `validateIdentifier` reports no error. -/
def validIdentifier : GoString → Bool
  | [] => false
  | b :: s => isIdentifierStart b && s.all isIdentifierPart

/-- What follows a match of `\s+`. -/
def afterSpaces (s : GoString) : Option GoString :=
  if s.takeWhile isRegexpSpace = [] then none else some (s.dropWhile isRegexpSpace)

/-- The match of `(\S+)\.(\S+)` with a whole word: at the last dot that has something on both
    sides. -/
def splitName : GoString → Option (GoString × GoString)
  | [] => none
  | b :: s =>
    match splitName s with
    | some (schema, table) => some (b :: schema, table)
    | none => if s.head? = some 0x2e && s.tail ≠ [] then some ([b], s.tail) else none

/-- The match of `\(([^)]+)\)\s+FROM\s+stdin;` at the start of `s`: the columns. -/
def copyColumns (s : GoString) : Option GoString := do
  let s ← (ascii "(").isPrefixOf? s
  let columns := s.takeWhile (· != 0x29)
  guard (columns ≠ [])
  let s ← (ascii ")").isPrefixOf? (s.dropWhile (· != 0x29))
  let s ← afterSpaces s
  let s ← (ascii "FROM").isPrefixOf? s
  let s ← afterSpaces s
  let _ ← (ascii "stdin;").isPrefixOf? s
  return columns

/-- `copyHeaderRegex.FindStringSubmatch`: the schema, the table and the columns. -/
def copyHeader (line : GoString) : Option (GoString × GoString × GoString) := do
  let s ← (ascii "COPY").isPrefixOf? line
  let s ← afterSpaces s
  let (schema, table) ← splitName (s.takeWhile fun b => !isRegexpSpace b)
  let s ← afterSpaces (s.dropWhile fun b => !isRegexpSpace b)
  let columns ← copyColumns s
  return (schema, table, columns)

def splitColumns (s : GoString) : List GoString := (s.splitOn 0x2c).map trimSpace

/-! ### Rows -/

/-- What is written for a value; a row may have fewer values than columns. -/
def copyCell : Option GoString → GoString
  | none => ascii "null"
  | some val =>
    if val = ascii "\\N" then ascii "null" else [0x22] ++ escapeString val ++ [0x22]

/-- The members from column `i` on. -/
def copyMembers (values : List GoString) : Nat → List GoString → GoString
  | _, [] => []
  | i, col :: columns =>
    (if 0 < i then ascii ", " else []) ++ [0x22] ++ col ++ ascii "\":" ++ copyCell values[i]? ++
      copyMembers values (i + 1) columns

def parseCopyLine (line schema table : GoString) (columns : List GoString) (lsn : GoString) :
    Event :=
  let values := line.splitOn 0x09
  newEvent .insert schema table ([0x7b] ++ copyMembers values 0 columns ++ [0x7d])
    (ascii "INSERT") lsn

/-- The data of a row is an object with one member for each column. -/
theorem copyMembers_eq (values columns : List GoString) :
    [0x7b] ++ copyMembers values 0 columns ++ [0x7d] =
      Json.object (columns.zipIdx.map fun a => (a.1, copyCell values[a.2]?)) := by
  have hsep : ascii ", " = [0x2c, 0x20] := by decide
  have hclose : ascii "\":" = [0x22, 0x3a] := by decide
  apply Json.object_of_loop (m := fun col i => (col, copyCell values[i]?)) fun _ => rfl
  intro i col columns
  rw [copyMembers, hsep, hclose]
  simp only [Json.member, List.append_assoc, List.cons_append, List.nil_append]

/-! ### The file -/

inductive DumpError where
  | invalidSchema (name : GoString)
  | invalidTable (name : GoString)
  | tooLong
  deriving DecidableEq, Repr

/-- The section that is open. -/
structure CopySection where
  schema : GoString
  table : GoString
  columns : List GoString
  deriving DecidableEq, Repr

/-- What a line outside a section does: nothing, open a section, or fail. -/
def openSection (line : GoString) : Except DumpError (Option CopySection) :=
  match copyHeader line with
  | none => .ok none
  | some (schema, table, columns) =>
    if !validIdentifier schema then .error (.invalidSchema schema)
    else if !validIdentifier table then .error (.invalidTable table)
    else .ok (some ⟨schema, table, splitColumns columns⟩)

/-- The loop of `ParseDumpFile`: the events handed over, and the error it ended with. -/
def parseCopyLines (lsn : GoString) :
    (inCopy : Option CopySection) → List GoString → List Event × Option DumpError
  | _, [] => ([], none)
  | some copy, line :: lines =>
    if line = ascii "\\." then parseCopyLines lsn none lines
    else
      let event := parseCopyLine line copy.schema copy.table copy.columns lsn
      let (events, err) := parseCopyLines lsn (some copy) lines
      (event :: events, err)
  | none, line :: lines =>
    match openSection line with
    | .error err => ([], some err)
    | .ok inCopy => parseCopyLines lsn inCopy lines

/-- `ParseDumpFile` of a file with these contents. -/
def parseDumpFile (data startLSN : GoString) : List Event × Option DumpError :=
  let (lines, tooLong) := scanLines maxCopyLine data
  let (events, err) := parseCopyLines startLSN none lines
  (events, err.or (if tooLong then some .tooLong else none))

end Postgres
