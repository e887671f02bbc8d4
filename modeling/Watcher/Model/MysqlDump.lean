import Watcher.Model.CommitGate
import Watcher.Model.Escape
import Watcher.Model.LineScanner

/-!
# Snapshots from a mysqldump file (`internal/mysql/snapshot_dump.go`)

The dump is read line by line. A line with the `CHANGE MASTER TO` comment gives
the binlog position of the dump, an `INSERT INTO` line the rows, which
`parseValuesList` takes apart byte by byte.

The regular expressions have only one way to match, so they are written out as
functions.
-/

namespace Mysql

open Cdc Jsonutil

/-- The longest line that is read. -/
def maxDumpLine : Nat := 50 * 1024 * 1024

/-! ### Lines -/

/-- A match of `binlogPosRegex` at the start of `s`: the file and the digits of the position. -/
def binlogPosAt (s : GoString) : Option (GoString × GoString) := do
  let s ← (ascii "MASTER_LOG_FILE='").isPrefixOf? s
  let file := s.takeWhile (· != 0x27)
  guard (file ≠ [])
  let s ← (ascii "',").isPrefixOf? (s.dropWhile (· != 0x27))
  let s ← (ascii "MASTER_LOG_POS=").isPrefixOf? (s.dropWhile isRegexpSpace)
  let digits := s.takeWhile isRegexpDigit
  guard (digits ≠ [])
  return (file, digits)

/-- `binlogPosRegex.FindStringSubmatch`: the leftmost match. -/
def binlogPos : GoString → Option (GoString × GoString)
  | [] => none
  | b :: s => (binlogPosAt (b :: s)).or (binlogPos s)

/-- `insertRegex.FindStringSubmatch`: the table, and what follows the match. -/
def insertValues (line : GoString) : Option (GoString × GoString) := do
  let s ← (ascii "INSERT INTO `").isPrefixOf? line
  let table := s.takeWhile (· != 0x60)
  guard (table ≠ [])
  let s ← (ascii "` VALUES ").isPrefixOf? (s.dropWhile (· != 0x60))
  return (table, s)

/-! ### Values -/

/-- The variables of `parseValuesList`. -/
structure ValuesParser where
  tuples : List (List GoString)
  current : List GoString
  value : GoString
  inString : Bool
  escaped : Bool
  deriving DecidableEq, Repr

def ValuesParser.init : ValuesParser := ⟨[], [], [], false, false⟩

/-- One round of the loop. -/
def ValuesParser.step (p : ValuesParser) (c : UInt8) : ValuesParser :=
  if p.escaped then { p with value := p.value ++ [c], escaped := false }
  else if c = 0x5c && p.inString then { p with value := p.value ++ [c], escaped := true }
  else if c = 0x27 then { p with inString := !p.inString }
  else if p.inString then { p with value := p.value ++ [c] }
  else if c = 0x28 then { p with current := [], value := [] }
  else if c = 0x2c then { p with current := p.current ++ [p.value], value := [] }
  else if c = 0x29 then
    let current := p.current ++ [p.value]
    { p with current := current, tuples := p.tuples ++ [current], value := [] }
  -- every other byte outside a string is passed over
  else p

def parseValuesList (s : GoString) : List (List GoString) :=
  (s.foldl ValuesParser.step ValuesParser.init).tuples

/-- The members from column `i` on. -/
def tupleMembers : Nat → List GoString → GoString
  | _, [] => []
  | i, v :: vs =>
    (if 0 < i then ascii ", " else []) ++ ascii "\"col_" ++ itoa i ++ ascii "\":" ++
      (if v = ascii "NULL" then ascii "null" else [0x22] ++ escapeString v ++ [0x22]) ++
      tupleMembers (i + 1) vs

def tupleToJSON (values : List GoString) : GoString := [0x7b] ++ tupleMembers 0 values ++ [0x7d]

/-! ### The file -/

/-- What one line adds: the position it gives, or the events of its rows. -/
def parseDumpLine (schema line : GoString) : Option BinlogPosition × List Event :=
  match binlogPos line with
  | some (file, digits) => (some ⟨file, parseUint32 digits⟩, [])
  | none =>
    match insertValues line with
    | some (table, values) =>
      (none, (parseValuesList values).map fun tuple =>
        newEvent .insert schema table (tupleToJSON tuple) (ascii "INSERT") [])
    | none => (none, [])

/-- `ParseMysqlDumpFile` of a file with these contents: the position, the events handed over and
    whether it ended with an error. -/
def parseMysqlDumpFile (data schema : GoString) : BinlogPosition × List Event × Bool :=
  let (lines, failed) := scanLines maxDumpLine data
  let parsed := lines.map (parseDumpLine schema)
  -- the last position wins
  (((parsed.filterMap Prod.fst).getLast?).getD BinlogPosition.none, parsed.flatMap Prod.snd, failed)

end Mysql
