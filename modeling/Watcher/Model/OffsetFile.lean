import Watcher.Lib.Run
import Watcher.Model.MysqlDump
import Watcher.Model.MysqlListener

/-!
# The offset file over process lifetimes (`internal/mysql`)

Three places write the offset file: the snapshot, the first start and the
offset saver. A lifetime goes through the phases of `Start`, streams boundaries
in binlog order from its start position on, and ends by `Stop` or by a crash
between any two steps. `Save` writes a temporary file and renames it, so it is
one step.
-/

namespace Mysql

open Cdc

/-- What `FileOffsetStore.Load` returns: the position in the file, if there is a file. -/
abbrev OffsetFile := Option BinlogPosition

/-- `FileOffsetStore.Save`: what `Load` returns afterwards. -/
def OffsetFile.save (pos : BinlogPosition) : OffsetFile :=
  some { pos with file := Utf8.reread pos.file }

/-- What `runSnapshot` reads of the configuration. -/
inductive SnapshotMode where
  /-- `backup_file`, and what is in the file, if one is named and can be read. -/
  | backupFile (dump : Option GoString)
  | other
  deriving DecidableEq, Repr

structure OffsetConfig where
  schema : GoString
  snapshotMode : SnapshotMode
  deriving DecidableEq, Repr

/-- The position `runSnapshot` saves, if it gets so far, or its failure. -/
def OffsetConfig.snapshotPosition (cfg : OffsetConfig) : Except Unit (Option BinlogPosition) :=
  match cfg.snapshotMode with
  | .other => .ok none
  | .backupFile none => .error ()
  | .backupFile (some dump) =>
    let (pos, _, failed) := parseMysqlDumpFile dump cfg.schema
    if failed then .error ()
    else .ok (if pos.file ≠ [] then some pos else none)

/-- `runSnapshot`: the file afterwards, and whether it succeeded. `saved` tells whether the store
    could write. -/
def OffsetConfig.runSnapshot (cfg : OffsetConfig) (saved : Bool) (file : OffsetFile) :
    OffsetFile × Bool :=
  match cfg.snapshotPosition with
  | .error _ => (file, false)
  | .ok none => (file, true)
  | .ok (some pos) => if saved then (OffsetFile.save pos, true) else (file, false)

/-- `resolveStartPosition`: the file afterwards, and the start position with the offset that
    counts as saved. `master` is the position of the server, if it answers. -/
def resolveStartPosition (master : Option BinlogPosition) (saved : Bool) (file : OffsetFile) :
    OffsetFile × Option (BinlogPosition × BinlogPosition) :=
  match file, master with
  | some pos, _ => (file, some (pos, BinlogPosition.none))
  | none, none => (file, none)
  | none, some pos =>
    if saved then (OffsetFile.save pos, some (pos, pos))
    -- only a warning
    else (file, some (pos, BinlogPosition.none))

/-! ### Lifetimes -/

/-- The order of the server's binlog files, by their names. -/
structure BinlogOrder where
  rank : GoString → Nat
  /-- Names are text: what is not UTF-8 in them makes no difference. -/
  text : ∀ name, rank (Utf8.reread name) = rank name

/-- Binlog order: file, then position. -/
def BinlogOrder.le (order : BinlogOrder) (p q : BinlogPosition) : Prop :=
  order.rank p.file < order.rank q.file ∨
    order.rank p.file = order.rank q.file ∧ p.position ≤ q.position

instance (order : BinlogOrder) (p q : BinlogPosition) : Decidable (order.le p q) :=
  inferInstanceAs (Decidable (_ ∨ _))

/-- How far a lifetime has got. -/
inductive Phase where
  /-- No process runs. -/
  | down
  /-- Before `runSnapshot`. -/
  | starting (gate : CommitGate)
  /-- Before `resolveStartPosition`. -/
  | snapshotted (gate : CommitGate)
  /-- Streaming; `last` is the newest boundary, at first the start position. -/
  | running (saver : OffsetSaver) (last : BinlogPosition)
  deriving DecidableEq, Repr

structure OffsetState where
  file : OffsetFile
  phase : Phase
  deriving DecidableEq, Repr

inductive OffsetAction where
  /-- A process starts, with a publisher wired or not. -/
  | start (gated : Bool)
  | snapshot (saved : Bool)
  | resolve (master : Option BinlogPosition) (saved : Bool)
  | committed (pos : BinlogPosition)
  | hand
  | ack (event : Event)
  | save (saved : Bool)
  | stop (saved : Bool)
  | crash
  deriving DecidableEq, Repr

/-- The file and the saver after a call to `saveConfirmedOffset`. -/
def OffsetSaver.saveTo (saver : OffsetSaver) (saved : Bool) (file : OffsetFile) :
    OffsetFile × OffsetSaver :=
  match saver.saveConfirmedOffset saved with
  | (some pos, saver) => (if saved then OffsetFile.save pos else file, saver)
  | (none, saver) => (file, saver)

def OffsetState.step (order : BinlogOrder) (cfg : OffsetConfig) (s : OffsetState) :
    OffsetAction → Option OffsetState
  | .start gated =>
    match s.phase with
    | .down =>
      some { s with phase := .starting (if gated then newCommitGate.enable else newCommitGate) }
    | _ => none
  | .snapshot saved =>
    match s.phase with
    | .starting gate =>
      let (file, ok) := cfg.runSnapshot saved s.file
      -- a snapshot that fails ends the start
      some ⟨file, if ok then .snapshotted gate else .down⟩
    | _ => none
  | .resolve master saved =>
    match s.phase with
    | .snapshotted gate =>
      match resolveStartPosition master saved s.file with
      | (file, some (start, savedOffset)) => some ⟨file, .running ⟨gate, savedOffset⟩ start⟩
      | (file, none) => some ⟨file, .down⟩
    | _ => none
  | .committed pos =>
    match s.phase with
    | .running saver last =>
      -- canal reports boundaries in the order of the binlog
      if order.le last pos then
        some { s with phase := .running { saver with gate := saver.gate.committed pos } pos }
      else none
    | _ => none
  | .hand =>
    match s.phase with
    | .running saver last =>
      some { s with phase := .running { saver with gate := saver.gate.hand } last }
    | _ => none
  | .ack event =>
    match s.phase with
    | .running saver last =>
      some { s with
        phase := .running { saver with gate := saver.gate.observePublished event } last }
    | _ => none
  | .save saved =>
    match s.phase with
    | .running saver last =>
      let (file, saver) := saver.saveTo saved s.file
      some ⟨file, .running saver last⟩
    | _ => none
  | .stop saved =>
    match s.phase with
    -- `Stop` saves once more
    | .running saver _ => some ⟨(saver.saveTo saved s.file).1, .down⟩
    | _ => none
  | .crash => some { s with phase := .down }

end Mysql
