import Watcher.Model.MysqlListener

/-!
# Binlogs and what the listener makes of them

A binlog is a list of files, a file a list of transactions: rows events closed by
an XID, or one DDL statement, after a GTID event. Canal turns it into callbacks
(`Binlog.callbacks`); events inside a compressed payload report position 0.

`Binlog.effects` says what the callbacks do, without the handler's state: which
rows are emitted under which ids, and which boundaries are recorded.
`perform_callbacks` proves that the handler does exactly this, from any state
that has the right current file.

## Key results

- `EventHandler.calls_txn`: one transaction
- `perform_callbacks`: the rest of the binlog, from any transaction on
-/

namespace Mysql

open Cdc List

/-! ## Binlogs -/

/-- A rows event; `pos` is where it ends, unless it is inside a compressed payload. -/
structure RowsRecord where
  table : Table
  action : RowsAction
  rows : List (List Value)
  pos : Option Nat
  deriving DecidableEq, Repr

inductive TxnBody where
  /-- Rows events and an XID, which reports its position unless it is inside a compressed
      payload. -/
  | rows (events : List RowsRecord) (xidReported : Bool)
  | ddl (schema query : GoString)
  deriving DecidableEq, Repr

/-- A transaction: where its GTID event starts and ends, what it does and where it ends. -/
structure BinlogTxn where
  start : Nat
  gtidEnd : Nat
  body : TxnBody
  endPos : Nat
  deriving DecidableEq, Repr

/-- The positions that the rows events of a transaction report. -/
def BinlogTxn.reported (t : BinlogTxn) : List Nat :=
  match t.body with
  | .rows events _ => events.filterMap RowsRecord.pos
  | .ddl _ _ => []

/-- Positions increase strictly within a transaction. -/
structure BinlogTxn.WellFormed (t : BinlogTxn) : Prop where
  start_ge : minBinlogPosition ≤ t.start
  start_lt : t.start < t.gtidEnd
  gtidEnd_lt : t.gtidEnd < t.endPos
  reported_increasing : t.reported.Pairwise (· < ·)
  reported_within : ∀ p ∈ t.reported, t.gtidEnd < p ∧ p < t.endPos
  endPos_lt : t.endPos < 2 ^ 32

instance (t : BinlogTxn) : Decidable t.WellFormed :=
  decidable_of_iff (minBinlogPosition ≤ t.start ∧ t.start < t.gtidEnd ∧ t.gtidEnd < t.endPos ∧
      t.reported.Pairwise (· < ·) ∧ (∀ p ∈ t.reported, t.gtidEnd < p ∧ p < t.endPos) ∧
      t.endPos < 2 ^ 32)
    ⟨fun ⟨h₁, h₂, h₃, h₄, h₅, h₆⟩ => ⟨h₁, h₂, h₃, h₄, h₅, h₆⟩,
      fun ⟨h₁, h₂, h₃, h₄, h₅, h₆⟩ => ⟨h₁, h₂, h₃, h₄, h₅, h₆⟩⟩

structure BinlogFile where
  name : GoString
  /-- How often canal reports the switch to this file. -/
  rotations : Nat
  txns : List BinlogTxn
  deriving DecidableEq, Repr

/-- The first file is where streaming starts; to each other file canal reports the switch. -/
structure Binlog where
  first : BinlogFile
  others : List BinlogFile
  names_nodup : ((first :: others).map BinlogFile.name).Nodup
  names_ne : ∀ f ∈ first :: others, f.name ≠ []
  rotated : ∀ f ∈ others, 1 ≤ f.rotations
  txns_wf : ∀ f ∈ first :: others, ∀ t ∈ f.txns, t.WellFormed
  txns_ordered : ∀ f ∈ first :: others, f.txns.Pairwise fun t u => t.endPos ≤ u.start

/-- Where a callback comes from: the index of its file and where its transaction starts there, 0
    for the switch to the file. -/
abbrev Loc := Nat × Nat

def Binlog.files (b : Binlog) : List BinlogFile := b.first :: b.others

/-! ## Callbacks -/

/-- The event as canal passes it on. -/
def RowsRecord.event (r : RowsRecord) : RowsEvent :=
  ⟨r.table, r.action, r.rows, some (r.pos.getD 0)⟩

def bodyCallbacks (file : GoString) (t : BinlogTxn) : List Callback :=
  match t.body with
  | .rows events xidReported =>
    events.map (fun r => .row r.event) ++ [.xid ⟨file, if xidReported then t.endPos else 0⟩]
  | .ddl schema query => [.ddl ⟨file, t.endPos⟩ schema query]

def txnCallbacks (file : GoString) (t : BinlogTxn) : List Callback :=
  .gtid (some ⟨t.gtidEnd, t.gtidEnd - t.start⟩) :: bodyCallbacks file t

/-- The callbacks of the file with index `i`. -/
def fileCallbacks (i : Nat) (f : BinlogFile) : List (Loc × Callback) :=
  List.replicate f.rotations ((i, 0), .rotate f.name minBinlogPosition) ++
    f.txns.flatMap fun t => (txnCallbacks f.name t).map ((i, t.start), ·)

/-- The callbacks of the files from index `i` on. -/
def filesCallbacks : Nat → List BinlogFile → List (Loc × Callback)
  | _, [] => []
  | i, f :: fs => fileCallbacks i f ++ filesCallbacks (i + 1) fs

def Binlog.callbacks (b : Binlog) : List (Loc × Callback) := filesCallbacks 0 b.files

/-! ## What they do -/

/-- The events of a rows event, one per row, or per pair of an old and a new row. -/
def rowEffects (lsn : GoString) (id : Nat → GoString) (r : RowsRecord) : List Effect :=
  let make (typ : EventType) (raw data : GoString) : Event :=
    newEvent typ r.table.schema r.table.name data raw lsn
  match r.action with
  | .insert => EventHandler.singleRows (make .insert (ascii "INSERT")) r.table (some id) 0 r.rows
  | .update => EventHandler.pairedRows (make .update (ascii "UPDATE")) r.table (some id) 0 r.rows
  | .delete => EventHandler.singleRows (make .delete (ascii "DELETE")) r.table (some id) 0 r.rows

/-- How many of a transaction's rows take their id from the transaction. -/
def RowsRecord.unplaced (r : RowsRecord) : Nat :=
  match r.pos with
  | some _ => 0
  | none => rowCount r.event

/-- The rows of a transaction whose GTID event ends at `txn`, after `n` rows without position. -/
def rowsEffects (txn : BinlogPosition) : Nat → List RowsRecord → List Effect
  | _, [] => []
  | n, r :: rs =>
    (match r.pos with
      | some p =>
        rowEffects (BinlogPosition.mk txn.file p).string
          (positionID (BinlogPosition.mk txn.file p).string) r
      | none => rowEffects txn.string (fun row => transactionID txn.string (n + row)) r) ++
      rowsEffects txn (n + r.unplaced) rs

def bodyEffects (file : GoString) (t : BinlogTxn) : List Effect :=
  match t.body with
  | .rows events xidReported =>
    rowsEffects ⟨file, t.gtidEnd⟩ 0 events ++
      [.handle (newEvent .commit [] [] [] (ascii "COMMIT") []),
        .committed ⟨file, if xidReported then t.endPos else 0⟩]
  | .ddl schema query =>
    [.emit { newEvent .ddl schema [] query (ascii "DDL") [] with
        sourceID := ddlID ⟨file, t.endPos⟩ },
      .committed ⟨file, t.endPos⟩]

def txnEffects (file : GoString) (t : BinlogTxn) : List Effect :=
  .committed ⟨file, t.start⟩ :: bodyEffects file t

def txnsEffects (i : Nat) (file : GoString) (txns : List BinlogTxn) : List (Loc × Effect) :=
  txns.flatMap fun t => (txnEffects file t).map ((i, t.start), ·)

def fileEffects (i : Nat) (f : BinlogFile) : List (Loc × Effect) :=
  List.replicate f.rotations ((i, 0), .committed ⟨f.name, minBinlogPosition⟩) ++
    txnsEffects i f.name f.txns

def filesEffects : Nat → List BinlogFile → List (Loc × Effect)
  | _, [] => []
  | i, f :: fs => fileEffects i f ++ filesEffects (i + 1) fs

def Binlog.effects (b : Binlog) : List (Loc × Effect) := filesEffects 0 b.files

/-! ## The handler does it -/

namespace EventHandler

/-- What the callbacks do, up to the first error. -/
def perform {τ : Type _} (h : EventHandler) :
    List (τ × Callback) → List (τ × Effect) × Option RowError
  | [] => ([], none)
  | (loc, cb) :: rest =>
    match h.call cb with
    | .error err => ([], some err)
    | .ok (h, es) =>
      let (more, err) := h.perform rest
      (es.map (loc, ·) ++ more, err)

/-- The callbacks, one after another, do `es` and lead to `h'`. -/
inductive Calls : EventHandler → List Callback → EventHandler → List Effect → Prop where
  | nil (h : EventHandler) : Calls h [] h []
  | cons {h h₁ h' : EventHandler} {cb : Callback} {cbs : List Callback} {es es' : List Effect}
      (hcall : h.call cb = .ok (h₁, es)) (hrest : Calls h₁ cbs h' es') :
      Calls h (cb :: cbs) h' (es ++ es')

variable {h h' : EventHandler} {es : List Effect}

theorem Calls.append {h₁ : EventHandler} {cbs cbs' : List Callback} {es' : List Effect}
    (hfst : Calls h cbs h₁ es) (hsnd : Calls h₁ cbs' h' es') :
    Calls h (cbs ++ cbs') h' (es ++ es') := by
  induction hfst with
  | nil h => exact hsnd
  | cons hcall _ ih =>
    rw [cons_append, append_assoc]
    exact Calls.cons hcall (ih hsnd)

/-- A single callback. -/
theorem Calls.single {cb : Callback} (hcall : h.call cb = .ok (h', es)) : Calls h [cb] h' es := by
  have := Calls.cons hcall (Calls.nil h')
  rwa [append_nil] at this

theorem perform_calls {τ : Type _} {cbs : List Callback} (hcalls : Calls h cbs h' es) (loc : τ)
    (rest : List (τ × Callback)) :
    h.perform (cbs.map (loc, ·) ++ rest) =
      (es.map (loc, ·) ++ (h'.perform rest).1, (h'.perform rest).2) := by
  induction hcalls with
  | nil h => rfl
  | cons hcall _ ih => simp only [map_cons, cons_append, perform, hcall, ih,
      map_append, append_assoc]

/-- A rows event with a position of its own. -/
private theorem call_placed (hfile : h.currentFile ≠ []) {r : RowsRecord} {p : Nat}
    (hpos : r.pos = some p) (hp : p ≠ 0) :
    h.call (.row r.event) = .ok (h,
      rowEffects (BinlogPosition.mk h.currentFile p).string
        (positionID (BinlogPosition.mk h.currentFile p).string) r) := by
  have hids : h.rowIDs r.event = .ok (h,
      some (positionID (BinlogPosition.mk h.currentFile p).string),
      (BinlogPosition.mk h.currentFile p).string) := by
    simp only [rowIDs, RowsRecord.event, hpos, Option.getD_some, if_neg hfile, ne_eq, hp,
      not_false_eq_true, ↓reduceIte]
  have haction : r.event.action = r.action := rfl
  simp only [call, onRow, hids, haction, rowEffects]
  cases r.action <;> rfl

/-- A rows event inside a compressed payload. -/
private theorem call_unplaced (hfile : h.currentFile ≠ []) (htxn : h.txn.file ≠ [])
    {r : RowsRecord} (hpos : r.pos = none) :
    h.call (.row r.event) = .ok ({ h with txnRows := h.txnRows + rowCount r.event },
      rowEffects h.txn.string (fun row => transactionID h.txn.string (h.txnRows + row)) r) := by
  have hids : h.rowIDs r.event = .ok ({ h with txnRows := h.txnRows + rowCount r.event },
      some (fun row => transactionID h.txn.string (h.txnRows + row)), h.txn.string) := by
    -- a position of 0 sends `rowIDs` to the transaction's own position and row count
    simp only [rowIDs, RowsRecord.event, hpos, Option.getD_none, if_neg hfile, ne_eq,
      not_true_eq_false, ↓reduceIte, if_neg htxn]
  have haction : r.event.action = r.action := rfl
  simp only [call, onRow, hids, haction, rowEffects]
  cases r.action <;> rfl

/-- The rows events of a transaction. -/
private theorem calls_rows {file : GoString} (hfile : file ≠ []) (gtidEnd : Nat)
    (rs : List RowsRecord) (n : Nat) (hpos : ∀ p ∈ rs.filterMap RowsRecord.pos, p ≠ 0) :
    Calls ⟨file, ⟨file, gtidEnd⟩, n⟩ (rs.map fun r => .row r.event)
      ⟨file, ⟨file, gtidEnd⟩, n + (rs.map RowsRecord.unplaced).sum⟩
      (rowsEffects ⟨file, gtidEnd⟩ n rs) := by
  induction rs generalizing n with
  | nil => exact Calls.nil _
  | cons r rs ih =>
    -- only rows without a position move the count on
    have hrest : ∀ p ∈ rs.filterMap RowsRecord.pos, p ≠ 0 := fun p hp =>
      hpos p (by rw [filterMap_cons]; split <;> simp [hp])
    rw [map_cons, map_cons, sum_cons, rowsEffects, ← Nat.add_assoc]
    refine Calls.cons ?_ (ih (n + r.unplaced) hrest)
    cases hr : r.pos with
    | some p =>
      have hp : p ≠ 0 := hpos p (mem_filterMap.mpr ⟨r, mem_cons_self, hr⟩)
      rw [call_placed (h := ⟨file, ⟨file, gtidEnd⟩, n⟩) hfile hr hp]
      simp [RowsRecord.unplaced, hr]
    | none =>
      rw [call_unplaced (h := ⟨file, ⟨file, gtidEnd⟩, n⟩) hfile hfile hr]
      simp [RowsRecord.unplaced, hr]

/-- A transaction, whatever was open before it. -/
theorem calls_txn (hfile : h.currentFile ≠ []) {t : BinlogTxn} (ht : t.WellFormed) :
    ∃ h' : EventHandler, h'.currentFile = h.currentFile ∧
      Calls h (txnCallbacks h.currentFile t) h' (txnEffects h.currentFile t) := by
  have hlt := ht.start_lt
  -- the GTID event opens the transaction and records where it starts
  have hgtid : h.call (.gtid (some ⟨t.gtidEnd, t.gtidEnd - t.start⟩)) =
      .ok (⟨h.currentFile, ⟨h.currentFile, t.gtidEnd⟩, 0⟩,
        [.committed ⟨h.currentFile, t.start⟩]) := by
    have hne : ¬(h.currentFile = [] ∨ t.gtidEnd = 0) := by
      rintro (h' | h')
      · exact hfile h'
      · omega
    have hstart : t.gtidEnd - (t.gtidEnd - t.start) = t.start := by omega
    simp only [call, onGTID, Bool.or_eq_true, decide_eq_true_eq, if_neg hne,
      if_pos (Nat.sub_le t.gtidEnd t.start), hstart]
  -- so what was open before has no effect on the body
  obtain ⟨h', hcurrent, hbody⟩ : ∃ h' : EventHandler, h'.currentFile = h.currentFile ∧
      Calls ⟨h.currentFile, ⟨h.currentFile, t.gtidEnd⟩, 0⟩ (bodyCallbacks h.currentFile t) h'
        (bodyEffects h.currentFile t) := by
    have hpos : ∀ p ∈ t.reported, p ≠ 0 := fun p hp => by
      have := (ht.reported_within p hp).1
      omega
    cases hb : t.body with
    | rows events xidReported =>
      rw [BinlogTxn.reported, hb] at hpos
      simp only [bodyCallbacks, bodyEffects, hb]
      exact ⟨⟨h.currentFile, ⟨h.currentFile, t.gtidEnd⟩, _⟩, rfl,
        (calls_rows hfile t.gtidEnd events 0 hpos).append (Calls.single rfl)⟩
    | ddl schema query =>
      simp only [bodyCallbacks, bodyEffects, hb]
      refine ⟨⟨h.currentFile, ⟨h.currentFile, t.gtidEnd⟩, 0⟩, rfl, Calls.single ?_⟩
      simp only [call, onDDL, ne_eq, hfile, not_false_eq_true, ↓reduceIte]
  exact ⟨h', hcurrent, Calls.cons hgtid hbody⟩

/-- The transactions of a file. -/
theorem perform_txns (hfile : h.currentFile ≠ []) (i : Nat) (txns : List BinlogTxn)
    (htxns : ∀ t ∈ txns, t.WellFormed) (rest : List (Loc × Callback)) :
    ∃ h' : EventHandler, h'.currentFile = h.currentFile ∧
      h.perform (txns.flatMap (fun t => (txnCallbacks h.currentFile t).map ((i, t.start), ·)) ++
          rest) =
        (txnsEffects i h.currentFile txns ++ (h'.perform rest).1, (h'.perform rest).2) := by
  induction txns generalizing h with
  | nil => exact ⟨h, rfl, rfl⟩
  | cons t txns ih =>
    obtain ⟨h₁, hcurrent, hcalls⟩ := calls_txn hfile (htxns t mem_cons_self)
    obtain ⟨h', hcurrent', hrest⟩ := ih (h := h₁) (hcurrent ▸ hfile)
      fun u hu => htxns u (mem_cons_of_mem t hu)
    rw [hcurrent] at hcurrent' hrest
    refine ⟨h', hcurrent', ?_⟩
    rw [flatMap_cons, append_assoc, perform_calls hcalls, hrest]
    simp only [txnsEffects, flatMap_cons, append_assoc]

/-- Switching to a file, once or more often. -/
private theorem perform_rotations (h : EventHandler) (loc : Loc) (file : GoString) (n : Nat)
    (rest : List (Loc × Callback)) :
    ∃ h' : EventHandler, (h'.currentFile = if 1 ≤ n then file else h.currentFile) ∧
      h.perform (List.replicate n (loc, .rotate file minBinlogPosition) ++ rest) =
        (List.replicate n (loc, .committed ⟨file, minBinlogPosition⟩) ++ (h'.perform rest).1,
          (h'.perform rest).2) := by
  induction n generalizing h with
  | zero => exact ⟨h, rfl, rfl⟩
  | succ n ih =>
    obtain ⟨h', hcurrent, hrest⟩ := ih { h with currentFile := file }
    refine ⟨h', ?_, ?_⟩
    · rw [hcurrent]
      split <;> rfl
    · simp only [replicate_succ, cons_append, perform, call, onRotate, hrest]
      rfl

theorem perform_file (h : EventHandler) (i : Nat) (f : BinlogFile) (hname : f.name ≠ [])
    (hcurrent : h.currentFile = f.name ∨ 1 ≤ f.rotations) (htxns : ∀ t ∈ f.txns, t.WellFormed)
    (rest : List (Loc × Callback)) :
    ∃ h' : EventHandler, h.perform (fileCallbacks i f ++ rest) =
      (fileEffects i f ++ (h'.perform rest).1, (h'.perform rest).2) := by
  obtain ⟨h₁, hcurrent₁, hrot⟩ := perform_rotations h (i, 0) f.name f.rotations
    (f.txns.flatMap (fun t => (txnCallbacks f.name t).map ((i, t.start), ·)) ++ rest)
  -- reached by a switch, or the file the handler was started with
  have hfile : h₁.currentFile = f.name := by
    rw [hcurrent₁]
    split
    · rfl
    · next hzero => exact hcurrent.resolve_right hzero
  obtain ⟨h', -, htxn⟩ := perform_txns (h := h₁) (hfile ▸ hname) i f.txns htxns rest
  rw [hfile] at htxn
  refine ⟨h', ?_⟩
  rw [fileCallbacks, append_assoc, hrot, htxn]
  simp only [fileEffects, append_assoc]

theorem perform_files (h : EventHandler) (i : Nat) (fs : List BinlogFile)
    (hfs : ∀ f ∈ fs, f.name ≠ [] ∧ 1 ≤ f.rotations ∧ ∀ t ∈ f.txns, t.WellFormed) :
    h.perform (filesCallbacks i fs) = (filesEffects i fs, none) := by
  induction fs generalizing h i with
  | nil => rfl
  | cons f fs ih =>
    obtain ⟨hname, hrot, htxns⟩ := hfs f mem_cons_self
    obtain ⟨h', hfile⟩ := perform_file h i f hname (Or.inr hrot) htxns (filesCallbacks (i + 1) fs)
    rw [filesCallbacks, hfile, ih h' (i + 1) fun g hg => hfs g (mem_cons_of_mem f hg)]
    rfl

end EventHandler

/-- A handler that starts at the first file does what the binlog says, without an error. -/
theorem perform_callbacks (b : Binlog) :
    (EventHandler.new b.first.name).perform b.callbacks = (b.effects, none) := by
  obtain ⟨h', hfile⟩ := EventHandler.perform_file (EventHandler.new b.first.name) 0 b.first
    (b.names_ne _ mem_cons_self) (Or.inl rfl) (b.txns_wf _ mem_cons_self)
    (filesCallbacks 1 b.others)
  rw [Binlog.callbacks, Binlog.files, filesCallbacks, hfile, EventHandler.perform_files h' 1]
  · rfl
  · intro f hf
    exact ⟨b.names_ne f (mem_cons_of_mem _ hf), b.rotated f hf,
      b.txns_wf f (mem_cons_of_mem _ hf)⟩

end Mysql
