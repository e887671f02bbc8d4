import Watcher.Spec.MessageId
import Watcher.Spec.MysqlDelivery

/-!
# MySQL source ids are unique and survive a replay

Every row and every statement has a name (`Binlog.names`): the rows event or the
statement it comes from, or its transaction when the event has no position of its
own, and its index there. Positions only grow within a file and files have
distinct names, so no two names are the same.

A handler that starts at a boundary knows less than the one that read the whole
binlog, but both know the file, and every transaction opens anew.

## Key results

- `emittedIDs_effects`: the ids are those of the names
- `Binlog.nodup_names`: the names are distinct
- `perform_after`: what a handler does that starts at a boundary
- `sourceID_unique_replayed`: both together
-/

namespace Mysql

open Cdc List

/-! ## Names -/

/-- The names of the rows of an event, by index. -/
def RowsRecord.names (name : Nat → SourceName) (r : RowsRecord) : List SourceName :=
  (List.range (rowCount r.event)).map name

/-- The names of the rows of a transaction, after `n` rows without position. -/
def rowsNames (txn : BinlogPosition) : Nat → List RowsRecord → List SourceName
  | _, [] => []
  | n, r :: rs =>
    (match r.pos with
      | some p => r.names (.mysqlRow ⟨txn.file, p⟩)
      | none => r.names fun row => .mysqlTxn txn (n + row)) ++
      rowsNames txn (n + r.unplaced) rs

/-- The names of the rows of a transaction, or the name of its statement. -/
def BinlogTxn.names (file : GoString) (t : BinlogTxn) : List SourceName :=
  match t.body with
  | .rows events _ => rowsNames ⟨file, t.gtidEnd⟩ 0 events
  | .ddl _ _ => [.mysqlDDL ⟨file, t.endPos⟩]

def BinlogFile.names (f : BinlogFile) : List SourceName := f.txns.flatMap (BinlogTxn.names f.name)

def Binlog.names (b : Binlog) : List SourceName := b.files.flatMap BinlogFile.names

/-- How many rows and statements a transaction has. -/
def BinlogTxn.changes (t : BinlogTxn) : Nat :=
  match t.body with
  | .rows events _ => (events.map fun r => rowCount r.event).sum
  | .ddl _ _ => 1

def BinlogFile.changes (f : BinlogFile) : Nat := (f.txns.map BinlogTxn.changes).sum

def Binlog.changes (b : Binlog) : Nat := (b.files.map BinlogFile.changes).sum

/-! ## Ids -/

/-- The id that an effect gives to a row or a statement. -/
def Effect.assigned : Effect → Option GoString
  | .emit e => some e.sourceID
  | .handle _ | .committed _ => none

/-- The ids of the events emitted, in order. -/
def emittedIDs (es : List (Loc × Effect)) : List GoString := es.filterMap fun x => x.2.assigned

theorem emittedIDs_append (es es' : List (Loc × Effect)) :
    emittedIDs (es ++ es') = emittedIDs es ++ emittedIDs es' := filterMap_append

private theorem assigned_singleRows (make : GoString → Event) (table : Table)
    (id : Nat → GoString) (i : Nat) (rows : List (List Value)) :
    (EventHandler.singleRows make table (some id) i rows).filterMap Effect.assigned =
      (List.range' i rows.length).map id := by
  induction rows generalizing i with
  | nil => rfl
  | cons row rows ih =>
    rw [EventHandler.singleRows, length_cons, range'_succ, map_cons, ← ih (i + 1)]
    rfl

/-- Updates: one id for each pair. -/
private theorem assigned_pairedRows (make : GoString → Event) (table : Table)
    (id : Nat → GoString) (i : Nat) (rows : List (List Value)) :
    (EventHandler.pairedRows make table (some id) i rows).filterMap Effect.assigned =
      (List.range' i (rows.length / 2)).map id := by
  fun_induction EventHandler.pairedRows make table (some id) i rows with
  | case1 i old new rows data ih =>
    have hlen : (old :: new :: rows).length / 2 = rows.length / 2 + 1 := by
      simp only [length_cons]
      omega
    rw [hlen, range'_succ, map_cons, ← ih]
    rfl
  | case2 rows i hrows =>
    -- a last row without its partner is left out
    have hlen : rows.length / 2 = 0 := by
      rcases rows with _ | ⟨old, _ | ⟨new, rows⟩⟩
      · rfl
      · exact Nat.div_eq_of_lt (Nat.lt_succ_self 1)
      · exact absurd rfl (hrows old new rows)
    rw [hlen]
    rfl

private theorem assigned_rowEffects (lsn : GoString) (id : Nat → GoString) (r : RowsRecord) :
    (rowEffects lsn id r).filterMap Effect.assigned = (List.range (rowCount r.event)).map id := by
  rw [range_eq_range']
  cases haction : r.action with
  | insert =>
    simp only [rowEffects, haction, assigned_singleRows, rowCount, RowsRecord.event]
  | update =>
    simp only [rowEffects, haction, assigned_pairedRows, rowCount, RowsRecord.event]
  | delete =>
    simp only [rowEffects, haction, assigned_singleRows, rowCount, RowsRecord.event]

private theorem assigned_rowsEffects (txn : BinlogPosition) (n : Nat) (rs : List RowsRecord) :
    (rowsEffects txn n rs).filterMap Effect.assigned =
      (rowsNames txn n rs).map SourceName.sourceID := by
  induction rs generalizing n with
  | nil => rfl
  | cons r rs ih =>
    rw [rowsEffects, rowsNames, filterMap_append, map_append, ih]
    -- effects and names take the same branch: a position of its own or the transaction's
    congr 1
    cases r.pos with
    | some p =>
      simp only [assigned_rowEffects, RowsRecord.names, map_map]
      rfl
    | none =>
      simp only [assigned_rowEffects, RowsRecord.names, map_map]
      rfl

/-- And so for a transaction or a statement. -/
private theorem assigned_txnEffects (file : GoString) (t : BinlogTxn) :
    (txnEffects file t).filterMap Effect.assigned =
      (t.names file).map SourceName.sourceID := by
  cases hb : t.body with
  | rows events xidReported =>
    simp only [txnEffects, bodyEffects, BinlogTxn.names, hb]
    -- the commit event goes to the bus without an id
    rw [filterMap_cons_none rfl, filterMap_append, assigned_rowsEffects]
    exact append_nil _
  | ddl schema query =>
    simp only [txnEffects, bodyEffects, BinlogTxn.names, hb]
    rfl

private theorem emittedIDs_file (i : Nat) (f : BinlogFile) :
    emittedIDs (fileEffects i f) = f.names.map SourceName.sourceID := by
  have hrot : emittedIDs (List.replicate f.rotations
      ((i, 0), .committed ⟨f.name, minBinlogPosition⟩)) = [] := by
    rw [emittedIDs, filterMap_replicate_of_none rfl]
  rw [fileEffects, emittedIDs_append, hrot, nil_append, txnsEffects, emittedIDs,
    filterMap_flatMap, BinlogFile.names, map_flatMap]
  refine congrArg (List.flatMap · f.txns) (funext fun t => ?_)
  rw [filterMap_map]
  exact assigned_txnEffects f.name t

/-- Every row and statement gets the id of its name. -/
theorem emittedIDs_effects (b : Binlog) :
    emittedIDs b.effects = b.names.map SourceName.sourceID := by
  have hfiles : ∀ i fs, emittedIDs (filesEffects i fs) =
      (fs.flatMap BinlogFile.names).map SourceName.sourceID := by
    intro i fs
    induction fs generalizing i with
    | nil => rfl
    | cons f fs ih =>
      rw [filesEffects, emittedIDs_append, emittedIDs_file, ih, flatMap_cons, map_append]
  exact hfiles 0 b.files

/-- Every row and statement has a name. -/
theorem length_names (b : Binlog) : b.names.length = b.changes := by
  have hrows : ∀ txn n rs, (rowsNames txn n rs).length =
      (rs.map fun r => rowCount r.event).sum := by
    intro txn n rs
    induction rs generalizing n with
    | nil => rfl
    | cons r rs ih =>
      rw [rowsNames, length_append, ih, map_cons, sum_cons]
      cases r.pos <;> simp [RowsRecord.names]
  have htxn : ∀ file t, (BinlogTxn.names file t).length = t.changes := by
    intro file t
    cases hb : t.body with
    | rows events xidReported => simp only [BinlogTxn.names, BinlogTxn.changes, hb, hrows]
    | ddl schema query => simp only [BinlogTxn.names, BinlogTxn.changes, hb, length_singleton]
  simp only [Binlog.names, Binlog.changes, length_flatMap, BinlogFile.names, htxn]
  rfl

/-! ## Names are distinct -/

/-- Where what is named ends. -/
def position : SourceName → BinlogPosition
  | .pg _ _ => BinlogPosition.none
  | .mysqlRow pos _ | .mysqlTxn pos _ | .mysqlDDL pos => pos

private theorem mem_rowsNames {txn : BinlogPosition} {n : Nat} {rs : List RowsRecord}
    {name : SourceName} (h : name ∈ rowsNames txn n rs) :
    (∃ p ∈ rs.filterMap RowsRecord.pos, ∃ row, name = .mysqlRow ⟨txn.file, p⟩ row) ∨
      ∃ index, n ≤ index ∧ name = .mysqlTxn txn index := by
  induction rs generalizing n with
  | nil => exact nomatch h
  | cons r rs ih =>
    rw [rowsNames, mem_append] at h
    rcases h with h | h
    · cases hr : r.pos with
      | some p =>
        rw [hr] at h
        obtain ⟨row, -, rfl⟩ := mem_map.mp h
        exact Or.inl ⟨p, by simp [hr], row, rfl⟩
      | none =>
        rw [hr] at h
        obtain ⟨row, -, rfl⟩ := mem_map.mp h
        exact Or.inr ⟨n + row, Nat.le_add_right n row, rfl⟩
    · rcases ih h with ⟨p, hp, hname⟩ | ⟨index, hle, hname⟩
      · exact Or.inl ⟨p, by rw [filterMap_cons]; split <;> simp [hp], hname⟩
      · exact Or.inr ⟨index, by omega, hname⟩

/-- The rows of a transaction have different names. -/
private theorem nodup_rowsNames (txn : BinlogPosition) (n : Nat) (rs : List RowsRecord)
    (hrs : (rs.filterMap RowsRecord.pos).Pairwise (· < ·)) : (rowsNames txn n rs).Nodup := by
  induction rs generalizing n with
  | nil => exact nodup_nil
  | cons r rs ih =>
    rw [rowsNames, nodup_append]
    -- by what the first event's rows are named after
    cases hr : r.pos with
    | some p =>
      rw [filterMap_cons_some hr, pairwise_cons] at hrs
      refine ⟨nodup_range.map fun row row' h => by cases h; rfl, ih _ hrs.2, ?_⟩
      -- later events end later
      rintro name hname name' hname' rfl
      obtain ⟨row, -, rfl⟩ := mem_map.mp hname
      rcases mem_rowsNames hname' with ⟨p', hp', row', heq⟩ | ⟨index, -, heq⟩
      · cases heq
        exact Nat.lt_irrefl p (hrs.1 p hp')
      · cases heq
    | none =>
      rw [filterMap_cons_none hr] at hrs
      refine ⟨nodup_range.map fun row row' h => by simpa using h, ih _ hrs, ?_⟩
      -- later rows of the transaction have a larger index
      rintro name hname name' hname' rfl
      obtain ⟨row, hrow, rfl⟩ := mem_map.mp hname
      have hlt := mem_range.mp hrow
      have hunplaced : r.unplaced = rowCount r.event := by simp only [RowsRecord.unplaced, hr]
      rcases mem_rowsNames hname' with ⟨p', -, row', heq⟩ | ⟨index, hle, heq⟩
      · cases heq
      · cases heq
        omega

/-- What a transaction names lies within it. -/
private theorem position_of_mem_names {file : GoString} {t : BinlogTxn} (ht : t.WellFormed)
    {name : SourceName} (h : name ∈ t.names file) :
    (position name).file = file ∧ t.start < (position name).position ∧
      (position name).position ≤ t.endPos := by
  have h₁ := ht.start_lt
  have h₂ := ht.gtidEnd_lt
  cases hb : t.body with
  | rows events xidReported =>
    simp only [BinlogTxn.names, hb] at h
    rcases mem_rowsNames h with ⟨p, hp, row, rfl⟩ | ⟨index, -, rfl⟩
    · have hwithin := ht.reported_within p (by simpa only [BinlogTxn.reported, hb] using hp)
      exact ⟨rfl, by simp only [position]; omega, by simp only [position]; omega⟩
    · exact ⟨rfl, h₁, Nat.le_of_lt h₂⟩
  | ddl schema query =>
    simp only [BinlogTxn.names, hb, mem_singleton] at h
    subst h
    exact ⟨rfl, Nat.lt_trans h₁ h₂, Nat.le_refl _⟩

/-- No two rows or statements of a binlog have the same name. -/
theorem Binlog.nodup_names (b : Binlog) : b.names.Nodup := by
  rw [names, List.Nodup, pairwise_flatMap]
  constructor
  · intro f hf
    rw [BinlogFile.names, pairwise_flatMap]
    constructor
    · intro t ht
      have hwf := b.txns_wf f hf t ht
      cases hb : t.body with
      | rows events xidReported =>
        have hinc := hwf.reported_increasing
        simp only [BinlogTxn.reported, BinlogTxn.names, hb] at hinc ⊢
        exact nodup_rowsNames _ 0 events hinc
      | ddl schema query =>
        simp only [BinlogTxn.names, hb]
        exact pairwise_singleton _ _
    · -- transactions of a file do not overlap
      apply (b.txns_ordered f hf).imp_of_mem
      rintro t u ht hu hle name hname name' hname' rfl
      have h₁ := (position_of_mem_names (b.txns_wf f hf t ht) hname).2.2
      have h₂ := (position_of_mem_names (b.txns_wf f hf u hu) hname').2.1
      omega
  · -- files have distinct names
    apply (pairwise_map.mp b.names_nodup).imp_of_mem
    rintro f g hf hg hne name hname name' hname' rfl
    obtain ⟨t, ht, hname⟩ := mem_flatMap.mp hname
    obtain ⟨u, hu, hname'⟩ := mem_flatMap.mp hname'
    have h₁ := (position_of_mem_names (b.txns_wf f hf t ht) hname).1
    have h₂ := (position_of_mem_names (b.txns_wf g hg u hu) hname').1
    exact hne (h₁.symm.trans h₂)

/-! ## Replay -/

/-- What does not precede the position. -/
def Binlog.after {τ : Type _} (b : Binlog) (pos : BinlogPosition) (l : List (Loc × τ)) :
    List (Loc × τ) :=
  l.filter fun x => !b.before x.1 pos

section After

variable {τ : Type _} {b : Binlog} {pos : BinlogPosition} {i : Nat}

theorem after_append (l l' : List (Loc × τ)) :
    b.after pos (l ++ l') = b.after pos l ++ b.after pos l' := filter_append ..

/-- What comes from one place is kept or dropped as a whole. -/
theorem after_tagged (loc : Loc) (l : List τ) :
    b.after pos (l.map (loc, ·)) = if b.before loc pos then [] else l.map (loc, ·) := by
  rw [Binlog.after, filter_map]
  split
  · rename_i hbefore
    simp [Function.comp_def, hbefore]
  · rename_i hbefore
    simp [Function.comp_def, hbefore]

theorem before_of_lt (hi : b.fileIndex pos.file = some i) {loc : Loc} (h : loc.1 < i) :
    b.before loc pos = true := by
  simp [Binlog.before, hi, h]

/-- Nothing in a later file does. -/
theorem not_before_of_gt (hi : b.fileIndex pos.file = some i) {loc : Loc} (h : i < loc.1) :
    b.before loc pos = false := by
  simp only [Binlog.before, hi, Bool.or_eq_false_iff, decide_eq_false_iff_not,
    Bool.and_eq_false_imp, decide_eq_true_eq]
  exact ⟨by omega, fun heq => by omega⟩

theorem before_same (hi : b.fileIndex pos.file = some i) (p : Nat) :
    b.before (i, p) pos = decide (p < pos.position) := by
  simp [Binlog.before, hi]

/-- Of a file, the transactions that do not start before the position. -/
theorem after_txns (hi : b.fileIndex pos.file = some i) (g : BinlogTxn → List τ)
    (txns : List BinlogTxn) :
    b.after pos (txns.flatMap fun t => (g t).map ((i, t.start), ·)) =
      (txns.filter fun t => !decide (t.start < pos.position)).flatMap fun t =>
        (g t).map ((i, t.start), ·) := by
  induction txns with
  | nil => rfl
  | cons t txns ih =>
    rw [flatMap_cons, after_append, after_tagged, before_same hi, ih, filter_cons]
    split
    · rename_i hlt
      simp [hlt]
    · rename_i hlt
      simp [hlt]

/-- Earlier files are dropped. -/
theorem after_eq_nil (hi : b.fileIndex pos.file = some i) {l : List (Loc × τ)}
    (hl : ∀ x ∈ l, x.1.1 < i) : b.after pos l = [] :=
  filter_eq_nil_iff.mpr fun x hx => by simp [before_of_lt hi (hl x hx)]

/-- Later files are kept. -/
theorem after_eq_self (hi : b.fileIndex pos.file = some i) {l : List (Loc × τ)}
    (hl : ∀ x ∈ l, i < x.1.1) : b.after pos l = l :=
  filter_eq_self.mpr fun x hx => by simp [not_before_of_gt hi (hl x hx)]

/-- The switch to the file of the position precedes it. -/
theorem after_rotations (hi : b.fileIndex pos.file = some i) (hpos : 0 < pos.position) (n : Nat)
    (x : τ) : b.after pos (List.replicate n ((i, 0), x)) = [] := by
  refine filter_eq_nil_iff.mpr fun y hy => ?_
  rw [eq_of_mem_replicate hy, before_same hi, decide_eq_true hpos]
  exact Bool.false_ne_true

end After

private theorem mem_fileCallbacks_index {i : Nat} {f : BinlogFile} {x : Loc × Callback}
    (hx : x ∈ fileCallbacks i f) : x.1.1 = i := by
  rw [fileCallbacks, mem_append] at hx
  rcases hx with hx | hx
  · rw [eq_of_mem_replicate hx]
  · obtain ⟨t, -, hx⟩ := mem_flatMap.mp hx
    obtain ⟨cb, -, rfl⟩ := mem_map.mp hx
    rfl

private theorem mem_filesCallbacks_index {i : Nat} {fs : List BinlogFile} {x : Loc × Callback}
    (hx : x ∈ filesCallbacks i fs) : i ≤ x.1.1 := by
  induction fs generalizing i with
  | nil => exact nomatch hx
  | cons f fs ih =>
    rcases mem_append.mp hx with hx | hx
    · exact Nat.le_of_eq (mem_fileCallbacks_index hx).symm
    · exact Nat.le_of_succ_le (ih hx)

/-- And so are the effects. -/
theorem mem_filesEffects_index {i : Nat} {fs : List BinlogFile} {x : Loc × Effect}
    (hx : x ∈ filesEffects i fs) : i ≤ x.1.1 := by
  obtain ⟨j, f, -, hx⟩ := Binlog.mem_filesEffects hx
  rw [Binlog.mem_fileEffects_index hx]
  exact Nat.le_add_right i j

/-- A handler that knows the file of the position, from the files before it on. -/
private theorem perform_after_files {b : Binlog} {pos : BinlogPosition} {h : EventHandler}
    {f : BinlogFile} {post : List BinlogFile} (hcurrent : h.currentFile = pos.file)
    (hname : f.name = pos.file) (hne : pos.file ≠ []) (hpos : 0 < pos.position)
    (htxns : ∀ t ∈ f.txns, t.WellFormed)
    (hpost : ∀ g ∈ post, g.name ≠ [] ∧ 1 ≤ g.rotations ∧ ∀ t ∈ g.txns, t.WellFormed)
    (j : Nat) (pre : List BinlogFile) (hi : b.fileIndex pos.file = some (j + pre.length)) :
    h.perform (b.after pos (filesCallbacks j (pre ++ f :: post))) =
      (b.after pos (filesEffects j (pre ++ f :: post)), none) := by
  induction pre generalizing j with
  | nil =>
    -- the file itself: its switch is not replayed, so the handler must know the file
    rw [length_nil, Nat.add_zero] at hi
    obtain ⟨h', -, htxn⟩ := EventHandler.perform_txns (h := h) (hcurrent ▸ hne) j
      (f.txns.filter fun t => !decide (t.start < pos.position))
      (fun t ht => htxns t (mem_of_mem_filter ht)) (filesCallbacks (j + 1) post)
    rw [hcurrent, ← hname] at htxn
    rw [nil_append, filesCallbacks, filesEffects, after_append, after_append, fileCallbacks,
      fileEffects, after_append, after_append, after_rotations hi hpos, after_rotations hi hpos,
      nil_append, nil_append, after_txns hi, txnsEffects, after_txns hi,
      after_eq_self hi fun x hx => mem_filesCallbacks_index hx,
      after_eq_self hi fun x hx => mem_filesEffects_index hx, htxn,
      EventHandler.perform_files h' (j + 1) post hpost]
    rfl
  | cons g pre ih =>
    -- an earlier file leaves nothing on either side
    have hlt : j < j + (g :: pre).length := by simp
    have hcallbacks : b.after pos (fileCallbacks j g) = [] :=
      after_eq_nil hi fun x hx => (mem_fileCallbacks_index hx).symm ▸ hlt
    have heffects : b.after pos (fileEffects j g) = [] :=
      after_eq_nil hi fun x hx => (Binlog.mem_fileEffects_index hx).symm ▸ hlt
    rw [cons_append, filesCallbacks, filesEffects, after_append, after_append, hcallbacks,
      heffects, nil_append, nil_append]
    exact ih (j + 1) (by rw [hi, length_cons]; congr 1; omega)

/-- A new handler that starts at a boundary does what the binlog says from there on. -/
theorem perform_after (b : Binlog) {pos : BinlogPosition} (hpos : b.IsBoundary pos) :
    (EventHandler.new pos.file).perform (b.after pos b.callbacks) =
      (b.after pos b.effects, none) := by
  obtain ⟨f, hf, hname, hcases⟩ := hpos
  obtain ⟨pre, post, hsplit⟩ := append_of_mem hf
  have hindex : b.fileIndex pos.file = some (0 + pre.length) := by
    rw [hname, Nat.zero_add]
    exact Binlog.fileIndex_name (by simp [hsplit])
  -- only the first file may lack its switch, and it is not after another one
  have hothers : ∀ g ∈ post, g ∈ b.others := by
    intro g hg
    have hfiles : b.first :: b.others = pre ++ f :: post := hsplit
    cases pre with
    | nil => rwa [(List.cons.inj hfiles).2]
    | cons p pre =>
      rw [(List.cons.inj hfiles).2]
      exact mem_append_right _ (mem_cons_of_mem f hg)
  have hposition : 0 < pos.position := by
    rcases hcases with h | ⟨t, ht, h⟩
    · rw [h]
      decide
    · have h₁ := (b.txns_wf f hf t ht).start_ge
      have h₂ := (b.txns_wf f hf t ht).start_lt
      have h₃ := (b.txns_wf f hf t ht).gtidEnd_lt
      have h₄ : minBinlogPosition = 4 := rfl
      omega
  rw [Binlog.callbacks, Binlog.effects, hsplit]
  exact perform_after_files rfl hname.symm (hname ▸ b.names_ne f hf) hposition (b.txns_wf f hf)
    (fun g hg => ⟨b.names_ne g (mem_cons_of_mem _ (hothers g hg)), b.rotated g (hothers g hg),
      b.txns_wf g (mem_cons_of_mem _ (hothers g hg))⟩) 0 pre hindex

/-- Reading the binlog never fails, each of its rows and statements gets an id that no other one
    gets, and a new handler that starts at a boundary gives the same ids to what is left. -/
theorem sourceID_unique_replayed (b : Binlog) :
    ((EventHandler.new b.first.name).perform b.callbacks).2 = none ∧
    (emittedIDs b.program).length = b.changes ∧ (emittedIDs b.program).Nodup ∧
    ∀ pos, b.IsBoundary pos →
      (EventHandler.new pos.file).perform (b.after pos b.callbacks) =
        (b.after pos b.program, none) := by
  have hprogram : b.program = b.effects := congrArg Prod.fst (perform_callbacks b)
  rw [hprogram, emittedIDs_effects, length_map, length_names]
  -- distinct names have distinct ids
  refine ⟨congrArg Prod.snd (perform_callbacks b), rfl, ?_, fun pos hpos => perform_after b hpos⟩
  exact (Binlog.nodup_names b).map fun _ _ => SourceName.sourceID_inj

/-- The statement in the second file has the same id when streaming resumes before it. -/
theorem sourceID_unique_replayed_sample :
    System.sampleBinlog.IsBoundary ⟨ascii "a.2", 126⟩ ∧
      (EventHandler.new (ascii "a.2")).perform
          (System.sampleBinlog.after ⟨ascii "a.2", 126⟩ System.sampleBinlog.callbacks) =
        (System.sampleBinlog.after ⟨ascii "a.2", 126⟩ System.sampleBinlog.program, none) ∧
      emittedIDs System.sampleBinlog.program =
        [ascii "mysql:a.1:80:txn:0", ascii "mysql:a.1:80:txn:1", ascii "mysql:a.2:300:ddl"] ∧
      emittedIDs (System.sampleBinlog.after ⟨ascii "a.2", 126⟩ System.sampleBinlog.program) =
        [ascii "mysql:a.2:300:ddl"] := by
  have hboundary : System.sampleBinlog.IsBoundary ⟨ascii "a.2", 126⟩ :=
    ⟨_, mem_cons_of_mem _ mem_cons_self, rfl, Or.inr ⟨_, mem_cons_self, Or.inl rfl⟩⟩
  exact ⟨hboundary, (sourceID_unique_replayed System.sampleBinlog).2.2.2 _ hboundary, by decide,
    by decide⟩

end Mysql
