import Watcher.ForStd.List
import Watcher.Model.SnapshotChunked

/-!
# When a chunked snapshot ends

Both loops end at a chunk that is not full. A full chunk of at least one row
leaves fewer rows to read, so a positive chunk size ends the loop, and a negative
one ends it with the error of its first query. With the chunk size 0 every chunk
is full and empty: the loop asks the same query for ever (`ends_iff`).

Nothing is assumed of the server but what LIMIT promises (`Limited`) and that it
returns rows of the table past the cursor or the offset. It may fail at any time,
and return too few rows.
-/

namespace Postgres

open Cdc Option

variable {V : Type}

/-- What LIMIT promises: at most `n` rows, none for 0, and an error if `n` is negative. -/
def Limited (n : Int) (reply : Reply V) : Prop :=
  reply.failed = true ∨ 0 ≤ n ∧ (reply.rows.length : Int) ≤ n

/-- A finite table that does not change. -/
structure StaticTable (V : Type) where
  schema : GoString
  table : GoString
  columns : List GoString
  rows : List (SqlRow V)
  /-- The column of the primary key that `fetchPrimaryKey` finds. -/
  key : Option GoString
  key_named : ∀ pk, key = some pk → pk ≠ [] ∧ pk ∈ columns
  /-- A key has no NULL. -/
  key_present : ∀ pk i, key = some pk → columns.idxOf? pk = some i →
    ∀ row ∈ rows, ∃ v, row[i]?.join = some v

namespace StaticTable

def spec (t : StaticTable V) (chunkSize : Int) : ChunkSpec :=
  ⟨t.schema, t.table, t.key.getD [], t.columns, chunkSize⟩

/-- The value of a row by which the table is paged. -/
def keyOf (t : StaticTable V) (chunkSize : Int) (row : SqlRow V) : Option V :=
  (t.spec chunkSize).advance none row

variable [LinearOrder V]

/-- A row is past the cursor. -/
def Past (t : StaticTable V) (chunkSize : Int) (lastValue : Option V) (row : SqlRow V) : Prop :=
  ∀ v w, lastValue = some v → t.keyOf chunkSize row = some w → v < w

/-- What is assumed of the server. -/
structure Answers (t : StaticTable V) (chunkSize : Int) (conn : Conn V) : Prop where
  columnNames : ∀ columns, conn.columnNames t.schema t.table = some columns → columns = t.columns
  primaryKey : ∀ key, conn.primaryKey t.schema t.table = some key → key = t.key
  limited : ∀ call query args, Limited chunkSize (conn.query call query args)
  chunk : ∀ call lastValue,
    let query := (t.spec chunkSize).chunkQuery lastValue
    ∀ row ∈ (conn.query call query.1 query.2).rows, row ∈ t.rows ∧ t.Past chunkSize lastValue row
  slice : ∀ call offset : Nat,
    (conn.query call (t.spec chunkSize).offsetQuery [.int chunkSize, .int offset]).rows.length ≤
      t.rows.length - offset

/-- The snapshot of the table ends, with success or an error, whatever the server does. -/
def Ends (t : StaticTable V) (chunkSize : Int) : Prop :=
  ∀ conn, t.Answers chunkSize conn → ∀ format, ∃ fuel,
    (snapshotTable conn format t.schema t.table chunkSize fuel).isSome = true

/-- The names pass the check before the loop. -/
def Checked (t : StaticTable V) : Prop :=
  validIdentifier t.table = true ∧ ∀ pk, t.key = some pk → validIdentifier pk = true

variable {t : StaticTable V} {chunkSize : Int} {conn : Conn V} {format : V → GoString}

/-! ### By key -/

/-- Whether a row is counted as past the cursor. -/
def isLeft (t : StaticTable V) (chunkSize : Int) (lastValue : Option V) (row : SqlRow V) : Bool :=
  match lastValue, t.keyOf chunkSize row with
  | some v, some w => v < w
  | _, _ => true

/-- How many rows are past the cursor. -/
def left (t : StaticTable V) (chunkSize : Int) (lastValue : Option V) : Nat :=
  t.rows.countP (t.isLeft chunkSize lastValue)

theorem isLeft_of_past {lastValue : Option V} {row : SqlRow V}
    (h : t.Past chunkSize lastValue row) : t.isLeft chunkSize lastValue row = true := by
  unfold isLeft
  split
  · rename_i v w hkey
    exact decide_eq_true (h v w rfl hkey)
  · rfl

omit [LinearOrder V] in
/-- The cursor after rows of the table is the key of the last one. -/
theorem foldl_advance (chunkSize : Int) {pk : GoString} (hkey : t.key = some pk)
    (front : List (SqlRow V)) {row : SqlRow V} (hrow : row ∈ t.rows) :
    ∃ w, t.keyOf chunkSize row = some w ∧
      (front ++ [row]).foldl (t.spec chunkSize).advance none = some w := by
  obtain ⟨i, hi⟩ : ∃ i, t.columns.idxOf? pk = some i :=
    isSome_iff_exists.mp (by simpa using (t.key_named pk hkey).2)
  obtain ⟨w, hw⟩ := t.key_present pk i hkey hi row hrow
  have hadvance : ∀ lastValue, (t.spec chunkSize).advance lastValue row = some w := by
    intro lastValue
    have hpk : (t.spec chunkSize).pk = pk := by
      show t.key.getD [] = pk
      rw [hkey, getD_some]
    have hi : (t.spec chunkSize).columns.idxOf? (t.spec chunkSize).pk = some i := by
      rw [hpk]
      exact hi
    simp only [ChunkSpec.advance, hi, hw]
  refine ⟨w, hadvance none, ?_⟩
  rw [List.foldl_append, List.foldl_cons, List.foldl_nil, hadvance]

/-- Fewer rows are past the key of a row that was past the cursor. -/
theorem left_lt {lastValue : Option V} {row : SqlRow V} {w : V} (hrow : row ∈ t.rows)
    (hpast : t.Past chunkSize lastValue row) (hw : t.keyOf chunkSize row = some w) :
    t.left chunkSize (some w) < t.left chunkSize lastValue := by
  apply List.countP_lt_countP_of_mem hrow
  · intro other _ hother
    unfold isLeft at hother ⊢
    split
    · rename_i v u hu
      rw [hu] at hother
      exact decide_eq_true (lt_trans (hpast v w rfl hw) (of_decide_eq_true hother))
    · rfl
  · exact isLeft_of_past hpast
  · simp [isLeft, hw]

theorem keysetLoop_isSome (h : t.Answers chunkSize conn) {pk : GoString} (hkey : t.key = some pk)
    (hsize : chunkSize ≠ 0) (fuel : Nat) : ∀ (call : Nat) (lastValue : Option V),
      t.left chunkSize lastValue < fuel →
      (keysetLoop conn format (t.spec chunkSize) fuel call lastValue).isSome = true := by
  induction fuel with
  | zero => exact fun _ _ hfuel => absurd hfuel (Nat.not_lt_zero _)
  | succ fuel ih =>
    intro call lastValue hfuel
    have hlimit := h.limited call ((t.spec chunkSize).chunkQuery lastValue).1
      ((t.spec chunkSize).chunkQuery lastValue).2
    have hrows := h.chunk call lastValue
    dsimp only at hrows
    unfold keysetLoop fetchChunk
    dsimp only
    generalize conn.query call ((t.spec chunkSize).chunkQuery lastValue).1
      ((t.spec chunkSize).chunkQuery lastValue).2 = reply at hlimit hrows ⊢
    split
    · rfl
    rename_i hok
    split
    · rfl
    rename_i hfull
    -- a full chunk is not empty, and its last row moves the cursor
    have hfull : ¬(reply.rows.length : Int) < chunkSize := hfull
    have hlimit := hlimit.resolve_left hok
    have hne : reply.rows ≠ [] := by
      intro hnil
      rw [hnil, List.length_nil] at hfull
      omega
    have hsplit := List.dropLast_append_getLast hne
    obtain ⟨hmem, hpast⟩ := hrows _ (List.getLast_mem hne)
    obtain ⟨w, hw, hlast⟩ := foldl_advance chunkSize hkey reply.rows.dropLast hmem
    rw [hsplit] at hlast
    rw [isSome_map, hlast]
    have hless := left_lt hmem hpast hw
    exact ih (call + 1) (some w) (by omega)

/-! ### By offset -/

theorem offsetLoop_isSome (h : t.Answers chunkSize conn) (hsize : chunkSize ≠ 0) (fuel : Nat) :
    ∀ call offset : Nat, t.rows.length - offset < fuel →
      (offsetLoop conn format (t.spec chunkSize) fuel call offset).isSome = true := by
  induction fuel with
  | zero => exact fun _ _ hfuel => absurd hfuel (Nat.not_lt_zero _)
  | succ fuel ih =>
    intro call offset hfuel
    have hlimit := h.limited call (t.spec chunkSize).offsetQuery [.int chunkSize, .int offset]
    have hslice := h.slice call offset
    have hspec : (t.spec chunkSize).chunkSize = chunkSize := rfl
    simp only [offsetLoop, fetchChunk, hspec]
    generalize conn.query call _ _ = reply at hlimit hslice ⊢
    split
    · rfl
    rename_i hok
    split
    · rfl
    rename_i hfull
    -- a full chunk moves the offset, and only rows that are there can fill it
    have hlimit := hlimit.resolve_left hok
    rw [isSome_map]
    exact ih (call + 1) (offset + reply.rows.length) (by omega)

/-! ### Whole tables -/

theorem ends_of_ne_zero (hsize : chunkSize ≠ 0) : t.Ends chunkSize := by
  intro conn h format
  -- one round for each row that moves the cursor, and a last one
  refine ⟨t.rows.length + 1, ?_⟩
  unfold snapshotTable
  split
  · rfl
  split
  · rfl
  rename_i columns hcolumns
  obtain rfl := h.columnNames columns hcolumns
  split
  · rfl
  rename_i pk hpk
  obtain ⟨key, hkey, rfl⟩ := map_eq_some_iff.mp hpk
  obtain rfl := h.primaryKey key hkey
  dsimp only
  split
  · rename_i hne
    obtain ⟨pk, hpk⟩ : ∃ pk, t.key = some pk := by
      cases hnone : t.key with
      | none => simp [hnone] at hne
      | some pk => exact ⟨pk, rfl⟩
    unfold snapshotByPK
    split
    · rfl
    · apply keysetLoop_isSome h hpk hsize
      exact Nat.lt_succ_of_le List.countP_le_length
  · apply offsetLoop_isSome h hsize
    omega

theorem ends_of_not_checked (hbad : ¬t.Checked) : t.Ends chunkSize := by
  intro conn h format
  refine ⟨0, ?_⟩
  unfold snapshotTable
  split
  · rfl
  rename_i htable
  split
  · rfl
  split
  · rfl
  rename_i pk hpk
  obtain ⟨key, hkey, rfl⟩ := map_eq_some_iff.mp hpk
  obtain rfl := h.primaryKey key hkey
  -- the table's name is fine, so it is the key that is refused
  obtain ⟨pk, hsome, hinvalid⟩ : ∃ pk, t.key = some pk ∧ validIdentifier pk = false := by
    by_contra hno
    refine hbad ⟨by simpa using htable, ?_⟩
    intro pk hpk
    by_contra hinvalid
    exact hno ⟨pk, hpk, by simpa using hinvalid⟩
  rw [hsome, getD_some, if_pos (t.key_named pk hsome).1]
  simp [snapshotByPK, hinvalid]

/-! ### The chunk size 0 -/

/-- The server that answers LIMIT 0: every query succeeds and returns no row. -/
def emptyReplies (t : StaticTable V) : Conn V where
  query _ _ _ := ⟨[], false⟩
  columnNames _ _ := some t.columns
  primaryKey _ _ := some t.key

theorem answers_emptyReplies (t : StaticTable V) : t.Answers 0 t.emptyReplies where
  columnNames _ h := (some.inj h).symm
  primaryKey _ h := (some.inj h).symm
  limited _ _ _ := .inr ⟨Int.le_refl 0, Int.le_refl 0⟩
  chunk _ _ _ h := nomatch h
  slice _ _ := Nat.zero_le _

omit [LinearOrder V] in
/-- However long they run, the loops do not come to an end. -/
theorem keysetLoop_emptyReplies (t : StaticTable V) (fuel : Nat) : ∀ call lastValue,
    keysetLoop t.emptyReplies format (t.spec 0) fuel call lastValue = none := by
  induction fuel with
  | zero => exact fun _ _ => rfl
  | succ fuel ih =>
    intro call lastValue
    -- no rows leave the cursor where it is
    show Option.map _ (keysetLoop t.emptyReplies format (t.spec 0) fuel (call + 1) none) = none
    rw [ih]
    rfl

omit [LinearOrder V] in
theorem offsetLoop_emptyReplies (t : StaticTable V) (fuel : Nat) : ∀ call offset,
    offsetLoop t.emptyReplies format (t.spec 0) fuel call offset = none := by
  induction fuel with
  | zero => exact fun _ _ => rfl
  | succ fuel ih =>
    intro call offset
    show Option.map _ (offsetLoop t.emptyReplies format (t.spec 0) fuel (call + 1) offset) = none
    rw [ih]
    rfl

omit [LinearOrder V] in
theorem snapshotTable_emptyReplies (hchecked : t.Checked) (fuel : Nat) :
    snapshotTable t.emptyReplies format t.schema t.table 0 fuel = none := by
  have hpk : t.emptyReplies.fetchPrimaryKey t.schema t.table = some (t.key.getD []) := rfl
  unfold snapshotTable
  rw [hchecked.1, hpk]
  show (if t.key.getD [] ≠ [] then snapshotByPK t.emptyReplies format (t.spec 0) fuel
    else snapshotByOffset t.emptyReplies format (t.spec 0) fuel) = none
  cases hkey : t.key with
  | none => exact offsetLoop_emptyReplies t fuel 0 0
  | some pk =>
    rw [getD_some, if_pos (t.key_named pk hkey).1]
    have hvalid : validIdentifier (t.spec 0).pk = true := by
      show validIdentifier (t.key.getD []) = true
      rw [hkey]
      exact hchecked.2 pk hkey
    unfold snapshotByPK
    rw [hvalid]
    exact keysetLoop_emptyReplies t fuel 0 none

/-- The snapshot of a table ends for every chunk size but 0, and for that one only if its names
    are refused before the first query. -/
theorem ends_iff (t : StaticTable V) (chunkSize : Int) :
    t.Ends chunkSize ↔ chunkSize ≠ 0 ∨ ¬t.Checked := by
  constructor
  · intro h
    by_contra hno
    rw [not_or, not_not, not_not] at hno
    obtain ⟨rfl, hchecked⟩ := hno
    obtain ⟨fuel, hends⟩ := h t.emptyReplies t.answers_emptyReplies fun _ => []
    rw [snapshotTable_emptyReplies hchecked] at hends
    exact nomatch hends
  · rintro (hsize | hbad)
    · exact ends_of_ne_zero hsize
    · exact ends_of_not_checked hbad

/-- A table of one row with the key `id`. -/
def orders : StaticTable Nat where
  schema := ascii "public"
  table := ascii "orders"
  columns := [ascii "id"]
  rows := [[some 1]]
  key := some (ascii "id")
  key_named pk h := by
    obtain rfl := some.inj h
    decide
  key_present pk i h hi row hrow := by
    obtain rfl := some.inj h
    obtain rfl : 0 = i := some.inj hi
    obtain rfl := List.mem_singleton.mp hrow
    exact ⟨1, rfl⟩

/-- With the chunk size 0 its snapshot never ends. -/
theorem not_ends_orders : ¬orders.Ends 0 := by
  intro h
  obtain ⟨fuel, hends⟩ := h orders.emptyReplies orders.answers_emptyReplies fun _ => []
  have hchecked : orders.Checked := by
    refine ⟨by decide, ?_⟩
    intro pk hpk
    obtain rfl := some.inj hpk
    decide
  rw [snapshotTable_emptyReplies hchecked] at hends
  exact nomatch hends

end StaticTable

end Postgres
