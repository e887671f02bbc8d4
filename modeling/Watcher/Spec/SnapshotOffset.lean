import Watcher.Lib.OffsetPages
import Watcher.Model.SnapshotChunked

/-!
# Chunked snapshots of tables without a primary key

`snapshotByOffset` asks for the rows from an offset on, in the order of the first
column. Every query chooses anew how rows with one value in that column are
ordered. If a chunk ends between two such rows, the next chunk may start with the
row just handed over and never return the other (`offset_once_iff`).
-/

namespace Postgres

open Cdc

variable {V K : Type}

/-- A table that is read by offset; `rank` is the order of its first column, NULL included. -/
structure OffsetTable (V K : Type) where
  schema : GoString
  table : GoString
  columns : List GoString
  rows : List (SqlRow V)
  chunkSize : Nat
  chunkSize_pos : 0 < chunkSize
  rank : Option V → K

namespace OffsetTable

def spec (t : OffsetTable V K) : ChunkSpec := ⟨t.schema, t.table, [], t.columns, t.chunkSize⟩

/-- Where a row stands: by its first column. -/
def key (t : OffsetTable V K) (row : SqlRow V) : K := t.rank row.head?.join

def event (t : OffsetTable V K) (format : V → GoString) (row : SqlRow V) : Event :=
  buildSnapshotEvent format t.schema t.table t.columns row

/-- The query selects the table's columns: there is a first one to order by, and no name has a
    quote, which would end it early. -/
def Queryable (t : OffsetTable V K) : Prop :=
  t.columns ≠ [] ∧ ∀ name ∈ t.schema :: t.table :: t.columns, 0x22 ∉ name

variable [LinearOrder K] (t : OffsetTable V K)

/-- How PostgreSQL answers while the table does not change: every query returns its chunk of the
    rows in the order of the first column, and rows that are equal there in any order. -/
def Answers (conn : Conn V) : Prop :=
  t.Queryable → ∀ call offset : Nat,
    let reply := conn.query call t.spec.offsetQuery [.int t.chunkSize, .int offset]
    reply.failed = false ∧ OffsetPages.IsSlice t.key t.rows t.chunkSize offset reply.rows

/-- Whatever the order of equal rows, the snapshot ends without error and has handed over every row
    once. -/
def EmitsOnce (format : V → GoString) : Prop :=
  ∀ conn, t.Answers conn → ∃ fuel events,
    snapshotByOffset conn format t.spec fuel = some (events, none) ∧
      events.Perm (t.rows.map (t.event format))

/-- Rows with one value in the first column that the end of a chunk can come between yield the same
    event. -/
def Uniform (format : V → GoString) : Prop :=
  OffsetPages.Uniform t.key (t.event format) t.rows t.chunkSize

/-! ### The loop is pagination by offset -/

/-- The rows that a query returns. -/
def fetch (conn : Conn V) (call offset : Nat) : List (SqlRow V) :=
  (conn.query call t.spec.offsetQuery [.int t.chunkSize, .int offset]).rows

variable {t}

omit [LinearOrder K] in
theorem offsetLoop_eq {conn : Conn V} (hok : ∀ call offset : Nat,
      (conn.query call t.spec.offsetQuery [.int t.chunkSize, .int offset]).failed = false)
    (format : V → GoString) (fuel call offset : Nat) :
    offsetLoop conn format t.spec fuel call offset =
      (OffsetPages.paginate t.chunkSize (t.fetch conn) fuel call offset).map fun rows =>
        (rows.map (t.event format), none) := by
  induction fuel generalizing call offset with
  | zero => rfl
  | succ fuel ih =>
    -- both stop at the first chunk that is not full
    have hsize : ((t.fetch conn call offset).length : Int) < t.spec.chunkSize ↔
        (t.fetch conn call offset).length < t.chunkSize := Int.ofNat_lt
    rw [offsetLoop, OffsetPages.paginate]
    show (if (conn.query call t.spec.offsetQuery [.int t.chunkSize, .int offset]).failed then _
      else if ((t.fetch conn call offset).length : Int) < t.spec.chunkSize then
        some ((t.fetch conn call offset).map (t.event format), none)
      else (offsetLoop conn format t.spec fuel (call + 1)
        (offset + (t.fetch conn call offset).length)).map _) = _
    rw [hok, if_neg Bool.false_ne_true]
    by_cases hshort : (t.fetch conn call offset).length < t.chunkSize
    · rw [if_pos (hsize.mpr hshort), if_pos hshort, Option.map_some]
    · rw [if_neg (fun h => hshort (hsize.mp h)), if_neg hshort, ih, Option.map_map, Option.map_map]
      simp only [Function.comp_def, List.map_append]
      rfl

/-- What a snapshot hands over, when each call has an order of its own. -/
theorem snapshotByOffset_eq {conn : Conn V} {orders : Nat → List (SqlRow V)}
    (hreply : ∀ call offset : Nat,
      (conn.query call t.spec.offsetQuery [.int t.chunkSize, .int offset]).failed = false)
    (hfetch : ∀ call, t.fetch conn call (call * t.chunkSize) =
      ((orders call).drop (call * t.chunkSize)).take t.chunkSize)
    (horders : ∀ call, OffsetPages.IsOrder t.key t.rows (orders call)) (format : V → GoString)
    {fuel : Nat} (hfuel : t.rows.length / t.chunkSize < fuel) :
    snapshotByOffset conn format t.spec fuel =
      some ((OffsetPages.pagesFrom t.chunkSize orders (t.rows.length / t.chunkSize + 1) 0).map
        (t.event format), none) := by
  have hpages : OffsetPages.paginate t.chunkSize (t.fetch conn) fuel 0 (0 * t.chunkSize) =
      some (OffsetPages.pagesFrom t.chunkSize orders (t.rows.length / t.chunkSize + 1 - 0) 0) :=
    OffsetPages.paginate_eq t.chunkSize_pos hfetch (fun call => (horders call).perm.length_eq)
      (Nat.zero_le _) (by rwa [Nat.zero_add])
  rw [Nat.zero_mul] at hpages
  rw [snapshotByOffset, offsetLoop_eq hreply, hpages]
  rfl

/-- The connection that answers each call in the order given for it. -/
def connOf (orders : Nat → List (SqlRow V)) : Conn V where
  query call _ args :=
    match args with
    | [.int n, .int offset] => ⟨((orders call).drop offset.toNat).take n.toNat, false⟩
    | _ => ⟨[], true⟩
  columnNames _ _ := none
  primaryKey _ _ := none

theorem answers_connOf {orders : Nat → List (SqlRow V)}
    (horders : ∀ call, OffsetPages.IsOrder t.key t.rows (orders call)) :
    t.Answers (connOf orders) :=
  fun _ call _ => ⟨rfl, orders call, horders call, rfl⟩

/-- A connection that answers no query. -/
def refusing : Conn V where
  query _ _ _ := ⟨[], true⟩
  columnNames _ _ := none
  primaryKey _ _ := none

theorem queryable_of_emitsOnce {format : V → GoString} (h : t.EmitsOnce format) : t.Queryable := by
  by_contra hquery
  obtain ⟨fuel, events, hrun, -⟩ := h refusing fun hq => absurd hq hquery
  cases fuel with
  | zero => exact nomatch hrun
  | succ fuel => exact nomatch hrun

theorem uniform_of_emitsOnce {format : V → GoString} (h : t.EmitsOnce format) :
    t.Uniform format := by
  by_contra huniform
  obtain ⟨orders, horders, hbad⟩ := OffsetPages.exists_orders t.chunkSize_pos huniform
  obtain ⟨fuel, events, hrun, hperm⟩ := h (connOf orders) (answers_connOf horders)
  -- with more fuel it hands over the same, and these are all pages
  have hmore : snapshotByOffset (connOf orders) format t.spec
      (fuel + (t.rows.length / t.chunkSize + 1)) = some (events, none) := by
    rw [snapshotByOffset, offsetLoop_eq (fun _ _ => rfl), Option.map_eq_some_iff] at hrun ⊢
    obtain ⟨rows, hrows, heq⟩ := hrun
    exact ⟨rows, OffsetPages.paginate_add hrows _, heq⟩
  rw [snapshotByOffset_eq (fun _ _ => rfl) (fun _ => rfl) horders format (by omega),
    Option.some.injEq, Prod.mk.injEq] at hmore
  rw [← hmore.1] at hperm
  exact hbad hperm

theorem emitsOnce_of_uniform {format : V → GoString} (hquery : t.Queryable)
    (huniform : t.Uniform format) : t.EmitsOnce format := by
  intro conn hanswers
  have hreply := hanswers hquery
  choose orders horders hfetch using fun call : Nat => (hreply call (call * t.chunkSize)).2
  refine ⟨t.rows.length / t.chunkSize + 1, _,
    snapshotByOffset_eq (fun call offset => (hreply call offset).1) hfetch horders format
      (Nat.lt_succ_self _), ?_⟩
  exact OffsetPages.pagesFrom_perm t.chunkSize_pos huniform horders

/-- Every row is handed over once, whatever the order of equal rows, exactly when the query can be
    asked and rows that a chunk can separate yield the same event. -/
theorem offset_once_iff (t : OffsetTable V K) (format : V → GoString) :
    t.EmitsOnce format ↔ t.Queryable ∧ t.Uniform format :=
  ⟨fun h => ⟨queryable_of_emitsOnce h, uniform_of_emitsOnce h⟩,
    fun h => emitsOnce_of_uniform h.1 h.2⟩

end OffsetTable

/-! ### Two rows with one value -/

/-- Two readings of one sensor. -/
def readings : OffsetTable Nat (WithTop Nat) where
  schema := ascii "public"
  table := ascii "readings"
  columns := [ascii "sensor", ascii "value"]
  rows := [[some 1, some 10], [some 1, some 20]]
  chunkSize := 1
  chunkSize_pos := Nat.one_pos
  rank v := v

/-- The first query returns the first reading first, the others return it last. -/
def readingsConn : Conn Nat :=
  OffsetTable.connOf fun call => if call = 0 then readings.rows else readings.rows.reverse

/-- The second reading is never handed over: the second chunk starts with the first one again. -/
theorem second_reading_lost :
    readings.Answers readingsConn ∧
      snapshotByOffset readingsConn itoa readings.spec 3 =
        some ([readings.event itoa [some 1, some 10], readings.event itoa [some 1, some 10]],
          none) ∧
      ¬ readings.EmitsOnce itoa := by
  refine ⟨?_, by decide, ?_⟩
  · apply OffsetTable.answers_connOf
    intro call
    by_cases hcall : call = 0
    · rw [if_pos hcall]
      exact ⟨.refl _, by decide⟩
    · rw [if_neg hcall]
      exact ⟨List.reverse_perm _, by decide⟩
  · intro h
    have hsame := OffsetTable.uniform_of_emitsOnce h 1 [some 1, some 10] (by decide)
      [some 1, some 20] (by decide) rfl (by decide) (by decide)
    exact absurd hsame (by decide)

end Postgres
