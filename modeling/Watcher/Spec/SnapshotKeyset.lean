import Watcher.Lib.Keyset
import Watcher.Model.SnapshotChunked

/-!
# Chunked snapshots of tables with a primary key

`snapshotByPK` pages through the table by one column of its key, whichever
`fetchPrimaryKey` names. With a key of one column this is keyset pagination with
distinct keys, and every row is handed over once (`once_of_single_column`). With
more columns rows may agree in the chosen one, and the rest of a group of such
rows is lost if a chunk ends inside it (`snapshot_once_iff`).

The names of the schema and of the other columns are put into the query between
quotes as they are. With a quote in one of them nothing is known of the answer.
-/

namespace Postgres

open Cdc

variable {V : Type}

/-- The value of a row in a column. -/
def cell (columns : List GoString) (col : GoString) (row : SqlRow V) : Option V :=
  match columns.idxOf? col with
  | some i => row[i]?.join
  | none => none

/-- A table with a primary key. -/
structure KeyedTable (V : Type) where
  columns : List GoString
  key : List GoString
  rows : List (SqlRow V)
  columns_named : ∀ col ∈ columns, col ≠ []
  columns_nodup : columns.Nodup
  key_columns : ∀ col ∈ key, col ∈ columns
  rows_width : ∀ row ∈ rows, row.length = columns.length
  key_present : ∀ row ∈ rows, ∀ col ∈ key, (cell columns col row).isSome = true
  key_distinct : rows.Pairwise fun a b =>
    key.map (fun col => cell columns col a) ≠ key.map fun col => cell columns col b

/-- Rows by their value in one column; in key columns there is always one. -/
def KeyedTable.keyOf (t : KeyedTable V) (pk : GoString) (row : SqlRow V) : WithBot V :=
  cell t.columns pk row

/-- A snapshot of a table that does not change. -/
structure KeysetSnapshot (V : Type) where
  schema : GoString
  table : GoString
  content : KeyedTable V
  chunkSize : Nat
  chunkSize_pos : 0 < chunkSize
  /-- The column of the key that `fetchPrimaryKey` finds. -/
  pk : GoString
  pk_mem : pk ∈ content.key

namespace KeysetSnapshot

def spec (s : KeysetSnapshot V) : ChunkSpec :=
  ⟨s.schema, s.table, s.pk, s.content.columns, s.chunkSize⟩

/-- The event for a row. -/
def event (s : KeysetSnapshot V) (format : V → GoString) (row : SqlRow V) : Event :=
  buildSnapshotEvent format s.schema s.table s.content.columns row

/-- The query selects the table's columns: no name has a quote, which would end it early. -/
def Queryable (s : KeysetSnapshot V) : Prop :=
  ∀ name ∈ s.schema :: s.table :: s.content.columns, 0x22 ∉ name

variable (s : KeysetSnapshot V)

/-- The chosen column has a name, by which `snapshotTable` tells that there is a key. -/
theorem pk_ne_nil : s.pk ≠ [] :=
  s.content.columns_named s.pk (s.content.key_columns s.pk s.pk_mem)

/-- There is always a value in the chosen column. -/
theorem keyOf_ne_bot {row : SqlRow V} (hrow : row ∈ s.content.rows) :
    s.content.keyOf s.pk row ≠ ⊥ := by
  intro h
  have hsome := s.content.key_present row hrow s.pk s.pk_mem
  rw [show cell s.content.columns s.pk row = none from h] at hsome
  cases hsome

/-- The cursor becomes the value in the chosen column. -/
theorem advance_eq (lastValue : Option V) (row : SqlRow V) :
    s.spec.advance lastValue row = s.content.keyOf s.pk row := by
  have hmem : s.pk ∈ s.content.columns := s.content.key_columns s.pk s.pk_mem
  show (match s.content.columns.idxOf? s.pk with
    | some i => row[i]?.join
    | none => lastValue) = cell s.content.columns s.pk row
  unfold cell
  cases hidx : s.content.columns.idxOf? s.pk with
  | some i => rfl
  | none => exact absurd hmem (List.idxOf?_eq_none_iff.mp hidx)

/-- After a chunk it is that of the last row. -/
theorem foldl_advance (rows : List (SqlRow V)) :
    rows.foldl s.spec.advance none = (rows.getLast?.map (s.content.keyOf s.pk)).bind id := by
  rcases rows.eq_nil_or_concat with rfl | ⟨front, row, rfl⟩
  · rfl
  · rw [List.concat_eq_append, List.foldl_append, List.getLast?_concat]
    exact s.advance_eq _ row

variable [LinearOrder V]

/-- A chunk query returns the first rows that satisfy its WHERE clause. -/
def Pages (conn : Conn V) : Prop :=
  ∀ call lastValue,
    let query := s.spec.chunkQuery lastValue
    (conn.query call query.1 query.2).failed = false ∧
      Keyset.IsPage (s.content.keyOf s.pk) s.content.rows s.chunkSize (lastValue.map WithBot.some)
        (conn.query call query.1 query.2).rows

/-- How PostgreSQL answers while the table does not change. -/
structure Answers (conn : Conn V) : Prop where
  columnNames_eq : conn.columnNames s.schema s.table = some s.content.columns
  primaryKey_eq : conn.primaryKey s.schema s.table = some (some s.pk)
  pages : s.Queryable → s.Pages conn

/-- The snapshot ends without error, and has handed over every row once. -/
def EmitsOnce (conn : Conn V) (format : V → GoString) : Prop :=
  ∃ fuel events,
    snapshotTable conn format s.schema s.table s.chunkSize fuel = some (events, none) ∧
    events.Perm (s.content.rows.map (s.event format))

/-- No chunk ends between two rows with the same value in the chosen column. -/
def Aligned : Prop := Keyset.Aligned (s.content.keyOf s.pk) s.content.rows s.chunkSize

/-! ### The loop is keyset pagination -/

/-- The rows that the query past a cursor returns. -/
def fetch (conn : Conn V) (call : Nat) (after : Option (WithBot V)) : List (SqlRow V) :=
  let query := s.spec.chunkQuery (after.bind id)
  (conn.query call query.1 query.2).rows

section Pages

variable {s} {conn : Conn V}

/-- What is fetched is a page. -/
theorem isPage_fetch (hpages : s.Pages conn) (call : Nat) (after : Option (WithBot V)) :
    Keyset.IsPage (s.content.keyOf s.pk) s.content.rows s.chunkSize after
      (s.fetch conn call after) := by
  match after with
  | none => exact (hpages call none).2
  | some (some v) => exact (hpages call (some v)).2
  | some none =>
    -- no row is before or at the bottom, so the query without a cursor answers the same
    obtain ⟨sorted, hperm, hsorted⟩ := (hpages call none).2
    refine ⟨sorted, ?_, hsorted⟩
    have hall : Keyset.remaining (s.content.keyOf s.pk) s.content.rows (some ⊥) =
        s.content.rows := by
      apply List.filter_eq_self.mpr
      intro row hrow
      exact decide_eq_true (bot_lt_iff_ne_bot.mpr (s.keyOf_ne_bot hrow))
    have hnone : Keyset.remaining (s.content.keyOf s.pk) s.content.rows none = s.content.rows :=
      List.filter_eq_self.mpr fun _ _ => rfl
    show sorted.Perm (Keyset.remaining _ _ (some ⊥))
    rw [hall, ← hnone]
    exact hperm

/-- The loop fetches page after page. -/
theorem keysetLoop_eq (hpages : s.Pages conn) (format : V → GoString) (fuel call : Nat)
    (after : Option (WithBot V)) :
    keysetLoop conn format s.spec fuel call (after.bind id) =
      (Keyset.paginate (s.content.keyOf s.pk) s.chunkSize (s.fetch conn) fuel call after).map
        fun rows => (rows.map (s.event format), none) := by
  induction fuel generalizing call after with
  | zero => rfl
  | succ fuel ih =>
    have hchunk : fetchChunk conn format s.spec call (s.spec.chunkQuery (after.bind id)) =
        { events := (s.fetch conn call after).map (s.event format)
          count := (s.fetch conn call after).length
          lastValue := ((s.fetch conn call after).getLast?.map (s.content.keyOf s.pk)).bind id
          failed := false } := by
      rw [← foldl_advance, ← (hpages call (after.bind id)).1]
      rfl
    -- both stop at the first chunk that is not full
    rw [keysetLoop, hchunk, Keyset.paginate]
    have hsize : ((s.fetch conn call after).length : Int) < s.spec.chunkSize ↔
        (s.fetch conn call after).length < s.chunkSize := Int.ofNat_lt
    by_cases hshort : (s.fetch conn call after).length < s.chunkSize
    · rw [if_pos hshort]
      simp [hsize, hshort]
    · rw [if_neg hshort]
      simp [hsize, hshort, ih, Function.comp_def]

end Pages

/-! ### Which snapshots are complete -/

section Answers

variable {s} {conn : Conn V}

theorem Answers.fetchPrimaryKey_eq (hconn : s.Answers conn) :
    conn.fetchPrimaryKey s.schema s.table = some s.pk := by
  rw [Conn.fetchPrimaryKey, hconn.primaryKey_eq]
  rfl

/-- With accepted names the loop is reached. -/
theorem snapshotByPK_reached (hconn : s.Answers conn) (htable : validIdentifier s.table = true)
    (hpk : validIdentifier s.pk = true) (format : V → GoString) (fuel : Nat) :
    snapshotTable conn format s.schema s.table s.chunkSize fuel =
      keysetLoop conn format s.spec fuel 0 none := by
  simp only [snapshotTable, htable, hconn.columnNames_eq, hconn.fetchPrimaryKey_eq,
    if_pos s.pk_ne_nil, snapshotByPK, hpk]
  rfl

/-- And it ends. -/
theorem paginate_ends (hpages : s.Pages conn) :
    ∃ rows, Keyset.paginate (s.content.keyOf s.pk) s.chunkSize (s.fetch conn)
      (s.content.rows.length + 1) 0 none = some rows := by
  apply Option.isSome_iff_exists.mp
  apply Keyset.paginate_isSome (isPage_fetch hpages) s.chunkSize_pos
  rw [Keyset.remaining_none]
  exact Nat.lt_succ_self _

/-- With accepted names all depends on where the chunks end. -/
theorem emitsOnce_iff_aligned (hconn : s.Answers conn) (hpages : s.Pages conn)
    (htable : validIdentifier s.table = true) (hpk : validIdentifier s.pk = true)
    (format : V → GoString) : s.EmitsOnce conn format ↔ s.Aligned := by
  -- the loop returns every row once exactly when the chunks end between keys
  have hperm : ∀ {fuel rows},
      Keyset.paginate (s.content.keyOf s.pk) s.chunkSize (s.fetch conn) fuel 0 none = some rows →
      ((rows.map (s.event format)).Perm (s.content.rows.map (s.event format)) ↔ s.Aligned) := by
    intro fuel rows hrun
    have hiff := Keyset.paginate_perm_iff (isPage_fetch hpages) s.chunkSize_pos hrun
    have hlength := Keyset.paginate_perm_iff_length (isPage_fetch hpages) s.chunkSize_pos hrun
    constructor
    · intro h
      apply hiff.mp
      apply hlength.mpr
      simpa using h.length_eq
    · intro h
      exact (hiff.mpr h).map _
  have hloop : ∀ fuel, snapshotTable conn format s.schema s.table s.chunkSize fuel =
      (Keyset.paginate (s.content.keyOf s.pk) s.chunkSize (s.fetch conn) fuel 0 none).map
        fun rows => (rows.map (s.event format), none) := by
    intro fuel
    rw [snapshotByPK_reached hconn htable hpk, ← keysetLoop_eq hpages format fuel 0 none]
    rfl
  unfold EmitsOnce
  simp only [hloop]
  constructor
  · rintro ⟨fuel, events, hrun, hevents⟩
    obtain ⟨rows, hrows, heq⟩ := Option.map_eq_some_iff.mp hrun
    obtain rfl := (Prod.mk.inj heq).1
    exact (hperm hrows).mp hevents
  · intro haligned
    -- it ends, with fuel for every row
    obtain ⟨rows, hrun⟩ := paginate_ends hpages
    refine ⟨s.content.rows.length + 1, rows.map (s.event format), ?_, (hperm hrun).mpr haligned⟩
    rw [hrun]
    rfl

/-- Names that are not accepted end the snapshot with an error. -/
theorem names_of_emitsOnce (hconn : s.Answers conn) {format : V → GoString}
    (h : s.EmitsOnce conn format) :
    validIdentifier s.table = true ∧ validIdentifier s.pk = true := by
  obtain ⟨fuel, events, hrun, -⟩ := h
  unfold snapshotTable at hrun
  simp only [hconn.columnNames_eq, hconn.fetchPrimaryKey_eq, if_pos s.pk_ne_nil,
    snapshotByPK] at hrun
  -- the table is checked before the columns are read, the key before the first chunk
  cases htable : validIdentifier s.table with
  | false => simp [htable] at hrun
  | true =>
    cases hpk : validIdentifier s.pk with
    | false => simp [htable, hpk] at hrun
    | true => exact ⟨rfl, rfl⟩

/-- A key of one column never loses a row. -/
theorem once_of_single_column (hconn : s.Answers conn) (hpages : s.Pages conn)
    (htable : validIdentifier s.table = true) (hpk : validIdentifier s.pk = true)
    (hkey : s.content.key = [s.pk]) (format : V → GoString) : s.EmitsOnce conn format := by
  apply (emitsOnce_iff_aligned hconn hpages htable hpk format).mpr
  apply Keyset.aligned_of_nodup
  unfold List.Nodup
  rw [List.pairwise_map]
  apply s.content.key_distinct.imp
  intro a b hne heq
  apply hne
  rw [hkey, List.map_singleton, List.map_singleton]
  exact congrArg (fun v => [v]) heq

/-- The equivalence for a server whose chunks are pages of the table. -/
theorem emitsOnce_iff (hconn : s.Answers conn) (hpages : s.Pages conn) (format : V → GoString) :
    s.EmitsOnce conn format ↔
      validIdentifier s.table = true ∧ validIdentifier s.pk = true ∧ s.Aligned := by
  constructor
  · intro h
    obtain ⟨htable, hpk⟩ := names_of_emitsOnce hconn h
    exact ⟨htable, hpk, (emitsOnce_iff_aligned hconn hpages htable hpk format).mp h⟩
  · rintro ⟨htable, hpk, haligned⟩
    exact (emitsOnce_iff_aligned hconn hpages htable hpk format).mpr haligned

end Answers

/-! ### Servers -/

/-- A server that returns the same page for the same cursor, or fails. -/
def connOf (page : Option V → Reply V) : Conn V where
  query _ _ args :=
    match args with
    | .value v :: _ => page (some v)
    | _ => page none
  columnNames _ _ := some s.content.columns
  primaryKey _ _ := some (some s.pk)

/-- There is a server that answers as it should. -/
theorem exists_answers : ∃ conn, s.Answers conn ∧ s.Pages conn := by
  choose page hpage using fun lastValue : Option V =>
    Keyset.exists_isPage (s.content.keyOf s.pk) s.content.rows s.chunkSize
      (lastValue.map WithBot.some)
  have hpages : s.Pages (s.connOf fun lastValue => ⟨page lastValue, false⟩) := by
    intro call lastValue
    cases lastValue with
    | none => exact ⟨rfl, hpage none⟩
    | some v => exact ⟨rfl, hpage (some v)⟩
  exact ⟨_, ⟨rfl, rfl, fun _ => hpages⟩, hpages⟩

/-- With a quote in a name the server may refuse every query. -/
theorem queryable_of_emitsOnce {format : V → GoString}
    (h : ∀ conn, s.Answers conn → s.EmitsOnce conn format) : s.Queryable := by
  by_contra hquery
  have hconn : s.Answers (s.connOf fun _ => ⟨[], true⟩) := ⟨rfl, rfl, fun hq => absurd hq hquery⟩
  obtain ⟨htable, hpk⟩ := names_of_emitsOnce hconn (h _ hconn)
  obtain ⟨fuel, events, hrun, -⟩ := h _ hconn
  rw [snapshotByPK_reached hconn htable hpk] at hrun
  cases fuel with
  | zero => cases hrun
  | succ fuel => cases hrun

/-- Whatever order the server chooses for equal rows, every row is handed over once exactly when the
    names are accepted and no chunk ends between two rows with the same value in the chosen column;
    and no server can prevent it exactly when, besides, the query can be asked. -/
theorem snapshot_once_iff (s : KeysetSnapshot V) (format : V → GoString) :
    (∀ conn, s.Answers conn → s.Pages conn → (s.EmitsOnce conn format ↔
      validIdentifier s.table = true ∧ validIdentifier s.pk = true ∧ s.Aligned)) ∧
    ((∀ conn, s.Answers conn → s.EmitsOnce conn format) ↔
      validIdentifier s.table = true ∧ validIdentifier s.pk = true ∧ s.Queryable ∧ s.Aligned) := by
  refine ⟨fun conn hconn hpages => emitsOnce_iff hconn hpages format, ?_⟩
  constructor
  · intro h
    have hquery := s.queryable_of_emitsOnce h
    obtain ⟨conn, hconn, hpages⟩ := s.exists_answers
    obtain ⟨htable, hpk, haligned⟩ := (emitsOnce_iff hconn hpages format).mp (h conn hconn)
    exact ⟨htable, hpk, hquery, haligned⟩
  · rintro ⟨htable, hpk, hquery, haligned⟩ conn hconn
    exact (emitsOnce_iff hconn (hconn.pages hquery) format).mpr ⟨htable, hpk, haligned⟩

end KeysetSnapshot

/-! ### A key of two columns -/

/-- The members of organisations; organisation 1 has two. -/
def memberships : KeyedTable Nat where
  columns := [ascii "org", ascii "member"]
  key := [ascii "org", ascii "member"]
  rows := [[some 1, some 1], [some 1, some 2]]
  columns_named := by decide
  columns_nodup := by decide
  key_columns := by decide
  rows_width := by decide
  key_present := by decide
  key_distinct := by decide

/-- A server with these rows, which are in order already. -/
def membershipsConn : Conn Nat where
  query _ _ args :=
    match args with
    | [.int n] => ⟨memberships.rows.take n.toNat, false⟩
    | [.value v, .int n] =>
      ⟨(memberships.rows.filter
        (Keyset.past (memberships.keyOf (ascii "org")) (some (some v)))).take n.toNat, false⟩
    | _ => ⟨[], true⟩
  columnNames _ _ := some memberships.columns
  primaryKey _ _ := some (some (ascii "org"))

def membershipsSnapshot : KeysetSnapshot Nat where
  schema := ascii "public"
  table := ascii "memberships"
  content := memberships
  chunkSize := 1
  chunkSize_pos := by decide
  pk := ascii "org"
  pk_mem := by decide

theorem pages_memberships : membershipsSnapshot.Pages membershipsConn := by
  have hsorted : memberships.rows.Pairwise fun a b =>
      memberships.keyOf (ascii "org") a ≤ memberships.keyOf (ascii "org") b := by decide
  intro call lastValue
  cases lastValue with
  | none => exact ⟨rfl, memberships.rows, .refl _, hsorted, rfl⟩
  | some v => exact ⟨rfl, _, .refl _, hsorted.sublist List.filter_sublist, rfl⟩

/-- The second member is passed over: the chunk ends between the two rows. -/
theorem second_member_lost :
    membershipsSnapshot.Answers membershipsConn ∧ membershipsSnapshot.Pages membershipsConn ∧
      snapshotTable membershipsConn itoa (ascii "public") (ascii "memberships") 1 3 =
        some ([membershipsSnapshot.event itoa [some 1, some 1]], none) ∧
      ¬ membershipsSnapshot.EmitsOnce membershipsConn itoa := by
  have hconn : membershipsSnapshot.Answers membershipsConn :=
    ⟨rfl, rfl, fun _ => pages_memberships⟩
  refine ⟨hconn, pages_memberships, by decide, ?_⟩
  rw [KeysetSnapshot.emitsOnce_iff_aligned hconn pages_memberships (by decide) (by decide)]
  intro haligned
  exact haligned 1 [some 1, some 1] (by decide) (by decide)

end Postgres
