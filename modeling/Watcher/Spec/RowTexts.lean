import Watcher.Lib.Replica
import Watcher.Model.SnapshotChunked
import Watcher.Spec.KeyImage

/-!
# What a consumer reads from row events

A consumer that keeps the rows of a table by their key, each column as a text.
It takes the events of a snapshot and of the stream alike: the former write every
value as a string, the latter write numbers and booleans as such, and an UPDATE
leaves out the columns that were not sent.

## Key results

- `rowText_decodedRow`: a row image of the stream
- `read_snapshotEvent`: a row of a chunked snapshot
-/

namespace Postgres

open Cdc Jsonutil Json List

/-! ## Texts -/

/-- Columns with their texts; NULL is `none`. -/
abbrev TextRow := Replica.Row GoString (Option GoString)

abbrev TextOp := Replica.Op GoString GoString (Option GoString)

abbrev TextTable := Replica.State GoString GoString (Option GoString)

/-- The text of a member; arrays and objects have none. -/
def valueText : Value → Option (Option GoString)
  | .null => some none
  | .bool b => some (some (if b then ascii "true" else ascii "false"))
  | .number text => some (some text)
  | .string chars => some (some (nameBytes chars))
  | .array _ | .object _ => none

/-- The texts of the members of an object, by name. -/
def rowText (members : List (List Nat × Value)) : TextRow :=
  fun col => (lookup members col).bind valueText

/-- The text of a value of the column, given that of the server. -/
def ColumnDesc.shown (c : ColumnDesc) (text : GoString) : GoString :=
  if ValueKind.ofOID c.typeOID = .boolean then
    if text = ascii "t" then ascii "true" else ascii "false"
  else text

/-- What is shown for a value; nothing for one that was not sent. -/
def TupleValue.shown (c : ColumnDesc) : TupleValue → Option (Option GoString)
  | .null => some none
  | .unchanged => none
  | .text value _ => some (some (c.shown value))

/-- The column is not of a json type, and the server's text is one of its type, in UTF-8. -/
structure ColumnDesc.Shows (c : ColumnDesc) (text : GoString) : Prop where
  utf8 : Utf8.IsValid text
  not_json : ValueKind.ofOID c.typeOID ≠ .json
  number : ValueKind.ofOID c.typeOID = .number → IsNumericOutput c.typeOID text ∧ text ∉ nonFinite

/-- What is shown is UTF-8. -/
theorem ColumnDesc.Shows.isValid_shown {c : ColumnDesc} {text : GoString} (h : c.Shows text) :
    Utf8.IsValid (c.shown text) := by
  unfold ColumnDesc.shown
  split
  · split
    · exact ⟨['t', 'r', 'u', 'e'], by decide⟩
    · exact ⟨['f', 'a', 'l', 's', 'e'], by decide⟩
  · exact h.utf8

/-- A value that is sent is shown as its text. -/
def TupleValue.Readable (c : ColumnDesc) : TupleValue → Prop
  | .text value _ => c.Shows value
  | _ => True

/-- The server can have produced it. -/
theorem TupleValue.Readable.producible {c : ColumnDesc} {v : TupleValue} (h : v.Readable c) :
    v.Producible c := by
  cases v with
  | text value fits => exact fun hkind => (ColumnDesc.Shows.number h hkind).1
  | _ => trivial

/-- It has a representation at any depth: it does not nest. -/
theorem TupleValue.Readable.representable {c : ColumnDesc} {v : TupleValue} (h : v.Readable c)
    (depth : Nat) : v.Representable depth c := by
  cases v with
  | text value fits =>
    have hshows : c.Shows value := h
    -- numbers must be finite, and there are no json columns
    simp only [TupleValue.Representable]
    split
    · rename_i hkind
      exact (hshows.number hkind).2
    · rename_i hkind
      exact absurd hkind hshows.not_json
    · trivial
  | _ => trivial

/-- A text between quotes is read as itself. -/
theorem read_quoted {s : GoString} (h : Utf8.IsValid s) :
    (read (quoted s)).bind valueText = some (some s) := by
  have hread : read (quoted s) = some (.string (Utf8.runes s)) :=
    (renders_string 0 (escapeString_safe s) (escapeString_reads s)).read
  rw [hread, Option.bind_some, valueText, nameBytes_runes h]

/-- What is written for a value is read as its text. -/
theorem TupleValue.read_json {c : ColumnDesc} {v : TupleValue} (h : v.Readable c) :
    ((v.json (ValueKind.ofOID c.typeOID)).bind read).bind valueText = v.shown c := by
  cases v with
  | null => exact congrArg (fun x => Option.bind x valueText) (renders_null 0).read
  | unchanged => rfl
  | text value fits =>
    have hshows : c.Shows value := h
    -- what is written depends on the type of the column
    cases hkind : ValueKind.ofOID c.typeOID with
    | number =>
      have hnumber := (hshows.number hkind).1.number_or_nonFinite.resolve_right
        (hshows.number hkind).2
      have hread := (renders_number 0 hnumber).read
      simp [TupleValue.json, TupleValue.shown, ColumnDesc.shown, hkind, hread, valueText]
    | boolean =>
      have htrue : read (ascii "true") = some (.bool true) := (renders_true 0).read
      have hfalse : read (ascii "false") = some (.bool false) := (renders_false 0).read
      by_cases ht : value = ascii "t"
      · simp [TupleValue.json, TupleValue.shown, ColumnDesc.shown, hkind, ht, htrue, valueText]
      · simp [TupleValue.json, TupleValue.shown, ColumnDesc.shown, hkind, ht, hfalse, valueText]
    | json => exact absurd hkind hshows.not_json
    | string =>
      have hread := read_quoted hshows.utf8
      simpa [TupleValue.json, TupleValue.shown, ColumnDesc.shown, hkind] using hread

/-! ## Members by name -/

/-- Looking a member up by its name finds the thing that was named so. -/
theorem lookup_named {α : Type} (name : α → GoString) {value : α → Value} {as : List α}
    (hnames : ∀ a ∈ as, Utf8.IsValid (name a)) (hnodup : (as.map name).Nodup) (col : GoString) :
    lookup (as.map fun a => (Utf8.runes (name a), value a)) col =
      (as.find? fun a => name a = col).map value := by
  have hbytes : ∀ a ∈ as, nameBytes (Utf8.runes (name a)) = name a :=
    fun a ha => nameBytes_runes (hnames a ha)
  have hdistinct : ((as.map fun a => (Utf8.runes (name a), value a)).map
      fun m => nameBytes m.1).Nodup := by
    rw [map_map]
    exact (map_congr_left hbytes).symm ▸ hnodup
  -- names are distinct, so the first one found is the only one
  apply Option.ext
  intro x
  rw [lookup_eq_some_iff hdistinct]
  constructor
  · rintro ⟨m, hm, hcol, hx⟩
    obtain ⟨a, ha, rfl⟩ := mem_map.mp hm
    have hname : name a = col := (hbytes a ha).symm.trans hcol
    have hfind : as.find? (fun a => name a = col) = some a := by
      obtain ⟨b, hb⟩ : ∃ b, as.find? (fun a => name a = col) = some b :=
        Option.isSome_iff_exists.mp (find?_isSome.mpr ⟨a, ha, by simpa using hname⟩)
      have hb' : name b = col := by simpa using find?_some hb
      rw [hb, inj_on_of_nodup_map hnodup (mem_of_find?_eq_some hb) ha
        (hb'.trans hname.symm)]
    rw [hfind]
    exact congrArg some hx
  · intro hx
    obtain ⟨a, ha, rfl⟩ := Option.map_eq_some_iff.mp hx
    have hmem := mem_of_find?_eq_some ha
    refine ⟨_, mem_map_of_mem hmem, (hbytes a hmem).trans ?_, rfl⟩
    simpa using find?_some ha

/-! ## Row images of the stream -/

variable {rel : RelationDesc}

/-- The texts of an image: those of the columns it is about whose value was sent. -/
def RelationDesc.texts (rel : RelationDesc) (kind : ImageKind) (t : List TupleValue) : TextRow :=
  fun col => ((rel.columns.zip t).find? fun cv => cv.1.name = col).bind fun cv =>
    if kind = .key ∧ ¬cv.1.isKey then none else cv.2.shown cv.1

/-- Every value of the tuple is read as its text. -/
def RelationDesc.Readable (rel : RelationDesc) (t : List TupleValue) : Prop :=
  ∀ cv ∈ rel.columns.zip t, cv.2.Readable cv.1

/-- The columns of a row have distinct names. -/
theorem nodup_zip_names (rel : RelationDesc) {α : Type} {t : List α}
    (hlen : t.length = rel.columns.length) :
    ((rel.columns.zip t).map fun cv => cv.1.name).Nodup := by
  have hfst := map_fst_zip (Nat.le_of_eq hlen.symm)
  have hnodup := rel.columns_nodup
  rw [← hfst, map_map] at hnodup
  exact hnodup

/-- The row image of an event is read as the texts of the columns that were sent. -/
theorem rowText_decodedRow (hnames : ∀ c ∈ rel.columns, Utf8.IsValid c.name) (kind : ImageKind)
    {t : List TupleValue} (hlen : t.length = rel.columns.length) (hread : rel.Readable t) :
    rowText (decodedRow kind rel.columns t) = rel.texts kind t := by
  funext col
  -- the cell of a column is that of the value at its place
  have hcells : (imageCells kind rel.columns t).find? (fun cell => cell.1.name = col) =
      ((rel.columns.zip t).find? fun cv => cv.1.name = col).bind fun cv =>
        if kind = .key ∧ ¬cv.1.isKey then none
        else (cv.2.json (ValueKind.ofOID cv.1.typeOID)).map fun j => (cv.1, j) := by
    refine find?_filterMap_of_nodup
      (g := fun cell : ColumnDesc × GoString => cell.1.name)
      (k := fun cv : ColumnDesc × TupleValue => cv.1.name) (fun cv cell h => ?_)
      (nodup_zip_names rel hlen) col
    simp only at h
    split at h
    · cases h
    · obtain ⟨j, -, rfl⟩ := Option.map_eq_some_iff.mp h
      rfl
  rw [rowText, decodedRow, lookup_named (fun cell => cell.1.name)
    (fun cell hcell => hnames _ (mem_imageCells hcell).1) (nodup_imageCells kind rel hlen), hcells,
    RelationDesc.texts]
  -- a column the relation does not have is in neither row
  cases hfind : (rel.columns.zip t).find? fun cv => cv.1.name = col with
  | none => rfl
  | some cv =>
    obtain ⟨c, v⟩ := cv
    have hv : v.Readable c := hread _ (mem_of_find?_eq_some hfind)
    simp only [Option.bind_some]
    split
    · rfl
    · rw [← TupleValue.read_json hv]
      cases hj : v.json (ValueKind.ofOID c.typeOID) with
      | none => rfl
      | some j =>
        obtain ⟨x, hx⟩ := renders_value hj hv.producible (hv.representable 0)
        simp only [Option.map_some, Option.bind_some, hx.read, Option.getD_some]

section Readable

variable {t : List TupleValue} (h : rel.Readable t)
include h

/-- The server can have produced the image. -/
theorem RelationDesc.Readable.producible : ImageProducible rel t :=
  fun cv hcv => (h cv hcv).producible

/-- It has a representation at any depth. -/
theorem RelationDesc.Readable.representable (depth : Nat) (kind : ImageKind) :
    ImageRepresentable depth rel kind t :=
  fun cv hcv => (h cv (mem_filter.mp hcv).1).representable depth

/-- It decodes to its columns. -/
theorem RelationDesc.Readable.read_image (kind : ImageKind) :
    read (rel.image kind t) = some (.object (decodedRow kind rel.columns t)) :=
  (renders_image h.producible (h.representable 0 kind)).read

end Readable

/-! ## Rows of a snapshot -/

variable {V : Type}

/-- The members as `Json.object` writes them. -/
theorem snapshotMembers_eq (format : V → GoString) (row : SqlRow V) (cols : List GoString)
    (before : SqlRow V) (vs : SqlRow V) (hrow : row = before ++ vs)
    (hlen : vs.length = cols.length) :
    snapshotMembers format row before.length cols =
      if 0 < before.length then
        ((cols.zip vs).map fun cv => (escapeString cv.1, snapshotCell format cv.2)).flatMap
          fun m => [0x2c, 0x20] ++ member m
      else members ((cols.zip vs).map fun cv => (escapeString cv.1, snapshotCell format cv.2)) := by
  -- on the columns; those before give the index and the separator
  induction cols generalizing before vs with
  | nil =>
    rw [snapshotMembers]
    split <;> rfl
  | cons col cols ih =>
    cases vs with
    | nil => cases hlen
    | cons v vs =>
      -- the value at the index is the next one
      have hcell : row[before.length]?.join = v := by simp [hrow]
      have hnext := ih (before ++ [v]) vs (by simp [hrow]) (by simpa using hlen)
      rw [length_append, length_singleton, if_pos (Nat.succ_pos _)] at hnext
      rw [snapshotMembers, hcell, hnext]
      have hsep : ascii ", " = [0x2c, 0x20] := rfl
      have hcolon : ascii "\":" = [0x22, 0x3a] := rfl
      split
      · simp [hsep, hcolon, member]
      · simp [hcolon, member, members]

/-- The value that a snapshot writes is read as a string. -/
def snapshotValue (format : V → GoString) : Option V → Value
  | none => .null
  | some v => .string (Utf8.runes (format v))

/-- It decodes to the value that a snapshot is read as. -/
theorem renders_snapshotCell (d : Nat) (format : V → GoString) (x : Option V) :
    Renders d (snapshotCell format x) (snapshotValue format x) := by
  cases x with
  | none => exact renders_null d
  | some v =>
    have hstring := renders_string d (escapeString_safe (format v)) (escapeString_reads (format v))
    simpa [snapshotCell, snapshotValue] using hstring

/-- A row of a snapshot decodes to its columns, every value but NULL as a string. -/
theorem read_snapshotEvent (format : V → GoString) (schema table : GoString)
    {cols : List GoString} {row : SqlRow V} (hlen : row.length = cols.length) :
    read (buildSnapshotEvent format schema table cols row).data =
      some (.object ((cols.zip row).map fun cv =>
        (Utf8.runes cv.1, snapshotValue format cv.2))) := by
  have hdata : (buildSnapshotEvent format schema table cols row).data =
      object ((cols.zip row).map fun cv => (escapeString cv.1, snapshotCell format cv.2)) := by
    have hmembers := snapshotMembers_eq format row cols [] row rfl hlen
    rw [length_nil, if_neg (Nat.lt_irrefl 0)] at hmembers
    simp [buildSnapshotEvent, newEvent, hmembers, object]
  rw [hdata]
  exact (renders_object (cols.zip row) (fun cv _ => escapeString_safe cv.1)
    (fun cv _ => escapeString_reads cv.1) fun cv _ => renders_snapshotCell 0 format cv.2).read

/-! ## The consumer -/

structure Consumer where
  schema : GoString
  table : GoString
  /-- The column rows are kept by. -/
  pk : GoString

namespace Consumer

variable (c : Consumer)

/-- The key of a row, if it was sent and is not NULL. -/
def keyOf (row : TextRow) : Option GoString := (row c.pk).join

/-- A row without a key is not kept. -/
def insertOps (row : TextRow) : List TextOp :=
  match c.keyOf row with
  | some k => [.put k row]
  | none => []

/-- A row whose key changed is a new one; otherwise columns that were not sent stay. -/
def updateOps (old : Option TextRow) (new : TextRow) : List TextOp :=
  match old.bind c.keyOf, c.keyOf new with
  | some k', some k => if k' = k then [.patch k new] else [.remove k', .put k new]
  | none, some k => [.patch k new]
  | _, none => []

/-- The row is dropped by its key. -/
def deleteOps (row : TextRow) : List TextOp :=
  match c.keyOf row with
  | some k => [.remove k]
  | none => []

/-- An image of the data of an UPDATE. -/
def image (members : List (List Nat × Value)) (name : GoString) : Option TextRow :=
  match lookup members name with
  | some (.object row) => some (rowText row)
  | _ => none

/-- What an event of this type does, given its data. -/
def dataOps (type : EventType) (members : List (List Nat × Value)) : List TextOp :=
  match type with
  | .insert => c.insertOps (rowText members)
  | .update =>
    match image members (ascii "new") with
    | some new => c.updateOps (image members (ascii "old")) new
    | none => []
  | .delete => c.deleteOps (rowText members)
  | _ => []

/-- What the consumer does with an event. -/
def ops (e : Event) : List TextOp :=
  if e.schema = c.schema ∧ e.table = c.table then
    if e.type = .truncate then [.clear]
    else
      match read e.data with
      | some (.object members) => c.dataOps e.type members
      | _ => []
  else []

/-- The rows after a list of events. -/
def consume (s : TextTable) (events : List Event) : TextTable :=
  Replica.replay s (events.flatMap c.ops)

end Consumer

end Postgres
