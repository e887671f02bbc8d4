import Watcher.Spec.RowTexts
import Watcher.Spec.SnapshotKeyset

/-!
# The changes of a table and their events

A table with a primary key of one column, its changes as the stream reports
them, and what the consumer of `RowTexts` makes of the events. Assumed of the
table is that the snapshot writes values as the stream does and that the texts
of different keys differ; assumed of the changes that an UPDATE that changes the
key sends every column.

## Key results

- `RowsFit.contents_apply`: what a change means for the rows by key
- `consume_events`: the events of a change say the same
- `Carries.consume`: so does a stream that carries changes
-/

namespace Postgres

open Cdc Json List Option

/-- A table whose primary key is one column, with the types of its columns. -/
structure TableDesc (V : Type) where
  rel : RelationDesc
  pk : ColumnDesc
  HasType : ColumnDesc → V → Prop
  /-- The text that the server sends for a value. -/
  output : V → GoString
  /-- What the verb `%v` writes for a value. -/
  format : V → GoString
  pk_mem : pk ∈ rel.columns
  pk_key : pk.isKey = true
  names_utf8 : ∀ c ∈ rel.columns, Utf8.IsValid c.name
  output_fits : ∀ v, (output v).length < 2 ^ 32
  shows : ∀ c v, HasType c v → c.Shows (output v)
  format_eq : ∀ c v, HasType c v → format v = c.shown (output v)
  pk_inj : ∀ v w, HasType pk v → HasType pk w → pk.shown (output v) = pk.shown (output w) → v = w

/-- A change of a table, and how it is reported: the columns of an UPDATE that are not sent since
    they were stored apart and did not change, and the image of the old row. -/
inductive RowChange (V : Type) where
  | insert (row : SqlRow V)
  | update (old new : SqlRow V) (kept : List GoString) (image : Option ImageKind)
  | delete (row : SqlRow V) (image : ImageKind)
  | truncate (options : UInt8) (ids : List UInt32) (fits : ids.length < 2 ^ 32)

namespace TableDesc

variable {V : Type} (t : TableDesc V)

/-- The names of the columns. -/
def columns : List GoString := t.rel.columns.map ColumnDesc.name

/-- The value of a row in the primary key. -/
def key (row : SqlRow V) : Option V := cell t.columns t.pk.name row

/-- The texts of a row. -/
def texts (row : SqlRow V) : TextRow :=
  fun col => ((t.rel.columns.zip row).find? fun cv => cv.1.name = col).map fun cv =>
    cv.2.map fun v => cv.1.shown (t.output v)

/-- The text of the key of a row. -/
def keyText (row : SqlRow V) : GoString :=
  ((t.key row).map fun v => t.pk.shown (t.output v)).getD []

/-- A row that the table can have. -/
structure RowFits (row : SqlRow V) : Prop where
  width : row.length = t.rel.columns.length
  typed : ∀ c v, (c, some v) ∈ t.rel.columns.zip row → t.HasType c v
  key : (t.key row).isSome = true

/-- Rows that the table can have at one time. -/
structure RowsFit (rows : List (SqlRow V)) : Prop where
  fits : ∀ row ∈ rows, t.RowFits row
  distinct : (rows.map t.key).Nodup

/-- The rows by the text of their key. -/
def contents (rows : List (SqlRow V)) : TextTable :=
  fun k => (rows.find? fun row => t.keyText row = k).map t.texts

/-! ### Rows -/

variable {t} {row row' : SqlRow V} {rows : List (SqlRow V)}

theorem cell_eq_find {cs : List ColumnDesc} (col : GoString) (row : SqlRow V) :
    cell (cs.map ColumnDesc.name) col row =
      ((cs.zip row).find? fun cv => cv.1.name = col).bind Prod.snd := by
  induction cs generalizing row with
  | nil => rfl
  | cons c cs ih =>
    cases row with
    | nil =>
      have hnone : cell ((c :: cs).map ColumnDesc.name) col ([] : SqlRow V) = none := by
        unfold cell
        split <;> rfl
      rw [hnone]
      rfl
    | cons v row =>
      have hrest := ih row
      unfold cell at hrest ⊢
      rw [map_cons, idxOf?_cons, zip_cons_cons, find?_cons]
      by_cases hc : c.name = col
      · simp [hc]
      · simp only [beq_eq_false_iff_ne.mpr hc, hc, decide_false, Bool.false_eq_true, ↓reduceIte]
        rw [← hrest]
        cases (cs.map ColumnDesc.name).idxOf? col <;> rfl

theorem RowFits.find_pk (h : t.RowFits row) : ∃ v, t.key row = some v ∧ t.HasType t.pk v ∧
    ((t.rel.columns.zip row).find? fun cv => cv.1.name = t.pk.name) = some (t.pk, some v) := by
  obtain ⟨v, hv⟩ := isSome_iff_exists.mp h.key
  have hkey := hv
  rw [TableDesc.key, columns, cell_eq_find, bind_eq_some_iff] at hkey
  obtain ⟨⟨c, x⟩, hfind, hx⟩ := hkey
  have hmem := mem_of_find?_eq_some hfind
  have hname : c.name = t.pk.name := by simpa using find?_some hfind
  have hc : c = t.pk := inj_on_of_nodup_map t.rel.columns_nodup (of_mem_zip hmem).1
    t.pk_mem hname
  have hx' : x = some v := hx
  rw [hc, hx'] at hmem hfind
  exact ⟨v, hv, h.typed t.pk v hmem, hfind⟩

theorem RowFits.texts_pk (h : t.RowFits row) :
    t.texts row t.pk.name = some (some (t.keyText row)) := by
  obtain ⟨v, hv, -, hfind⟩ := h.find_pk
  simp [texts, keyText, hfind, hv]

theorem RowFits.keyText_inj (h : t.RowFits row) (h' : t.RowFits row') :
    t.keyText row = t.keyText row' ↔ t.key row = t.key row' := by
  obtain ⟨v, hv, htype, -⟩ := h.find_pk
  obtain ⟨v', hv', htype', -⟩ := h'.find_pk
  constructor
  · intro heq
    simp only [keyText, hv, hv', map_some, getD_some] at heq
    rw [hv, hv', t.pk_inj v v' htype htype' heq]
  · intro heq
    rw [keyText, keyText, heq]

/-- Which columns there are does not depend on the row. -/
theorem RowFits.find_isSome (h : t.RowFits row) (h' : t.RowFits row') (col : GoString) :
    ((t.rel.columns.zip row).find? fun cv => cv.1.name = col).map Prod.fst =
      ((t.rel.columns.zip row').find? fun cv => cv.1.name = col).map Prod.fst := by
  have hfind : ∀ r : SqlRow V, r.length = t.rel.columns.length →
      ((t.rel.columns.zip r).find? fun cv => cv.1.name = col).map Prod.fst =
        t.rel.columns.find? fun c => c.name = col := by
    intro r hr
    have hfst := map_fst_zip (Nat.le_of_eq hr.symm)
    conv => rhs; rw [← hfst, find?_map]
    rfl
  rw [hfind row h.width, hfind row' h'.width]

/-! ### Contents -/

/-- A row is found by the text of its key. -/
theorem RowsFit.contents_eq (h : t.RowsFit rows) (hrow : row ∈ rows) :
    t.contents rows (t.keyText row) = some (t.texts row) := by
  have hfound : (rows.find? fun r => t.keyText r = t.keyText row).isSome = true :=
    find?_isSome.mpr ⟨row, hrow, by simp⟩
  obtain ⟨r, hr⟩ := isSome_iff_exists.mp hfound
  have hmem := mem_of_find?_eq_some hr
  have hkey : t.keyText r = t.keyText row := by simpa using find?_some hr
  have hsame : t.key r = t.key row :=
    ((h.fits r hmem).keyText_inj (h.fits row hrow)).mp hkey
  rw [contents, hr, inj_on_of_nodup_map h.distinct hmem hrow hsame]
  rfl

/-- What is found is a row. -/
theorem contents_eq_some {k : GoString} {x : TextRow} (h : t.contents rows k = some x) :
    ∃ row ∈ rows, t.keyText row = k ∧ t.texts row = x := by
  obtain ⟨row, hrow, rfl⟩ := map_eq_some_iff.mp h
  exact ⟨row, mem_of_find?_eq_some hrow, by simpa using find?_some hrow, rfl⟩

/-- What is not found is not there. -/
theorem contents_eq_none {k : GoString} (h : t.contents rows k = none) :
    ∀ row ∈ rows, t.keyText row ≠ k := by
  intro row hrow
  rw [contents, map_eq_none_iff, find?_eq_none] at h
  simpa using h row hrow

theorem contents_cons (row : SqlRow V) (rows : List (SqlRow V)) :
    t.contents (row :: rows) =
      Replica.Op.apply (t.contents rows) (.put (t.keyText row) (t.texts row)) := by
  funext k
  by_cases hk : t.keyText row = k
  · simp [contents, Replica.Op.apply, Replica.Op.effect, hk]
  · simp [contents, Replica.Op.apply, Replica.Op.effect, hk]

/-- Dropping rows. -/
theorem RowsFit.filter (h : t.RowsFit rows) (p : SqlRow V → Bool) : t.RowsFit (rows.filter p) where
  fits r hr := h.fits r (mem_filter.mp hr).1
  distinct := h.distinct.sublist (filter_sublist.map t.key)

/-- Adding one with a new key. -/
theorem RowsFit.cons (h : t.RowsFit rows) (hrow : t.RowFits row)
    (hnew : ∀ r ∈ rows, t.key r ≠ t.key row) : t.RowsFit (row :: rows) where
  fits := forall_mem_cons.mpr ⟨hrow, h.fits⟩
  distinct := by
    rw [map_cons, nodup_cons]
    refine ⟨fun hmem => ?_, h.distinct⟩
    obtain ⟨r, hr, heq⟩ := mem_map.mp hmem
    exact hnew r hr heq

/-! ### Changes -/

/-- The change is one that the rows can undergo, reported as PostgreSQL reports it. -/
def ChangeFits (t : TableDesc V) (rows : List (SqlRow V)) : RowChange V → Prop
  | .insert row => t.RowFits row ∧ ∀ r ∈ rows, t.key r ≠ t.key row
  | .update old new kept image => old ∈ rows ∧ t.RowFits new ∧
      (∀ col ∈ kept, cell t.columns col old = cell t.columns col new) ∧ t.pk.name ∉ kept ∧
      (t.key new = t.key old ∨
        (∀ r ∈ rows, t.key r ≠ t.key new) ∧ kept = [] ∧ image.isSome = true)
  | .delete row _ => row ∈ rows
  | .truncate _ ids _ => t.rel.id ∈ ids

/-- The texts of the columns that are sent. -/
def sentTexts (t : TableDesc V) (kept : List GoString) (row : SqlRow V) : TextRow :=
  fun col => if kept.contains col then none else t.texts row col

variable {old new : SqlRow V} {cat : Catalog} {c : RowChange V} {cfg : Config}
    {cs : List (RowChange V)}

/-- The columns that are sent, over the old row, are the new row. -/
theorem RowFits.patch_sentTexts (hold : t.RowFits old) (hnew : t.RowFits new)
    {kept : List GoString} (hkept : ∀ col ∈ kept, cell t.columns col old = cell t.columns col new) :
    (t.sentTexts kept new).patch (t.texts old) = t.texts new := by
  funext col
  have hcols := hold.find_isSome hnew col
  simp only [Replica.Row.patch, sentTexts]
  split
  · rename_i hmem
    have hcell := hkept col (by simpa using hmem)
    rw [columns, cell_eq_find, cell_eq_find] at hcell
    rw [none_or, texts, texts]
    cases ho : (t.rel.columns.zip old).find? fun cv => cv.1.name = col with
    | none =>
      rw [ho, map_none] at hcols
      rw [map_eq_none_iff.mp hcols.symm]
    | some co =>
      rw [ho, map_some] at hcols
      obtain ⟨cn, hn, hfst⟩ := map_eq_some_iff.mp hcols.symm
      rw [ho, hn] at hcell
      have hpair : cn = co := Prod.ext hfst hcell.symm
      rw [hn, hpair]
  · cases ho : (t.rel.columns.zip new).find? fun cv => cv.1.name = col with
    | none =>
      rw [ho, map_none, map_eq_none_iff] at hcols
      simp [texts, ho, hcols]
    | some co => simp [texts, ho]

/-- What a change does to the rows by key. -/
def changeOps (t : TableDesc V) : RowChange V → List TextOp
  | .insert row => [.put (t.keyText row) (t.texts row)]
  | .update old new kept _ =>
    if t.keyText old = t.keyText new then [.patch (t.keyText new) (t.sentTexts kept new)]
    else [.remove (t.keyText old), .put (t.keyText new) (t.texts new)]
  | .delete row _ => [.remove (t.keyText row)]
  | .truncate _ _ _ => [.clear]

/-! ### Messages -/

/-- A value as it is sent. -/
def value (t : TableDesc V) : Option V → TupleValue
  | none => .null
  | some v => .text (t.output v) (t.output_fits v)

/-- A row as it is sent, without the columns in `kept`. -/
def sent (t : TableDesc V) (kept : List GoString) (row : SqlRow V) : List TupleValue :=
  (t.rel.columns.zip row).map fun cv =>
    if kept.contains cv.1.name then .unchanged else t.value cv.2

/-- The image of an old row. -/
def oldTuple (t : TableDesc V) (row : SqlRow V) : ImageKind → List TupleValue
  | .key => keyTuple t.rel.columns (t.sent [] row)
  | .full => t.sent [] row

/-- The message that reports a change. -/
def message (t : TableDesc V) : RowChange V → Message
  | .insert row => .insert t.rel.id (t.sent [] row)
  | .update old new kept image =>
    .update t.rel.id (image.map fun kind => (kind, t.oldTuple old kind)) (t.sent kept new)
  | .delete row image => .delete t.rel.id image (t.oldTuple row image)
  | .truncate options ids fits => .truncate options ids fits

theorem learn_message (cat : Catalog) (c : RowChange V) : cat.learn (t.message c) = cat := by
  cases c <;> rfl

private theorem zip_map_zip {α β γ : Type _} (as : List α) (bs : List β) (f : α × β → γ) :
    as.zip ((as.zip bs).map f) = (as.zip bs).map fun x => (x.1, f x) := by
  induction as generalizing bs with
  | nil => rfl
  | cons a as ih =>
    cases bs with
    | nil => rfl
    | cons b bs =>
      rw [zip_cons_cons, map_cons, zip_cons_cons, ih, map_cons]

theorem RowFits.length_sent (h : t.RowFits row) (kept : List GoString) :
    (t.sent kept row).length = t.rel.columns.length := by
  rw [sent, length_map, length_zip, h.width, Nat.min_self]

/-- And so is an old one. -/
theorem RowFits.length_oldTuple (h : t.RowFits row) (kind : ImageKind) :
    (t.oldTuple row kind).length = t.rel.columns.length := by
  cases kind with
  | key => exact length_keyTuple (h.length_sent [])
  | full => exact h.length_sent []

/-- What is sent is read as its texts. -/
theorem RowFits.readable_sent (h : t.RowFits row) (kept : List GoString) :
    t.rel.Readable (t.sent kept row) := by
  intro cv hcv
  rw [sent, zip_map_zip] at hcv
  obtain ⟨⟨c, x⟩, hx, rfl⟩ := mem_map.mp hcv
  dsimp only
  split
  · trivial
  · cases x with
    | none => trivial
    | some v => exact t.shows c v (h.typed c v hx)

/-- And so is what is sent of an old row. -/
theorem RowFits.readable_oldTuple (h : t.RowFits row) (kind : ImageKind) :
    t.rel.Readable (t.oldTuple row kind) := by
  cases kind with
  | full => exact h.readable_sent []
  | key =>
    intro cv hcv
    obtain ⟨v, hv, heq⟩ := mem_zip_keyTuple hcv
    rw [heq]
    split
    · exact h.readable_sent [] _ hv
    · trivial

theorem fitsCatalog_message (hrel : cat t.rel.id = some t.rel) (h : t.RowsFit rows)
    (hc : t.ChangeFits rows c) : (t.message c).FitsCatalog cat := by
  cases c with
  | insert row =>
    intro rel' hrel'
    cases hrel.symm.trans hrel'
    exact hc.1.length_sent []
  | update old new kept image =>
    intro rel' hrel'
    cases hrel.symm.trans hrel'
    refine ⟨hc.2.1.length_sent kept, fun kind tuple heq => ?_⟩
    obtain ⟨kind', -, hkind⟩ := map_eq_some_iff.mp heq
    cases hkind
    exact (h.fits old hc.1).length_oldTuple kind
  | delete row image =>
    intro rel' hrel'
    cases hrel.symm.trans hrel'
    exact (h.fits row hc).length_oldTuple image
  | truncate options ids fits => trivial

theorem texts_sent (t : TableDesc V) (kept : List GoString) (row : SqlRow V) :
    t.rel.texts .full (t.sent kept row) = t.sentTexts kept row := by
  funext col
  rw [RelationDesc.texts, sent, zip_map_zip, find?_map, sentTexts, texts]
  show Option.bind (Option.map _ ((t.rel.columns.zip row).find? fun cv => cv.1.name = col)) _ = _
  cases hfind : (t.rel.columns.zip row).find? fun cv => cv.1.name = col with
  | none =>
    rw [map_none, map_none, bind_none]
    split <;> rfl
  | some cv =>
    obtain ⟨c, x⟩ := cv
    have hname : c.name = col := by simpa using find?_some hfind
    simp only [map_some, bind_some, reduceCtorEq, false_and, ↓reduceIte, hname]
    split
    · rfl
    · cases x <;> rfl

theorem sentTexts_nil (t : TableDesc V) (row : SqlRow V) : t.sentTexts [] row = t.texts row := rfl

/-- An old row is found by its key whatever its image. -/
theorem RowFits.texts_oldTuple (h : t.RowFits row) (kind : ImageKind) :
    t.rel.texts kind (t.oldTuple row kind) t.pk.name = some (some (t.keyText row)) := by
  have hfull : t.rel.texts .full (t.sent [] row) t.pk.name = some (some (t.keyText row)) := by
    rw [texts_sent, sentTexts_nil, h.texts_pk]
  cases kind with
  | full => exact hfull
  | key =>
    rw [← hfull, RelationDesc.texts, RelationDesc.texts, oldTuple, keyTuple, zip_map_zip, find?_map]
    show Option.bind (Option.map _ ((t.rel.columns.zip (t.sent [] row)).find?
      fun cv => cv.1.name = t.pk.name)) _ = _
    cases hfind : (t.rel.columns.zip (t.sent [] row)).find? fun cv => cv.1.name = t.pk.name with
    | none => rfl
    | some cv =>
      obtain ⟨c, x⟩ := cv
      have hname : c.name = t.pk.name := by simpa using find?_some hfind
      have hc : c = t.pk := inj_on_of_nodup_map t.rel.columns_nodup
        (of_mem_zip (mem_of_find?_eq_some hfind)).1 t.pk_mem hname
      simp [hc, t.pk_key]

/-! ### Events -/

/-- The consumer of the table. -/
def consumer (t : TableDesc V) : Consumer := ⟨t.rel.nameSpace, t.rel.name, t.pk.name⟩

theorem RowFits.rowText_sent (h : t.RowFits row) (kept : List GoString) :
    rowText (decodedRow .full t.rel.columns (t.sent kept row)) = t.sentTexts kept row := by
  rw [rowText_decodedRow t.names_utf8 .full (h.length_sent kept) (h.readable_sent kept), texts_sent]

/-- It finds the key, which is sent. -/
theorem RowFits.keyOf_sentTexts (h : t.RowFits row) (kept : List GoString)
    (hpk : t.pk.name ∉ kept) : t.consumer.keyOf (t.sentTexts kept row) = some (t.keyText row) := by
  have hnot : kept.contains t.pk.name = false := by simpa using hpk
  show (t.sentTexts kept row t.pk.name).join = _
  rw [sentTexts, hnot, if_neg Bool.false_ne_true, h.texts_pk]
  rfl

theorem RowFits.keyOf_texts (h : t.RowFits row) :
    t.consumer.keyOf (t.texts row) = some (t.keyText row) :=
  h.keyOf_sentTexts [] not_mem_nil

theorem RowFits.keyOf_oldTuple (h : t.RowFits row) (kind : ImageKind) :
    t.consumer.keyOf (rowText (decodedRow kind t.rel.columns (t.oldTuple row kind))) =
      some (t.keyText row) := by
  rw [rowText_decodedRow t.names_utf8 kind (h.length_oldTuple kind) (h.readable_oldTuple kind)]
  show (t.rel.texts kind (t.oldTuple row kind) t.pk.name).join = _
  rw [h.texts_oldTuple kind]
  rfl

/-- An event of the table's rows. -/
theorem ops_rowEvent {type : EventType} (htype : type ≠ .truncate) {data : GoString}
    {members : List (List Nat × Value)} (hread : read data = some (.object members))
    (rawMessage lsn : GoString) :
    t.consumer.ops (Config.rowEvent type t.rel data rawMessage lsn) =
      t.consumer.dataOps type members := by
  simp [Consumer.ops, Config.rowEvent, newEvent, consumer, htype, hread]

/-- The data of an UPDATE without an old image. -/
theorem RowFits.read_updateData_none (h : t.RowFits row) (kept : List GoString) :
    read (t.rel.updateData none (t.sent kept row)) = some (.object
      [(Utf8.runes (ascii "new"),
        .object (decodedRow .full t.rel.columns (t.sent kept row)))]) := by
  have hreadable := h.readable_sent kept
  have himage := renders_image hreadable.producible (hreadable.representable 0 .full)
  let images : List (GoString × List UInt8 × Value) :=
    [(ascii "new", t.rel.image .full (t.sent kept row),
      .object (decodedRow .full t.rel.columns (t.sent kept row)))]
  have hall : ∀ image ∈ images, StringSafe image.1 ∧ ReadsAs image.1 (Utf8.runes image.1) ∧
      Renders (maxNestingDepth + 1) image.2.1 image.2.2 := by
    intro image hmem
    rw [mem_singleton.mp hmem]
    exact ⟨fun _ => rfl, fun _ => rfl, himage⟩
  exact (renders_object images (fun image h => (hall image h).1)
    (fun image h => (hall image h).2.1) fun image h => (hall image h).2.2).read

theorem RowFits.read_updateData_some (hold : t.RowFits old) (hnew : t.RowFits new)
    (kept : List GoString) (kind : ImageKind) :
    read (t.rel.updateData (some (kind, t.oldTuple old kind)) (t.sent kept new)) = some (.object
      [(Utf8.runes (ascii "old"), .object (decodedRow kind t.rel.columns (t.oldTuple old kind))),
        (Utf8.runes (ascii "new"),
          .object (decodedRow .full t.rel.columns (t.sent kept new)))]) :=
  read_updateData (hold.readable_oldTuple kind).producible
    ((hold.readable_oldTuple kind).representable 2 kind) (hnew.readable_sent kept).producible
    ((hnew.readable_sent kept).representable 2 .full)

/-- What the consumer does with an UPDATE. -/
theorem ops_update {rows : List (SqlRow V)} (h : t.RowsFit rows) {kept : List GoString}
    {image : Option ImageKind} (hc : t.ChangeFits rows (.update old new kept image))
    (lsn : GoString) :
    t.consumer.ops (Config.rowEvent .update t.rel
      (t.rel.updateData (image.map fun kind => (kind, t.oldTuple old kind)) (t.sent kept new))
      (ascii "UPDATE") lsn) = t.changeOps (.update old new kept image) := by
  obtain ⟨hold, hnew, -, hpk, hkey⟩ := hc
  have hkeys := (h.fits old hold).keyText_inj hnew
  have hnewKey := hnew.keyOf_sentTexts kept hpk
  -- without an old image the key has not changed
  cases image with
  | none =>
    have hsame : t.keyText old = t.keyText new := by
      cases hkey with
      | inl hsame => exact hkeys.mpr hsame.symm
      | inr hmoved => cases hmoved.2.2
    have hread := hnew.read_updateData_none kept
    rw [map_none, ops_rowEvent (fun he => by cases he) hread, changeOps, if_pos hsame]
    have hold' : Consumer.image [(Utf8.runes (ascii "new"),
        .object (decodedRow .full t.rel.columns (t.sent kept new)))] (ascii "old") = none := rfl
    have hnew' : Consumer.image [(Utf8.runes (ascii "new"),
        .object (decodedRow .full t.rel.columns (t.sent kept new)))] (ascii "new") =
          some (rowText (decodedRow .full t.rel.columns (t.sent kept new))) := rfl
    simp only [Consumer.dataOps, hold', hnew', hnew.rowText_sent kept, Consumer.updateOps,
      bind_none, hnewKey]
  | some kind =>
    have hread := (h.fits old hold).read_updateData_some hnew kept kind
    rw [map_some, ops_rowEvent (fun he => by cases he) hread, changeOps]
    let members : List (List Nat × Value) :=
      [(Utf8.runes (ascii "old"), .object (decodedRow kind t.rel.columns (t.oldTuple old kind))),
        (Utf8.runes (ascii "new"), .object (decodedRow .full t.rel.columns (t.sent kept new)))]
    have hold' : Consumer.image members (ascii "old") =
        some (rowText (decodedRow kind t.rel.columns (t.oldTuple old kind))) := rfl
    have hnew' : Consumer.image members (ascii "new") =
        some (rowText (decodedRow .full t.rel.columns (t.sent kept new))) := rfl
    have holdKey := (h.fits old hold).keyOf_oldTuple kind
    simp only [Consumer.dataOps, members, hold', hnew', hnew.rowText_sent kept,
      Consumer.updateOps, bind_some, holdKey, hnewKey]
    split
    · rfl
    · -- a row with a new key is sent whole
      rename_i hne
      cases hkey with
      | inl hsame => exact absurd (hkeys.mpr hsame.symm) hne
      | inr hmoved => rw [hmoved.2.1, sentTexts_nil]

/-- The events of a message say what the change does. -/
theorem consume_events {rows : List (SqlRow V)} (h : t.RowsFit rows) (hc : t.ChangeFits rows c)
    (hrel : cat t.rel.id = some t.rel) (hcaptures : cfg.captures t.rel = true)
    (hddl : cfg.isDDLLog t.rel = false) (lsn : GoString) {events : List Event}
    (hevents : events.Perm (cfg.events cat lsn (t.message c))) (s : TextTable) :
    t.consumer.consume s events = Replica.replay s (t.changeOps c) := by
  -- all but TRUNCATE have one event
  have hsingle {e : Event} (hone : cfg.events cat lsn (t.message c) = [e])
      (hops : t.consumer.ops e = t.changeOps c) :
      t.consumer.consume s events = Replica.replay s (t.changeOps c) := by
    rw [hone, perm_singleton] at hevents
    rw [hevents, Consumer.consume, flatMap_singleton, hops]
  cases c with
  | insert row =>
    have hread := (hc.1.readable_sent []).read_image .full
    refine hsingle (by simp [message, Config.events, hrel, hddl, hcaptures]; rfl) ?_
    rw [ops_rowEvent (fun he => by cases he) hread, changeOps, Consumer.dataOps,
      hc.1.rowText_sent [], sentTexts_nil, Consumer.insertOps, hc.1.keyOf_texts]
  | update old new kept image =>
    exact hsingle (by simp [message, Config.events, hrel, hcaptures]) (ops_update h hc lsn)
  | delete row image =>
    have hfits := h.fits row hc
    have hread := (hfits.readable_oldTuple image).read_image image
    refine hsingle (by simp [message, Config.events, hrel, hcaptures]; rfl) ?_
    rw [ops_rowEvent (fun he => by cases he) hread, changeOps, Consumer.dataOps,
      Consumer.deleteOps, hfits.keyOf_oldTuple image]
  | truncate options ids fits =>
    -- a TRUNCATE has one event for each relation, and clears the table with that of its own
    have hmem : ∀ {e : Event}, e ∈ cfg.events cat lsn (.truncate options ids fits) →
        e.type = .truncate := by
      intro e he
      simp only [Config.events, mem_filterMap, bind_eq_some_iff] at he
      obtain ⟨id, -, rel, -, he⟩ := he
      split at he
      · cases he
        rfl
      · cases he
    have hown : Config.truncateEvent options t.rel lsn ∈ events := by
      rw [hevents.mem_iff]
      exact mem_filterMap.mpr ⟨t.rel.id, hc, by simp [hrel, hcaptures]⟩
    apply Replica.replay_clears
    · intro op hop
      obtain ⟨e, he, hop⟩ := mem_flatMap.mp hop
      have htype := hmem (hevents.mem_iff.mp he)
      simp only [Consumer.ops, htype, ↓reduceIte] at hop
      split at hop
      · exact mem_singleton.mp hop
      · cases hop
    · apply ne_nil_of_mem (a := Replica.Op.clear)
      apply mem_flatMap.mpr
      refine ⟨_, hown, ?_⟩
      simp [Consumer.ops, Config.truncateEvent, newEvent, consumer]

/-! ### What changes do -/

variable [LinearOrder V]

/-- Dropping the row of a key. -/
theorem RowsFit.contents_filter (h : t.RowsFit rows) (hrow : row ∈ rows) :
    t.contents (rows.filter fun r => t.key r ≠ t.key row) =
      Replica.Op.apply (t.contents rows) (.remove (t.keyText row)) := by
  funext k
  have hkeys : ∀ r ∈ rows, t.keyText r = t.keyText row ↔ t.key r = t.key row :=
    fun r hr => (h.fits r hr).keyText_inj (h.fits row hrow)
  simp only [contents, Replica.Op.apply, Replica.Op.effect, find?_filter]
  split
  · -- no other row has the key
    rename_i hk
    rw [map_eq_none_iff, find?_eq_none]
    intro r hr
    have := hkeys r hr
    simp only [decide_not, Bool.not_eq_eq_eq_not, Bool.not_true,
      decide_eq_false_iff_not, decide_eq_true_eq, not_and]
    intro hne heq
    exact hne (this.mp (heq.trans hk.symm))
  · rename_i hk
    congr 1
    apply find?_congr
    intro r hr
    by_cases heq : t.keyText r = k
    · have hne : t.key r ≠ t.key row := fun he => hk (((hkeys r hr).mpr he).symm.trans heq)
      simp [heq, hne]
    · simp [heq]

/-- The rows after a change. -/
def apply (t : TableDesc V) (rows : List (SqlRow V)) : RowChange V → List (SqlRow V)
  | .insert row => row :: rows
  | .update old new _ _ => new :: rows.filter fun r => t.key r ≠ t.key old
  | .delete row _ => rows.filter fun r => t.key r ≠ t.key row
  | .truncate _ _ _ => []

theorem RowsFit.apply (h : t.RowsFit rows) (hc : t.ChangeFits rows c) :
    t.RowsFit (t.apply rows c) := by
  cases c with
  | insert row => exact h.cons hc.1 hc.2
  | update old new kept image =>
    obtain ⟨hold, hnew, -, -, hkey⟩ := hc
    refine (h.filter _).cons hnew ?_
    intro r hr heq
    obtain ⟨hmem, hne⟩ := mem_filter.mp hr
    cases hkey with
    | inl hsame => exact absurd (heq.trans hsame) (by simpa using hne)
    | inr hmoved => exact hmoved.1 r hmem heq
  | delete row image => exact h.filter _
  | truncate options ids fits => exact ⟨fun r hr => absurd hr not_mem_nil, nodup_nil⟩

/-- What a change means for the rows by key. -/
theorem RowsFit.contents_apply (h : t.RowsFit rows) (hc : t.ChangeFits rows c) :
    t.contents (t.apply rows c) = Replica.replay (t.contents rows) (t.changeOps c) ∧
      Replica.Fits (t.contents rows) (t.changeOps c) := by
  cases c with
  | insert row => exact ⟨contents_cons row rows, by simp, trivial⟩
  | delete row image => exact ⟨h.contents_filter hc, by simp, trivial⟩
  | truncate options ids fits => exact ⟨rfl, by simp, trivial⟩
  | update old new kept image =>
    obtain ⟨hold, hnew, hkept, hpk, hkey⟩ := hc
    have hfits := h.fits old hold
    -- an UPDATE drops the old row and adds the new one
    have hrows : t.contents (t.apply rows (.update old new kept image)) =
        Replica.replay (t.contents rows) [.remove (t.keyText old),
          .put (t.keyText new) (t.texts new)] := by
      rw [TableDesc.apply, contents_cons, h.contents_filter hold]
      rfl
    by_cases hsame : t.keyText old = t.keyText new
    · have hat := h.contents_eq hold
      rw [changeOps, if_pos hsame]
      refine ⟨?_, ?_, trivial⟩
      · rw [hrows]
        funext k
        by_cases hk : t.keyText new = k
        · have hrow := hfits.patch_sentTexts hnew hkept
          rw [hsame, hk] at hat
          simp [Replica.replay, Replica.Op.apply, Replica.Op.effect, hk, hat, hrow]
        · simp [Replica.replay, Replica.Op.apply, Replica.Op.effect, hk, hsame]
      · intro k cells heq
        cases heq
        rw [← hsame, hat]
        rfl
    · rw [changeOps, if_neg hsame]
      exact ⟨hrows, by simp, by simp, trivial⟩

/-- The changes fit one after the other. -/
def ChangesFit (t : TableDesc V) : List (SqlRow V) → List (RowChange V) → Prop
  | _, [] => True
  | rows, c :: cs => t.ChangeFits rows c ∧ t.ChangesFit (t.apply rows c) cs

/-- And so do several changes. -/
theorem RowsFit.foldl (h : t.RowsFit rows) (hcs : t.ChangesFit rows cs) :
    t.RowsFit (cs.foldl t.apply rows) := by
  induction cs generalizing rows with
  | nil => exact h
  | cons c cs ih => exact ih (h.apply hcs.1) hcs.2

theorem RowsFit.contents_foldl (h : t.RowsFit rows) (hcs : t.ChangesFit rows cs) :
    t.contents (cs.foldl t.apply rows) =
        Replica.replay (t.contents rows) (cs.flatMap t.changeOps) ∧
      Replica.Fits (t.contents rows) (cs.flatMap t.changeOps) := by
  induction cs generalizing rows with
  | nil => exact ⟨rfl, trivial⟩
  | cons c cs ih =>
    obtain ⟨hc, hcs⟩ := hcs
    obtain ⟨hcontents, hfits⟩ := h.contents_apply hc
    obtain ⟨hrest, hrestFits⟩ := ih (h.apply hc) hcs
    rw [hcontents] at hrest hrestFits
    rw [flatMap_cons, foldl_cons, Replica.replay_append]
    exact ⟨hrest, hfits.append hrestFits⟩

/-- The first changes fit. -/
theorem ChangesFit.take (h : t.ChangesFit rows cs) (i : Nat) : t.ChangesFit rows (cs.take i) := by
  induction cs generalizing rows i with
  | nil => simpa using h
  | cons c cs ih =>
    cases i with
    | zero => trivial
    | succ i => exact ⟨h.1, ih h.2 i⟩

/-! ### The stream -/

/-- The messages carry the changes of the table, among others that are not about it. -/
inductive Carries (t : TableDesc V) (cfg : Config) :
    Catalog → List (Message × GoString) → List (RowChange V) → Prop
  | nil {cat : Catalog} : Carries t cfg cat [] []
  | change {cat : Catalog} {c : RowChange V} {lsn : GoString} {ms : List (Message × GoString)}
      {cs : List (RowChange V)} (hrel : cat t.rel.id = some t.rel)
      (hrest : Carries t cfg cat ms cs) : Carries t cfg cat ((t.message c, lsn) :: ms) (c :: cs)
  | other {cat : Catalog} {m : Message} {lsn : GoString} {ms : List (Message × GoString)}
      {cs : List (RowChange V)} (hfit : m.FitsCatalog cat)
      (hother : ∀ e ∈ cfg.events cat lsn m,
        ¬(e.schema = t.rel.nameSpace ∧ e.table = t.rel.name))
      (hrest : Carries t cfg (cat.learn m) ms cs) : Carries t cfg cat ((m, lsn) :: ms) cs

/-- What the parser produces for a message is what the message stands for. -/
theorem produced_perm {p : Parser} (h : p.Agrees cfg cat) (m : Message) (lsn : GoString)
    (hfit : m.FitsCatalog cat) : (p.parse m.encode lsn).produced.Perm (cfg.events cat lsn m) := by
  rw [parse_encode h m lsn hfit, Parsed.produced]
  cases cfg.events cat lsn m with
  | nil => exact .nil
  | cons e es => exact perm_append_singleton e es

/-- The events of the stream say what the changes do. -/
theorem Carries.consume {ms : List (Message × GoString)} (hcarries : t.Carries cfg cat ms cs)
    {p : Parser} (hp : p.Agrees cfg cat) (hcaptures : cfg.captures t.rel = true)
    (hddl : cfg.isDDLLog t.rel = false) (h : t.RowsFit rows) (hcs : t.ChangesFit rows cs)
    (s : TextTable) :
    t.consumer.consume s (p.parseAll (ms.map fun m => (m.1.encode, m.2))).flatten =
      Replica.replay s (cs.flatMap t.changeOps) := by
  induction hcarries generalizing p rows s with
  | nil => rfl
  | @change cat c lsn ms cs hrel hrest ih =>
    have hfit := fitsCatalog_message hrel h hcs.1
    have hafter := hp.after (t.message c)
    rw [learn_message] at hafter
    have hevents := produced_perm hp (t.message c) lsn hfit
    have hfirst := consume_events h hcs.1 hrel hcaptures hddl lsn hevents s
    have hlater := ih hafter (h.apply hcs.1) hcs.2 (Replica.replay s (t.changeOps c))
    rw [map_cons, Parser.parseAll, flatten_cons, flatMap_cons, Replica.replay_append, ← hlater]
    rw [Consumer.consume, flatMap_append, Replica.replay_append]
    show Replica.replay (t.consumer.consume s _) _ = _
    rw [hfirst, parse_encode hp _ lsn hfit]
    rfl
  | @other cat m lsn ms cs hfit hother hrest ih =>
    have hevents := produced_perm hp m lsn hfit
    have hnone : (p.parse m.encode lsn).produced.flatMap t.consumer.ops = [] := by
      rw [flatMap_eq_nil_iff]
      intro e he
      exact if_neg (hother e (hevents.mem_iff.mp he))
    have hlater := ih (hp.after m) h hcs s
    rw [map_cons, Parser.parseAll, flatten_cons, Consumer.consume, flatMap_append,
      hnone, nil_append, ← hlater, parse_encode hp m lsn hfit]
    rfl

end TableDesc

end Postgres
