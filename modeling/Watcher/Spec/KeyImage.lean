import Watcher.Json.Render
import Watcher.Spec.RowData
import Watcher.Spec.Truncate

/-!
# Two ways to reduce a row to its key

PostgreSQL sends an old row either whole (`O`) or as its key only (`K`). The
parser leaves the other columns out of a `K` image; `Truncated` decodes the data
of a whole row and leaves them out there. Both give the same object.

A row image decodes to its columns in order (`decodedRow`). With names that are
distinct and valid UTF-8 a column is found again under its name, so both are
the whole row restricted to the key columns.

## Key results

- `renders_image`: a row image decodes to `decodedRow`
- `restricts_key`: a `K` image is the `O` image restricted to the key
- `key_image_agrees`: DELETE and UPDATE messages
-/

namespace Postgres

open Cdc Jsonutil Json List

/-- The key-only form of a row: the other columns are sent as NULL. -/
def keyTuple (columns : List ColumnDesc) (t : List TupleValue) : List TupleValue :=
  (columns.zip t).map fun (c, v) => if c.isKey then v else .null

variable {rel : RelationDesc}

/-! ## What a row image decodes to -/

/-- The columns of a row image with the texts of their values. -/
def imageCells (kind : ImageKind) (columns : List ColumnDesc) (t : List TupleValue) :
    List (ColumnDesc × GoString) :=
  (columns.zip t).filterMap fun (c, v) =>
    if kind = .key ∧ ¬c.isKey then none
    else (v.json (ValueKind.ofOID c.typeOID)).map fun j => (c, j)

/-- The members of a row image, decoded. -/
def decodedRow (kind : ImageKind) (columns : List ColumnDesc) (t : List TupleValue) :
    List (List Nat × Value) :=
  (imageCells kind columns t).map fun cell => (Utf8.runes cell.1.name, (read cell.2).getD .null)

theorem imageMembers_eq (kind : ImageKind) (columns : List ColumnDesc) (t : List TupleValue) :
    imageMembers kind columns t =
      (imageCells kind columns t).map fun cell => (escapeString cell.1.name, cell.2) := by
  rw [imageMembers, imageCells, map_filterMap]
  congr 1
  funext cell
  obtain ⟨c, v⟩ := cell
  show (if kind = .key ∧ ¬c.isKey then none else _) =
    Option.map _ (if kind = .key ∧ ¬c.isKey then none else _)
  split
  · rfl
  · rw [Option.map_map]
    rfl

variable {depth : Nat} {kind : ImageKind} {t : List TupleValue}

/-- The text of a representable value is the text of some value. -/
theorem renders_value {c : ColumnDesc} {v : TupleValue} {j : GoString}
    (hj : v.json (ValueKind.ofOID c.typeOID) = some j) (hprod : v.Producible c)
    (hrep : v.Representable depth c) : ∃ x, Renders maxNestingDepth j x := by
  have hquoted : ∀ s, ∃ x, Renders maxNestingDepth (quoted s) x := fun s =>
    ⟨_, renders_string _ (escapeString_safe s) (escapeString_reads s)⟩
  cases v with
  | null =>
    cases hj
    exact ⟨_, renders_null _⟩
  | unchanged => exact nomatch hj
  | text v fits =>
    simp only [TupleValue.json, TupleValue.Producible, TupleValue.Representable] at hj hprod hrep
    cases hkind : ValueKind.ofOID c.typeOID with
    | number =>
      simp only [hkind] at hj hrep
      cases hj
      exact ⟨_, renders_number _ ((hprod hkind).number_or_nonFinite.resolve_right hrep)⟩
    | boolean =>
      simp only [hkind] at hj
      cases hj
      split
      · exact ⟨_, renders_true _⟩
      · exact ⟨_, renders_false _⟩
    | json =>
      simp only [hkind] at hj
      cases hj
      split
      · next hvalid => exact renders_of_valid hvalid
      · exact hquoted v
    | string =>
      simp only [hkind] at hj
      cases hj
      exact hquoted v

theorem mem_imageCells {cell : ColumnDesc × GoString} (h : cell ∈ imageCells kind rel.columns t) :
    cell.1 ∈ rel.columns ∧ ∃ v, (cell.1, v) ∈ reported rel kind t ∧
      v.json (ValueKind.ofOID cell.1.typeOID) = some cell.2 := by
  obtain ⟨⟨c, v⟩, hmem, hcell⟩ := mem_filterMap.mp h
  simp only at hcell
  split at hcell
  · exact nomatch hcell
  · next hkey =>
    obtain ⟨j, hj, rfl⟩ := Option.map_eq_some_iff.mp hcell
    refine ⟨(of_mem_zip hmem).1, v, mem_filter.mpr ⟨hmem, ?_⟩, hj⟩
    cases kind with
    | full => rfl
    | key => simpa using hkey

/-- A row image decodes to its cells. -/
theorem renders_image (hprod : ImageProducible rel t) (hrep : ImageRepresentable depth rel kind t) :
    Renders (maxNestingDepth + 1) (rel.image kind t)
      (.object (decodedRow kind rel.columns t)) := by
  rw [RelationDesc.image, imageMembers_eq]
  refine renders_object _ (fun cell _ => escapeString_safe cell.1.name)
    (fun cell _ => escapeString_reads cell.1.name) fun cell hcell => ?_
  obtain ⟨_, v, hv, hj⟩ := mem_imageCells hcell
  obtain ⟨x, hx⟩ := renders_value hj (hprod _ (mem_filter.mp hv).1) (hrep _ hv)
  rw [hx.read, Option.getD_some]
  exact hx

/-! ## Columns by name -/

theorem nameBytes_runes {s : GoString} (h : Utf8.IsValid s) : nameBytes (Utf8.runes s) = s :=
  Utf8.flatMap_encodeRune_runes h

/-- The cells have different names. -/
theorem nodup_imageCells (kind : ImageKind) (rel : RelationDesc)
    (hlen : t.length = rel.columns.length) :
    ((imageCells kind rel.columns t).map fun cell => cell.1.name).Nodup := by
  have hnames : ((rel.columns.zip t).map fun cv => cv.1.name).Nodup := by
    have hfst := map_fst_zip (Nat.le_of_eq hlen.symm)
    have hnodup := rel.columns_nodup
    rw [← hfst, map_map] at hnodup
    exact hnodup
  refine (filterMap_map_sublist (fun cv cell h => ?_) (rel.columns.zip t)).nodup hnames
  simp only at h
  split at h
  · exact nomatch h
  · obtain ⟨j, _, rfl⟩ := Option.map_eq_some_iff.mp h
    rfl

/-- So a cell is found under its name. -/
theorem lookup_decodedRow (hnames : ∀ c ∈ rel.columns, Utf8.IsValid c.name)
    (hlen : t.length = rel.columns.length) {name : GoString} {x : Value} :
    lookup (decodedRow kind rel.columns t) name = some x ↔
      ∃ cell ∈ imageCells kind rel.columns t, cell.1.name = name ∧
        (read cell.2).getD .null = x := by
  have hname : ∀ cell ∈ imageCells kind rel.columns t,
      nameBytes (Utf8.runes cell.1.name) = cell.1.name := fun cell hcell =>
    nameBytes_runes (hnames _ (mem_imageCells hcell).1)
  rw [lookup_eq_some_iff]
  · simp only [decodedRow, mem_map, exists_exists_and_eq_and]
    constructor
    · rintro ⟨cell, hcell, hn, hx⟩
      exact ⟨cell, hcell, (hname cell hcell).symm.trans hn, hx⟩
    · rintro ⟨cell, hcell, hn, hx⟩
      exact ⟨cell, hcell, (hname cell hcell).trans hn, hx⟩
  · have hnodup := nodup_imageCells kind rel hlen
    rw [← map_congr_left hname] at hnodup
    rw [decodedRow, map_map]
    exact hnodup

theorem length_keyTuple {columns : List ColumnDesc} (hlen : t.length = columns.length) :
    (keyTuple columns t).length = columns.length := by
  rw [keyTuple, length_map, length_zip, hlen, Nat.min_self]

/-- The first column. -/
theorem imageCells_cons (kind : ImageKind) (c : ColumnDesc) (columns : List ColumnDesc)
    (v : TupleValue) (t : List TupleValue) : imageCells kind (c :: columns) (v :: t) =
      (if kind = .key ∧ ¬c.isKey then none
        else (v.json (ValueKind.ofOID c.typeOID)).map fun j => (c, j)).toList ++
      imageCells kind columns t := by
  rw [imageCells, zip_cons_cons, filterMap_cons, ← imageCells]
  simp only
  cases h : (if kind = .key ∧ ¬c.isKey then none
    else (v.json (ValueKind.ofOID c.typeOID)).map fun j => (c, j)) <;> rfl

/-- A `K` image has the cells of the `O` image that belong to key columns. -/
theorem imageCells_keyTuple (columns : List ColumnDesc) (t : List TupleValue) :
    imageCells .key columns (keyTuple columns t) =
      (imageCells .full columns t).filter fun cell => cell.1.isKey := by
  induction columns generalizing t with
  | nil => rfl
  | cons c columns ih =>
    cases t with
    | nil => rfl
    | cons v t =>
      show imageCells .key (c :: columns) ((if c.isKey then v else .null) :: keyTuple columns t) = _
      rw [imageCells_cons, imageCells_cons, ih, filter_append]
      congr 1
      cases hkey : c.isKey with
      | true =>
        simp only [↓reduceIte, not_true_eq_false, and_false, reduceCtorEq]
        cases v.json (ValueKind.ofOID c.typeOID) with
        | none => rfl
        | some j => simp [hkey]
      | false => cases v.json (ValueKind.ofOID c.typeOID) <;> simp [hkey]

/-- A `K` image is the `O` image restricted to the key columns. -/
theorem restricts_key (hnames : ∀ c ∈ rel.columns, Utf8.IsValid c.name)
    (hlen : t.length = rel.columns.length) :
    Restricts rel.keyColumns (decodedRow .full rel.columns t)
      (decodedRow .key rel.columns (keyTuple rel.columns t)) := by
  intro name
  apply Option.ext
  intro x
  rw [lookup_decodedRow hnames (length_keyTuple hlen), imageCells_keyTuple]
  -- by name or by flag, the same cells are left
  have hkey : ∀ cell ∈ imageCells .full rel.columns t,
      (cell.1.name ∈ rel.keyColumns ↔ cell.1.isKey = true) := by
    intro cell hcell
    rw [← contains_keyColumns rel (mem_imageCells hcell).1, contains_iff_mem]
  by_cases hname : name ∈ rel.keyColumns
  · rw [if_pos hname, lookup_decodedRow hnames hlen]
    constructor
    · rintro ⟨cell, hcell, hn, hx⟩
      exact ⟨cell, (mem_filter.mp hcell).1, hn, hx⟩
    · rintro ⟨cell, hcell, rfl, hx⟩
      exact ⟨cell, mem_filter.mpr ⟨hcell, (hkey cell hcell).mp hname⟩, rfl, hx⟩
  · rw [if_neg hname]
    constructor
    · rintro ⟨cell, hcell, rfl, _⟩
      obtain ⟨hcell, hflag⟩ := mem_filter.mp hcell
      exact absurd ((hkey cell hcell).mpr hflag) hname
    · intro h
      exact nomatch h

/-! ## Messages -/

/-- Both are objects, and they have the same members. -/
def SameObject (u w : Option Value) : Prop :=
  ∃ x y, u = some (.object x) ∧ w = some (.object y) ∧ ∀ name, lookup x name = lookup y name

/-- An image of the data of an UPDATE. -/
def imageOf (image data : GoString) : Option Value :=
  match read data with
  | some (.object members) => lookup members image
  | _ => none

theorem sameObject_of_restricts {key : List GoString} {row x y : List (List Nat × Value)}
    (hx : Restricts key row x) (hy : Restricts key row y) :
    SameObject (some (.object x)) (some (.object y)) :=
  ⟨x, y, rfl, rfl, fun name => (hx name).trans (hy name).symm⟩

section Parse

variable {cfg : Config} {rels : List (RelationDesc × GoString)} {id : UInt32}
  (hrel : catalogOf rels id = some rel) (hpass : cfg.captures rel = true)
include hrel hpass

/-- The event of a DELETE. -/
theorem parse_delete (lsn : GoString) (kind : ImageKind) {t : List TupleValue}
    (hlen : t.length = rel.columns.length) :
    ((parserOf cfg rels).parse (Message.delete id kind t).encode lsn).event =
      some (Config.rowEvent .delete rel (rel.image kind t) (ascii "DELETE") lsn) := by
  have hfit : (Message.delete id kind t).FitsCatalog (catalogOf rels) := by
    intro rel' hrel'
    rw [hrel] at hrel'
    exact Option.some.inj hrel' ▸ hlen
  rw [parse_encode (parserOf_agrees cfg rels) _ lsn hfit]
  simp only [Config.events, hrel, hpass, ↓reduceIte, head?_cons]

/-- The event of an UPDATE with an old image. -/
theorem parse_update (lsn : GoString) (kind : ImageKind) {t new : List TupleValue}
    (hlen : t.length = rel.columns.length) (hnew : new.length = rel.columns.length) :
    ((parserOf cfg rels).parse (Message.update id (some (kind, t)) new).encode lsn).event =
      some (Config.rowEvent .update rel (rel.updateData (some (kind, t)) new)
        (ascii "UPDATE") lsn) := by
  have hfit : (Message.update id (some (kind, t)) new).FitsCatalog (catalogOf rels) := by
    intro rel' hrel'
    rw [hrel] at hrel'
    cases hrel'
    refine ⟨hnew, fun kind' t' h => ?_⟩
    cases h
    exact hlen
  rw [parse_encode (parserOf_agrees cfg rels) _ lsn hfit]
  simp only [Config.events, hrel, hpass, ↓reduceIte, head?_cons]

end Parse

theorem read_updateData {new : List TupleValue} (hprod : ImageProducible rel t)
    (hrep : ImageRepresentable 2 rel kind t) (hprodNew : ImageProducible rel new)
    (hrepNew : ImageRepresentable 2 rel .full new) :
    read (rel.updateData (some (kind, t)) new) = some (.object
      [(Utf8.runes (ascii "old"), .object (decodedRow kind rel.columns t)),
        (Utf8.runes (ascii "new"), .object (decodedRow .full rel.columns new))]) :=
  (renders_images (renders_image hprod hrep) (renders_image hprodNew hrepNew)).read

theorem mem_zip_keyTuple {columns : List ColumnDesc} {cv : ColumnDesc × TupleValue}
    (h : cv ∈ columns.zip (keyTuple columns t)) :
    ∃ v, (cv.1, v) ∈ columns.zip t ∧ cv.2 = if cv.1.isKey then v else .null := by
  induction columns generalizing t with
  | nil => exact absurd h not_mem_nil
  | cons c columns ih =>
    cases t with
    | nil => exact absurd h not_mem_nil
    | cons v t =>
      cases mem_cons.mp h with
      | inl h => exact ⟨v, h ▸ mem_cons_self, h ▸ rfl⟩
      | inr h =>
        obtain ⟨w, hw, hcv⟩ := ih h
        exact ⟨w, mem_cons_of_mem _ hw, hcv⟩

theorem imageProducible_keyTuple (h : ImageProducible rel t) :
    ImageProducible rel (keyTuple rel.columns t) := by
  intro cv hcv
  obtain ⟨v, hv, heq⟩ := mem_zip_keyTuple hcv
  rw [heq]
  split
  · exact h _ hv
  · trivial

/-- And as representable. -/
theorem imageRepresentable_keyTuple (h : ImageRepresentable depth rel .full t) :
    ImageRepresentable depth rel .key (keyTuple rel.columns t) := by
  intro cv hcv
  obtain ⟨v, hv, heq⟩ := mem_zip_keyTuple (mem_filter.mp hcv).1
  rw [heq]
  split
  · exact h _ (mem_filter.mpr ⟨hv, rfl⟩)
  · trivial

/-- The data of a DELETE or the old image of an UPDATE is the same object whether the old row came
    as its key or came whole and was truncated. -/
theorem key_image_agrees (cfg : Config) (rels : List (RelationDesc × GoString)) (id : UInt32)
    (lsn : GoString) (t : List TupleValue) (hrel : catalogOf rels id = some rel)
    (hpass : cfg.captures rel = true) (hnames : ∀ c ∈ rel.columns, Utf8.IsValid c.name)
    (hlen : t.length = rel.columns.length) (hprod : ImageProducible rel t) :
    (ImageRepresentable 1 rel .full t → ∃ k o,
      ((parserOf cfg rels).parse
        (Message.delete id .key (keyTuple rel.columns t)).encode lsn).event = some k ∧
      ((parserOf cfg rels).parse (Message.delete id .full t).encode lsn).event = some o ∧
      SameObject (read k.data) (read (o.truncated keyOnly).data)) ∧
    ∀ new : List TupleValue, new.length = rel.columns.length → ImageProducible rel new →
      ImageRepresentable 2 rel .full t → ImageRepresentable 2 rel .full new → ∃ k o,
        ((parserOf cfg rels).parse (Message.update id
          (some (.key, keyTuple rel.columns t)) new).encode lsn).event = some k ∧
        ((parserOf cfg rels).parse
          (Message.update id (some (.full, t)) new).encode lsn).event = some o ∧
        SameObject (imageOf (ascii "old") k.data)
          (imageOf (ascii "old") (o.truncated keyOnly).data) := by
  have hkeyLen := length_keyTuple hlen
  have hrestricts := restricts_key hnames hlen
  have hkeyProd := imageProducible_keyTuple hprod
  constructor
  · -- a DELETE: both data are restrictions of the whole row
    intro hrep
    refine ⟨_, _, parse_delete hrel hpass lsn .key hkeyLen,
      parse_delete hrel hpass lsn .full hlen, ?_⟩
    show SameObject (read (rel.image .key (keyTuple rel.columns t)))
      (read (keyOnly .delete (rel.image .full t) rel.keyColumns))
    obtain ⟨⟨kept, hkept, hreduces⟩, _⟩ := keyOnly_spec ((image_valid_iff hprod).mpr hrep)
      (renders_image hprod hrep).read .delete rel.keyColumns
    rw [(renders_image hkeyProd (imageRepresentable_keyTuple hrep)).read, read_of_denotes hkept]
    exact sameObject_of_restricts hrestricts hreduces
  · intro new hnewLen hprodNew hrep hrepNew
    refine ⟨_, _, parse_update hrel hpass lsn .key hkeyLen hnewLen,
      parse_update hrel hpass lsn .full hlen hnewLen, ?_⟩
    show SameObject (imageOf _ (rel.updateData (some (.key, keyTuple rel.columns t)) new))
      (imageOf _ (keyOnly .update (rel.updateData (some (.full, t)) new) rel.keyColumns))
    have hvalid : valid (rel.updateData (some (.full, t)) new) = true := by
      rw [updateData_valid_iff (fun kind t' h => by cases h; exact hprod) hprodNew]
      refine ⟨fun kind t' h => ?_, hrepNew⟩
      cases h
      exact hrep
    obtain ⟨⟨kept, hkept, hreduces⟩, _⟩ := keyOnly_spec hvalid
      (read_updateData hprod hrep hprodNew hrepNew) .update rel.keyColumns
    -- the old image of what is left
    obtain ⟨keptOld, hlookup, hold⟩ := hreduces (ascii "old")
    have hkey := read_updateData hkeyProd (imageRepresentable_keyTuple hrep) hprodNew hrepNew
    have hK : imageOf (ascii "old") (rel.updateData (some (.key, keyTuple rel.columns t)) new) =
        some (.object (decodedRow .key rel.columns (keyTuple rel.columns t))) := by
      rw [imageOf, hkey]
      rfl
    have hO : imageOf (ascii "old")
        (keyOnly .update (rel.updateData (some (.full, t)) new) rel.keyColumns) =
        some (.object keptOld) := by
      rw [imageOf, read_of_denotes hkept]
      exact hlookup
    rw [hK, hO]
    exact sameObject_of_restricts hrestricts hold

/-- The row `(5, "a")` of a table with key `id`. -/
theorem key_image_agrees_sample :
    let row : List TupleValue := [.text (ascii "5") (by decide), .text (ascii "a") (by decide)]
    ∃ k o,
      ((parserOf ⟨[], false⟩ [(RelationDesc.sample, [])]).parse
        (Message.delete 7 .key [.text (ascii "5") (by decide), .null]).encode []).event = some k ∧
      ((parserOf ⟨[], false⟩ [(RelationDesc.sample, [])]).parse
        (Message.delete 7 .full row).encode []).event = some o ∧
      SameObject (read k.data) (read (o.truncated keyOnly).data) := by
  intro row
  have hint : IsInteger (ascii "5") := ⟨[], ascii "5", rfl, .inl rfl,
    .inr ⟨0x35, [], rfl, rfl, by decide, forall_mem_nil _⟩⟩
  have hnames : ∀ c ∈ RelationDesc.sample.columns, Utf8.IsValid c.name :=
    forall_mem_cons.mpr
      ⟨⟨['i', 'd'], by decide⟩, forall_mem_singleton.mpr ⟨['v'], by decide⟩⟩
  have hprod : ImageProducible RelationDesc.sample row :=
    forall_mem_cons.mpr ⟨fun _ => hint, forall_mem_singleton.mpr nofun⟩
  have hrep : ImageRepresentable 1 RelationDesc.sample .full row :=
    forall_mem_cons.mpr ⟨show ascii "5" ∉ nonFinite by decide,
      forall_mem_singleton.mpr trivial⟩
  exact (key_image_agrees ⟨[], false⟩ [(RelationDesc.sample, [])] 7 [] row rfl rfl hnames rfl
    hprod).1 hrep

end Postgres
