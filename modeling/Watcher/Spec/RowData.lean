import Watcher.Spec.PgDelivery
import Watcher.Spec.PgoutputCorrect

/-!
# When the data of a row event is valid JSON

The bus refuses a row event whose data is not JSON, and the listener then takes
the event back: the commit is confirmed without it. Names, booleans and texts
are always written as JSON. Two kinds of values are not: `NaN` and the infinities
of float and numeric columns, which are written as they come, and json texts
whose nesting exceeds what the check allows once the row is wrapped around them.

## Key results

- `value_completes_iff`: one value
- `image_completes_iff`: one row image
- `row_accepted_iff`: a whole INSERT, UPDATE or DELETE message
-/

namespace Postgres

open Cdc Jsonutil Json List

/-! ## Values -/

/-- The texts of float and numeric values that are not finite. -/
def nonFinite : List GoString := [ascii "NaN", ascii "Infinity", ascii "-Infinity"]

/-- A sign, if any, and an integer. -/
def IsInteger (v : GoString) : Prop :=
  ∃ sign int, v = sign ++ int ∧ (sign = [] ∨ sign = [0x2d]) ∧ IsIntPart int

/-- A finite decimal without exponent. -/
def IsDecimal (v : GoString) : Prop :=
  ∃ sign int frac, v = sign ++ int ++ frac ∧ (sign = [] ∨ sign = [0x2d]) ∧ IsIntPart int ∧
    IsFracPart frac

/-- What the output function of a numeric type can produce. -/
def IsNumericOutput (oid : UInt32) (v : GoString) : Prop :=
  if oid = 20 ∨ oid = 21 ∨ oid = 23 then IsInteger v  -- int8, int2, int4
  else if oid = 26 then IsIntPart v  -- oid
  else if oid = 1700 then IsDecimal v ∨ v ∈ nonFinite  -- numeric
  else IsNumber v ∨ v ∈ nonFinite  -- float4, float8

/-- A decimal is a number of JSON. -/
theorem IsDecimal.isNumber {v : GoString} (h : IsDecimal v) : IsNumber v := by
  obtain ⟨sign, int, frac, rfl, hsign, hint, hfrac⟩ := h
  exact ⟨sign, int, frac, [], (append_nil _).symm, hsign, hint, hfrac, Or.inl rfl⟩

/-- So is an integer. -/
theorem IsInteger.isNumber {v : GoString} (h : IsInteger v) : IsNumber v := by
  obtain ⟨sign, int, rfl, hsign, hint⟩ := h
  exact IsDecimal.isNumber ⟨sign, int, [], (append_nil _).symm, hsign, hint, Or.inl rfl⟩

theorem IsNumericOutput.number_or_nonFinite {oid : UInt32} {v : GoString}
    (h : IsNumericOutput oid v) : IsNumber v ∨ v ∈ nonFinite := by
  unfold IsNumericOutput at h
  split at h
  · exact Or.inl h.isNumber
  · split at h
    · exact Or.inl (IsInteger.isNumber ⟨[], v, rfl, Or.inl rfl, h⟩)
    · split at h
      · exact h.imp_left IsDecimal.isNumber
      · exact h

/-- The value of a column is what PostgreSQL can send for the column's type. -/
def TupleValue.Producible (c : ColumnDesc) : TupleValue → Prop
  | .text v _ => ValueKind.ofOID c.typeOID = .number → IsNumericOutput c.typeOID v
  | _ => True

/-- Inside `depth` objects, the value of the column is written as JSON. -/
def TupleValue.Representable (depth : Nat) (c : ColumnDesc) : TupleValue → Prop
  | .text v _ =>
    match ValueKind.ofOID c.typeOID with
    | .number => v ∉ nonFinite
    | .json => valid v = true → nestingDepth v + depth ≤ maxNestingDepth
    | _ => True
  | _ => True

/-- `NaN`, `Infinity` and `-Infinity` are refused at their first letter. -/
private theorem fails_nonFinite (base : List ParseState) {v : GoString} (h : v ∈ nonFinite) :
    Fails base v := by
  have hmode : ∀ (s : Scanner) (bs cs : List UInt8), (s.run bs).mode = .error →
      (s.run (bs ++ cs)).mode = .error := by
    intro s bs cs herr
    rw [Scanner.run_append, Scanner.run_error _ _ herr]
    exact herr
  -- a minus sign may still start a number, so `-Infinity` fails one byte later
  simp only [nonFinite, mem_cons, not_mem_nil, or_false] at h
  obtain rfl | rfl | rfl := h
  · exact hmode _ [0x4e] (ascii "aN") rfl
  · exact hmode _ [0x49] (ascii "nfinity") rfl
  · exact hmode _ [0x2d, 0x49] (ascii "nfinity") rfl

/-- A quoted text is whole. -/
private theorem completes_quoted (base : List ParseState) (s : GoString) :
    Completes base (quoted s) :=
  completes_string base (escapeString_safe s)

variable {base : List ParseState} {rel : RelationDesc} {kind : ImageKind} {t : List TupleValue}

/-- A text is written as JSON exactly when it is representable; otherwise it is refused. -/
private theorem text_cases (hfit : base.length < maxNestingDepth) (c : ColumnDesc) (v : GoString)
    (fits : v.length < 2 ^ 32) {j : GoString}
    (hj : (TupleValue.text v fits).json (ValueKind.ofOID c.typeOID) = some j)
    (hprod : (TupleValue.text v fits).Producible c) :
    (TupleValue.text v fits).Representable (base.length + 1) c ∧
        Completes (.objectValue :: base) j ∨
      ¬(TupleValue.text v fits).Representable (base.length + 1) c ∧
        Fails (.objectValue :: base) j := by
  have hlen : (ParseState.objectValue :: base).length ≤ maxNestingDepth := hfit
  simp only [TupleValue.json, TupleValue.Producible, TupleValue.Representable] at *
  cases hkind : ValueKind.ofOID c.typeOID with
  | number =>
    -- written without quotes and without a check
    rw [hkind] at hj
    cases hj
    by_cases hfinite : v ∈ nonFinite
    · exact Or.inr ⟨not_not_intro hfinite, fails_nonFinite _ hfinite⟩
    · have hnum := (hprod hkind).number_or_nonFinite.resolve_right hfinite
      exact Or.inl ⟨hfinite, completes_number _ hnum⟩
  | boolean =>
    rw [hkind] at hj
    cases hj
    refine Or.inl ⟨trivial, ?_⟩
    split
    · exact completes_true _
    · exact completes_false _
  | json =>
    rw [hkind] at hj
    cases hj
    by_cases hv : valid v = true
    · -- spliced in as it is: alone it is valid, inside the row it may nest too deep
      rw [if_pos hv]
      by_cases hdepth : nestingDepth v + (base.length + 1) ≤ maxNestingDepth
      · exact Or.inl ⟨fun _ => hdepth, completes_of_valid (cons_ne_nil _ _) hv hdepth⟩
      · refine Or.inr ⟨fun h => hdepth (h hv), ?_⟩
        exact fails_of_valid (cons_ne_nil _ _) hv hlen (Nat.lt_of_not_le hdepth)
    · -- quoted instead
      rw [if_neg hv]
      exact Or.inl ⟨fun h => absurd h hv, completes_quoted _ v⟩
  | string =>
    rw [hkind] at hj
    cases hj
    exact Or.inl ⟨trivial, completes_quoted _ v⟩

private theorem value_cases (hfit : base.length < maxNestingDepth) (c : ColumnDesc)
    (v : TupleValue) {j : GoString} (hj : v.json (ValueKind.ofOID c.typeOID) = some j)
    (hprod : v.Producible c) :
    v.Representable (base.length + 1) c ∧ Completes (.objectValue :: base) j ∨
      ¬v.Representable (base.length + 1) c ∧ Fails (.objectValue :: base) j := by
  cases v with
  | null =>
    cases hj
    exact Or.inl ⟨trivial, completes_null _⟩
  | unchanged => exact nomatch hj
  | text v fits => exact text_cases hfit c v fits hj hprod

/-- In an object inside `base`, a value is whole exactly when it is representable. -/
theorem value_completes_iff (hfit : base.length < maxNestingDepth) (c : ColumnDesc)
    (v : TupleValue) {j : GoString} (hj : v.json (ValueKind.ofOID c.typeOID) = some j)
    (hprod : v.Producible c) :
    Completes (.objectValue :: base) j ↔ v.Representable (base.length + 1) c := by
  cases value_cases hfit c v hj hprod with
  | inl h => exact ⟨fun _ => h.1, fun _ => h.2⟩
  | inr h => exact ⟨fun hc => absurd hc (not_completes_of_fails h.2), fun hr => absurd hr h.1⟩

/-! ## Row images -/

/-- The values of a row image, with their columns, that the image reports. -/
def reported (rel : RelationDesc) (kind : ImageKind) (t : List TupleValue) :
    List (ColumnDesc × TupleValue) :=
  (rel.columns.zip t).filter fun cv => kind = .full || cv.1.isKey

/-- Every value that the image reports is representable inside `depth` objects. -/
def ImageRepresentable (depth : Nat) (rel : RelationDesc) (kind : ImageKind)
    (t : List TupleValue) : Prop :=
  ∀ cv ∈ reported rel kind t, cv.2.Representable depth cv.1

/-- Every value of the image is one PostgreSQL can send. -/
def ImageProducible (rel : RelationDesc) (t : List TupleValue) : Prop :=
  ∀ cv ∈ rel.columns.zip t, cv.2.Producible cv.1

private theorem mem_imageMembers {m : GoString × GoString} :
    m ∈ imageMembers kind rel.columns t ↔ ∃ cv ∈ reported rel kind t,
      ∃ j, cv.2.json (ValueKind.ofOID cv.1.typeOID) = some j ∧ m = (escapeString cv.1.name, j) := by
  simp only [imageMembers, reported, mem_filterMap, mem_filter]
  constructor
  · rintro ⟨cv, hmem, hm⟩
    split at hm
    · -- a key image leaves out the columns that are not in the key
      cases hm
    · next hkey =>
      obtain ⟨j, hj, rfl⟩ := Option.map_eq_some_iff.mp hm
      refine ⟨cv, ⟨hmem, ?_⟩, j, hj, rfl⟩
      cases kind with
      | full => rfl
      | key => simpa using hkey
  · rintro ⟨cv, ⟨hmem, hkey⟩, j, hj, rfl⟩
    refine ⟨cv, hmem, ?_⟩
    rw [if_neg, hj]
    · rfl
    · rintro ⟨rfl, hnot⟩
      exact hnot (by simpa using hkey)

/-- Column names are escaped. -/
private theorem members_safe : ∀ m ∈ imageMembers kind rel.columns t, StringSafe m.1 := by
  intro m hm
  obtain ⟨cv, -, j, -, rfl⟩ := mem_imageMembers.mp hm
  exact escapeString_safe _

private theorem members_cases (hfit : base.length < maxNestingDepth)
    (hprod : ImageProducible rel t) :
    ∀ m ∈ imageMembers kind rel.columns t,
      Completes (.objectValue :: base) m.2 ∨ Fails (.objectValue :: base) m.2 := by
  intro m hm
  obtain ⟨cv, hcv, j, hj, rfl⟩ := mem_imageMembers.mp hm
  have hzip := (mem_filter.mp hcv).1
  exact (value_cases hfit cv.1 cv.2 hj (hprod cv hzip)).imp And.right And.right

/-- The values of an image are all whole exactly when the image is representable. -/
private theorem members_completes_iff (hfit : base.length < maxNestingDepth)
    (hprod : ImageProducible rel t) :
    (∀ m ∈ imageMembers kind rel.columns t, Completes (.objectValue :: base) m.2) ↔
      ImageRepresentable (base.length + 1) rel kind t := by
  constructor
  · intro h cv hcv
    have hzip := (mem_filter.mp hcv).1
    cases hj : cv.2.json (ValueKind.ofOID cv.1.typeOID) with
    | some j =>
      rw [← value_completes_iff hfit cv.1 cv.2 hj (hprod cv hzip)]
      exact h _ (mem_imageMembers.mpr ⟨cv, hcv, j, hj, rfl⟩)
    | none =>
      -- an unchanged value is not written at all
      obtain ⟨c, v⟩ := cv
      cases v with
      | null => exact trivial
      | unchanged => exact trivial
      | text v fits => simp only [TupleValue.json] at hj; split at hj <;> cases hj
  · intro h m hm
    obtain ⟨cv, hcv, j, hj, rfl⟩ := mem_imageMembers.mp hm
    have hzip := (mem_filter.mp hcv).1
    exact (value_completes_iff hfit cv.1 cv.2 hj (hprod cv hzip)).mpr (h cv hcv)

/-- An image that is the whole data of its event. -/
theorem image_valid_iff (hprod : ImageProducible rel t) :
    valid (rel.image kind t) = true ↔ ImageRepresentable 1 rel kind t := by
  have hfit : ([] : List ParseState).length < maxNestingDepth := by decide
  rw [RelationDesc.image, valid_object_iff members_safe (members_cases hfit hprod)]
  exact members_completes_iff hfit hprod

/-- An image that is a member of the data of its event. -/
private theorem image_cases (hprod : ImageProducible rel t) :
    ImageRepresentable 2 rel kind t ∧ Completes [.objectValue] (rel.image kind t) ∨
      ¬ImageRepresentable 2 rel kind t ∧ Fails [.objectValue] (rel.image kind t) := by
  have hfit : [ParseState.objectValue].length < maxNestingDepth := by decide
  have hiff : _ ↔ ImageRepresentable 2 rel kind t := members_completes_iff hfit hprod
  by_cases hrep : ImageRepresentable 2 rel kind t
  · exact Or.inl ⟨hrep, completes_object (cons_ne_nil _ _) hfit members_safe
      (hiff.mpr hrep)⟩
  · refine Or.inr ⟨hrep, fails_object hfit members_safe (members_cases hfit hprod) ?_⟩
    -- some value is not whole, so it is refused
    by_contra hnone
    refine hrep (hiff.mp fun m hm => ?_)
    refine (members_cases hfit hprod m hm).resolve_right fun hbad => hnone ⟨m, hm, hbad⟩

theorem image_completes_iff (hprod : ImageProducible rel t) :
    Completes [.objectValue] (rel.image kind t) ↔ ImageRepresentable 2 rel kind t := by
  cases image_cases hprod with
  | inl h => exact ⟨fun _ => h.1, fun _ => h.2⟩
  | inr h => exact ⟨fun hc => absurd hc (not_completes_of_fails h.2), fun hr => absurd hr h.1⟩

/-- The data of an UPDATE. -/
theorem updateData_valid_iff {old : Option (ImageKind × List TupleValue)} {new : List TupleValue}
    (hold : ∀ kind t, old = some (kind, t) → ImageProducible rel t)
    (hnew : ImageProducible rel new) :
    valid (rel.updateData old new) = true ↔
      (∀ kind t, old = some (kind, t) → ImageRepresentable 2 rel kind t) ∧
        ImageRepresentable 2 rel .full new := by
  have hsafe : ∀ s ∈ [ascii "old", ascii "new"], StringSafe s := by
    intro s hs
    simp only [mem_cons, not_mem_nil, or_false] at hs
    cases hs with
    | inl h => exact h ▸ StringSafe.of_all (by decide)
    | inr h => exact h ▸ StringSafe.of_all (by decide)
  have hcases : ∀ {kind t}, ImageProducible rel t →
      Completes [.objectValue] (rel.image kind t) ∨ Fails [.objectValue] (rel.image kind t) :=
    fun h => (image_cases h).imp And.right And.right
  cases old with
  | none =>
    -- no old image: the object has the member `new` only
    rw [RelationDesc.updateData, valid_object_iff]
    · simp [image_completes_iff hnew]
    · simp [hsafe]
    · simpa using hcases hnew
  | some image =>
    obtain ⟨kind, t⟩ := image
    have ht := hold kind t rfl
    rw [RelationDesc.updateData, valid_object_iff]
    · simp only [mem_cons, not_mem_nil, or_false, forall_eq_or_imp, forall_eq,
        image_completes_iff ht, image_completes_iff hnew, Option.some.injEq, Prod.mk.injEq, and_imp]
      simp
    · simp [hsafe]
    · simpa using ⟨hcases ht, hcases hnew⟩

/-! ## Messages -/

/-- The relation of a row message. -/
def Message.rowRelation : Message → Option UInt32
  | .insert id _ | .update id _ _ | .delete id _ _ => some id
  | _ => none

/-- Every value of a row message is one PostgreSQL can send. -/
def Message.Producible (rel : RelationDesc) : Message → Prop
  | .insert _ new => ImageProducible rel new
  | .update _ old new =>
    (∀ kind t, old = some (kind, t) → ImageProducible rel t) ∧ ImageProducible rel new
  | .delete _ _ old => ImageProducible rel old
  | _ => True

/-- Every value that a row message reports is representable. -/
def Message.Representable (rel : RelationDesc) : Message → Prop
  | .insert _ new => ImageRepresentable 1 rel .full new
  | .update _ old new =>
    (∀ kind t, old = some (kind, t) → ImageRepresentable 2 rel kind t) ∧
      ImageRepresentable 2 rel .full new
  | .delete _ kind old => ImageRepresentable 1 rel kind old
  | _ => True

/-- A parser that has received these RELATION messages. -/
def parserOf (cfg : Config) (rels : List (RelationDesc × GoString)) : Parser :=
  rels.foldl (fun p (rel, lsn) => (p.parse (Message.relation rel).encode lsn).parser)
    (newParser cfg.tables cfg.captureDDL)

/-- What these RELATION messages say. -/
def catalogOf (rels : List (RelationDesc × GoString)) : Catalog :=
  rels.foldl (fun cat (rel, _) => cat.learn (.relation rel)) Catalog.empty

/-- A parser that knows this one relation. -/
theorem parserOf_agrees (cfg : Config) (rels : List (RelationDesc × GoString)) :
    (parserOf cfg rels).Agrees cfg (catalogOf rels) := by
  -- for any parser, so that the induction can move on to the next one
  suffices h : ∀ p cat, Parser.Agrees p cfg cat → Parser.Agrees
      (rels.foldl (fun p (rel, lsn) => (p.parse (Message.relation rel).encode lsn).parser) p) cfg
      (rels.foldl (fun cat (rel, _) => cat.learn (.relation rel)) cat) from
    h _ _ (agrees_newParser cfg)
  induction rels with
  | nil => exact fun p cat h => h
  | cons r rels ih =>
    obtain ⟨rel, lsn⟩ := r
    intro p cat h
    rw [foldl_cons, foldl_cons]
    apply ih
    simp only [parse_encode h (.relation rel) lsn trivial]
    exact h.after (.relation rel)

/-- A row message on a captured relation stands for one publishable event, whose data is valid
    exactly when the values it reports are representable. -/
private theorem row_event {cfg : Config} {cat : Catalog} {m : Message} {id : UInt32}
    (lsn : GoString) (hm : m.rowRelation = some id) (hrel : cat id = some rel)
    (hpass : cfg.captures rel = true) (hprod : m.Producible rel) :
    ∃ e, cfg.events cat lsn m = [e] ∧ isPublishable e.type = true ∧
      (valid e.data = true ↔ m.Representable rel) := by
  cases m with
  | insert id' new =>
    cases hm
    cases hddl : cfg.isDDLLog rel with
    | true =>
      -- a row of the log of DDL commands becomes an event of its own kind, with the same data
      refine ⟨Config.ddlEvent rel new lsn, ?_, rfl, image_valid_iff hprod⟩
      simp only [Config.events, hrel, hddl, ↓reduceIte]
    | false =>
      refine ⟨Config.rowEvent .insert rel (rel.image .full new) (ascii "INSERT") lsn, ?_, rfl,
        image_valid_iff hprod⟩
      simp only [Config.events, hrel, hddl, hpass, Bool.false_eq_true, ↓reduceIte]
  | update id' old new =>
    cases hm
    refine ⟨Config.rowEvent .update rel (rel.updateData old new) (ascii "UPDATE") lsn, ?_, rfl,
      updateData_valid_iff hprod.1 hprod.2⟩
    simp only [Config.events, hrel, hpass, ↓reduceIte]
  | delete id' kind old =>
    cases hm
    refine ⟨Config.rowEvent .delete rel (rel.image kind old) (ascii "DELETE") lsn, ?_, rfl,
      image_valid_iff hprod⟩
    simp only [Config.events, hrel, hpass, ↓reduceIte]
  | _ => cases hm

/-- A row message on a captured relation: the event `Parse` returns has valid data, is taken by
    the bus and stays handed exactly when every value it reports is representable, that is when
    no float or numeric value is `NaN` or infinite and no json value is nested too deeply. -/
theorem row_accepted_iff (cfg : Config) (rels : List (RelationDesc × GoString)) (m : Message)
    (id : UInt32) (rel : RelationDesc) (lsn : GoString) (l : Listener)
    (hm : m.rowRelation = some id) (hrel : catalogOf rels id = some rel)
    (hpass : cfg.captures rel = true) (hfit : m.FitsCatalog (catalogOf rels))
    (hprod : m.Producible rel) :
    ∃ e, ((parserOf cfg rels).parse m.encode lsn).event = some e ∧
      ((valid e.data = true ∧ Service.opened.handleEvent e = true ∧
        (l.emit Service.opened e).1.ack.handed = l.ack.handed + 1) ↔ m.Representable rel) := by
  obtain ⟨e, he, hpub, hvalid⟩ := row_event lsn hm hrel hpass hprod
  refine ⟨e, ?_, ?_⟩
  · rw [parse_encode (parserOf_agrees cfg rels) m lsn hfit, he]
    rfl
  · -- the bus and the gate add no condition to the validity of the data
    rw [← hvalid]
    refine ⟨fun h => h.1, fun h => ?_⟩
    have htake : Service.opened.handleEvent e = true := Service.handleEvent_of_valid rfl h
    refine ⟨h, htake, ?_⟩
    rw [l.emit_taken hpub htake]
    rfl

/-- A table with one float8 column. -/
def RelationDesc.floatColumn : RelationDesc where
  id := 9
  nameSpace := ascii "public"
  name := ascii "m"
  replicaIdentity := 0x64
  columns := [⟨0, ascii "x", 701, 0⟩]
  nameSpace_nul := RelationDesc.sample.nameSpace_nul
  name_nul := by decide
  columns_nul := by decide
  columns_lt := by decide
  columns_nodup := by decide

/-- An ordinary row is accepted. -/
theorem row_accepted_finite :
    ∃ e, ((parserOf ⟨[], false⟩ [(RelationDesc.floatColumn, [])]).parse
        (Message.insert 9 [.text (ascii "1.5") (by decide)]).encode []).event = some e ∧
      Service.opened.handleEvent e = true := by
  have hprod : (Message.insert 9 [.text (ascii "1.5") (by decide)]).Producible
      RelationDesc.floatColumn := by
    have hnum : IsNumber (ascii "1.5") := ⟨[], ascii "1", ascii ".5", [], rfl, Or.inl rfl,
      Or.inr ⟨0x31, [], rfl, rfl, by decide, forall_mem_nil _⟩,
      Or.inr ⟨ascii "5", rfl, by decide, all_eq_true.mp (by decide)⟩, Or.inl rfl⟩
    intro cv hcv
    rw [mem_singleton.mp hcv]
    exact fun _ => Or.inl hnum
  obtain ⟨e, he, hiff⟩ := row_accepted_iff ⟨[], false⟩ [(RelationDesc.floatColumn, [])] _ 9
    RelationDesc.floatColumn [] (newGatedListener [] false) rfl rfl rfl
    (by simp [Message.FitsCatalog, catalogOf, Catalog.learn, RelationDesc.floatColumn]) hprod
  refine ⟨e, he, (hiff.mpr fun cv hcv => ?_).2.1⟩
  rw [mem_singleton.mp hcv]
  show ascii "1.5" ∉ nonFinite
  decide

/-- A float8 `NaN` is written as it is, so the bus refuses the row and the listener takes it
    back. -/
theorem nan_row_refused :
    ∃ e, ((parserOf ⟨[], false⟩ [(RelationDesc.floatColumn, [])]).parse
        (Message.insert 9 [.text (ascii "NaN") (by decide)]).encode []).event = some e ∧
      e.data = ascii "\x7b\"x\":NaN\x7d" ∧ Json.valid e.data = false ∧
      Service.opened.handleEvent e = false ∧
      ((newGatedListener [] false).emit Service.opened e).1.ack = (newGatedListener [] false).ack ∧
      ((newGatedListener [] false).emit Service.opened e).2 = none :=
  ⟨_, rfl, by decide, by decide, by decide, by decide, by decide⟩

end Postgres
