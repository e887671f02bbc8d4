import Watcher.Spec.Pgoutput

/-!
# The parser computes the reference interpretation

Each read is first described on a cursor in the middle of a message
(`Reader.cursor`): the bytes that encode a field yield the field and leave the
cursor behind them. Row images, relation descriptions and relation lists follow
by induction, and `parse_encode` puts them together for one message.

## Key results

- `tupleLoop_eq`, `readColumns_cursor`: a row image is decoded column by column
- `relationLoop_cursor`: a relation description is decoded column by column
- `parse_encode`: one message, in a parser state that agrees with a catalog
- `parseAll_encode`: a sequence of messages, fed to a new parser
-/

namespace Postgres

open Cdc Jsonutil List

namespace Reader

/-- The cursor between `pre` and `rest`. -/
def cursor (pre rest : List UInt8) : Reader := ⟨pre ++ rest, pre.length, false⟩

@[simp] theorem remaining_cursor (pre rest : List UInt8) :
    (Reader.cursor pre rest).remaining = rest.length := by
  simp only [remaining, Reader.cursor, length_append]
  omega

/-- Bytes that are there are read. -/
theorem readBytes_cursor (pre xs rest : List UInt8) {n : Nat} (h : xs.length = n) :
    (Reader.cursor pre (xs ++ rest)).readBytes n = (xs, Reader.cursor (pre ++ xs) rest) := by
  have hfit : (Reader.cursor pre (xs ++ rest)).canRead n = true := by
    simp only [canRead, Reader.cursor, Bool.not_false, Bool.true_and, length_append,
      decide_eq_true_eq]
    omega
  have hdrop : (pre ++ (xs ++ rest)).drop pre.length = xs ++ rest := drop_left
  rw [readBytes, if_pos hfit]
  simp only [Reader.cursor, hdrop, ← h, take_left, append_assoc, length_append]

/-- A number in big-endian bytes. -/
theorem readUint_cursor (pre rest : List UInt8) {w n : Nat} (h : n < 256 ^ w) :
    (Reader.cursor pre (beBytes w n ++ rest)).readUint w =
      (n, Reader.cursor (pre ++ beBytes w n) rest) := by
  simp only [readUint, readBytes_cursor pre _ rest (length_beBytes w n), beNat_beBytes h]

/-- One byte. -/
@[simp] theorem readByte_cursor (pre rest : List UInt8) (b : UInt8) :
    (Reader.cursor pre (b :: rest)).readByte = (b, Reader.cursor (pre ++ [b]) rest) := by
  have h := @readBytes_cursor pre [b] rest 1 rfl
  simp only [cons_append, nil_append] at h
  simp only [readByte, h, headD_cons]

/-- Four bytes. -/
@[simp] theorem readUint32_cursor (pre rest : List UInt8) (v : UInt32) :
    (Reader.cursor pre (beBytes 4 v.toNat ++ rest)).readUint32 =
      (v.toNat, Reader.cursor (pre ++ beBytes 4 v.toNat) rest) :=
  readUint_cursor pre rest (by have := v.toNat_lt; omega)

/-- Eight bytes. -/
@[simp] theorem readUint64_cursor (pre rest : List UInt8) (v : UInt64) :
    (Reader.cursor pre (beBytes 8 v.toNat ++ rest)).readUint64 =
      (v.toNat, Reader.cursor (pre ++ beBytes 8 v.toNat) rest) :=
  readUint_cursor pre rest (by have := v.toNat_lt; omega)

/-- A NUL-terminated name. -/
theorem readCString_cursor (pre s rest : List UInt8) (h : 0 ∉ s) :
    (Reader.cursor pre (s ++ 0 :: rest)).readCString =
      (s, Reader.cursor (pre ++ s ++ [0]) rest) := by
  have hdrop : (pre ++ (s ++ 0 :: rest)).drop pre.length = s ++ 0 :: rest := drop_left
  -- the name itself has no NUL, so the scan stops at the terminator
  have htake : (s ++ 0 :: rest).takeWhile (· != 0) = s := by
    rw [takeWhile_append_of_pos]
    · simp
    · intro b hb
      simp only [bne_iff_ne, ne_eq]
      rintro rfl
      exact h hb
  have hlt : pre.length + s.length < (pre ++ (s ++ 0 :: rest)).length := by
    simp only [length_append, length_cons]
    omega
  simp only [readCString, Reader.cursor, hdrop, htake, if_pos hlt]
  simp only [append_assoc, cons_append, nil_append, length_append,
    length_cons, length_nil, Nat.zero_add, Nat.add_assoc]

end Reader

/-! ## Row images -/

/-- What the parser keeps of a relation description. -/
def RelationDesc.info (rel : RelationDesc) : RelationInfo where
  nameSpace := rel.nameSpace
  name := rel.name
  columns := rel.columns.map ColumnDesc.name
  typeOIDs := rel.columns.map fun c => c.typeOID.toNat
  keyColumns := rel.keyColumns

/-- Column names are distinct, so a name is listed as a key column exactly when its column
    carries the key flag. -/
theorem contains_keyColumns (rel : RelationDesc) {c : ColumnDesc} (hc : c ∈ rel.columns) :
    rel.keyColumns.contains c.name = c.isKey := by
  rw [Bool.eq_iff_iff, contains_iff_mem, RelationDesc.keyColumns, mem_map]
  constructor
  · rintro ⟨d, hd, hname⟩
    obtain ⟨hd, hkey⟩ := mem_filter.mp hd
    have hdc : d = c := inj_on_of_nodup_map rel.columns_nodup hd hc hname
    rw [← hdc]
    exact hkey
  · intro hkey
    exact ⟨c, mem_filter.mpr ⟨hc, hkey⟩, rfl⟩

private theorem toNat_eq_iff (oid : UInt32) (k : Nat) (hk : k < 2 ^ 32) :
    oid.toNat = k ↔ oid = UInt32.ofNat k := by
  constructor
  · rintro rfl
    simp
  · rintro rfl
    simp only [UInt32.toNat_ofNat']
    omega

/-- The OID tables of the parser classify a column as the reference does. -/
private theorem renderText_eq (oid : UInt32) (value : GoString) (fits : value.length < 2 ^ 32) :
    (TupleValue.text value fits).json (ValueKind.ofOID oid) =
      some (renderText oid.toNat value) := by
  -- the three tables, read as conditions on the 32-bit OID
  have hnum : isNumericOID oid.toNat = decide (oid ∈ [20, 21, 23, 26, 700, 701, 1700]) := by
    rw [Bool.eq_iff_iff]
    simp [isNumericOID, numericOIDs, toNat_eq_iff]
  have hbool : (oid.toNat = boolOID) = (oid = 16) := by
    rw [eq_iff_iff, boolOID, toNat_eq_iff _ _ (by decide)]
    rfl
  have hjson : isJSONOID oid.toNat = decide (oid ∈ [114, 3802]) := by
    rw [Bool.eq_iff_iff]
    simp [isJSONOID, jsonOIDs, toNat_eq_iff]
  simp only [renderText, hnum, hbool, hjson, ValueKind.ofOID, decide_eq_true_eq]
  by_cases h₁ : oid ∈ [20, 21, 23, 26, 700, 701, 1700]
  · simp only [h₁, ↓reduceIte, TupleValue.json]
  by_cases h₂ : oid = 16
  · rw [if_neg h₁, if_pos h₂, if_neg h₁, if_pos h₂]
    rfl
  by_cases h₃ : oid ∈ [114, 3802]
  · simp [h₁, h₂, h₃, TupleValue.json, quoted]
  · simp [h₁, h₂, h₃, TupleValue.json, quoted]

/-- Members that follow `written` others. -/
private def continuation (written : Nat) (ms : List (GoString × GoString)) : GoString :=
  if 0 < written then ms.flatMap fun m => [0x2c, 0x20] ++ Json.member m else Json.members ms

private theorem continuation_nil (written : Nat) : continuation written [] = [] := by
  simp [continuation, Json.members]

/-- Writing one more member puts a separator before it unless it is the first. -/
private theorem continuation_cons (written : Nat) (name value : GoString)
    (ms : List (GoString × GoString)) :
    continuation written ((name, value) :: ms) =
      (if 0 < written then ascii ", " else []) ++ [0x22] ++ name ++ ascii "\":" ++ value ++
        continuation (written + 1) ms := by
  have hsep : ascii ", " = [0x2c, 0x20] := by decide
  have hcolon : ascii "\":" = [0x22, 0x3a] := by decide
  by_cases h : 0 < written <;>
    simp [continuation, h, hsep, hcolon, Json.members, Json.member]

/-- A value of a column that is left out is skipped whole. -/
private theorem skipTupleValue_cursor (pre rest : List UInt8) (v : TupleValue) :
    ∃ tag body, v.encode = tag :: body ∧
      skipTupleValue (Reader.cursor (pre ++ [tag]) (body ++ rest)) tag =
        Reader.cursor (pre ++ v.encode) rest := by
  cases v with
  | null => exact ⟨0x6e, [], rfl, rfl⟩
  | unchanged => exact ⟨0x75, [], rfl, rfl⟩
  | text value fits =>
    refine ⟨0x74, beBytes 4 value.length ++ value, rfl, ?_⟩
    have hlen := Reader.readUint_cursor (pre ++ [0x74]) (value ++ rest)
      (show value.length < 256 ^ 4 by omega)
    rw [skipTupleValue, if_pos rfl, Reader.readUint32, append_assoc, hlen]
    simp only [Reader.readBytes_cursor _ value rest rfl, TupleValue.encode]
    simp

/-- A value that is reported is written as the reference writes it. -/
private theorem writeTupleValue_cursor (pre rest : List UInt8) (v : TupleValue) (oid : UInt32)
    {j : GoString} (hj : v.json (ValueKind.ofOID oid) = some j) :
    ∃ tag body, v.encode = tag :: body ∧ tag ≠ 0x75 ∧
      writeTupleValue (Reader.cursor (pre ++ [tag]) (body ++ rest)) tag oid.toNat =
        (j, Reader.cursor (pre ++ v.encode) rest) := by
  cases v with
  | null =>
    simp only [TupleValue.json, Option.some.injEq] at hj
    exact ⟨0x6e, [], rfl, by decide, by rw [← hj]; rfl⟩
  | unchanged => exact nomatch hj
  | text value fits =>
    refine ⟨0x74, beBytes 4 value.length ++ value, rfl, by decide, ?_⟩
    rw [renderText_eq, Option.some.injEq] at hj
    have hlen := Reader.readUint_cursor (pre ++ [0x74]) (value ++ rest)
      (show value.length < 256 ^ 4 by omega)
    rw [writeTupleValue, if_neg (by decide), if_pos rfl, writeTextValue, Reader.readUint32,
      append_assoc, hlen]
    simp only [Reader.readBytes_cursor _ value rest rfl, TupleValue.encode, hj]
    simp

theorem imageMembers_cons (kind : ImageKind) (c : ColumnDesc) (columns : List ColumnDesc)
    (v : TupleValue) (t : List TupleValue) :
    imageMembers kind (c :: columns) (v :: t) =
      (if kind = .key ∧ ¬c.isKey then none
        else (v.json (ValueKind.ofOID c.typeOID)).map fun j => (escapeString c.name, j)).toList ++
        imageMembers kind columns t := by
  rw [imageMembers, zip_cons_cons, filterMap_cons]
  dsimp only
  split
  · next h => rw [h]; rfl
  · next h => rw [h]; rfl

/-- One column of a row image: its member, unless it is left out. -/
def readColumn (rel : RelationInfo) (keyOnly : Bool) (i : Nat) (r : Reader) :
    Option (GoString × GoString) × Reader :=
  let (colType, r) := r.readByte
  let colName := rel.columns.getD i (ascii "col_" ++ itoa i)
  if colType = 0x75 || (keyOnly && !rel.keyColumns.contains colName) then
    (none, skipTupleValue r colType)
  else
    let (value, r) := writeTupleValue r colType (rel.typeOIDs.getD i 0)
    (some (escapeString colName, value), r)

/-- The members that `tupleLoop` writes. -/
def readColumns (rel : RelationInfo) (keyOnly : Bool) :
    (n i : Nat) → Reader → List (GoString × GoString) × Reader
  | 0, _, r => ([], r)
  | n + 1, i, r =>
    let (m, r) := readColumn rel keyOnly i r
    let (ms, r) := readColumns rel keyOnly n (i + 1) r
    (m.toList ++ ms, r)

/-- Reading the columns and writing them can be told apart. -/
theorem tupleLoop_eq (rel : RelationInfo) (keyOnly : Bool) (n i written : Nat) (r : Reader) :
    tupleLoop rel keyOnly n i written r =
      (continuation written (readColumns rel keyOnly n i r).1,
        (readColumns rel keyOnly n i r).2) := by
  induction n generalizing i written r with
  | zero => rw [tupleLoop, readColumns, continuation_nil]
  | succ n ih =>
    simp only [tupleLoop, readColumns, readColumn]
    split
    · rw [ih]
      rfl
    · simp only [ih, Option.toList_some, singleton_append, continuation_cons]

/-- A column whose value the message carries gives the member of the reference image. -/
theorem readColumn_cursor (rel : RelationDesc) (kind : ImageKind) (v : TupleValue) {i : Nat}
    (hi : i < rel.columns.length) (pre rest : List UInt8) :
    readColumn rel.info (kind = .key) i (Reader.cursor pre (v.encode ++ rest)) =
      (if kind = .key ∧ ¬rel.columns[i].isKey then none
        else (v.json (ValueKind.ofOID rel.columns[i].typeOID)).map fun j =>
          (escapeString rel.columns[i].name, j),
        Reader.cursor (pre ++ v.encode) rest) := by
  have hmem : rel.columns[i] ∈ rel.columns := getElem_mem hi
  have hname : rel.info.columns.getD i (ascii "col_" ++ itoa i) = rel.columns[i].name := by
    simp [RelationDesc.info, hi]
  have hoid : rel.info.typeOIDs.getD i 0 = rel.columns[i].typeOID.toNat := by
    simp [RelationDesc.info, hi]
  have hkey : rel.info.keyColumns.contains rel.columns[i].name = rel.columns[i].isKey :=
    contains_keyColumns rel hmem
  -- the column is reported exactly when the reference image has a member for it
  by_cases hout : kind = .key ∧ ¬rel.columns[i].isKey
  · -- a column outside the key, in a key image
    obtain ⟨tag, body, henc, hskip⟩ := skipTupleValue_cursor pre rest v
    have hcond : (decide (tag = 0x75) ||
        (decide (kind = .key) && !rel.info.keyColumns.contains rel.columns[i].name)) = true := by
      rw [hkey]
      simp [hout.1, hout.2]
    rw [if_pos hout]
    simp only [readColumn, henc, cons_append, Reader.readByte_cursor, hname, hcond,
      ↓reduceIte, hskip]
  · rw [if_neg hout]
    cases hj : v.json (ValueKind.ofOID rel.columns[i].typeOID) with
    | none =>
      -- only an unchanged TOAST value carries nothing
      have hv : v = .unchanged := by
        cases v with
        | null => exact nomatch hj
        | unchanged => rfl
        | text value fits => rw [renderText_eq] at hj; exact nomatch hj
      subst hv
      have hskip : skipTupleValue (Reader.cursor (pre ++ [0x75]) rest) 0x75 =
          Reader.cursor (pre ++ [0x75]) rest := rfl
      simp only [readColumn, TupleValue.encode, cons_append, nil_append,
        Reader.readByte_cursor, decide_true, Bool.true_or, ↓reduceIte, hskip, Option.map_none]
    | some j =>
      obtain ⟨tag, body, henc, htag, hwrite⟩ := writeTupleValue_cursor pre rest v _ hj
      have hcond : (decide (tag = 0x75) ||
          (decide (kind = .key) && !rel.info.keyColumns.contains rel.columns[i].name)) =
          false := by
        simp only [htag, hkey, decide_false, Bool.false_or, Bool.and_eq_false_imp,
          decide_eq_true_eq, Bool.not_eq_eq_eq_not, Bool.not_false]
        intro hk
        by_contra hnot
        exact hout ⟨hk, hnot⟩
      simp only [readColumn, henc, cons_append, Reader.readByte_cursor, hname, hoid, hcond,
        Bool.false_eq_true, ↓reduceIte, hwrite, Option.map_some]

/-- The columns from index `i` on: their values are consumed and give the members of the reference
    image. -/
theorem readColumns_cursor (rel : RelationDesc) (kind : ImageKind) (ts : List TupleValue)
    (i : Nat) (pre rest : List UInt8) (hlen : ts.length + i = rel.columns.length) :
    readColumns rel.info (kind = .key) ts.length i
        (Reader.cursor pre (ts.flatMap TupleValue.encode ++ rest)) =
      (imageMembers kind (rel.columns.drop i) ts,
        Reader.cursor (pre ++ ts.flatMap TupleValue.encode) rest) := by
  induction ts generalizing i pre with
  | nil => simp [readColumns, imageMembers]
  | cons v ts ih =>
    rw [length_cons] at hlen
    have hi : i < rel.columns.length := by omega
    rw [drop_eq_getElem_cons hi, imageMembers_cons, flatMap_cons, append_assoc]
    simp only [length_cons, readColumns, readColumn_cursor rel kind v hi]
    rw [ih (i + 1) _ (by omega)]
    simp

/-- A row image whose count of columns is there is the object of the members that are read. -/
theorem parseTupleData_eq {r : Reader} (hrem : ¬r.remaining < 2) (rel : RelationInfo)
    (keyOnly : Bool) : parseTupleData r rel keyOnly =
      (Json.object (readColumns rel keyOnly r.readUint16.1 0 r.readUint16.2).1,
        (readColumns rel keyOnly r.readUint16.1 0 r.readUint16.2).2) := by
  rw [parseTupleData, if_neg hrem]
  simp only [tupleLoop_eq]
  rfl

/-- A row image is decoded to the reference image. -/
theorem parseTupleData_cursor (rel : RelationDesc) (kind : ImageKind) (t : List TupleValue)
    (pre rest : List UInt8) (hlen : t.length = rel.columns.length) :
    parseTupleData (Reader.cursor pre (encodeTuple t ++ rest)) rel.info (kind = .key) =
      (rel.image kind t, Reader.cursor (pre ++ encodeTuple t) rest) := by
  have hlt : t.length < 256 ^ 2 := by
    have := rel.columns_lt
    omega
  -- the count of columns is there, so the message is not cut short
  have hrem : ¬(Reader.cursor pre (encodeTuple t ++ rest)).remaining < 2 := by
    simp only [Reader.remaining_cursor, encodeTuple, length_append, length_beBytes]
    omega
  have hnum := Reader.readUint_cursor pre (t.flatMap TupleValue.encode ++ rest) hlt
  have hcolumns := readColumns_cursor rel kind t 0 (pre ++ beBytes 2 t.length) rest (by omega)
  rw [parseTupleData_eq hrem, Reader.readUint16, encodeTuple, append_assoc, hnum]
  simp only [hcolumns, drop_zero, RelationDesc.image, append_assoc]

/-! ## Messages -/

/-- The column descriptions of a RELATION message. -/
private theorem relationLoop_cursor (cs : List ColumnDesc) (pre rest : List UInt8)
    (hnul : ∀ c ∈ cs, 0 ∉ c.name) :
    Parser.relationLoop cs.length (Reader.cursor pre (cs.flatMap ColumnDesc.encode ++ rest)) =
      ((cs.map ColumnDesc.name, cs.map (·.typeOID.toNat),
        (cs.filter ColumnDesc.isKey).map ColumnDesc.name),
        Reader.cursor (pre ++ cs.flatMap ColumnDesc.encode) rest) := by
  induction cs generalizing pre with
  | nil => simp [Parser.relationLoop]
  | cons c cs ih =>
    have hc : 0 ∉ c.name := hnul c mem_cons_self
    have ih' := fun pre => ih pre fun c' h => hnul c' (mem_cons_of_mem c h)
    simp only [length_cons, Parser.relationLoop, flatMap_cons, ColumnDesc.encode, cons_append,
      append_assoc, Reader.readByte_cursor, Reader.readCString_cursor _ _ _ hc,
      Reader.readUint32_cursor, ih', map_cons, filter_cons, ColumnDesc.isKey, decide_eq_true_eq,
      nil_append]
    split <;> simp

/-- The parser after a message. -/
def Parser.after (p : Parser) : Message → Parser
  | .begin finalLSN _ _ => { p with txnFinalLSN := finalLSN }
  | .commit _ _ endLSN _ => { p with txnEndLSN := endLSN }
  | .relation rel => { p with
      relationMap := fun id => if id = rel.id.toNat then some rel.info else p.relationMap id }
  | _ => p

/-- The parser is configured as `cfg` and knows of the relations what `cat` holds. -/
structure Parser.Agrees (p : Parser) (cfg : Config) (cat : Catalog) : Prop where
  tables : p.tableFilter = cfg.tables
  captureDDL : p.captureDDL = cfg.captureDDL
  relations : ∀ id : UInt32, p.relationMap id.toNat = (cat id).map RelationDesc.info

theorem agrees_newParser (cfg : Config) :
    (newParser cfg.tables cfg.captureDDL).Agrees cfg Catalog.empty :=
  ⟨rfl, rfl, fun _ => rfl⟩

variable {p : Parser} {cfg : Config} {cat : Catalog}

theorem Parser.Agrees.after (h : p.Agrees cfg cat) (m : Message) :
    (p.after m).Agrees cfg (cat.learn m) := by
  cases m with
  | relation rel =>
    refine ⟨h.tables, h.captureDDL, fun id => ?_⟩
    simp only [Parser.after, Catalog.learn, UInt32.toNat_inj, h.relations]
    split <;> rfl
  | _ => exact ⟨h.tables, h.captureDDL, h.relations⟩

/-- The filter is the configured one. -/
private theorem Parser.Agrees.passesFilter (h : p.Agrees cfg cat) (rel : RelationDesc) :
    p.passesFilter rel.info.name = cfg.captures rel := by
  simp only [Parser.passesFilter, Config.captures, h.tables, RelationDesc.info]
  by_cases hown : rel.name = slotOwnersTable
  · simp [hown]
  · cases htables : cfg.tables with
    | nil => simp [hown]
    | cons t ts => simp [hown]

/-- The type byte is read first. -/
private theorem parse_tag (p : Parser) (tag : UInt8) (body lsn : List UInt8) :
    p.parse (tag :: body) lsn =
      let r := Reader.cursor [tag] body
      if tag = 0x42 then p.parseBegin r lsn
      else if tag = 0x43 then p.parseCommit r lsn
      else if tag = 0x52 then p.parseRelation r
      else if tag = 0x49 then p.parseInsert r lsn
      else if tag = 0x55 then p.parseUpdate r lsn
      else if tag = 0x44 then p.parseDelete r lsn
      else if tag = 0x54 then p.parseTruncate r lsn
      else ⟨p, [], none⟩ := rfl

/-- A time in eight bytes. -/
private theorem readUint64_time (pre rest : List UInt8) (time : PgTime) :
    (Reader.cursor pre (beBytes 8 time.val ++ rest)).readUint64 =
      (time.val, Reader.cursor (pre ++ beBytes 8 time.val) rest) :=
  Reader.readUint_cursor pre rest (by have := time.property; omega)

/-- BEGIN. -/
private theorem parseBegin_cursor (p : Parser) (pre : List UInt8) (finalLSN : UInt64)
    (time : PgTime) (xid : UInt32) (lsn : GoString) :
    p.parseBegin (Reader.cursor pre
        (beBytes 8 finalLSN.toNat ++ (beBytes 8 time.val ++ beBytes 4 xid.toNat))) lsn =
      ⟨{ p with txnFinalLSN := finalLSN }, [],
        some (newEventWithSourceTS .begin [] [] [] (ascii "BEGIN") lsn
          (Config.sourceTS time))⟩ := by
  have hlen : 20 ≤ (Reader.cursor pre
      (beBytes 8 finalLSN.toNat ++ (beBytes 8 time.val ++ beBytes 4 xid.toNat))).remaining := by
    simp
  rw [Parser.parseBegin, if_pos hlen]
  simp only [Reader.readUint64_cursor, readUint64_time, UInt64.ofNat_toNat]
  rfl

/-- COMMIT. -/
private theorem parseCommit_cursor (p : Parser) (pre : List UInt8) (flags : UInt8)
    (commitLSN endLSN : UInt64) (time : PgTime) (lsn : GoString) :
    p.parseCommit (Reader.cursor pre (flags ::
        (beBytes 8 commitLSN.toNat ++ (beBytes 8 endLSN.toNat ++ beBytes 8 time.val)))) lsn =
      ⟨{ p with txnEndLSN := endLSN }, [],
        some (newEventWithSourceTS .commit [] [] [] (ascii "COMMIT") lsn
          (Config.sourceTS time))⟩ := by
  have hlen : 25 ≤ (Reader.cursor pre (flags :: (beBytes 8 commitLSN.toNat ++
      (beBytes 8 endLSN.toNat ++ beBytes 8 time.val)))).remaining := by
    simp
  -- the time ends the message; the cursor lemmas want something after it
  rw [Parser.parseCommit, if_pos hlen, ← append_nil (beBytes 8 time.val)]
  simp only [Reader.readByte_cursor, Reader.readUint64_cursor, readUint64_time, UInt64.ofNat_toNat]
  rfl

/-- RELATION. -/
private theorem parseRelation_cursor (p : Parser) (pre : List UInt8) (rel : RelationDesc) :
    p.parseRelation (Reader.cursor pre rel.encode) = ⟨p.after (.relation rel), [], none⟩ := by
  have hcols : rel.columns.length < 256 ^ 2 := by
    have := rel.columns_lt
    omega
  have hnum := fun pre rest => Reader.readUint_cursor pre rest hcols
  rw [Parser.parseRelation, RelationDesc.encode,
    ← append_nil (rel.columns.flatMap ColumnDesc.encode)]
  simp only [Reader.readUint32_cursor, Reader.readCString_cursor _ _ _ rel.nameSpace_nul,
    Reader.readCString_cursor _ _ _ rel.name_nul, Reader.readByte_cursor, Reader.readUint16, hnum,
    relationLoop_cursor _ _ _ rel.columns_nul]
  rfl

/-- A row image that ends the message. -/
private theorem parseTupleData_end (rel : RelationDesc) (kind : ImageKind) (t : List TupleValue)
    (pre : List UInt8) (hlen : t.length = rel.columns.length) :
    (parseTupleData (Reader.cursor pre (encodeTuple t)) rel.info (kind = .key)).1 =
      rel.image kind t := by
  have h := parseTupleData_cursor rel kind t pre [] hlen
  rw [append_nil] at h
  rw [h]

/-- INSERT. -/
private theorem parseInsert_cursor (h : p.Agrees cfg cat) (pre : List UInt8) (id : UInt32)
    (new : List TupleValue) (lsn : GoString) (hfit : (Message.insert id new).FitsCatalog cat) :
    p.parseInsert (Reader.cursor pre (beBytes 4 id.toNat ++ 0x4e :: encodeTuple new)) lsn =
      ⟨p, (cfg.events cat lsn (.insert id new)).tail,
        (cfg.events cat lsn (.insert id new)).head?⟩ := by
  rw [Parser.parseInsert, Config.events, Reader.readUint32_cursor]
  dsimp only
  rw [h.relations]
  cases hrel : cat id with
  | none => rfl
  | some rel =>
    have himage := fun pre => parseTupleData_end rel .full new pre (hfit rel hrel)
    simp only [reduceCtorEq, decide_false] at himage
    have hddl : (p.captureDDL && decide (rel.info.name = ddlLogTable)) = cfg.isDDLLog rel := by
      rw [h.captureDDL]
      rfl
    simp only [Option.map_some, hddl, h.passesFilter, Reader.readByte_cursor, himage]
    -- a DDL log insert comes before the filter, on both sides
    cases cfg.isDDLLog rel with
    | true => rfl
    | false =>
      cases cfg.captures rel with
      | true => rfl
      | false => rfl

theorem encode_isImage (kind : ImageKind) :
    (decide (kind.encode = 0x4b) || decide (kind.encode = 0x4f)) = true ∧
      decide (kind.encode = 0x4b) = decide (kind = .key) := by
  cases kind <;> decide

/-- An old image, which its tag announces. -/
theorem parseOldImage_cursor (rel : RelationInfo) (kind : ImageKind) (pre rest : List UInt8) :
    Parser.parseOldImage (Reader.cursor pre (kind.encode :: rest)) rel =
      (ascii "\"old\":" ++
        (parseTupleData (Reader.cursor (pre ++ [kind.encode]) rest) rel (kind = .key)).1,
        (parseTupleData (Reader.cursor (pre ++ [kind.encode]) rest) rel (kind = .key)).2) := by
  have hpos : 0 < (Reader.cursor pre (kind.encode :: rest)).remaining := by simp
  obtain ⟨hkind, hkey⟩ := encode_isImage kind
  rw [Parser.parseOldImage, if_pos hpos]
  simp only [Reader.readByte_cursor]
  rw [if_pos hkind, hkey]

/-- The byte that announces the new image is put back when there is no old one. -/
theorem parseOldImage_none (rel : RelationInfo) (pre rest : List UInt8) :
    Parser.parseOldImage (Reader.cursor pre (0x4e :: rest)) rel =
      ([], Reader.cursor pre (0x4e :: rest)) := by
  have hpos : 0 < (Reader.cursor pre (0x4e :: rest)).remaining := by simp
  rw [Parser.parseOldImage, if_pos hpos]
  simp only [Reader.readByte_cursor]
  -- 'N' is neither 'K' nor 'O'
  rw [if_neg (by decide)]
  simp [Reader.cursor]

/-- The new image. -/
theorem parseNewImage_cursor (rel : RelationInfo) (pre rest written : List UInt8) :
    Parser.parseNewImage (Reader.cursor pre (0x4e :: rest)) rel written =
      (if written ≠ [] then ascii ", " else []) ++ ascii "\"new\":" ++
        (parseTupleData (Reader.cursor (pre ++ [0x4e]) rest) rel false).1 := by
  have hpos : 0 < (Reader.cursor pre (0x4e :: rest)).remaining := by simp
  rw [Parser.parseNewImage, if_pos hpos]
  simp only [Reader.readByte_cursor, ↓reduceIte]

/-- What `parseUpdate` writes for the images it finds. -/
def imagesText (r : Reader) (rel : RelationInfo) : GoString :=
  let (oldImage, r) := Parser.parseOldImage r rel
  [0x7b] ++ oldImage ++ Parser.parseNewImage r rel oldImage ++ [0x7d]

theorem parseUpdate_eq {r r₁ : Reader} {x : Nat} {rel : RelationInfo}
    (hread : r.readUint32 = (x, r₁)) (hrel : p.relationMap x = some rel) (lsn : GoString) :
    p.parseUpdate r lsn = ⟨p, [], if p.passesFilter rel.name then
      some { newEvent .update rel.nameSpace rel.name (imagesText r₁ rel) (ascii "UPDATE") lsn with
        keyColumns := rel.keyColumns }
      else none⟩ := by
  simp only [Parser.parseUpdate, hread, hrel, imagesText]
  cases p.passesFilter rel.name with
  | true => rfl
  | false => rfl

/-- Both images of an UPDATE. -/
private theorem imagesText_cursor (rel : RelationDesc) (id : UInt32)
    (old : Option (ImageKind × List TupleValue)) (new : List TupleValue) (pre body : List UInt8)
    (hbody : (Message.update id old new).encode = 0x55 :: (beBytes 4 id.toNat ++ body))
    (hnew : new.length = rel.columns.length)
    (hold : ∀ kind t, old = some (kind, t) → t.length = rel.columns.length) :
    imagesText (Reader.cursor pre body) rel.info = rel.updateData old new := by
  have himage := fun pre => parseTupleData_end rel .full new pre hnew
  simp only [reduceCtorEq, decide_false] at himage
  cases old with
  | none =>
    simp only [Message.encode, List.cons.injEq, append_cancel_left_eq, true_and] at hbody
    subst hbody
    simp only [imagesText, parseOldImage_none, parseNewImage_cursor, himage]
    simp [RelationDesc.updateData, Json.object, Json.members, Json.member, ascii, Char.toUInt8]
  | some image =>
    obtain ⟨kind, t⟩ := image
    simp only [Message.encode, List.cons.injEq, append_cancel_left_eq, true_and] at hbody
    subst hbody
    simp only [imagesText, parseOldImage_cursor,
      parseTupleData_cursor rel kind t _ _ (hold kind t rfl), parseNewImage_cursor, himage]
    simp [RelationDesc.updateData, Json.object, Json.members, Json.member, ascii, Char.toUInt8]

/-- UPDATE, with whichever images it has. -/
private theorem parseUpdate_cursor (h : p.Agrees cfg cat) (pre body : List UInt8) (id : UInt32)
    (old : Option (ImageKind × List TupleValue)) (new : List TupleValue) (lsn : GoString)
    (hbody : (Message.update id old new).encode = 0x55 :: (beBytes 4 id.toNat ++ body))
    (hfit : (Message.update id old new).FitsCatalog cat) :
    p.parseUpdate (Reader.cursor pre (beBytes 4 id.toNat ++ body)) lsn =
      ⟨p, (cfg.events cat lsn (.update id old new)).tail,
        (cfg.events cat lsn (.update id old new)).head?⟩ := by
  have hread := Reader.readUint32_cursor pre body id
  have hrelation := h.relations id
  rw [Config.events]
  cases hrel : cat id with
  | none =>
    rw [hrel] at hrelation
    simp only [Parser.parseUpdate, hread, hrelation]
    rfl
  | some rel =>
    rw [hrel] at hrelation
    rw [parseUpdate_eq hread hrelation, imagesText_cursor rel id old new _ body hbody
      (hfit rel hrel).1 (hfit rel hrel).2, h.passesFilter]
    dsimp only
    cases cfg.captures rel with
    | true => rfl
    | false => rfl

/-- DELETE. -/
private theorem parseDelete_cursor (h : p.Agrees cfg cat) (pre : List UInt8) (id : UInt32)
    (kind : ImageKind) (old : List TupleValue) (lsn : GoString)
    (hfit : (Message.delete id kind old).FitsCatalog cat) :
    p.parseDelete (Reader.cursor pre (beBytes 4 id.toNat ++ kind.encode :: encodeTuple old)) lsn =
      ⟨p, (cfg.events cat lsn (.delete id kind old)).tail,
        (cfg.events cat lsn (.delete id kind old)).head?⟩ := by
  rw [Parser.parseDelete, Config.events, Reader.readUint32_cursor]
  dsimp only
  rw [h.relations]
  cases hrel : cat id with
  | none => rfl
  | some rel =>
    have himage := fun pre => parseTupleData_end rel kind old pre (hfit rel hrel)
    have hpos : 0 < (Reader.cursor (pre ++ beBytes 4 id.toNat)
        (kind.encode :: encodeTuple old)).remaining := by simp
    simp only [Option.map_some, h.passesFilter, if_pos hpos, Reader.readByte_cursor,
      (encode_isImage kind).2, himage]
    cases cfg.captures rel with
    | true => rfl
    | false => rfl

/-- The relations that are left: the first reported one is kept unless there is one already,
    all others are handled. -/
private theorem truncateLoop_cursor (h : p.Agrees cfg cat) (options : UInt8) (lsn : GoString)
    (ids : List UInt32) (pre rest : List UInt8) (first : Option Event) (handled : List Event) :
    let es := first.toList ++ handled ++ ids.filterMap fun id => (cat id).bind fun rel =>
      if cfg.captures rel then some (Config.truncateEvent options rel lsn) else none
    (first = none → handled = []) →
    p.truncateLoop options lsn ids.length
        (Reader.cursor pre (ids.flatMap (fun id => beBytes 4 id.toNat) ++ rest)) first handled =
      (es.head?, es.tail) := by
  -- on the relations that are left; what is kept and what was handled so far are accumulators
  induction ids generalizing pre first handled with
  | nil =>
    intro es hfirst
    cases first with
    | none => simp [es, Parser.truncateLoop, hfirst rfl]
    | some e => simp [es, Parser.truncateLoop]
  | cons id ids ih =>
    intro es hfirst
    simp only [length_cons, Parser.truncateLoop, flatMap_cons, append_assoc,
      Reader.readUint32_cursor, h.relations, es, filterMap_cons]
    cases hrel : cat id with
    | none =>
      -- unknown relations are passed over
      simp only [Option.map_none, Option.bind_none]
      rw [ih _ _ _ hfirst, append_assoc]
    | some rel =>
      simp only [Option.map_some, h.passesFilter, Option.bind_some]
      cases cfg.captures rel with
      | false =>
        simp only [Bool.not_false, ↓reduceIte, Bool.false_eq_true]
        rw [ih _ _ _ hfirst, append_assoc]
      | true =>
        simp only [Bool.not_true, Bool.false_eq_true, ↓reduceIte]
        have hevent : newEvent .truncate rel.info.nameSpace rel.info.name
            (ascii "\x7b\"options\":" ++ (itoa options.toNat ++ ascii "\x7d"))
            (ascii "TRUNCATE") lsn = Config.truncateEvent options rel lsn := by
          simp [Config.truncateEvent, Json.object, Json.members, Json.member, ascii, Char.toUInt8,
            RelationDesc.info]
        cases first with
        | none =>
          rw [hfirst rfl, hevent]
          rw [ih _ _ _ (fun _ => rfl)]
          simp
        | some e =>
          rw [hevent]
          dsimp only
          rw [ih _ (some e) _ (by simp)]
          simp

/-- TRUNCATE. -/
private theorem parseTruncate_cursor (h : p.Agrees cfg cat) (pre : List UInt8) (options : UInt8)
    (ids : List UInt32) (fits : ids.length < 2 ^ 32) (lsn : GoString) :
    p.parseTruncate (Reader.cursor pre
        (beBytes 4 ids.length ++ options :: ids.flatMap fun id => beBytes 4 id.toNat)) lsn =
      ⟨p, (cfg.events cat lsn (.truncate options ids fits)).tail,
        (cfg.events cat lsn (.truncate options ids fits)).head?⟩ := by
  have hnum := fun pre rest =>
    Reader.readUint_cursor pre rest (show ids.length < 256 ^ 4 by omega)
  have hloop := fun pre =>
    truncateLoop_cursor h options lsn ids pre [] none [] (fun _ => rfl)
  simp only [append_nil] at hloop
  simp only [Parser.parseTruncate, Reader.readUint32, hnum, Reader.readByte_cursor, hloop]
  rfl

/-- One message: in a parser that agrees with a catalog, `Parse` returns the first event the
    message stands for, hands the others to the event handler, and learns what the message says. -/
theorem parse_encode (h : p.Agrees cfg cat) (m : Message) (lsn : GoString)
    (hfit : m.FitsCatalog cat) :
    p.parse m.encode lsn =
      ⟨p.after m, (cfg.events cat lsn m).tail, (cfg.events cat lsn m).head?⟩ := by
  cases m with
  | begin finalLSN time xid =>
    rw [Message.encode, parse_tag]
    exact parseBegin_cursor p [0x42] finalLSN time xid lsn
  | commit flags commitLSN endLSN time =>
    rw [Message.encode, parse_tag]
    exact parseCommit_cursor p [0x43] flags commitLSN endLSN time lsn
  | relation rel =>
    rw [Message.encode, parse_tag]
    exact parseRelation_cursor p [0x52] rel
  | insert id new =>
    rw [Message.encode, parse_tag]
    exact parseInsert_cursor h [0x49] id new lsn hfit
  | update id old new =>
    cases old with
    | none =>
      rw [Message.encode, parse_tag]
      exact parseUpdate_cursor h [0x55] _ id none new lsn rfl hfit
    | some image =>
      rw [Message.encode, parse_tag]
      exact parseUpdate_cursor h [0x55] _ id (some image) new lsn rfl hfit
  | delete id kind old =>
    rw [Message.encode, parse_tag]
    exact parseDelete_cursor h [0x44] id kind old lsn hfit
  | truncate options ids fits =>
    rw [Message.encode, parse_tag]
    exact parseTruncate_cursor h [0x54] options ids fits lsn

/-! ## Message sequences -/

/-- Everything a call of `Parse` produces: what it handed to the event handler and what it
    returned. -/
def Parsed.produced (out : Parsed) : List Event := out.handled ++ out.event.toList

/-- What each message of a sequence, with the position it was received at, produces. -/
def Parser.parseAll (p : Parser) : List (List UInt8 × GoString) → List (List Event)
  | [] => []
  | (data, lsn) :: rest =>
    (p.parse data lsn).produced :: (p.parse data lsn).parser.parseAll rest

/-- What each message of a sequence stands for, under the latest description of each relation. -/
def Config.interpret (cfg : Config) (cat : Catalog) : List (Message × GoString) → List (List Event)
  | [] => []
  | (m, lsn) :: rest => cfg.events cat lsn m :: cfg.interpret (cat.learn m) rest

/-- Every row image of a sequence has the arity its relation has at that point. -/
def FitsCatalogs (cat : Catalog) : List (Message × GoString) → Prop
  | [] => True
  | (m, _) :: rest => m.FitsCatalog cat ∧ FitsCatalogs (cat.learn m) rest

private theorem tail_append_head_perm (es : List Event) : (es.tail ++ es.head?.toList).Perm es := by
  cases es with
  | nil => exact List.Perm.nil
  | cons e es => exact perm_append_singleton e es

private theorem parseAll_agrees (h : p.Agrees cfg cat) (ms : List (Message × GoString))
    (hfit : FitsCatalogs cat ms) :
    List.Forall₂ List.Perm (p.parseAll (ms.map fun (m, lsn) => (m.encode, lsn)))
      (cfg.interpret cat ms) := by
  induction ms generalizing p cat with
  | nil => exact List.Forall₂.nil
  | cons m ms ih =>
    obtain ⟨m, lsn⟩ := m
    obtain ⟨hm, hrest⟩ := hfit
    simp only [map_cons, Parser.parseAll, Config.interpret, parse_encode h m lsn hm]
    -- the first event is returned after the others were handled
    exact List.Forall₂.cons (tail_append_head_perm _) (ih (h.after m) hrest)

/-- Whatever a message stands for, it is not about the slot owners' table. -/
private theorem table_ne_slotOwners (cfg : Config) (cat : Catalog) (lsn : GoString) (m : Message)
    {e : Event} (he : e ∈ cfg.events cat lsn m) : e.table ≠ slotOwnersTable := by
  have hcap : ∀ rel : RelationDesc, cfg.captures rel = true → rel.name ≠ slotOwnersTable := by
    intro rel hrel
    simp only [Config.captures, Bool.and_eq_true, decide_eq_true_eq] at hrel
    exact hrel.1
  -- the events of a transaction and of the DDL log name no table at all
  have hempty : ([] : GoString) ≠ slotOwnersTable := by decide
  cases m with
  | begin | commit => simp only [Config.events, mem_singleton] at he; rw [he]; exact hempty
  | relation rel => exact nomatch he
  | insert id new =>
    simp only [Config.events] at he
    split at he
    · exact nomatch he
    · split at he
      · rw [mem_singleton.mp he]; exact hempty
      · split at he
        · next hrel => rw [mem_singleton.mp he]; exact hcap _ hrel
        · exact nomatch he
  | update id old new | delete id kind old =>
    simp only [Config.events] at he
    split at he
    · exact nomatch he
    · split at he
      · next hrel => rw [mem_singleton.mp he]; exact hcap _ hrel
      · exact nomatch he
  | truncate options ids fits =>
    simp only [Config.events, mem_filterMap, Option.bind_eq_some_iff] at he
    obtain ⟨id, _, rel, _, he⟩ := he
    split at he
    · next hrel => rw [← Option.some.inj he]; exact hcap rel hrel
    · exact nomatch he

private theorem parseAll_table (h : p.Agrees cfg cat) (ms : List (Message × GoString))
    (hfit : FitsCatalogs cat ms) :
    ∀ es ∈ p.parseAll (ms.map fun (m, lsn) => (m.encode, lsn)), ∀ e ∈ es,
      e.table ≠ slotOwnersTable := by
  induction ms generalizing p cat with
  | nil => exact fun es hes => nomatch hes
  | cons m ms ih =>
    obtain ⟨m, lsn⟩ := m
    obtain ⟨hm, hrest⟩ := hfit
    simp only [map_cons, Parser.parseAll, parse_encode h m lsn hm, forall_mem_cons]
    refine ⟨fun e he => ?_, ih (h.after m) hrest⟩
    exact table_ne_slotOwners cfg cat lsn m ((tail_append_head_perm _).mem_iff.mp he)

/-- Feeding the encoding of any message sequence to a new parser produces, message by message,
    the events of the reference interpretation, and never one for the slot owners' table. -/
theorem parseAll_encode (cfg : Config) (ms : List (Message × GoString))
    (hfit : FitsCatalogs Catalog.empty ms) :
    List.Forall₂ List.Perm
      ((newParser cfg.tables cfg.captureDDL).parseAll (ms.map fun (m, lsn) => (m.encode, lsn)))
      (cfg.interpret Catalog.empty ms) ∧
    ∀ es ∈ (newParser cfg.tables cfg.captureDDL).parseAll (ms.map fun (m, lsn) => (m.encode, lsn)),
      ∀ e ∈ es, e.table ≠ slotOwnersTable :=
  ⟨parseAll_agrees (agrees_newParser cfg) ms hfit, parseAll_table (agrees_newParser cfg) ms hfit⟩

/-- A table with an integer key and a text column. -/
def RelationDesc.sample : RelationDesc where
  id := 7
  nameSpace := ascii "public"
  name := ascii "t"
  replicaIdentity := 0x64
  columns := [⟨1, ascii "id", 23, 0⟩, ⟨0, ascii "v", 25, 0⟩]
  nameSpace_nul := by decide
  name_nul := by decide
  columns_nul := by decide
  columns_lt := by decide
  columns_nodup := by decide

/-- A relation, a row with an unchanged column, the deletion of its key and a truncation. -/
theorem parseAll_encode_sample :
    let ms : List (Message × GoString) :=
      [(.relation RelationDesc.sample, ascii "0/1"),
        (.insert 7 [.text (ascii "5") (by decide), .unchanged], ascii "0/2"),
        (.delete 7 .key [.text (ascii "5") (by decide), .null], ascii "0/3"),
        (.truncate 0 [7, 8] (by decide), ascii "0/4")]
    (newParser [] true).parseAll (ms.map fun (m, lsn) => (m.encode, lsn)) ≠ [] ∧
    List.Forall₂ List.Perm
      ((newParser [] true).parseAll (ms.map fun (m, lsn) => (m.encode, lsn)))
      (Config.interpret ⟨[], true⟩ Catalog.empty ms) := by
  refine ⟨cons_ne_nil _ _, (parseAll_encode ⟨[], true⟩ _ ?_).1⟩
  simp [FitsCatalogs, Message.FitsCatalog, Catalog.learn, RelationDesc.sample]

end Postgres
