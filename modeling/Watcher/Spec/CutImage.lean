import Watcher.Spec.PgoutputCorrect

/-!
# Row images that are cut short

A row image of which only the first bytes arrive. The reader remembers that it
went past the end and yields zeros from then on, and no caller asks whether it
did: a column whose value is not there is still written, as `"unknown"` if its
tag is missing and with an empty text if its value is.

The columns of an image that ends early are those that are whole and what is made
up for the others (`readColumns_cut`). Nothing is made up as long as the cut comes
before the columns start, or falls on columns outside the key of an image of the
key, which are skipped (`Image.honest_parse_iff`).
-/

namespace Postgres

open Cdc Jsonutil List

/-! ## What a cut image carries -/

/-- The values whose encodings lie within the first `k` bytes. -/
def wholeValues : (k : Nat) → List TupleValue → List TupleValue
  | _, [] => []
  | k, v :: t => if v.encode.length ≤ k then v :: wholeValues (k - v.encode.length) t else []

/-- A row image of a message; its count of columns starts at byte `start`. -/
structure Image where
  kind : ImageKind
  tuple : List TupleValue
  start : Nat

namespace Image

/-- The values of the image that the first `n` bytes of the message contain. -/
def carried (image : Image) (n : Nat) : List TupleValue :=
  wholeValues (n - (image.start + 2)) image.tuple

/-- The members of the image are columns whose values are contained in the first `n` bytes. -/
def Honest (rel : RelationDesc) (n : Nat) (image : Image) (text : GoString) : Prop :=
  ∃ ms, ms.Sublist (imageMembers image.kind rel.columns (image.carried n)) ∧ text = Json.object ms

/-- The columns of the image do not start in the first `n` bytes, or those whose values are not
    contained in them are outside the key of an image of the key. -/
def Harmless (rel : RelationDesc) (n : Nat) (image : Image) : Prop :=
  n < image.start + 2 ∨
    ∀ c ∈ rel.columns.drop (image.carried n).length, image.kind = .key ∧ ¬c.isKey

end Image

/-- Everything is there. -/
theorem wholeValues_of_le {k : Nat} {t : List TupleValue}
    (h : (t.flatMap TupleValue.encode).length ≤ k) : wholeValues k t = t := by
  induction t generalizing k with
  | nil => rfl
  | cons v t ih =>
    rw [flatMap_cons, length_append] at h
    rw [wholeValues, if_pos (by omega), ih (by omega)]

/-- Nothing is there. -/
theorem wholeValues_zero (t : List TupleValue) : wholeValues 0 t = [] := by
  cases t with
  | nil => rfl
  | cons v t =>
    -- every value has a tag
    have htag : ¬v.encode.length ≤ 0 := by
      cases v <;> simp [TupleValue.encode]
    rw [wholeValues, if_neg htag]

/-! ## Reading past the end -/

namespace Reader

section Spoiled

variable {r : Reader} (h : r.err = true)
include h

theorem readBytes_spoiled (n : Nat) : r.readBytes n = ([], r) := by
  have hread : ¬r.canRead n = true := by simp [canRead, h]
  rw [readBytes, if_neg hread, ← h]

theorem readByte_spoiled : r.readByte = (0, r) := by
  simp only [readByte, readBytes_spoiled h, headD_nil]

/-- And so is a number. -/
theorem readUint_spoiled (n : Nat) : r.readUint n = (0, r) := by
  simp only [readUint, readBytes_spoiled h]
  rfl

end Spoiled

/-- The reader after a read past the end of `pre ++ rest`. -/
def spoiled (pre rest : List UInt8) : Reader := ⟨pre ++ rest, pre.length, true⟩

/-- The read that goes past the end. -/
theorem readBytes_short (pre rest : List UInt8) {n : Nat} (h : rest.length < n) :
    (cursor pre rest).readBytes n = ([], spoiled pre rest) := by
  have hread : ¬(cursor pre rest).canRead n = true := by
    simp only [canRead, cursor, Bool.not_false, Bool.true_and, length_append, decide_eq_true_eq]
    omega
  rw [readBytes, if_neg hread]
  rfl

theorem readByte_nil (pre : List UInt8) : (cursor pre []).readByte = (0, spoiled pre []) := by
  simp only [readByte, readBytes_short pre [] Nat.one_pos, headD_nil]

theorem readUint_short (pre rest : List UInt8) {n : Nat} (h : rest.length < n) :
    (cursor pre rest).readUint n = (0, spoiled pre rest) := by
  simp only [readUint, readBytes_short pre rest h]
  rfl

/-- A length and that many bytes, of which not all are there. -/
theorem readBytes_cut (pre s : List UInt8) (hs : s.length < 2 ^ 32) {k : Nat}
    (hk : k < (beBytes 4 s.length ++ s).length) :
    ∃ r, r.err = true ∧ ((cursor pre ((beBytes 4 s.length ++ s).take k)).readUint32.2).readBytes
      (cursor pre ((beBytes 4 s.length ++ s).take k)).readUint32.1 = ([], r) := by
  rw [length_append, length_beBytes] at hk
  by_cases hlen : k < 4
  · -- the length itself is cut
    have hshort : ((beBytes 4 s.length ++ s).take k).length < 4 := by
      rw [length_take]
      omega
    rw [readUint32, readUint_short pre _ hshort]
    exact ⟨_, rfl, readBytes_spoiled rfl 0⟩
  · have htake : (beBytes 4 s.length ++ s).take k = beBytes 4 s.length ++ s.take (k - 4) := by
      rw [take_append, length_beBytes, take_of_length_le (by rw [length_beBytes]; omega)]
    have hshort : (s.take (k - 4)).length < s.length := by
      rw [length_take]
      omega
    rw [htake, readUint32, readUint_cursor pre _ (show s.length < 256 ^ 4 by omega)]
    exact ⟨_, rfl, readBytes_short _ _ hshort⟩

end Reader

/-! ## Columns past the end -/

/-- `ms` is what is written for the columns `cs` without their values. -/
structure Invents (kind : ImageKind) (cs : List ColumnDesc) (ms : List (GoString × GoString)) :
    Prop where
  nil_iff : ms = [] ↔ ∀ c ∈ cs, kind = .key ∧ ¬c.isKey
  /-- No value that is made up ends with a brace. -/
  last : ∀ m ∈ ms, m.2.getLast? ≠ some 0x7b

theorem Invents.nil (kind : ImageKind) : Invents kind [] [] :=
  ⟨iff_of_true rfl (forall_mem_nil _), forall_mem_nil _⟩

theorem Invents.cons {kind : ImageKind} {cs : List ColumnDesc} {ms : List (GoString × GoString)}
    (h : Invents kind cs ms) (c : ColumnDesc) {value : GoString}
    (hvalue : value.getLast? ≠ some 0x7b) :
    Invents kind (c :: cs)
      ((if kind = .key ∧ ¬c.isKey then none else some (escapeString c.name, value)).toList ++
        ms) := by
  by_cases hout : kind = .key ∧ ¬c.isKey
  · rw [if_pos hout]
    refine ⟨?_, h.last⟩
    rw [forall_mem_cons, ← h.nil_iff]
    exact (and_iff_right hout).symm
  · rw [if_neg hout]
    refine ⟨iff_of_false (cons_ne_nil _ _) fun hall => hout (hall c mem_cons_self), ?_⟩
    exact forall_mem_cons.mpr ⟨hvalue, h.last⟩

theorem renderText_nil_last (oid : Nat) : (renderText oid []).getLast? ≠ some 0x7b := by
  unfold renderText
  split
  · decide
  · split
    · decide
    · rw [show Json.valid [] = false by decide, Bool.and_false]
      decide

section Columns

variable (rel : RelationDesc) (kind : ImageKind)

/-- What a column is read as depends on its tag, its name and its type. -/
theorem readColumn_eq {i : Nat} (hi : i < rel.columns.length) {r r₁ : Reader} {tag : UInt8}
    (hread : r.readByte = (tag, r₁)) (htag : tag ≠ 0x75) :
    readColumn rel.info (kind = .key) i r =
      if kind = .key ∧ ¬rel.columns[i].isKey then (none, skipTupleValue r₁ tag)
      else
        (some (escapeString rel.columns[i].name,
          (writeTupleValue r₁ tag rel.columns[i].typeOID.toNat).1),
          (writeTupleValue r₁ tag rel.columns[i].typeOID.toNat).2) := by
  have hname : rel.info.columns.getD i (ascii "col_" ++ itoa i) = rel.columns[i].name := by
    simp [RelationDesc.info, hi]
  have hoid : rel.info.typeOIDs.getD i 0 = rel.columns[i].typeOID.toNat := by
    simp [RelationDesc.info, hi]
  have hkey : rel.info.keyColumns.contains rel.columns[i].name = rel.columns[i].isKey :=
    contains_keyColumns rel (getElem_mem hi)
  simp only [readColumn, hread, hname, hoid, hkey, htag, decide_false, Bool.false_or,
    Bool.and_eq_true, decide_eq_true_eq, Bool.not_eq_true', Bool.not_eq_true]

/-- A column after the end. -/
theorem readColumn_spoiled {i : Nat} (hi : i < rel.columns.length) {r r₁ : Reader}
    (hread : r.readByte = (0, r₁)) :
    readColumn rel.info (kind = .key) i r =
      (if kind = .key ∧ ¬rel.columns[i].isKey then none
        else some (escapeString rel.columns[i].name, ascii "\"unknown\""), r₁) := by
  rw [readColumn_eq rel kind hi hread (by decide)]
  split
  · rfl
  · rfl

/-- The columns after the end. -/
theorem readColumns_spoiled {r : Reader} (h : r.err = true) (n i : Nat)
    (hlen : n + i = rel.columns.length) :
    ∃ ms, readColumns rel.info (kind = .key) n i r = (ms, r) ∧
      Invents kind (rel.columns.drop i) ms := by
  induction n generalizing i with
  | zero =>
    refine ⟨[], rfl, ?_⟩
    rw [drop_of_length_le (by omega)]
    exact .nil kind
  | succ n ih =>
    have hi : i < rel.columns.length := by omega
    obtain ⟨ms, hms, hinv⟩ := ih (i + 1) (by omega)
    have hunknown : (ascii "\"unknown\"").getLast? ≠ some 0x7b := by decide
    rw [drop_eq_getElem_cons hi]
    refine ⟨_, ?_, hinv.cons rel.columns[i] hunknown⟩
    simp only [readColumns, readColumn_spoiled rel kind hi (Reader.readByte_spoiled h), hms]

/-- The column in which the message ends. -/
theorem readColumn_cut {i : Nat} (hi : i < rel.columns.length) (v : TupleValue) (pre : List UInt8)
    {k : Nat} (hk : k < v.encode.length) :
    ∃ value r, readColumn rel.info (kind = .key) i (Reader.cursor pre (v.encode.take k)) =
        (if kind = .key ∧ ¬rel.columns[i].isKey then none
          else some (escapeString rel.columns[i].name, value), r) ∧
      r.err = true ∧ value.getLast? ≠ some 0x7b := by
  cases k with
  | zero =>
    -- not even its tag is there
    exact ⟨_, _, readColumn_spoiled rel kind hi (Reader.readByte_nil pre), rfl, by decide⟩
  | succ k =>
    cases v with
    | null => exact absurd hk (by simp [TupleValue.encode])
    | unchanged => exact absurd hk (by simp [TupleValue.encode])
    | text value fits =>
      obtain ⟨r, herr, hbytes⟩ := Reader.readBytes_cut (pre ++ [0x74]) value fits
        (Nat.lt_of_succ_lt_succ hk)
      have hread := Reader.readByte_cursor pre ((beBytes 4 value.length ++ value).take k) 0x74
      refine ⟨renderText rel.columns[i].typeOID.toNat [], r, ?_, herr, renderText_nil_last _⟩
      rw [TupleValue.encode, take_succ_cons, readColumn_eq rel kind hi hread (by decide)]
      simp only [skipTupleValue, writeTupleValue, writeTextValue, hbytes]
      split
      · rfl
      · rfl

/-- The columns from index `i` on, of which the first `k` bytes are there: those that are whole, and
    what is made up for the others. -/
theorem readColumns_cut (ts : List TupleValue) (i : Nat) (pre : List UInt8) {k : Nat}
    (hlen : ts.length + i = rel.columns.length)
    (hk : k < (ts.flatMap TupleValue.encode).length) :
    ∃ ms r, readColumns rel.info (kind = .key) ts.length i
        (Reader.cursor pre ((ts.flatMap TupleValue.encode).take k)) =
          (imageMembers kind (rel.columns.drop i) (wholeValues k ts) ++ ms, r) ∧
      r.err = true ∧ Invents kind ((rel.columns.drop i).drop (wholeValues k ts).length) ms := by
  induction ts generalizing i pre k with
  | nil => exact absurd hk (Nat.not_lt_zero k)
  | cons v ts ih =>
    rw [length_cons] at hlen
    have hi : i < rel.columns.length := by omega
    rw [flatMap_cons, take_append, drop_eq_getElem_cons hi]
    -- by whether the message ends in the first of these columns
    by_cases hv : v.encode.length ≤ k
    · -- the value is whole
      rw [flatMap_cons, length_append] at hk
      obtain ⟨ms, r, hms, herr, hinv⟩ := ih (k := k - v.encode.length) (i + 1) (pre ++ v.encode)
        (by omega) (by omega)
      refine ⟨ms, r, ?_, herr, ?_⟩
      · rw [take_of_length_le hv, wholeValues, if_pos hv, imageMembers_cons]
        simp only [length_cons, readColumns, readColumn_cursor rel kind v hi, hms, append_assoc]
      · rw [wholeValues, if_pos hv, length_cons, drop_succ_cons]
        exact hinv
    · -- the message ends in it
      obtain ⟨value, r, hcolumn, herr, hlast⟩ :=
        readColumn_cut rel kind hi v pre (Nat.lt_of_not_le hv)
      obtain ⟨ms, hms, hinv⟩ := readColumns_spoiled rel kind herr ts.length (i + 1) (by omega)
      have hrest : (ts.flatMap TupleValue.encode).take (k - v.encode.length) = [] := by
        rw [Nat.sub_eq_zero_of_le (by omega), take_zero]
      rw [hrest, append_nil, wholeValues, if_neg hv]
      refine ⟨_, r, ?_, herr, hinv.cons rel.columns[i] hlast⟩
      simp only [length_cons, readColumns, hcolumn, hms]
      rfl

end Columns

/-! ## Images that end early -/

theorem parseTupleData_short {r : Reader} (hrem : r.remaining < 2) (rel : RelationInfo)
    (keyOnly : Bool) : parseTupleData r rel keyOnly = (Json.object [], r) := by
  rw [parseTupleData, if_pos hrem]
  rfl

theorem parseTupleData_spoiled {r : Reader} (h : r.err = true) (rel : RelationInfo)
    (keyOnly : Bool) : parseTupleData r rel keyOnly = (Json.object [], r) := by
  by_cases hrem : r.remaining < 2
  · exact parseTupleData_short hrem rel keyOnly
  · rw [parseTupleData_eq hrem, Reader.readUint16, Reader.readUint_spoiled h]
    rfl

section Images

variable {rel : RelationDesc}

theorem parseTupleData_cut (kind : ImageKind) {t : List TupleValue} (pre : List UInt8) {k : Nat}
    (hlen : t.length = rel.columns.length) (htwo : 2 ≤ k) (hk : k < (encodeTuple t).length) :
    ∃ ms r, parseTupleData (Reader.cursor pre ((encodeTuple t).take k)) rel.info (kind = .key) =
        (Json.object (imageMembers kind rel.columns (wholeValues (k - 2) t) ++ ms), r) ∧
      r.err = true ∧ Invents kind (rel.columns.drop (wholeValues (k - 2) t).length) ms := by
  have hlt : t.length < 256 ^ 2 := by
    have := rel.columns_lt
    omega
  have htake : (encodeTuple t).take k =
      beBytes 2 t.length ++ (t.flatMap TupleValue.encode).take (k - 2) := by
    rw [encodeTuple, take_append, length_beBytes, take_of_length_le (by rw [length_beBytes]; omega)]
  rw [encodeTuple, length_append, length_beBytes] at hk
  obtain ⟨ms, r, hms, herr, hinv⟩ := readColumns_cut rel kind t 0 (pre ++ beBytes 2 t.length)
    (k := k - 2) (by omega) (by omega)
  refine ⟨ms, r, ?_, herr, hinv⟩
  have hrem : ¬(Reader.cursor pre ((encodeTuple t).take k)).remaining < 2 := by
    rw [Reader.remaining_cursor, htake, length_append, length_beBytes]
    omega
  rw [parseTupleData_eq hrem, htake, Reader.readUint16, Reader.readUint_cursor pre _ hlt]
  simp only [hms, drop_zero]

namespace Image

variable {n : Nat} {image : Image}

theorem honest_nil (rel : RelationDesc) (n : Nat) (image : Image) :
    image.Honest rel n (Json.object []) :=
  ⟨[], nil_sublist _, rfl⟩

theorem Honest.length_le {text : GoString} (h : image.Honest rel n text) :
    text.length ≤
      (Json.object (imageMembers image.kind rel.columns (image.carried n))).length := by
  obtain ⟨ms, hsub, rfl⟩ := h
  exact Json.length_object_le hsub

/-- An image of which no column has started has no members. -/
theorem Honest.eq_nil {text : GoString} (h : image.Honest rel n text) (hn : n ≤ image.start + 2) :
    text = Json.object [] := by
  obtain ⟨ms, hsub, rfl⟩ := h
  rw [carried, Nat.sub_eq_zero_of_le hn, wholeValues_zero, imageMembers, zip_nil_right] at hsub
  rw [sublist_nil.mp hsub]

/-- An image is honest exactly when nothing in it is made up. -/
theorem honest_append_iff {ms : List (GoString × GoString)}
    (hinv : Invents image.kind (rel.columns.drop (image.carried n).length) ms)
    (hn : image.start + 2 ≤ n) :
    image.Honest rel n
        (Json.object (imageMembers image.kind rel.columns (image.carried n) ++ ms)) ↔
      image.Harmless rel n := by
  have hharmless : image.Harmless rel n ↔ ms = [] := by
    rw [Harmless, hinv.nil_iff]
    exact or_iff_right (Nat.not_lt.mpr hn)
  rw [hharmless]
  constructor
  · intro h
    by_contra hne
    have hlt := Json.length_object_lt (imageMembers image.kind rel.columns (image.carried n)) hne
    exact Nat.not_lt.mpr h.length_le hlt
  · intro hnil
    rw [hnil, append_nil]
    exact ⟨_, List.Sublist.refl _, rfl⟩

variable (hlen : image.tuple.length = rel.columns.length)
  (hn : n - image.start < (encodeTuple image.tuple).length) (pre : List UInt8)
include hlen hn

/-- The image that the message ends in. -/
theorem honest_parse_iff :
    image.Honest rel n (parseTupleData (Reader.cursor pre
        ((encodeTuple image.tuple).take (n - image.start))) rel.info (image.kind = .key)).1 ↔
      image.Harmless rel n := by
  by_cases htwo : n < image.start + 2
  · have hrem : (Reader.cursor pre
        ((encodeTuple image.tuple).take (n - image.start))).remaining < 2 := by
      rw [Reader.remaining_cursor, length_take]
      omega
    rw [parseTupleData_short hrem]
    exact iff_of_true (honest_nil rel n image) (.inl htwo)
  · obtain ⟨ms, r, hparse, _, hinv⟩ := parseTupleData_cut image.kind pre hlen (by omega) hn
    rw [hparse]
    rw [Nat.sub_sub] at hinv ⊢
    exact honest_append_iff hinv (by omega)

/-- What is made up makes the image longer than it could be. -/
theorem length_lt_of_not_harmless (h : ¬image.Harmless rel n) :
    (Json.object (imageMembers image.kind rel.columns (image.carried n))).length <
      (parseTupleData (Reader.cursor pre ((encodeTuple image.tuple).take (n - image.start)))
        rel.info (image.kind = .key)).1.length := by
  obtain ⟨hstarted, hcolumns⟩ := not_or.mp h
  obtain ⟨ms, r, hparse, _, hinv⟩ := parseTupleData_cut image.kind pre hlen (by omega) hn
  rw [hparse]
  rw [Nat.sub_sub] at hinv ⊢
  exact Json.length_object_lt _ fun hnil => hcolumns (hinv.nil_iff.mp hnil)

end Image

end Images

end Postgres
