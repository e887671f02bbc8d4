import Watcher.Spec.MysqlDump

/-!
# The boundaries in a dump statement

Whatever the strings of an INSERT statement contain, `parseValuesList` finds the
rows and values that were written (`parse_dumpText`). A string is quoted piece by
piece, in bytes: a byte as it is, any byte after a backslash, or a doubled quote.
The parser comes out of every piece inside the string and without a pending
backslash (`run_stringPiece`), so no run of pieces can end the string.

What is kept of a value depends on this value alone. Therefore the data of a row
has one member for each of its values, and another string in one place changes no
member in another.
-/

namespace Mysql

open Cdc Jsonutil List

/-- A piece of a quoted string. -/
inductive StringPiece where
  | plain (b : UInt8) (hquote : b ≠ 0x27) (hback : b ≠ 0x5c)
  | escaped (b : UInt8)
  | doubledQuote

namespace StringPiece

def text : StringPiece → GoString
  | plain b _ _ => [b]
  | escaped b => [0x5c, b]
  | doubledQuote => [0x27, 0x27]

/-- What `parseValuesList` keeps of it. -/
def kept : StringPiece → GoString
  | plain b _ _ => [b]
  | escaped b => [0x5c, b]
  | doubledQuote => []

end StringPiece

/-- The bytes of numeric literals: digits, signs, a point, the letter of an exponent and those of
    hexadecimal literals. -/
def isNumericByte (b : UInt8) : Bool :=
  0x30 ≤ b && b ≤ 0x39 || 0x41 ≤ b && b ≤ 0x5a || 0x61 ≤ b && b ≤ 0x7a || b == 0x2b || b == 0x2d ||
    b == 0x2e

/-- A value as a dump writes it. -/
inductive DumpValue where
  | null
  | number (text : GoString) (hbytes : ∀ b ∈ text, isNumericByte b = true)
  | string (pieces : List StringPiece)

namespace DumpValue

def text : DumpValue → GoString
  | null => ascii "NULL"
  | number text _ => text
  | string pieces => [0x27] ++ pieces.flatMap StringPiece.text ++ [0x27]

def kept : DumpValue → GoString
  | string pieces => pieces.flatMap StringPiece.kept
  | _ => []

end DumpValue

/-- A row has at least one value. -/
structure DumpTuple where
  values : List DumpValue
  ne_nil : values ≠ []

/-- The row with another value in one place. -/
def DumpTuple.set (t : DumpTuple) (j : Nat) (v : DumpValue) : DumpTuple where
  values := t.values.set j v
  ne_nil := by
    intro h
    exact t.ne_nil (eq_nil_of_length_eq_zero (by rw [← length_set, h]; rfl))

/-- `(v,..),(v,..);` -/
def dumpText (tuples : List DumpTuple) : GoString :=
  statementText (tuples.map fun t => t.values.map DumpValue.text)

/-! ### Parsing -/

namespace ValuesParser

/-- Inside a string the parser stays there over a piece. -/
theorem run_stringPiece {p : ValuesParser} (hin : p.inString = true) (hesc : p.escaped = false)
    (piece : StringPiece) :
    piece.text.foldl step p = { p with value := p.value ++ piece.kept } := by
  cases piece with
  | plain b hquote hback => exact run_plain hin hesc (forall_mem_singleton.mpr ⟨hquote, hback⟩)
  | escaped b => exact run_escape hin hesc b
  | doubledQuote => exact run_piece hin hesc .doubledQuote

theorem run_stringPieces {p : ValuesParser} (hin : p.inString = true) (hesc : p.escaped = false)
    (pieces : List StringPiece) :
    (pieces.flatMap StringPiece.text).foldl step p =
      { p with value := p.value ++ pieces.flatMap StringPiece.kept } := by
  induction pieces generalizing p with
  | nil => simp only [flatMap_nil, foldl_nil, append_nil]
  | cons q qs ih =>
    rw [flatMap_cons, foldl_append, run_stringPiece hin hesc]
    rw [ih (p := { p with value := p.value ++ q.kept }) hin hesc]
    simp only [flatMap_cons, append_assoc]

end ValuesParser

theorem isBare_of_isNumericByte {b : UInt8} (h : isNumericByte b = true) : IsBare b := by
  refine ⟨?_, ?_, ?_, ?_⟩ <;> rintro rfl <;> exact absurd h (by decide)

theorem DumpValue.readAs (v : DumpValue) : ReadAs v.text v.kept := by
  intro p hp
  cases v with
  | null =>
    rw [text, ValuesParser.run_bare hp (forall_mem_of_all (by decide))]
    simp only [kept, append_nil]
  | number text hbytes =>
    rw [DumpValue.text, ValuesParser.run_bare hp fun b hb => isBare_of_isNumericByte (hbytes b hb)]
    simp only [kept, append_nil]
  | string pieces =>
    have hopen : [(0x27 : UInt8)].foldl ValuesParser.step p = { p with inString := true } := by
      show ValuesParser.step p 0x27 = _
      simp only [ValuesParser.step, hp.1, hp.2, Bool.false_eq_true, ↓reduceIte, Bool.and_false,
        Bool.not_false]
    rw [text, foldl_append, foldl_append, hopen,
      ValuesParser.run_stringPieces (p := { p with inString := true }) rfl hp.2]
    show ValuesParser.step _ 0x27 = _
    simp only [ValuesParser.step, hp.1, hp.2, Bool.false_eq_true, ↓reduceIte, decide_false,
      Bool.false_and, show ((0x27 : UInt8) = 0x5c) = False by decide, Bool.not_true]
    rfl

theorem parse_dumpText (tuples : List DumpTuple) :
    parseValuesList (dumpText tuples) = tuples.map fun t => t.values.map DumpValue.kept := by
  have hcells := parse_statementText
    (tuples.map fun t => t.values.map fun v => (v.text, v.kept)) ?_ ?_
  · simpa only [dumpText, map_map, Function.comp_def] using hcells
  · intro cells hcells
    obtain ⟨t, -, rfl⟩ := mem_map.mp hcells
    exact fun h => t.ne_nil (map_eq_nil_iff.mp h)
  · intro cells hcells c hc
    obtain ⟨t, -, rfl⟩ := mem_map.mp hcells
    obtain ⟨v, -, rfl⟩ := mem_map.mp hc
    exact v.readAs

/-! ### Rows -/

theorem valid_tupleToJSON (vs : List GoString) : Json.valid (tupleToJSON vs) = true := by
  have hname : ∀ i, Json.StringSafe (columnName i) := by
    intro i
    have hbytes : ∀ b ∈ ascii "col_" ++ ascii "0123456789", 0x20 ≤ b ∧ b ≠ 0x22 ∧ b ≠ 0x5c :=
      forall_mem_of_all (by decide)
    apply Json.StringSafe.bytes
    intro b hb
    apply hbytes
    rcases mem_append.mp hb with hb | hb
    · exact mem_append_left _ hb
    · exact mem_append_right _ (mem_itoa hb)
  have hcell : ∀ v, Json.Completes [.objectValue] (cellText v) := by
    intro v
    unfold cellText
    split
    · exact Json.completes_null _
    · exact Json.completes_string _ (escapeString_safe v)
  have hmember : ∀ m ∈ vs.zipIdx.map (fun a => (columnName a.2, cellText a.1)),
      Json.StringSafe m.1 ∧ Json.Completes [.objectValue] m.2 := by
    intro m hm
    obtain ⟨a, -, rfl⟩ := mem_map.mp hm
    exact ⟨hname a.2, hcell a.1⟩
  rw [tupleToJSON_eq]
  exact (Json.valid_object_iff (fun m hm => (hmember m hm).1)
    fun m hm => .inl (hmember m hm).2).mpr fun m hm => (hmember m hm).2

/-- The members in the data of the `i`-th row that is found in a statement. -/
def dumpMembers (values : GoString) (i : Nat) : Option (List (List Nat × Json.Value)) :=
  match (parseValuesList values)[i]?.bind fun tuple => Json.read (tupleToJSON tuple) with
  | some (.object members) => some members
  | _ => none

theorem dumpMembers_dumpText (tuples : List DumpTuple) (i : Nat) :
    dumpMembers (dumpText tuples) i = tuples[i]?.map fun t =>
      t.values.zipIdx.map fun a => (columnKey a.2, cellValue a.1.kept) := by
  unfold dumpMembers
  rw [parse_dumpText, getElem?_map]
  cases tuples[i]? with
  | none => rfl
  | some t =>
    simp only [Option.map_some, Option.bind_some, read_tuple, zipIdx_map, map_map]
    rfl

/-- A member of a row is made from one value. -/
theorem member_dumpText (tuples : List DumpTuple) (i j : Nat) :
    (dumpMembers (dumpText tuples) i).bind (·[j]?) = (tuples[i]?.bind (·.values[j]?)).map
      fun v => (columnKey j, cellValue v.kept) := by
  rw [dumpMembers_dumpText]
  cases tuples[i]? with
  | none => rfl
  | some t =>
    simp only [Option.map_some, Option.bind_some, getElem?_map, getElem?_zipIdx,
      Option.map_map, Nat.zero_add]
    rfl

theorem getElem?_set_value {tuples : List DumpTuple} {i j i' j' : Nat} {t : DumpTuple}
    (ht : tuples[i]? = some t) (v : DumpValue) (hne : ¬(i' = i ∧ j' = j)) :
    ((tuples.set i (t.set j v))[i']?.bind (·.values[j']?)) =
      tuples[i']?.bind (·.values[j']?) := by
  by_cases hi : i' = i
  · subst hi
    have hj : j ≠ j' := fun h => hne ⟨rfl, h.symm⟩
    have hlt := (List.getElem?_eq_some_iff.mp ht).1
    rw [getElem?_set_self hlt, ht, Option.bind_some, Option.bind_some]
    exact getElem?_set_ne hj
  · rw [getElem?_set_ne (Ne.symm hi)]

/-- The rows and values of a statement are found whatever its strings contain: as many tuples, each
    with as many values, in their order; the data of each is accepted and has the members `col_0`,
    `col_1` and so on; and other contents of one string change no other member. -/
theorem boundaries (tuples : List DumpTuple) :
    (parseValuesList (dumpText tuples) = tuples.map (fun t => t.values.map DumpValue.kept) ∧
      (parseValuesList (dumpText tuples)).map List.length = tuples.map (·.values.length)) ∧
    (∀ (i : Nat) (t : DumpTuple), tuples[i]? = some t → ∃ tuple members,
      (parseValuesList (dumpText tuples))[i]? = some tuple ∧
      (∀ schema table, Service.opened.handleEvent
        (newEvent .insert schema table (tupleToJSON tuple) (ascii "INSERT") []) = true) ∧
      Json.valid (tupleToJSON tuple) = true ∧
      Json.read (tupleToJSON tuple) = some (.object members) ∧
      members.map Prod.fst = (List.range t.values.length).map columnKey) ∧
    (∀ (i j : Nat) (t : DumpTuple) (pieces pieces' : List StringPiece), tuples[i]? = some t →
      t.values[j]? = some (.string pieces) → ∀ i' j', ¬(i' = i ∧ j' = j) →
        (dumpMembers (dumpText (tuples.set i (t.set j (.string pieces')))) i').bind (·[j']?) =
          (dumpMembers (dumpText tuples) i').bind (·[j']?)) := by
  refine ⟨⟨parse_dumpText tuples, ?_⟩, ?_, ?_⟩
  · rw [parse_dumpText, map_map]
    apply map_congr_left
    intro t _
    exact length_map _
  · intro i t ht
    have hvalid := valid_tupleToJSON (t.values.map DumpValue.kept)
    refine ⟨t.values.map DumpValue.kept, _, ?_, ?_, hvalid, read_tuple _, ?_⟩
    · rw [parse_dumpText, getElem?_map, ht]
      rfl
    · exact fun schema table => Service.handleEvent_of_valid rfl hvalid
    · apply ext_getElem?
      intro j
      by_cases hj : j < t.values.length <;> simp [hj]
  · intro i j t pieces pieces' ht _ i' j' hne
    -- each member is made from its own value
    rw [member_dumpText, member_dumpText, getElem?_set_value ht _ hne]

end Mysql
