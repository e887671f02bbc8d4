import Watcher.Json.Render
import Watcher.Model.MysqlListener
import Watcher.Spec.Truncate

/-!
# Rows of MySQL as JSON

`rowToJSON` writes a row column by column. For rows of NULLs, integers,
booleans and UTF-8 texts the text is JSON and decodes to exactly these values,
one member for each column; the text of a json column is spliced in when it is
JSON itself. `OnRow` puts the two rows of an UPDATE into one object.

The bus takes a row unless it nests deeper than its check allows, which takes a
json text at the limit already: MySQL stores none of that depth.

## Key results

- `renders_rowToJSON`: what a row decodes to
- `completes_rowToJSON`: a row, or an image of an UPDATE, is whole
- `rows_faithful`: `rowToJSON` and every event of `OnRow`
-/

namespace Mysql

open Cdc Jsonutil List

/-! ## Values -/

/-- NULL, an integer, a boolean or a UTF-8 text. -/
def Value.Plain : Value → Prop
  | .nil | .int _ | .bool _ => True
  | .bytes s | .string s => Utf8.IsValid s
  | _ => False

/-- The number that decimal digits stand for; a text with any other byte stands for none. -/
def decimal? (digits : GoString) : Option Nat :=
  if digits ≠ [] ∧ digits.all Json.isDigit = true then
    some (digits.foldl (fun n b => 10 * n + (b.toNat - 0x30)) 0)
  else none

/-- The integer that a literal stands for: digits with a minus sign or without, and nothing else,
    so neither a fraction nor an exponent. -/
def integer? : GoString → Option Int
  | 0x2d :: digits => (decimal? digits).map fun n => -(n : Int)
  | digits => (decimal? digits).map Int.ofNat

/-- `x` is the value of a column, or what stands for a missing one. -/
def Value.StandsFor (isJSON : Bool) : Option Value → Json.Value → Prop
  | some (.int n), x => ∃ text, x = .number text ∧ integer? text = some n
  | some (.bool b), x => x = .bool b
  | some (.bytes s), x | some (.string s), x =>
    if isJSON = true ∧ Json.valid s = true then Json.read s = some x
    else ∃ cs, x = .string cs ∧ cs.flatMap Utf8.encodeRune = s
  | _, x => x = .null

/-- `members` are the columns of the table with the values of the row, in column order. -/
def IsRow (table : Table) (row : List Value) (members : List (List Nat × Json.Value)) : Prop :=
  List.Forall₂ (fun (m : List Nat × Json.Value) (col : Column × Nat) =>
    m.1.flatMap Utf8.encodeRune = col.1.name ∧ Value.StandsFor col.1.isJSON row[col.2]? m.2)
    members table.columns.zipIdx

/-- Inside `depth` objects, no json text of the row nests deeper than the bus allows. -/
def Nests (depth : Nat) (table : Table) (row : List Value) : Prop :=
  ∀ col ∈ table.columns.zipIdx, col.1.isJSON = true → ∀ s,
    row[col.2]? = some (.bytes s) ∨ row[col.2]? = some (.string s) → Json.valid s = true →
    Json.nestingDepth s + depth ≤ Json.maxNestingDepth

/-- A decimal numeral consists of digits. -/
theorem isDigit_itoa {n : Nat} {b : UInt8} (h : b ∈ itoa n) : Json.isDigit b = true := by
  have hall : ∀ b ∈ ascii "0123456789", Json.isDigit b = true := forall_mem_of_all (by decide)
  exact hall b (mem_itoa h)

/-- `strconv.Itoa` is undone by reading the digits. -/
theorem decimal?_itoa (n : Nat) : decimal? (itoa n) = some n := by
  have hne : itoa n ≠ [] := fun h => Nat.toDigits_ne_nil (map_eq_nil_iff.mp h)
  have hdigits : (itoa n).all Json.isDigit = true :=
    all_eq_true.mpr fun b hb => isDigit_itoa hb
  rw [decimal?, if_pos ⟨hne, hdigits⟩, itoa, foldl_map]
  exact congrArg some
    (Nat.foldl_toDigits (by decide) (f := fun c => c.toUInt8.toNat - 0x30) (by decide) n)

/-- What `appendValue` writes for an integer is a literal of exactly this integer. -/
theorem integer?_formatInt (n : Int) : integer? (formatInt n) = some n := by
  cases n with
  | ofNat n =>
    have hdigits : integer? (itoa n) = (decimal? (itoa n)).map Int.ofNat := by
      unfold integer?
      split
      · next digits heq =>
        -- a numeral does not begin with a sign
        exact absurd (isDigit_itoa (heq ▸ mem_cons_self)) (by decide)
      · rfl
    rw [formatInt, hdigits, decimal?_itoa]
    rfl
  | negSucc n =>
    show (decimal? (itoa (n + 1))).map (fun n => -(n : Int)) = _
    rw [decimal?_itoa]
    rfl

/-- A numeral is the integer part of a JSON number: it has no leading zero. -/
theorem isIntPart_itoa (n : Nat) : Json.IsIntPart (itoa n) := by
  by_cases hn : n = 0
  · subst hn
    exact .inl rfl
  -- any other numeral starts with a digit that is not zero
  · obtain ⟨d, hd, hd0, hhead⟩ := Nat.head?_toDigits (b := 10) (by decide) hn
    have hfirst : ∀ d < 10, d ≠ 0 → d.digitChar.toUInt8 ≠ 0x30 := by decide
    obtain ⟨rest, hrest⟩ : ∃ rest, itoa n = d.digitChar.toUInt8 :: rest := by
      rw [itoa]
      cases htext : Nat.toDigits 10 n with
      | nil => rw [htext] at hhead; exact nomatch hhead
      | cons c cs =>
        rw [htext] at hhead
        cases hhead
        exact ⟨_, rfl⟩
    refine .inr ⟨_, rest, hrest, isDigit_itoa (n := n) ?_, hfirst d hd hd0, fun b hb => ?_⟩
    · rw [hrest]; exact mem_cons_self
    · exact isDigit_itoa (n := n) (hrest ▸ mem_cons_of_mem _ hb)

/-- What `%d` prints is a JSON number, without a fraction or an exponent. -/
theorem isNumber_formatInt (n : Int) : Json.IsNumber (formatInt n) := by
  cases n with
  | ofNat n =>
    have htext : formatInt (.ofNat n) = [] ++ itoa n ++ [] ++ [] := by simp [formatInt]
    -- sign, integer part, fraction, exponent
    exact ⟨[], itoa n, [], [], htext, .inl rfl, isIntPart_itoa n, .inl rfl, .inl rfl⟩
  | negSucc n =>
    have htext : formatInt (.negSucc n) = [0x2d] ++ itoa (n + 1) ++ [] ++ [] := by
      rw [append_nil, append_nil]
      rfl
    exact ⟨[0x2d], itoa (n + 1), [], [], htext, .inr rfl, isIntPart_itoa _, .inl rfl, .inl rfl⟩

/-- An integer is written the same way into a json column, JSON or not. -/
theorem appendValue_int (n : Int) (isJSON : Bool) :
    appendValue (.int n) isJSON = formatInt n :=
  ite_self _

/-- And so is a boolean. -/
theorem appendValue_bool (b isJSON : Bool) :
    appendValue (.bool b) isJSON = if b then ascii "true" else ascii "false" :=
  ite_self _

/-- A text is spliced in if the column and the text are JSON, and quoted otherwise. -/
theorem appendValue_text {val : Value} {s : GoString} (hval : val = .bytes s ∨ val = .string s)
    (isJSON : Bool) : appendValue val isJSON =
      if isJSON = true ∧ Json.valid s = true then s else 0x22 :: escapeString s ++ [0x22] := by
  rcases hval with rfl | rfl
  all_goals
    simp only [appendValue, Value.text, Bool.and_eq_true]
    rfl

/-! ## Columns -/

/-- What `rowToJSON` writes for a column. -/
def columnText (row : List Value) (col : Column × Nat) : GoString :=
  match row[col.2]? with
  | none | some .nil => ascii "null"
  | some val => appendValue val col.1.isJSON

/-- What it decodes to. -/
def columnValue (row : List Value) (col : Column × Nat) : Json.Value :=
  match row[col.2]? with
  | some (.int n) => .number (formatInt n)
  | some (.bool b) => .bool b
  | some (.bytes s) | some (.string s) =>
    if col.1.isJSON = true ∧ Json.valid s = true then (Json.read s).getD .null
    else .string (Utf8.runes s)
  | _ => .null

/-- The loop of `rowToJSON` writes an object, with a member for each column. -/
theorem rowToJSON_eq (table : Table) (row : List Value) : rowToJSON table row =
    Json.object
      (table.columns.zipIdx.map fun col => (escapeString col.1.name, columnText row col)) := by
  refine @Json.object_of_loop _ (rowMembers row)
    (fun col i => (escapeString col.name, columnText row (col, i))) (fun i => rfl) ?_ table.columns
  -- one round of the loop, whose separator depends on the index
  intro i col cols
  have hcons : rowMembers row i (col :: cols) = (if 0 < i then [0x2c, 0x20] else []) ++ [0x22] ++
    escapeString col.name ++ [0x22, 0x3a] ++ columnText row (col, i) ++
      rowMembers row (i + 1) cols := rfl
  rw [hcons, Json.member]
  simp only [append_assoc, cons_append, nil_append]

/-- Either way the text decodes: to the value it stands for as JSON, or to its characters. -/
theorem renders_text (isJSON : Bool) (s : GoString) : Json.Renders Json.maxNestingDepth
    (if isJSON = true ∧ Json.valid s = true then s else 0x22 :: escapeString s ++ [0x22])
    (if isJSON = true ∧ Json.valid s = true then (Json.read s).getD .null
      else .string (Utf8.runes s)) := by
  by_cases h : isJSON = true ∧ Json.valid s = true
  · rw [if_pos h, if_pos h]
    obtain ⟨x, hx⟩ := Json.renders_of_valid h.2
    rw [hx.read, Option.getD_some]
    exact hx
  · rw [if_neg h, if_neg h]
    exact Json.renders_string _ (escapeString_safe s) (escapeString_reads s)

/-- What is written for a column decodes to `columnValue`. -/
theorem renders_columnText {row : List Value} {col : Column × Nat}
    (hplain : ∀ val, row[col.2]? = some val → val.Plain) :
    Json.Renders Json.maxNestingDepth (columnText row col) (columnValue row col) := by
  unfold columnText columnValue
  cases hval : row[col.2]? with
  | none => exact Json.renders_null _
  | some val =>
    have hplain := hplain val hval
    cases val with
    | nil => exact Json.renders_null _
    | int n =>
      simp only [appendValue_int]
      exact Json.renders_number _ (isNumber_formatInt n)
    | bool b =>
      simp only [appendValue_bool]
      cases b with
      | true => exact Json.renders_true _
      | false => exact Json.renders_false _
    | bytes s =>
      simp only [appendValue_text (.inl rfl)]
      exact renders_text col.1.isJSON s
    | string s =>
      simp only [appendValue_text (.inr rfl)]
      exact renders_text col.1.isJSON s
    -- floats, times and values of other packages are not plain
    | _ => exact absurd hplain id

/-- And that is the value of the column. -/
theorem standsFor_columnValue {row : List Value} {col : Column × Nat}
    (hplain : ∀ val, row[col.2]? = some val → val.Plain) :
    Value.StandsFor col.1.isJSON row[col.2]? (columnValue row col) := by
  -- a text decodes to itself, or is JSON and decodes to its value
  have htext : ∀ s, Utf8.IsValid s → ∀ x,
      x = (if col.1.isJSON = true ∧ Json.valid s = true then (Json.read s).getD .null
        else .string (Utf8.runes s)) →
      if col.1.isJSON = true ∧ Json.valid s = true then Json.read s = some x
      else ∃ cs, x = .string cs ∧ cs.flatMap Utf8.encodeRune = s := by
    intro s hs x hx
    by_cases h : col.1.isJSON = true ∧ Json.valid s = true
    · rw [if_pos h] at hx ⊢
      obtain ⟨v, hv⟩ := Json.renders_of_valid h.2
      rw [hx, hv.read, Option.getD_some]
    · rw [if_neg h] at hx ⊢
      exact ⟨_, hx, Utf8.flatMap_encodeRune_runes hs⟩
  unfold columnValue
  cases hval : row[col.2]? with
  | none => exact rfl
  | some val =>
    have hplain := hplain val hval
    cases val with
    | nil => exact rfl
    | int n => exact ⟨_, rfl, integer?_formatInt n⟩
    | bool b => exact rfl
    | bytes s => exact htext s hplain _ rfl
    | string s => exact htext s hplain _ rfl
    | _ => exact absurd hplain id

/-- The scanner, inside an object, takes what is written for a column as one value. -/
theorem completes_columnText {base : List Json.ParseState} (hbase : base ≠ []) {row : List Value}
    {col : Column × Nat} (hplain : ∀ val, row[col.2]? = some val → val.Plain)
    (hnests : col.1.isJSON = true → ∀ s,
      row[col.2]? = some (.bytes s) ∨ row[col.2]? = some (.string s) → Json.valid s = true →
      Json.nestingDepth s + base.length ≤ Json.maxNestingDepth) :
    Json.Completes base (columnText row col) := by
  -- only a json text can nest; a quoted one never does
  have htext : ∀ s, (row[col.2]? = some (.bytes s) ∨ row[col.2]? = some (.string s)) →
      Json.Completes base (if col.1.isJSON = true ∧ Json.valid s = true then s
        else 0x22 :: escapeString s ++ [0x22]) := by
    intro s hs
    split
    · next h => exact Json.completes_of_valid hbase h.2 (hnests h.1 s hs h.2)
    · exact Json.completes_string base (escapeString_safe s)
  unfold columnText
  cases hval : row[col.2]? with
  | none => exact Json.completes_null base
  | some val =>
    have hplain := hplain val hval
    cases val with
    | nil => exact Json.completes_null base
    | int n =>
      simp only [appendValue_int]
      exact Json.completes_number base (isNumber_formatInt n)
    | bool b =>
      simp only [appendValue_bool]
      cases b with
      | true => exact Json.completes_true base
      | false => exact Json.completes_false base
    | bytes s =>
      simp only [appendValue_text (.inl rfl)]
      exact htext s (.inl hval)
    | string s =>
      simp only [appendValue_text (.inr rfl)]
      exact htext s (.inr hval)
    | _ => exact absurd hplain id

/-! ## Rows -/

/-- What a row decodes to. -/
def rowValue (table : Table) (row : List Value) : List (List Nat × Json.Value) :=
  table.columns.zipIdx.map fun col => (Utf8.runes col.1.name, columnValue row col)

section Row

variable {table : Table} {row : List Value} (hplain : ∀ val ∈ row, val.Plain)
include hplain

/-- The values by their index. -/
theorem plain_getElem? (i : Nat) : ∀ val, row[i]? = some val → val.Plain :=
  fun val hval => hplain val (mem_of_getElem? hval)

/-- A row decodes to its columns with their values. -/
theorem renders_rowToJSON : Json.Renders (Json.maxNestingDepth + 1) (rowToJSON table row)
    (.object (rowValue table row)) := by
  rw [rowToJSON_eq, rowValue]
  exact Json.renders_object _ (fun col _ => escapeString_safe col.1.name)
    (fun col _ => escapeString_reads col.1.name)
    fun col _ => renders_columnText (plain_getElem? hplain _)

/-- The names decode to themselves, if they are UTF-8. -/
theorem isRow_rowValue (hnames : ∀ col ∈ table.columns, Utf8.IsValid col.name) :
    IsRow table row (rowValue table row) := by
  rw [IsRow, rowValue, forall₂_map_left_iff, forall₂_same]
  intro col hcol
  have hname := hnames col.1 (fst_mem_of_mem_zipIdx hcol)
  exact ⟨Utf8.flatMap_encodeRune_runes hname, standsFor_columnValue (plain_getElem? hplain _)⟩

/-- An image of an UPDATE. -/
theorem completes_rowToJSON (hnests : Nests 2 table row) :
    Json.Completes [.objectValue] (rowToJSON table row) := by
  rw [rowToJSON_eq]
  -- the image is inside one object, so its columns are inside two
  apply Json.completes_object (cons_ne_nil _ _) (by decide)
  all_goals
    intro m hm
    obtain ⟨col, hcol, rfl⟩ := mem_map.mp hm
  · exact escapeString_safe col.1.name
  · exact completes_columnText (cons_ne_nil _ _) (plain_getElem? hplain _) (hnests col hcol)

/-- A row that is the whole data of its event. -/
theorem valid_rowToJSON (hnests : Nests 1 table row) :
    Json.valid (rowToJSON table row) = true := by
  -- every value is whole on its own, at the depth of a member
  have hcomplete : ∀ m ∈ table.columns.zipIdx.map fun col =>
      (escapeString col.1.name, columnText row col), Json.Completes [.objectValue] m.2 := by
    intro m hm
    obtain ⟨col, hcol, rfl⟩ := mem_map.mp hm
    exact completes_columnText (cons_ne_nil _ _) (plain_getElem? hplain _) (hnests col hcol)
  rw [rowToJSON_eq, Json.valid_object_iff]
  · exact hcomplete
  · intro m hm
    obtain ⟨col, _, rfl⟩ := mem_map.mp hm
    exact escapeString_safe col.1.name
  · exact fun m hm => .inl (hcomplete m hm)

end Row

/-! ## Events -/

/-- What an event reports: a row, or the row before and after an UPDATE. -/
inductive Change where
  | one (row : List Value)
  | pair (old new : List Value)
  deriving DecidableEq, Repr

def pairs : List (List Value) → List Change
  | old :: new :: rows => .pair old new :: pairs rows
  | _ => []

/-- The changes in the rows of an event. -/
def changes (action : RowsAction) (rows : List (List Value)) : List Change :=
  match action with
  | .update => pairs rows
  | _ => rows.map .one

namespace Change

def rows : Change → List (List Value)
  | .one row => [row]
  | .pair old new => [old, new]

/-- `data` decodes to the change. -/
def DecodesFrom (table : Table) (data : GoString) : Change → Prop
  | .one row => ∃ members, Json.read data = some (.object members) ∧ IsRow table row members
  | .pair old new => ∃ oldMembers newMembers,
      Json.read data = some (.object [(Utf8.runes (ascii "old"), .object oldMembers),
        (Utf8.runes (ascii "new"), .object newMembers)]) ∧
      IsRow table old oldMembers ∧ IsRow table new newMembers

def Nests (table : Table) : Change → Prop
  | .one row => Mysql.Nests 1 table row
  | .pair old new => Mysql.Nests 2 table old ∧ Mysql.Nests 2 table new

/-- The data that `OnRow` makes of the change. -/
def data (table : Table) : Change → GoString
  | .one row => rowToJSON table row
  | .pair old new => ascii "\x7b\"old\":" ++ rowToJSON table old ++ ascii ", \"new\":" ++
      rowToJSON table new ++ ascii "\x7d"

/-- The data of an UPDATE is an object of the two images. -/
theorem data_pair (table : Table) (old new : List Value) : (Change.pair old new).data table =
    Json.object [(ascii "old", rowToJSON table old), (ascii "new", rowToJSON table new)] := by
  have hopen : ascii "\x7b\"old\":" = 0x7b :: 0x22 :: (ascii "old" ++ [0x22, 0x3a]) := rfl
  have hnext : ascii ", \"new\":" = 0x2c :: 0x20 :: 0x22 :: (ascii "new" ++ [0x22, 0x3a]) := rfl
  have hclose : ascii "\x7d" = [0x7d] := rfl
  rw [data, hopen, hnext, hclose]
  simp [Json.object, Json.members, Json.member]

variable {table : Table} {c : Change} (hplain : ∀ row ∈ c.rows, ∀ val ∈ row, val.Plain)
include hplain

/-- The data decodes to the change. -/
theorem decodesFrom_data (hnames : ∀ col ∈ table.columns, Utf8.IsValid col.name) :
    c.DecodesFrom table (c.data table) := by
  cases c with
  | one row =>
    have hplain := hplain row mem_cons_self
    exact ⟨_, (renders_rowToJSON hplain).read, isRow_rowValue hplain hnames⟩
  | pair old new =>
    have hold := hplain old mem_cons_self
    have hnew := hplain new (mem_cons_of_mem _ mem_cons_self)
    refine ⟨_, _, ?_, isRow_rowValue hold hnames, isRow_rowValue hnew hnames⟩
    rw [data_pair]
    exact (renders_images (renders_rowToJSON hold) (renders_rowToJSON hnew)).read

/-- It passes the check of the bus, unless a json text of it nests too deep. -/
theorem valid_data (hnests : c.Nests table) : Json.valid (c.data table) = true := by
  cases c with
  | one row => exact valid_rowToJSON (hplain row mem_cons_self) hnests
  | pair old new =>
    have hold := completes_rowToJSON (hplain old mem_cons_self) hnests.1
    have hnew := completes_rowToJSON (hplain new (mem_cons_of_mem _ mem_cons_self))
      hnests.2
    rw [data_pair]
    exact valid_images hold hnew

end Change

/-- The effect publishes the change, as an event that an open bus takes. -/
def Publishes (table : Table) (eff : Effect) (c : Change) : Prop :=
  ∃ event, eff = .emit event ∧ c.DecodesFrom table event.data ∧
    (c.Nests table → ∀ bus : Service, bus.closed = false → bus.handleEvent event = true)

/-- Naming a row leaves its data alone. -/
theorem data_nameRow (rowID : Option (Nat → GoString)) (event : Event) (i : Nat) :
    (EventHandler.nameRow rowID event i).data = event.data := by
  cases rowID with
  | none => rfl
  | some id => rfl

section Publish

variable {table : Table} (hnames : ∀ col ∈ table.columns, Utf8.IsValid col.name)
include hnames

/-- An event with this data publishes the change. -/
theorem publishes_data {c : Change} (hplain : ∀ row ∈ c.rows, ∀ val ∈ row, val.Plain)
    {event : Event} (hdata : event.data = c.data table) : Publishes table (.emit event) c := by
  refine ⟨event, rfl, ?_, fun hnests bus hopen => ?_⟩
  · rw [hdata]
    exact Change.decodesFrom_data hplain hnames
  · apply Service.handleEvent_of_valid hopen
    rw [hdata]
    exact Change.valid_data hplain hnests

variable {make : GoString → Event} (hmake : ∀ data, (make data).data = data)
  (rowID : Option (Nat → GoString))
include hmake

/-- The loops for INSERT and DELETE publish the rows one by one. -/
theorem publishes_singleRows (i : Nat) (rows : List (List Value))
    (hplain : ∀ row ∈ rows, ∀ val ∈ row, val.Plain) :
    List.Forall₂ (Publishes table) (EventHandler.singleRows make table rowID i rows)
      (rows.map .one) := by
  induction rows generalizing i with
  | nil => exact .nil
  | cons row rows ih =>
    refine .cons ?_ (ih (i + 1) fun r hr => hplain r (mem_cons_of_mem _ hr))
    refine publishes_data hnames ?_ ((data_nameRow rowID _ i).trans (hmake _))
    exact forall_mem_singleton.mpr (hplain row mem_cons_self)

/-- The loop for UPDATE publishes them two by two; a last row without a partner is dropped. -/
theorem publishes_pairedRows (i : Nat) (rows : List (List Value))
    (hplain : ∀ row ∈ rows, ∀ val ∈ row, val.Plain) :
    List.Forall₂ (Publishes table) (EventHandler.pairedRows make table rowID i rows)
      (pairs rows) := by
  -- the loop takes two rows at a time, as `pairs` does
  fun_induction pairs rows generalizing i with
  | case1 old new rows ih =>
    obtain ⟨hold, hnew, hrest⟩ : (∀ val ∈ old, val.Plain) ∧ (∀ val ∈ new, val.Plain) ∧
        ∀ row ∈ rows, ∀ val ∈ row, val.Plain := by
      simpa only [forall_mem_cons] using hplain
    refine .cons ?_ (ih (i + 1) hrest)
    refine publishes_data hnames ?_ ((data_nameRow rowID _ i).trans (hmake _))
    exact forall_mem_cons.mpr ⟨hold, forall_mem_singleton.mpr hnew⟩
  | case2 rows hrows =>
    -- no pair is left
    have hnil : EventHandler.pairedRows make table rowID i rows = [] := by
      unfold EventHandler.pairedRows
      split
      · next old new rest => exact absurd rfl (hrows old new rest)
      · rfl
    rw [hnil]
    exact .nil

end Publish

/-- What `OnRow` publishes are the changes in the rows of the event, in order. -/
theorem publishes_onRow {h h' : EventHandler} {e : RowsEvent} {effs : List Effect}
    (hrow : h.onRow e = .ok (h', effs)) (hnames : ∀ col ∈ e.table.columns, Utf8.IsValid col.name)
    (hplain : ∀ row ∈ e.rows, ∀ val ∈ row, val.Plain) :
    List.Forall₂ (Publishes e.table) effs (changes e.action e.rows) := by
  unfold EventHandler.onRow at hrow
  -- without ids for its rows the event is refused as a whole
  cases hids : h.rowIDs e with
  | error err =>
    rw [hids] at hrow
    exact nomatch hrow
  | ok r =>
    obtain ⟨h₁, rowID, lsn⟩ := r
    rw [hids] at hrow
    -- INSERT and DELETE use the same loop
    cases haction : e.action with
    | insert =>
      simp only [haction] at hrow
      cases hrow
      exact publishes_singleRows hnames (fun _ => rfl) rowID 0 e.rows hplain
    | update =>
      simp only [haction] at hrow
      cases hrow
      exact publishes_pairedRows hnames (fun _ => rfl) rowID 0 e.rows hplain
    | delete =>
      simp only [haction] at hrow
      cases hrow
      exact publishes_singleRows hnames (fun _ => rfl) rowID 0 e.rows hplain

/-- `rowToJSON` is faithful, and so is every event that `OnRow` makes of its rows. -/
theorem rows_faithful (table : Table) (hnames : ∀ col ∈ table.columns, Utf8.IsValid col.name) :
    (∀ row, (∀ val ∈ row, Value.Plain val) →
      (∃ members, Json.read (rowToJSON table row) = some (.object members) ∧
        IsRow table row members) ∧
      (Nests 1 table row → Json.valid (rowToJSON table row) = true)) ∧
    ∀ (h h' : EventHandler) (e : RowsEvent) (effs : List Effect), e.table = table →
      h.onRow e = .ok (h', effs) → (∀ row ∈ e.rows, ∀ val ∈ row, Value.Plain val) →
      List.Forall₂ (Publishes table) effs (changes e.action e.rows) := by
  -- a row by itself, then all events of a rows event
  constructor
  · intro row hplain
    exact ⟨⟨_, (renders_rowToJSON hplain).read, isRow_rowValue hplain hnames⟩,
      valid_rowToJSON hplain⟩
  · intro h h' e effs htable hrow hplain
    subst htable
    exact publishes_onRow hrow hnames hplain

/-- A table with a key and a document. -/
def Table.documents : Table :=
  ⟨ascii "db", ascii "docs", [⟨ascii "id", false⟩, ⟨ascii "doc", true⟩]⟩

/-- Its names are UTF-8. -/
theorem Table.documents_names : ∀ col ∈ Table.documents.columns, Utf8.IsValid col.name :=
  forall_mem_cons.mpr ⟨⟨['i', 'd'], by decide⟩,
    forall_mem_singleton.mpr ⟨['d', 'o', 'c'], by decide⟩⟩

/-- A row with a negative key and a document. -/
theorem rows_faithful_document :
    let row := [Value.int (-5), .string (ascii "[1]")]
    rowToJSON Table.documents row = ascii "\x7b\"id\":-5, \"doc\":[1]\x7d" ∧
    ∃ members, Json.read (rowToJSON Table.documents row) = some (.object members) ∧
      IsRow Table.documents row members := by
  intro row
  have hplain : ∀ val ∈ row, val.Plain :=
    forall_mem_cons.mpr ⟨show Value.Plain (.int (-5)) from trivial,
      forall_mem_singleton.mpr
        (show Utf8.IsValid (ascii "[1]") from ⟨['[', '1', ']'], by decide⟩)⟩
  exact ⟨by decide +kernel, ((rows_faithful Table.documents Table.documents_names).1 row hplain).1⟩

/-- Brackets around a digit are UTF-8. -/
theorem utf8_nestedArrays (n : Nat) : Utf8.IsValid (Json.nestedArrays n) := by
  induction n with
  | zero => exact ⟨['0'], by decide⟩
  | succ n ih =>
    obtain ⟨cs, hcs⟩ := ih
    refine ⟨'[' :: (cs ++ [']']), ?_⟩
    rw [Json.nestedArrays, hcs]
    simp only [Utf8.encode, flatMap_cons, flatMap_append, flatMap_nil]
    rfl

/-- A valid document at the nesting limit is too deep inside its row. -/
theorem not_valid_of_deep {s : GoString} (hvalid : Json.valid s = true)
    (hdeep : Json.maxNestingDepth ≤ Json.nestingDepth s) :
    Json.valid (rowToJSON Table.documents [.int 1, .string s]) = false := by
  -- one object around the document is one too many
  have hfails : Json.Fails [.objectValue] s := Json.fails_of_valid (cons_ne_nil _ _) hvalid
    (by decide) (by rw [length_singleton]; omega)
  have hrow : rowToJSON Table.documents [.int 1, .string s] =
      Json.object [(escapeString (ascii "id"), formatInt 1), (escapeString (ascii "doc"), s)] := by
    rw [rowToJSON_eq]
    show Json.object [(_, appendValue (.int 1) false), (_, appendValue (.string s) true)] = _
    rw [appendValue_int, appendValue_text (.inr rfl), if_pos ⟨rfl, hvalid⟩]
  have hmembers : ∀ m ∈ [(escapeString (ascii "id"), formatInt 1), (escapeString (ascii "doc"), s)],
      Json.StringSafe m.1 ∧ (Json.Completes [.objectValue] m.2 ∨ Json.Fails [.objectValue] m.2) :=
    forall_mem_cons.mpr
      ⟨⟨escapeString_safe _, .inl (Json.completes_number _ (isNumber_formatInt 1))⟩,
      forall_mem_singleton.mpr ⟨escapeString_safe _, .inr hfails⟩⟩
  -- the object is valid only if each of its members is complete
  rw [Bool.eq_false_iff, hrow]
  intro h
  rw [Json.valid_object_iff (fun m hm => (hmembers m hm).1) fun m hm => (hmembers m hm).2] at h
  exact Json.not_completes_of_fails hfails (h _ (mem_cons_of_mem _ mem_cons_self))

/-- `OnRow` makes an event of it all the same, and the bus refuses that. -/
theorem onRow_deep {s : GoString} (hvalid : Json.valid s = true)
    (hdeep : Json.maxNestingDepth ≤ Json.nestingDepth s) :
    ∃ event, (EventHandler.new []).onRow
        ⟨Table.documents, .insert, [[.int 1, .string s]], none⟩ =
        .ok (EventHandler.new [], [.emit event]) ∧
      Json.valid event.data = false ∧ Service.opened.handleEvent event = false := by
  have hrow := not_valid_of_deep hvalid hdeep
  refine ⟨_, rfl, hrow, ?_⟩
  -- `handleEvent`, with the event's type and data put in
  show (if isTableEvent .insert && rowToJSON Table.documents [.int 1, .string s] != [] &&
    !Json.valid (rowToJSON Table.documents [.int 1, .string s]) then false else true) = false
  rw [hrow]
  rfl

/-- A document at the nesting limit of `encoding/json` is valid, and the bus refuses its row. -/
theorem deep_document_refused :
    let doc := Json.nestedArrays Json.maxNestingDepth
    let e : RowsEvent := ⟨Table.documents, .insert, [[.int 1, .string doc]], none⟩
    (∀ row ∈ e.rows, ∀ val ∈ row, val.Plain) ∧ Json.valid doc = true ∧
    ∃ event, (EventHandler.new []).onRow e = .ok (EventHandler.new [], [.emit event]) ∧
      Json.valid event.data = false ∧ Service.opened.handleEvent event = false := by
  intro doc e
  have hdoc : Json.valid doc = true := Json.valid_nestedArrays (Nat.le_refl _)
  have hplain : ∀ row ∈ e.rows, ∀ val ∈ row, val.Plain :=
    forall_mem_singleton.mpr (forall_mem_cons.mpr ⟨show Value.Plain (.int 1) from trivial,
      forall_mem_singleton.mpr (utf8_nestedArrays _)⟩)
  exact ⟨hplain, hdoc, onRow_deep hdoc (Json.le_nestingDepth_nestedArrays (Nat.le_refl _))⟩

end Mysql
