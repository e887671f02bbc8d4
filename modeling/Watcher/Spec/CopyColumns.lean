import Watcher.Json.Names
import Watcher.ForStd.List
import Watcher.Model.CopyDump

/-!
# Column names of a COPY header

`parseCopyLine` escapes values but writes the column names as they stand in the
header. A name that needs quotes in SQL comes with these quotes, and then the
data of every row is not JSON.

Values are null or a string whose quotes are escaped, and names have no commas,
since the header is split at commas. So `Json.valid_object_names_iff` applies:
the rows of a section are taken exactly when every name of its header fits
between quotes.
-/

namespace Postgres

open Cdc Jsonutil List

/-! ### Values -/

/-- A quote is only written behind a backslash. -/
theorem quotesEscaped_escapeRune (c : Nat) : Json.QuotesEscaped (escapeRune c) := by
  unfold escapeRune
  repeat' split
  -- a character that is written as it is, and not a quote
  case isFalse hquote _ _ _ _ _ _ =>
    exact .of_notMem (Utf8.notMem_encodeRune (by decide) hquote)
  all_goals exact .backslash _

/-- And so all quotes of an escaped text are behind one. -/
theorem quotesEscaped_escapeString (s : GoString) : Json.QuotesEscaped (escapeString s) :=
  .flatMap fun c _ => quotesEscaped_escapeRune c

/-- A cell is null or an escaped text between quotes. -/
theorem plainValue_copyCell (v : Option GoString) : Json.PlainValue (copyCell v) := by
  have hnull : Json.PlainValue (ascii "null") := .inl rfl
  cases v with
  | none => exact hnull
  | some val =>
    unfold copyCell
    dsimp only
    split
    · exact hnull
    · exact .inr ⟨escapeString val, rfl, escapeString_safe val, quotesEscaped_escapeString val⟩

/-! ### Names -/

/-- Trimming leaves the end of the text. -/
theorem trimFrom_suffix (cut : List GoString) (skip : Nat) (s : GoString) :
    trimFrom cut skip s <:+ s := by
  fun_induction trimFrom cut skip s with
  | case1 => exact suffix_rfl
  | case2 skip b s ih => exact ih.trans (suffix_cons b s)
  | case3 b s piece _ ih => exact ih.trans (suffix_cons b s)
  | case4 => exact suffix_rfl

/-- Trimming on both sides adds no bytes. -/
theorem mem_of_mem_trimSpace {s : GoString} {b : UInt8} (h : b ∈ trimSpace s) : b ∈ s := by
  -- the right side is trimmed from the reversed text
  have hright := (trimFrom_suffix _ _ _).subset (mem_reverse.mp h)
  exact (trimFrom_suffix _ _ _).subset (mem_reverse.mp hright)

/-- A column name has no comma. -/
theorem comma_notMem_splitColumns {s col : GoString} (h : col ∈ splitColumns s) : 0x2c ∉ col := by
  obtain ⟨piece, hpiece, rfl⟩ := mem_map.mp h
  exact fun hmem => notMem_of_mem_splitOn hpiece (mem_of_mem_trimSpace hmem)

/-- The columns of a section are those between the parentheses of its header. -/
theorem openSection_columns {header : GoString} {copy : CopySection}
    (h : openSection header = .ok (some copy)) : ∃ s, copy.columns = splitColumns s := by
  unfold openSection at h
  split at h
  · exact nomatch h
  · rename_i columns _
    -- the names of the schema and the table are checked first
    repeat' split at h
    · exact nomatch h
    · exact nomatch h
    · cases h
      exact ⟨columns, rfl⟩

/-- The data of a row is JSON exactly when every name fits between quotes. -/
theorem valid_row_iff {columns : List GoString} (hcomma : ∀ col ∈ columns, 0x2c ∉ col)
    (values : List GoString) :
    Json.valid (Json.object (columns.zipIdx.map fun a => (a.1, copyCell values[a.2]?))) = true ↔
      ∀ col ∈ columns, Json.StringSafe col := by
  rw [Json.valid_object_names_iff, forall_mem_map]
  · rw [← forall_mem_map (P := Json.StringSafe), zipIdx_map_fst]
  · rw [forall_mem_map]
    exact fun a ha => hcomma a.1 (fst_mem_of_mem_zipIdx ha)
  · rw [forall_mem_map]
    exact fun a _ => plainValue_copyCell _

/-- The row of a line is taken by the bus exactly when every column name of the header fits between
    quotes: a backslash in it begins an escape, and it has no quotes or control characters. -/
theorem copy_row_accepted_iff {header : GoString} {copy : CopySection}
    (h : openSection header = .ok (some copy)) (line lsn : GoString) :
    (isValidJSON (parseCopyLine line copy.schema copy.table copy.columns lsn).data = true ∧
      Service.opened.handleEvent (parseCopyLine line copy.schema copy.table copy.columns lsn) =
        true) ↔ ∀ col ∈ copy.columns, Json.StringSafe col := by
  obtain ⟨s, hcols⟩ := openSection_columns h
  rw [← valid_row_iff (hcols ▸ fun _ => comma_notMem_splitColumns) (line.splitOn 0x09),
    ← copyMembers_eq]
  -- an open bus refuses a row for nothing but its data
  constructor
  · exact And.left
  · intro hvalid
    refine ⟨hvalid, ?_⟩
    have hvalid' : isValidJSON (parseCopyLine line copy.schema copy.table copy.columns lsn).data =
        true := hvalid
    simp [Service.handleEvent, Service.opened, hvalid']

/-- A header whose names need no quotes. -/
def usersHeader : GoString := ascii "COPY public.users (id, name) FROM stdin;"

/-- Its section. -/
def users : CopySection := ⟨ascii "public", ascii "users", [ascii "id", ascii "name"]⟩

/-- A row of that section. -/
theorem copy_row_accepted_users :
    openSection usersHeader = .ok (some users) ∧
      ((isValidJSON
            (parseCopyLine (ascii "1\tAnn") users.schema users.table users.columns []).data = true ∧
          Service.opened.handleEvent
            (parseCopyLine (ascii "1\tAnn") users.schema users.table users.columns []) = true) ↔
        ∀ col ∈ users.columns, Json.StringSafe col) := by
  have h : openSection usersHeader = .ok (some users) := by decide
  exact ⟨h, copy_row_accepted_iff h (ascii "1\tAnn") []⟩

/-- A mixed-case column: the row is dropped. -/
theorem quoted_column_refused :
    openSection (ascii "COPY public.users (id, \"userName\") FROM stdin;") =
      .ok (some ⟨ascii "public", ascii "users", [ascii "id", ascii "\"userName\""]⟩) ∧
    (parseCopyLine (ascii "1\tAnn") (ascii "public") (ascii "users")
        [ascii "id", ascii "\"userName\""] []).data =
      ascii "\x7b\"id\":\"1\", \"\"userName\"\":\"Ann\"\x7d" ∧
    Service.opened.handleEvent (parseCopyLine (ascii "1\tAnn") (ascii "public") (ascii "users")
      [ascii "id", ascii "\"userName\""] []) = false := by
  refine ⟨by decide, by decide, by decide⟩

end Postgres
