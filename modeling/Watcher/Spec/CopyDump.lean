import Watcher.ForStd.List
import Watcher.Model.CopyDump

/-!
# What survives a pg_dump file

A dump consists of tables in COPY text format and of other lines. In a value the
characters of `copyEscapes` are written as a backslash and a letter, and NULL is
written `\N`.

`ParseDumpFile` finds every row and takes it apart at the tabs, but never undoes
the escapes. So a row survives exactly when none of its values has an escaped
character (`PgDump.copy_survives_iff`).
-/

namespace Postgres

open Cdc Jsonutil List

/-! ## COPY text format -/

/-- The characters that COPY escapes, and the letter that then follows the backslash. -/
def copyEscapes : List (Char × Char) :=
  [('\\', '\\'), ('\t', 't'), ('\n', 'n'), ('\r', 'r'), ('\x08', 'b'), ('\x0c', 'f'), ('\x0b', 'v')]

/-- A character as COPY writes it. -/
def copyEscaped (c : Char) : List Char :=
  match copyEscapes.lookup c with
  | some l => ['\\', l]
  | none => [c]

/-- A nullable text. -/
abbrev CopyValue := Option (List Char)

/-- A value as COPY writes it. -/
def CopyValue.text : CopyValue → GoString
  | none => ascii "\\N"
  | some cs => Utf8.encode (cs.flatMap copyEscaped)

/-- A lower-case name that needs no quotes. -/
def IsSimpleName (name : GoString) : Prop :=
  validIdentifier name = true ∧ ∀ b ∈ name, ¬(0x41 ≤ b ∧ b ≤ 0x5a)

/-- A table as pg_dump writes it. -/
structure DumpedTable where
  schema : GoString
  table : GoString
  columns : List GoString
  rows : List (List CopyValue)
  schema_valid : validIdentifier schema = true
  table_valid : validIdentifier table = true
  columns_simple : ∀ col ∈ columns, IsSimpleName col
  rows_width : ∀ row ∈ rows, row.length = columns.length

namespace DumpedTable

/-- The columns between the parentheses of the header. -/
def columnText (t : DumpedTable) : GoString := (ascii ", ").intercalate t.columns

/-- A table without columns has no list of them. -/
def columnList (t : DumpedTable) : GoString :=
  if t.columns = [] then [] else [0x28] ++ t.columnText ++ [0x29]

/-- The line before the rows. -/
def header (t : DumpedTable) : GoString :=
  ascii "COPY " ++ t.schema ++ [0x2e] ++ t.table ++ [0x20] ++ t.columnList ++ ascii " FROM stdin;"

/-- The line of a row. -/
def rowText (row : List CopyValue) : GoString := [0x09].intercalate (row.map CopyValue.text)

/-- All lines of the table, with the one that ends it. -/
def lines (t : DumpedTable) : List GoString :=
  t.header :: t.rows.map rowText ++ [ascii "\\."]

end DumpedTable

inductive DumpPart where
  | table (t : DumpedTable)
  /-- A line that is no COPY header. -/
  | other (line : GoString) (isLine : 0x0a ∉ line) (noHeader : copyHeader (dropCR line) = none)

/-- The lines of a part. -/
def DumpPart.lines : DumpPart → List GoString
  | table t => t.lines
  | other line _ _ => [line]

/-- The rows of a part, with their table. -/
def DumpPart.rows : DumpPart → List (DumpedTable × List CopyValue)
  | table t => t.rows.map fun row => (t, row)
  | other _ _ _ => []

/-- A dump with lines that the scanner can hold. -/
structure PgDump where
  parts : List DumpPart
  fits : ∀ part ∈ parts, ∀ line ∈ part.lines, line.length < maxCopyLine

namespace PgDump

/-- The file. -/
def text (d : PgDump) : GoString :=
  (d.parts.flatMap DumpPart.lines).flatMap fun line => line ++ [0x0a]

/-- The rows of all tables, in order. -/
def rows (d : PgDump) : List (DumpedTable × List CopyValue) := d.parts.flatMap DumpPart.rows

end PgDump

/-! ## Values -/

/-- What is looked up is in the list. -/
theorem mem_copyEscapes {c l : Char} (h : copyEscapes.lookup c = some l) :
    (c, l) ∈ copyEscapes := by
  obtain ⟨l₁, l₂, hl, -⟩ := lookup_eq_some_iff.mp h
  rw [hl]
  exact mem_append_right l₁ mem_cons_self

/-- The characters that COPY uses itself are not in an escaped text. -/
theorem notMem_copyEscaped {c d : Char} (hd : d = '\t' ∨ d = '\n' ∨ d = '\r') :
    d ∉ copyEscaped c := by
  have hback : '\\' ∉ ['\t', '\n', '\r'] := by decide
  have hletters : ∀ e ∈ copyEscapes, e.2 ∉ ['\t', '\n', '\r'] := forall_mem_of_all (by decide)
  have hkeys : ∀ d ∈ ['\t', '\n', '\r'], (copyEscapes.lookup d).isSome = true :=
    forall_mem_of_all (by decide)
  have hd' : d ∈ ['\t', '\n', '\r'] := by simpa using hd
  unfold copyEscaped
  split
  · rename_i l hl
    have hletter := hletters (c, l) (mem_copyEscapes hl)
    intro hmem
    rcases mem_pair.mp hmem with rfl | rfl
    · exact hback hd'
    · exact hletter hd'
  · rename_i hl
    rw [mem_singleton]
    rintro rfl
    have := hkeys d hd'
    rw [hl] at this
    exact nomatch this

/-- A backslash is followed by an escape letter. -/
theorem flatMap_copyEscaped_ne {l : Char} (hl : ∀ e ∈ copyEscapes, l ≠ e.2) (cs : List Char) :
    cs.flatMap copyEscaped ≠ ['\\', l] := by
  cases cs with
  | nil => simp
  | cons c cs =>
    intro h
    rw [flatMap_cons, copyEscaped] at h
    split at h
    · rename_i l' hl'
      have : l' = l := by simpa using (List.cons.inj (List.cons.inj h).2).1
      exact hl _ (mem_copyEscapes hl') this.symm
    · rename_i hc
      have hback : c = '\\' := (List.cons.inj h).1
      rw [hback] at hc
      exact absurd hc (by decide)

namespace CopyValue

/-- A value has no tab and no line end. -/
theorem notMem_text {b : UInt8} (hb : b = 0x09 ∨ b = 0x0a ∨ b = 0x0d) (v : CopyValue) :
    b ∉ v.text := by
  cases v with
  | none =>
    have hnull : ∀ b ∈ [0x09, 0x0a, 0x0d], b ∉ ascii "\\N" := forall_mem_of_all (by decide)
    exact hnull b (by simpa using hb)
  | some cs =>
    obtain ⟨d, hd, hdb, hlt⟩ : ∃ d : Char, (d = '\t' ∨ d = '\n' ∨ d = '\r') ∧
        d.toNat = b.toNat ∧ b.toNat < 0x80 := by
      rcases hb with rfl | rfl | rfl
      · exact ⟨'\t', .inl rfl, rfl, by decide⟩
      · exact ⟨'\n', .inr (.inl rfl), rfl, by decide⟩
      · exact ⟨'\r', .inr (.inr rfl), rfl, by decide⟩
    intro hmem
    obtain ⟨c', hc', hbyte⟩ := mem_flatMap.mp hmem
    obtain ⟨c, -, hc⟩ := mem_flatMap.mp hc'
    apply Utf8.notMem_encodeRune hlt _ hbyte
    intro heq
    have : c' = d := Char.toNat_inj.mp (heq.trans hdb.symm)
    exact notMem_copyEscaped hd (this ▸ hc)

/-- Only NULL is written `\N`, and nothing is written `\.`. -/
theorem text_ne {l : Char} (hl : ∀ e ∈ copyEscapes, l ≠ e.2) (cs : List Char) :
    text (some cs) ≠ Utf8.encode ['\\', l] := by
  intro h
  exact flatMap_copyEscaped_ne hl cs (Utf8.encode_inj.mp h)

theorem text_some_ne_null (cs : List Char) : text (some cs) ≠ ascii "\\N" :=
  text_ne (l := 'N') (by decide) cs

theorem text_ne_end (v : CopyValue) : v.text ≠ ascii "\\." := by
  cases v with
  | none => decide
  | some cs => exact text_ne (l := '.') (by decide) cs

end CopyValue

namespace DumpedTable

variable {t : DumpedTable} {row : List CopyValue}

theorem splitOn_rowText (hrow : row ≠ []) :
    (rowText row).splitOn 0x09 = row.map CopyValue.text := by
  apply splitOn_intercalate
  · intro text htext
    obtain ⟨v, -, rfl⟩ := mem_map.mp htext
    exact v.notMem_text (.inl rfl)
  · simpa using hrow

theorem rowText_ne_end : rowText row ≠ ascii "\\." := by
  intro h
  by_cases hrow : row = []
  · rw [hrow] at h
    exact absurd h (by decide)
  · have hsplit := splitOn_rowText hrow
    rw [h] at hsplit
    have hend : (ascii "\\.").splitOn 0x09 = [ascii "\\."] := by decide
    rw [hend] at hsplit
    have hmem : ascii "\\." ∈ row.map CopyValue.text := hsplit ▸ mem_cons_self
    obtain ⟨v, -, hv⟩ := mem_map.mp hmem
    exact v.text_ne_end hv

/-- A row is one line, and has no carriage return that the scanner would drop. -/
theorem notMem_rowText {b : UInt8} (hb : b = 0x0a ∨ b = 0x0d) : b ∉ rowText row := by
  intro hmem
  rcases mem_intercalate hmem with hsep | ⟨text, htext, hb'⟩
  · rw [mem_singleton] at hsep
    rcases hb with rfl | rfl <;> exact absurd hsep (by decide)
  · obtain ⟨v, -, rfl⟩ := mem_map.mp htext
    exact v.notMem_text (.inr hb) hb'

end DumpedTable

/-! ## Headers -/

/-- What an identifier is made of is no space, dot, parenthesis or comma, and printable. -/
theorem isIdentifierPart_plain {b : UInt8} (h : isIdentifierPart b = true) :
    isRegexpSpace b = false ∧ b ≠ 0x2e ∧ b ≠ 0x29 ∧ b ≠ 0x2c ∧
      0x20 ≤ b.toNat ∧ b.toNat < 0x80 ∧ b.toNat ≠ 0x22 ∧ b.toNat ≠ 0x5c := by
  have hrange : 0x61 ≤ b.toNat ∧ b.toNat ≤ 0x7a ∨ 0x41 ≤ b.toNat ∧ b.toNat ≤ 0x5a ∨
      b.toNat = 0x5f ∨ 0x30 ≤ b.toNat ∧ b.toNat ≤ 0x39 := by
    simpa [isIdentifierPart, isIdentifierStart, UInt8.le_iff_toNat_le, ← UInt8.toNat_inj,
      or_assoc] using h
  simp only [isRegexpSpace, Bool.or_eq_false_iff, beq_eq_false_iff_ne, ne_eq, ← UInt8.toNat_inj,
    UInt8.reduceToNat]
  omega

theorem forall_isIdentifierPart {name : GoString} (h : validIdentifier name = true) :
    name ≠ [] ∧ ∀ b ∈ name, isIdentifierPart b = true := by
  cases name with
  | nil => exact nomatch h
  | cons b s =>
    rw [validIdentifier, Bool.and_eq_true] at h
    refine ⟨cons_ne_nil b s, ?_⟩
    rw [forall_mem_cons]
    refine ⟨?_, all_eq_true.mp h.2⟩
    unfold isIdentifierPart
    rw [h.1, Bool.true_or]

/-- A name is split at its last dot. -/
theorem splitName_dot {schema table : GoString} (hschema : schema ≠ []) (htable : table ≠ [])
    (hdot : 0x2e ∉ table) : splitName (schema ++ 0x2e :: table) = some (schema, table) := by
  have hnone : ∀ s : GoString, 0x2e ∉ s → splitName s = none := by
    intro s hs
    induction s with
    | nil => rfl
    | cons b s ih =>
      obtain ⟨-, hs⟩ : (0x2e : UInt8) ≠ b ∧ 0x2e ∉ s := by simpa using hs
      have hhead : s.head? ≠ some 0x2e := fun h => hs (mem_of_head? h)
      simp [splitName, ih hs, hhead]
  -- a leading dot has nothing on its left
  have hlead : splitName (0x2e :: table) = none := by
    have hhead : table.head? ≠ some 0x2e := fun h => hdot (mem_of_head? h)
    simp [splitName, hnone table hdot, hhead]
  induction schema with
  | nil => exact absurd rfl hschema
  | cons b schema ih =>
    rw [cons_append, splitName]
    cases schema with
    | nil =>
      rw [nil_append, hlead]
      simp [htable]
    | cons b' schema => rw [ih (cons_ne_nil b' schema)]

/-- One space before anything else. -/
theorem afterSpaces_space {b : UInt8} (hb : isRegexpSpace b = false) (s : GoString) :
    afterSpaces (0x20 :: b :: s) = some (b :: s) := by
  have hspace : isRegexpSpace 0x20 = true := rfl
  simp [afterSpaces, hspace, hb]

namespace DumpedTable

/-- Column names are identifiers. -/
theorem columns_plain (t : DumpedTable) {col : GoString} (hcol : col ∈ t.columns) {b : UInt8}
    (hb : b ∈ col) : isIdentifierPart b = true :=
  (forall_isIdentifierPart (t.columns_simple col hcol).1).2 b hb

theorem notMem_columnText (t : DumpedTable) {b : UInt8} (hb : isIdentifierPart b = false)
    (hsep : b ∉ ascii ", ") : b ∉ t.columnText := by
  intro hmem
  rcases mem_intercalate hmem with h | ⟨col, hcol, h⟩
  · exact hsep h
  · rw [t.columns_plain hcol h] at hb
    exact nomatch hb

theorem columnText_ne_nil (t : DumpedTable) (h : t.columns ≠ []) : t.columnText ≠ [] := by
  obtain ⟨col, cols, hcols⟩ := exists_cons_of_ne_nil h
  have hcol : col ≠ [] :=
    (forall_isIdentifierPart (t.columns_simple col (hcols ▸ mem_cons_self)).1).1
  unfold columnText
  rw [hcols]
  cases cols with
  | nil => simpa using hcol
  | cons col' cols => simp [intercalate_cons_cons, hcol]

/-- The header up to the name of the table. -/
theorem copyHeader_name (t : DumpedTable) (s : GoString) :
    copyHeader (ascii "COPY " ++ t.schema ++ [0x2e] ++ t.table ++ [0x20] ++ s) =
      (afterSpaces (0x20 :: s)).bind fun s =>
        (copyColumns s).bind fun columns => some (t.schema, t.table, columns) := by
  obtain ⟨hschema, hschema'⟩ := forall_isIdentifierPart t.schema_valid
  obtain ⟨htable, htable'⟩ := forall_isIdentifierPart t.table_valid
  have hdot : 0x2e ∉ t.table := fun hmem => (isIdentifierPart_plain (htable' _ hmem)).2.1 rfl
  -- the name is the run of bytes up to the next space
  have hword : ∀ b ∈ t.schema ++ 0x2e :: t.table, (!isRegexpSpace b) = true := by
    intro b hb
    rw [mem_append, mem_cons] at hb
    rcases hb with hb | rfl | hb
    · rw [(isIdentifierPart_plain (hschema' b hb)).1]
      rfl
    · rfl
    · rw [(isIdentifierPart_plain (htable' b hb)).1]
      rfl
  obtain ⟨hname, hafterName⟩ := span_append hword (b := 0x20) rfl s
  have hstart : afterSpaces (0x20 :: ((t.schema ++ 0x2e :: t.table) ++ 0x20 :: s)) =
      some ((t.schema ++ 0x2e :: t.table) ++ 0x20 :: s) := by
    obtain ⟨b, s', hb⟩ := exists_cons_of_ne_nil hschema
    rw [hb]
    exact afterSpaces_space (isIdentifierPart_plain (hschema' b (hb ▸ mem_cons_self))).1 _
  have htext : ascii "COPY " ++ t.schema ++ [0x2e] ++ t.table ++ [0x20] ++ s =
      ascii "COPY" ++ (0x20 :: ((t.schema ++ 0x2e :: t.table) ++ 0x20 :: s)) := by
    have hcopy : ascii "COPY " = ascii "COPY" ++ [0x20] := by decide
    simp only [hcopy, append_assoc, cons_append, nil_append]
  rw [htext, copyHeader, isPrefixOf?_eq_some_iff_append_eq.mpr rfl]
  simp only [Option.bind_eq_bind, Option.bind_some, hstart, hname, hafterName,
    splitName_dot hschema htable hdot]
  rfl

/-- The header from the columns on. -/
theorem copyColumns_columnText (t : DumpedTable) (h : t.columns ≠ []) :
    copyColumns (0x28 :: (t.columnText ++ 0x29 :: ascii " FROM stdin;")) = some t.columnText := by
  have hparen : ∀ b ∈ t.columnText, (b != 0x29) = true := by
    intro b hb
    rw [bne_iff_ne]
    rintro rfl
    exact t.notMem_columnText rfl (by decide) hb
  obtain ⟨hcols, hafterCols⟩ := span_append hparen (b := 0x29) rfl (ascii " FROM stdin;")
  have hopen : ∀ s, (ascii "(").isPrefixOf? (0x28 :: s) = some s := fun _ => rfl
  have hclose : ∀ s, (ascii ")").isPrefixOf? (0x29 :: s) = some s := fun _ => rfl
  have hfrom : afterSpaces (ascii " FROM stdin;") = some (ascii "FROM stdin;") := by decide
  have hfrom' : (ascii "FROM").isPrefixOf? (ascii "FROM stdin;") = some (ascii " stdin;") := by
    decide
  have hstdin : afterSpaces (ascii " stdin;") = some (ascii "stdin;") := by decide
  have hstdin' : (ascii "stdin;").isPrefixOf? (ascii "stdin;") = some [] := by decide
  unfold copyColumns
  simp only [Option.bind_eq_bind, Option.bind_some, hopen, hcols, hafterCols, hclose, hfrom, hfrom',
    hstdin, hstdin']
  simp [guard, t.columnText_ne_nil h]

theorem copyHeader_header (t : DumpedTable) (h : t.columns ≠ []) :
    copyHeader t.header = some (t.schema, t.table, t.columnText) := by
  have htail : t.columnList ++ ascii " FROM stdin;" =
      0x28 :: (t.columnText ++ 0x29 :: ascii " FROM stdin;") := by
    simp only [columnList, if_neg h, append_assoc, cons_append, nil_append]
  rw [header, append_assoc _ t.columnList, htail, copyHeader_name, afterSpaces_space rfl,
    Option.bind_some, copyColumns_columnText t h]
  rfl

/-- Without columns there is no header, so that the rows are not found. -/
theorem copyHeader_header_nil (t : DumpedTable) (h : t.columns = []) :
    copyHeader t.header = none := by
  have htail : t.columnList ++ ascii " FROM stdin;" = ascii " FROM stdin;" := by
    rw [columnList, if_pos h]
    rfl
  have hspaces : afterSpaces (0x20 :: ascii " FROM stdin;") = some (ascii "FROM stdin;") := by
    decide
  have hnone : copyColumns (ascii "FROM stdin;") = none := by decide
  rw [header, append_assoc _ t.columnList, htail, copyHeader_name, hspaces, Option.bind_some, hnone]
  rfl

/-- The header is one line. -/
theorem notMem_header (t : DumpedTable) {b : UInt8} (hb : b = 0x0a ∨ b = 0x0d) : b ∉ t.header := by
  have hpart : isIdentifierPart b = false := by rcases hb with rfl | rfl <;> rfl
  have hname : ∀ {name}, validIdentifier name = true → b ∉ name := by
    intro name hvalid hmem
    rw [(forall_isIdentifierPart hvalid).2 b hmem] at hpart
    exact nomatch hpart
  have hfixed : b ∉ ascii "COPY " ∧ b ∉ [0x2e, 0x20, 0x28, 0x29] ∧ b ∉ ascii " FROM stdin;" ∧
      b ∉ ascii ", " := by
    rcases hb with rfl | rfl <;> decide
  have hlist : b ∉ t.columnList := by
    unfold columnList
    split
    · exact not_mem_nil
    · have := t.notMem_columnText hpart hfixed.2.2.2
      simp_all
  have hschema := hname t.schema_valid
  have htable := hname t.table_valid
  simp only [header, mem_append, not_or]
  simp_all

theorem mem_lines (t : DumpedTable) {line : GoString} (h : line ∈ t.lines) :
    line = t.header ∨ (∃ row ∈ t.rows, rowText row = line) ∨ line = ascii "\\." := by
  rw [lines, mem_append, mem_cons, mem_map, mem_singleton, or_assoc] at h
  exact h

/-- What the table is written as has no other line ends than its own. -/
theorem notMem_lines (t : DumpedTable) {b : UInt8} (hb : b = 0x0a ∨ b = 0x0d) {line : GoString}
    (h : line ∈ t.lines) : b ∉ line := by
  rcases t.mem_lines h with rfl | ⟨row, -, rfl⟩ | rfl
  · exact t.notMem_header hb
  · exact notMem_rowText hb
  · rcases hb with rfl | rfl <;> decide

end DumpedTable

/-! ## Columns -/

theorem trimFrom_stop {cut : List GoString} {b : UInt8}
    (h : ∀ piece ∈ cut, ∃ c s, piece = c :: s ∧ c ≠ b) (s : GoString) :
    trimFrom cut 0 (b :: s) = b :: s := by
  have hnone : cut.find? (fun piece => piece.isPrefixOf (b :: s)) = none := by
    rw [find?_eq_none]
    intro piece hpiece
    obtain ⟨c, s', rfl, hc⟩ := h piece hpiece
    simp [List.isPrefixOf, hc]
  rw [trimFrom, hnone]

/-- No space begins or ends with a byte of an identifier. -/
theorem unicodeSpaces_edges : ∀ piece ∈ unicodeSpaces,
    (∃ c s, piece = c :: s ∧ isIdentifierPart c = false) ∧
      ∃ c s, piece.reverse = c :: s ∧ isIdentifierPart c = false := by
  have hedges : ∀ piece ∈ unicodeSpaces, (piece.head?.any fun c => !isIdentifierPart c) = true ∧
      (piece.reverse.head?.any fun c => !isIdentifierPart c) = true := by decide
  have hhead : ∀ piece : GoString, (piece.head?.any fun c => !isIdentifierPart c) = true →
      ∃ c s, piece = c :: s ∧ isIdentifierPart c = false := by
    intro piece h
    cases piece with
    | nil => exact nomatch h
    | cons c s => exact ⟨c, s, rfl, by simpa using h⟩
  intro piece hpiece
  obtain ⟨hfirst, hlast⟩ := hedges piece hpiece
  exact ⟨hhead piece hfirst, hhead piece.reverse hlast⟩

/-- Trimming drops a space. -/
theorem trimFrom_space (s : GoString) :
    trimFrom unicodeSpaces 0 (0x20 :: s) = trimFrom unicodeSpaces 0 s := by
  have hfind : unicodeSpaces.find? (fun piece => piece.isPrefixOf (0x20 :: s)) = some [0x20] := rfl
  rw [trimFrom, hfind]
  cases s <;> rfl

/-- A name is not trimmed, but the space before it is. -/
theorem trimSpace_name {name : GoString} (h : validIdentifier name = true) :
    trimSpace name = name ∧ trimSpace (0x20 :: name) = name := by
  obtain ⟨hne, hpart⟩ := forall_isIdentifierPart h
  have hstop : ∀ b ∈ name, ∀ c, isIdentifierPart c = false → c ≠ b := by
    rintro b hb c hc rfl
    rw [hpart c hb] at hc
    exact nomatch hc
  have hleft : trimFrom unicodeSpaces 0 name = name := by
    cases name with
    | nil => rfl
    | cons b s =>
      apply trimFrom_stop
      intro piece hpiece
      obtain ⟨c, s', hc, hpart'⟩ := (unicodeSpaces_edges piece hpiece).1
      exact ⟨c, s', hc, hstop b mem_cons_self c hpart'⟩
  have hright : trimFrom (unicodeSpaces.map List.reverse) 0 name.reverse = name.reverse := by
    cases hrev : name.reverse with
    | nil => rfl
    | cons b s =>
      have hb : b ∈ name := mem_reverse.mp (hrev ▸ mem_cons_self)
      apply trimFrom_stop
      intro piece hpiece
      obtain ⟨space, hspace, rfl⟩ := mem_map.mp hpiece
      obtain ⟨c, s', hc, hpart'⟩ := (unicodeSpaces_edges space hspace).2
      exact ⟨c, s', hc, hstop b hb c hpart'⟩
  unfold trimSpace
  rw [trimFrom_space, hleft, hright, reverse_reverse]
  exact ⟨rfl, rfl⟩

/-- A comma and a space between the columns, or a comma and then the space as part of the next. -/
theorem intercalate_comma (col : GoString) (cols : List GoString) :
    (ascii ", ").intercalate (col :: cols) =
      [0x2c].intercalate (col :: cols.map fun col => 0x20 :: col) := by
  have hsep : ascii ", " = [0x2c, 0x20] := by decide
  induction cols generalizing col with
  | nil => rfl
  | cons col' cols ih =>
    have hspace : ∀ ls : List GoString,
        [0x2c].intercalate ((0x20 :: col') :: ls) = 0x20 :: [0x2c].intercalate (col' :: ls) := by
      intro ls
      cases ls <;> simp [intercalate_cons_cons]
    rw [map_cons, intercalate_cons_cons, intercalate_cons_cons, ih, hspace, hsep]
    simp

/-- The columns are found again. -/
theorem DumpedTable.splitColumns_columnText (t : DumpedTable) (h : t.columns ≠ []) :
    splitColumns t.columnText = t.columns := by
  obtain ⟨col, cols, hcols⟩ := exists_cons_of_ne_nil h
  have hvalid : ∀ c ∈ col :: cols, validIdentifier c = true :=
    fun c hc => (t.columns_simple c (hcols ▸ hc)).1
  have hcomma : ∀ c ∈ col :: cols, 0x2c ∉ c := by
    intro c hc hmem
    exact (isIdentifierPart_plain ((forall_isIdentifierPart (hvalid c hc)).2 _ hmem)).2.2.2.1 rfl
  have hpieces : ∀ c ∈ col :: cols.map (fun c => 0x20 :: c), 0x2c ∉ c := by
    rw [forall_mem_cons, forall_mem_map] at *
    refine ⟨hcomma.1, ?_⟩
    intro c hc
    simp [hcomma.2 c hc]
  rw [splitColumns, columnText, hcols, intercalate_comma,
    splitOn_intercalate _ hpieces (cons_ne_nil _ _), map_cons, map_map,
    (trimSpace_name (hvalid col mem_cons_self)).1]
  have htrim : ∀ c ∈ cols, (trimSpace ∘ fun c => 0x20 :: c) c = id c :=
    fun c hc => (trimSpace_name (hvalid c (mem_cons_of_mem col hc))).2
  rw [map_congr_left htrim, map_id]

/-! ## Reading the data -/

/-- What a reader of the data finds in a column. -/
def copyCellValue : Option GoString → Json.Value
  | none => .null
  | some val => if val = ascii "\\N" then .null else .string (Utf8.runes val)

/-- A cell is read as that. -/
theorem readsValue_copyCell (v : Option GoString) :
    Json.ReadsValue (copyCell v) (copyCellValue v) := by
  unfold copyCell copyCellValue
  cases v with
  | none => exact Json.readsValue_null
  | some val =>
    dsimp only
    split
    · exact Json.readsValue_null
    · exact Json.readsValue_string (escapeString_reads val)

/-- A column name is read as itself. -/
theorem readsAs_name {name : GoString} (h : validIdentifier name = true) :
    Json.ReadsAs name (name.map UInt8.toNat) := by
  apply Json.ReadsAs.ascii
  intro b hb
  exact (isIdentifierPart_plain ((forall_isIdentifierPart h).2 b hb)).2.2.2.2

/-- NULL as null, a text as the string of its characters. -/
def CopyValue.json : CopyValue → Json.Value
  | none => .null
  | some cs => .string (cs.map Char.toNat)

/-- No character of the value is escaped. -/
def CopyValue.Plain (v : CopyValue) : Prop :=
  ∀ cs, v = some cs → ∀ c ∈ cs, copyEscapes.lookup c = none

theorem copyEscaped_eq_iff (c : Char) : copyEscaped c = [c] ↔ copyEscapes.lookup c = none := by
  unfold copyEscaped
  cases copyEscapes.lookup c <;> simp

theorem CopyValue.read_iff (v : CopyValue) : copyCellValue (some v.text) = v.json ↔ v.Plain := by
  cases v with
  | none => simp [copyCellValue, text, json, Plain]
  | some cs =>
    have hpieces : ∀ c, copyEscaped c ≠ [] := by
      intro c
      unfold copyEscaped
      split <;> simp
    rw [copyCellValue, if_neg (text_some_ne_null cs), text, json, Utf8.runes_encode,
      Json.Value.string.injEq, Utf8.map_toNat_inj, flatMap_eq_self_iff hpieces]
    simp only [copyEscaped_eq_iff, Plain, Option.some.injEq, forall_eq']

/-! ## Reading a dump -/

/-- The event for a row. -/
def rowEvent (lsn : GoString) (r : DumpedTable × List CopyValue) : Event :=
  parseCopyLine (DumpedTable.rowText r.2) r.1.schema r.1.table r.1.columns lsn

/-- Lines that are no header are skipped. -/
theorem parseCopyLines_skip {lsn : GoString} {lines : List GoString}
    (h : ∀ line ∈ lines, copyHeader line = none) (rest : List GoString) :
    parseCopyLines lsn none (lines ++ rest) = parseCopyLines lsn none rest := by
  induction lines with
  | nil => rfl
  | cons line lines ih =>
    have hopen : openSection line = .ok none := by
      rw [openSection, h line mem_cons_self]
    rw [cons_append, parseCopyLines, hopen]
    exact ih fun line' h' => h line' (mem_cons_of_mem line h')

theorem parseCopyLines_rows (lsn : GoString) (t : DumpedTable) (rows : List (List CopyValue))
    (rest : List GoString) :
    parseCopyLines lsn (some ⟨t.schema, t.table, t.columns⟩)
        (rows.map DumpedTable.rowText ++ ascii "\\." :: rest) =
      (rows.map (fun row => rowEvent lsn (t, row)) ++ (parseCopyLines lsn none rest).1,
        (parseCopyLines lsn none rest).2) := by
  induction rows with
  | nil => rw [map_nil, nil_append, parseCopyLines, if_pos rfl]; rfl
  | cons row rows ih =>
    rw [map_cons, cons_append, parseCopyLines, if_neg DumpedTable.rowText_ne_end, ih]
    rfl

/-- The rows that are found: those of tables with columns. -/
def foundRows (rows : List (DumpedTable × List CopyValue)) : List (DumpedTable × List CopyValue) :=
  rows.filter fun r => r.1.columns ≠ []

/-- A table gives its rows, unless it has no columns. -/
theorem parseCopyLines_table (lsn : GoString) (t : DumpedTable) (rest : List GoString) :
    parseCopyLines lsn none (t.lines ++ rest) =
      ((foundRows (t.rows.map fun row => (t, row))).map (rowEvent lsn) ++
        (parseCopyLines lsn none rest).1, (parseCopyLines lsn none rest).2) := by
  by_cases hcols : t.columns = []
  · -- no line of the table is a header, so all of them are skipped
    have hfound : foundRows (t.rows.map fun row => (t, row)) = [] := by
      simp [foundRows, hcols]
    have hskip : ∀ line ∈ t.lines, copyHeader line = none := by
      intro line hline
      rcases t.mem_lines hline with rfl | ⟨row, hrow, rfl⟩ | rfl
      · exact t.copyHeader_header_nil hcols
      · have hempty : row = [] := by
          apply eq_nil_of_length_eq_zero
          rw [t.rows_width row hrow, hcols]
          rfl
        rw [hempty]
        decide
      · decide
    rw [parseCopyLines_skip hskip, hfound]
    rfl
  · have hfound : foundRows (t.rows.map fun row => (t, row)) = t.rows.map fun row => (t, row) := by
      simp [foundRows, hcols]
    have hopen : openSection t.header = .ok (some ⟨t.schema, t.table, t.columns⟩) := by
      rw [openSection, t.copyHeader_header hcols]
      simp only [t.schema_valid, t.table_valid, t.splitColumns_columnText hcols]
      rfl
    have hlines : t.lines ++ rest =
        t.header :: (t.rows.map DumpedTable.rowText ++ ascii "\\." :: rest) := by
      simp [DumpedTable.lines]
    rw [hlines, parseCopyLines, hopen, hfound]
    simp only [parseCopyLines_rows, map_map]
    rfl

theorem dropCR_lines (t : DumpedTable) : t.lines.map dropCR = t.lines := by
  have hline : ∀ line ∈ t.lines, dropCR line = id line :=
    fun line hline => dropCR_of_notMem (t.notMem_lines (.inr rfl) hline)
  rw [map_congr_left hline, map_id]

/-- The rows of all parts, in order. -/
theorem parseCopyLines_parts (lsn : GoString) (parts : List DumpPart) :
    parseCopyLines lsn none ((parts.flatMap DumpPart.lines).map dropCR) =
      ((foundRows (parts.flatMap DumpPart.rows)).map (rowEvent lsn), none) := by
  induction parts with
  | nil => rfl
  | cons part parts ih =>
    rw [flatMap_cons, flatMap_cons, map_append, foundRows, filter_append]
    cases part with
    | table t =>
      rw [DumpPart.lines, dropCR_lines, parseCopyLines_table, ih, map_append]
      rfl
    | other line isLine noHeader =>
      have hskip : ∀ line' ∈ (DumpPart.other line isLine noHeader).lines.map dropCR,
          copyHeader line' = none := by
        simp [DumpPart.lines, noHeader]
      rw [parseCopyLines_skip hskip, ih]
      rfl

namespace PgDump

theorem parseDumpFile_text (d : PgDump) (lsn : GoString) :
    parseDumpFile d.text lsn = ((foundRows d.rows).map (rowEvent lsn), none) := by
  have hlines : ∀ line ∈ d.parts.flatMap DumpPart.lines,
      0x0a ∉ line ∧ line.length < maxCopyLine := by
    intro line hline
    obtain ⟨part, hpart, hline⟩ := mem_flatMap.mp hline
    refine ⟨?_, d.fits part hpart line hline⟩
    cases part with
    | table t => exact t.notMem_lines (.inl rfl) hline
    | other line' isLine noHeader => exact mem_singleton.mp hline ▸ isLine
  rw [parseDumpFile, text, scanLines_flatMap hlines]
  simp only [parseCopyLines_parts]
  rfl

end PgDump

/-! ## Which rows survive -/

/-- The event stands for the row: an INSERT into the table, and each column has the value. -/
def RowEvent (t : DumpedTable) (row : List CopyValue) (e : Event) : Prop :=
  e.type = .insert ∧ e.schema = t.schema ∧ e.table = t.table ∧
    Json.read e.data =
      some (.object ((t.columns.zip row).map fun cell => (cell.1.map UInt8.toNat, cell.2.json)))

/-- What a reader finds in the event of a row. -/
theorem read_rowEvent (lsn : GoString) (t : DumpedTable) (hcols : t.columns ≠ [])
    {row : List CopyValue} (hrow : row.length = t.columns.length) :
    Json.read (rowEvent lsn (t, row)).data =
      some (.object ((t.columns.zip row).map fun cell =>
        (cell.1.map UInt8.toNat, copyCellValue (some cell.2.text)))) := by
  have hne : row ≠ [] := by
    rintro rfl
    exact hcols (eq_nil_of_length_eq_zero hrow.symm)
  have hdata : (rowEvent lsn (t, row)).data = Json.object (t.columns.zipIdx.map fun a =>
      (a.1, copyCell (row.map CopyValue.text)[a.2]?)) := by
    rw [← copyMembers_eq, ← DumpedTable.splitOn_rowText hne]
    rfl
  have hname : ∀ a ∈ t.columns.zipIdx, Json.ReadsAs a.1 (a.1.map UInt8.toNat) := by
    intro a ha
    exact readsAs_name (t.columns_simple a.1 (fst_mem_of_mem_zipIdx ha)).1
  have hval : ∀ a ∈ t.columns.zipIdx, Json.ReadsValue (copyCell (row.map CopyValue.text)[a.2]?)
      (copyCellValue (row.map CopyValue.text)[a.2]?) :=
    fun a _ => readsValue_copyCell _
  rw [hdata, Json.read_object _ hname hval]
  congr 2
  apply ext_getElem
  · simp [hrow]
  · intro i hi hi'
    have hlt : i < row.length := by
      rw [length_map, length_zip] at hi'
      omega
    simp [hlt]

theorem rowEvent_iff (lsn : GoString) (t : DumpedTable) (hcols : t.columns ≠ [])
    {row : List CopyValue} (hrow : row.length = t.columns.length) :
    RowEvent t row (rowEvent lsn (t, row)) ↔ ∀ v ∈ row, v.Plain := by
  have hcells : RowEvent t row (rowEvent lsn (t, row)) ↔
      ∀ cell ∈ t.columns.zip row, copyCellValue (some cell.2.text) = cell.2.json := by
    unfold RowEvent
    rw [read_rowEvent lsn t hcols hrow]
    simp [rowEvent, parseCopyLine, newEvent]
  have hvalues : (t.columns.zip row).map Prod.snd = row := map_snd_zip (Nat.le_of_eq hrow)
  rw [hcells, ← hvalues, forall_mem_map]
  simp only [hvalues, CopyValue.read_iff]

namespace PgDump

theorem width_of_mem_rows {d : PgDump} {r : DumpedTable × List CopyValue} (h : r ∈ d.rows) :
    r.2.length = r.1.columns.length := by
  obtain ⟨part, -, hr⟩ := mem_flatMap.mp h
  cases part with
  | table t =>
    obtain ⟨row, hrow, rfl⟩ := mem_map.mp hr
    exact t.rows_width row hrow
  | other _ _ _ => exact nomatch hr

/-- One event for each row, in order, and no error. -/
def Survives (d : PgDump) (lsn : GoString) : Prop :=
  ∃ events, parseDumpFile d.text lsn = (events, none) ∧
    List.Forall₂ (fun r e => RowEvent r.1 r.2 e) d.rows events

/-- A dump survives exactly when all its rows have columns and no value in them needs escapes. -/
theorem copy_survives_iff (d : PgDump) (lsn : GoString) :
    d.Survives lsn ↔ ∀ r ∈ d.rows, r.1.columns ≠ [] ∧ ∀ v ∈ r.2, v.Plain := by
  have hfound : (∀ r ∈ d.rows, r.1.columns ≠ []) → foundRows d.rows = d.rows := by
    intro h
    rw [foundRows, filter_eq_self]
    exact fun r hr => decide_eq_true (h r hr)
  have hrow : ∀ r ∈ d.rows, r.1.columns ≠ [] →
      (RowEvent r.1 r.2 (rowEvent lsn r) ↔ ∀ v ∈ r.2, v.Plain) :=
    fun r hr hcols => rowEvent_iff lsn r.1 hcols (width_of_mem_rows hr)
  unfold Survives
  rw [parseDumpFile_text]
  constructor
  · rintro ⟨events, hparse, hevents⟩
    obtain rfl := (Prod.mk.inj hparse).1
    -- as many events as rows: no row was passed over
    have hcols : ∀ r ∈ d.rows, r.1.columns ≠ [] := by
      have hlength := hevents.length_eq
      rw [length_map, foundRows, eq_comm, length_filter_eq_length_iff] at hlength
      exact fun r hr => of_decide_eq_true (hlength r hr)
    rw [hfound hcols, forall₂_map_right_iff, forall₂_same] at hevents
    exact fun r hr => ⟨hcols r hr, (hrow r hr (hcols r hr)).mp (hevents r hr)⟩
  · intro h
    refine ⟨_, rfl, ?_⟩
    rw [hfound fun r hr => (h r hr).1, forall₂_map_right_iff, forall₂_same]
    exact fun r hr => (hrow r hr (h r hr).1).mpr (h r hr).2

/-- One row, with a tab in its value. -/
def tabbedNotes : DumpedTable where
  schema := ascii "public"
  table := ascii "notes"
  columns := [ascii "body"]
  rows := [[some ['a', '\t', 'b']]]
  schema_valid := by decide
  table_valid := by decide
  columns_simple := by
    intro col hcol
    rw [mem_singleton.mp hcol]
    exact ⟨by decide, forall_mem_of_all (by decide)⟩
  rows_width := by decide

/-- The dump of that table. -/
def tabbed : PgDump where
  parts := [.table tabbedNotes]
  fits := by
    intro part hpart
    rw [mem_singleton.mp hpart]
    decide

/-- The tab becomes a backslash and a `t`. -/
theorem tab_lost :
    (parseDumpFile tabbed.text []).1.map Event.data = [ascii "\x7b\"body\":\"a\\\\tb\"\x7d"] ∧
      ¬ tabbed.Survives [] := by
  refine ⟨by rw [parseDumpFile_text]; decide, ?_⟩
  rintro ⟨events, hparse, hevents⟩
  rw [parseDumpFile_text] at hparse
  obtain rfl := (Prod.mk.inj hparse).1
  cases hevents with
  | cons hrow _ =>
    have hplain := (rowEvent_iff [] tabbedNotes (by decide) rfl).mp hrow
    exact absurd (hplain _ mem_cons_self _ rfl '\t' (by decide)) (by decide)

end PgDump

end Postgres
