import Watcher.ForStd.Digits
import Watcher.Spec.DumpBoundaries

/-!
# What row contents can do to a dump

`ParseMysqlDumpFile` looks for the binlog position anywhere in a line before it
asks whether the line is an INSERT statement. Inside one string the pattern cannot
stand, since its quotes would be escaped, but it may begin in one column and end
in the next: the quotes are then those around the values. Such a line yields a
position and none of its rows. A comment may hold the pattern as well, as the name
of a table in it for example, and is then taken for a CHANGE MASTER line; the last
line that names a position wins.

A dump is read as it should be exactly if no INSERT line names a position, no table
has a backtick in its name, and no comment has the last word on the position, unless
it says what the CHANGE MASTER line says (`readsAll_iff`).
-/

namespace Mysql

open Cdc List

/-! ### The position pattern -/

/-- The pattern of `binlogPosRegex` stands somewhere in the line. -/
def NamesPosition (line : GoString) : Prop :=
  ∃ before file spaces digit after,
    line = before ++ (ascii "MASTER_LOG_FILE='" ++ (file ++ (ascii "'," ++ (spaces ++
      (ascii "MASTER_LOG_POS=" ++ digit :: after))))) ∧
    file ≠ [] ∧ 0x27 ∉ file ∧ (∀ b ∈ spaces, isRegexpSpace b = true) ∧ isRegexpDigit digit = true

/-- A match at the start of a text. -/
theorem binlogPosAt_pattern {file spaces : GoString} (rest : GoString) (hfile : file ≠ [])
    (hquote : 0x27 ∉ file) (hspaces : ∀ b ∈ spaces, isRegexpSpace b = true)
    (hdigits : rest.takeWhile isRegexpDigit ≠ []) :
    binlogPosAt (ascii "MASTER_LOG_FILE='" ++ (file ++ (ascii "'," ++ (spaces ++
      (ascii "MASTER_LOG_POS=" ++ rest))))) = some (file, rest.takeWhile isRegexpDigit) := by
  have hopen : ascii "'," = 0x27 :: ascii "," := by decide
  have hplain : ∀ b ∈ file, (b != 0x27) = true := by
    intro b hb
    exact bne_iff_ne.mpr fun h => hquote (h ▸ hb)
  have hspan := span_append hplain (b := 0x27) rfl
    (ascii "," ++ (spaces ++ (ascii "MASTER_LOG_POS=" ++ rest)))
  rw [← cons_append, ← hopen] at hspan
  have hspace : (spaces ++ (ascii "MASTER_LOG_POS=" ++ rest)).dropWhile isRegexpSpace =
      ascii "MASTER_LOG_POS=" ++ rest := by
    rw [dropWhile_append_of_pos hspaces]
    rfl
  unfold binlogPosAt
  simp only [isPrefixOf?_eq_some_iff_append_eq.mpr rfl, Option.bind_eq_bind, Option.bind_some,
    hspan.1, hspan.2, hspace, guard, hfile, hdigits, ne_eq, not_false_eq_true, if_true,
    Option.pure_def]

/-- What is matched at the start of a text. -/
theorem pattern_of_binlogPosAt {s : GoString} {m : GoString × GoString}
    (h : binlogPosAt s = some m) : NamesPosition s := by
  unfold binlogPosAt at h
  simp only [Option.bind_eq_bind, Option.bind_eq_some_iff, guard] at h
  -- the parts of the expression from left to right; `s₁`, `s₂` and `s₃` follow its literals
  obtain ⟨s₁, h₁, u, hfile, s₂, h₂, s₃, h₃, v, hdigits, -⟩ := h
  rw [isPrefixOf?_eq_some_iff_append_eq] at h₁ h₂ h₃
  have hfile : s₁.takeWhile (· != 0x27) ≠ [] := by
    by_contra hnil
    simp [hnil] at hfile
  have hdigits : s₃.takeWhile isRegexpDigit ≠ [] := by
    by_contra hnil
    simp [hnil] at hdigits
  obtain ⟨digit, after, rfl, hdigit⟩ : ∃ d t, s₃ = d :: t ∧ isRegexpDigit d = true := by
    cases s₃ with
    | nil => exact absurd rfl hdigits
    | cons d t =>
      by_cases hd : isRegexpDigit d = true
      · exact ⟨d, t, rfl, hd⟩
      · exact absurd (takeWhile_cons_of_neg hd) hdigits
  refine ⟨[], s₁.takeWhile (· != 0x27), s₂.takeWhile isRegexpSpace, digit, after, ?_, hfile, ?_, ?_,
    hdigit⟩
  · rw [h₃, takeWhile_append_dropWhile, h₂, takeWhile_append_dropWhile, h₁, nil_append]
  · intro hmem
    exact absurd (mem_takeWhile_imp hmem) (by decide)
  · exact fun b hb => mem_takeWhile_imp hb

/-- No match means that the pattern stands nowhere in the line. -/
theorem binlogPos_eq_none_iff (line : GoString) : binlogPos line = none ↔ ¬NamesPosition line := by
  constructor
  · -- the search gets to the start of the pattern unless it matches earlier
    rintro h ⟨before, file, spaces, digit, after, rfl, hfile, hquote, hspaces, hdigit⟩
    induction before with
    | nil =>
      have hmatch := binlogPosAt_pattern (digit :: after) hfile hquote hspaces
        (by rw [takeWhile_cons_of_pos hdigit]; exact cons_ne_nil _ _)
      have hcons : ascii "MASTER_LOG_FILE='" = 0x4d :: ascii "ASTER_LOG_FILE='" := by decide
      rw [hcons, cons_append] at hmatch
      rw [nil_append, hcons, cons_append, binlogPos, hmatch] at h
      exact nomatch h
    | cons b before ih =>
      rw [cons_append, binlogPos, Option.or_eq_none_iff] at h
      exact ih h.2
  · intro h
    induction line with
    | nil => rfl
    | cons b s ih =>
      rw [binlogPos, Option.or_eq_none_iff]
      constructor
      · cases hm : binlogPosAt (b :: s) with
        | none => rfl
        | some m => exact absurd (pattern_of_binlogPosAt hm) h
      · apply ih
        rintro ⟨before, file, spaces, digit, after, rfl, hrest⟩
        exact h ⟨b :: before, file, spaces, digit, after, rfl, hrest⟩

/-- The file of a match is not empty. -/
theorem file_ne_nil_of_binlogPos {line : GoString} {m : GoString × GoString}
    (h : binlogPos line = some m) : m.1 ≠ [] := by
  induction line with
  | nil => cases h
  | cons b s ih =>
    rw [binlogPos, Option.or_eq_some_iff] at h
    rcases h with h | ⟨-, h⟩
    · -- the expression asks for at least one byte of the name
      unfold binlogPosAt at h
      simp only [Option.bind_eq_bind, Option.bind_eq_some_iff, guard] at h
      obtain ⟨s₁, -, u, hfile, s₂, -, s₃, -, v, -, hm⟩ := h
      obtain rfl := Option.some.inj hm
      intro hnil
      have hnil : s₁.takeWhile (· != 0x27) = [] := hnil
      simp [hnil] at hfile
    · exact ih h

/-! ### Dumps -/

/-- A comment, or an empty line. -/
structure Comment where
  text : GoString
  starts : text = [] ∨ ∃ b s, text = b :: s ∧ (b = 0x2d ∨ b = 0x23 ∨ b = 0x2f)

/-- The position that a comment names, if the pattern of `binlogPosRegex` stands in it. The scanner
    has dropped a carriage return at its end. -/
def Comment.position (c : Comment) : Option BinlogPosition :=
  (binlogPos (dropCR c.text)).map fun m => ⟨m.1, parseUint32 m.2⟩

/-- `CHANGE MASTER TO MASTER_LOG_FILE='file', MASTER_LOG_POS=position;`, which may be commented
    out. The name of the file is not empty and has no quote. -/
structure ChangeMaster where
  commented : Bool
  file : GoString
  position : Nat
  file_ne_nil : file ≠ []
  file_plain : 0x27 ∉ file
  position_lt : position < 2 ^ 32

/-- The line as mysqldump writes it. -/
def ChangeMaster.text (c : ChangeMaster) : GoString :=
  (if c.commented then ascii "-- " else []) ++ (ascii "CHANGE MASTER TO " ++
    (ascii "MASTER_LOG_FILE='" ++ (c.file ++ (ascii "'," ++ (ascii " " ++
      (ascii "MASTER_LOG_POS=" ++ (itoa c.position ++ ascii ";")))))))

/-- An INSERT statement; a backtick in the name of the table is doubled. -/
structure Insert where
  table : GoString
  tuples : List DumpTuple
  table_ne_nil : table ≠ []
  tuples_ne_nil : tuples ≠ []

/-- A backtick in a name is doubled. -/
def quoteBacktick (b : UInt8) : GoString := if b = 0x60 then [0x60, 0x60] else [b]

/-- The statement on one line. -/
def Insert.text (i : Insert) : GoString :=
  ascii "INSERT INTO `" ++ (i.table.flatMap quoteBacktick ++
    (ascii "` VALUES " ++ dumpText i.tuples))

/-- The lines that matter to the parser. -/
inductive DumpLine where
  | comment (c : Comment)
  | changeMaster (c : ChangeMaster)
  | insert (i : Insert)

namespace DumpLine

/-- The line without its newline. -/
def text : DumpLine → GoString
  | comment c => c.text
  | changeMaster c => c.text
  | insert i => i.text

/-- The position that the line is meant to give. -/
def position : DumpLine → Option BinlogPosition
  | changeMaster c => some ⟨c.file, c.position⟩
  | _ => none

/-- The events for the rows of the line. -/
def events (schema : GoString) : DumpLine → List Event
  | insert i => i.tuples.map fun t =>
      newEvent .insert schema i.table (tupleToJSON (t.values.map DumpValue.kept))
        (ascii "INSERT") []
  | _ => []

/-- The position that the line names to the parser, unless it is an INSERT statement. -/
def named : DumpLine → Option BinlogPosition
  | comment c => c.position
  | l => l.position

/-- The line is no INSERT statement that names a position or a table with a backtick. -/
def Harmless : DumpLine → Prop
  | insert i => ¬NamesPosition i.text ∧ 0x60 ∉ i.table
  | _ => True

end DumpLine

/-- A dump: lines that fit into the scanner's buffer, with at most one CHANGE MASTER line. The
    newline after the last line may be missing. -/
structure Dump where
  lines : List DumpLine
  unterminated : Option DumpLine
  single : ((lines ++ unterminated.toList).filterMap DumpLine.position).length ≤ 1
  fits : ∀ l ∈ lines ++ unterminated.toList, 0x0a ∉ l.text ∧ l.text.length < maxDumpLine

namespace Dump

/-- All lines, with or without a newline after the last. -/
def allLines (d : Dump) : List DumpLine := d.lines ++ d.unterminated.toList

/-- The file. -/
def data (d : Dump) : GoString :=
  d.lines.flatMap (fun l => l.text ++ [0x0a]) ++ d.unterminated.toList.flatMap DumpLine.text

/-- A comment that names a position and after which no line does names the position of the CHANGE
    MASTER line. -/
def CommentsAgree (d : Dump) : Prop :=
  ∀ before c after p, d.allLines = before ++ .comment c :: after → c.position = some p →
    (∀ l ∈ after, l.named = none) → some p ∈ d.allLines.map DumpLine.position

/-- The parser returns the position of the CHANGE MASTER line, or none if there is none, has
    handed over the rows of every INSERT line in file order, and reports no error. -/
def ReadsAll (d : Dump) (schema : GoString) : Prop :=
  parseMysqlDumpFile d.data schema =
    ((d.allLines.findSome? DumpLine.position).getD BinlogPosition.none,
      d.allLines.flatMap (DumpLine.events schema), false)

end Dump

/-! ### Lines -/

theorem foldl_itoa (n : Nat) :
    (itoa n).foldl (fun n d => n * 10 + (d.toNat - 0x30)) 0 = n := by
  have hdigit : ∀ d < 10, d.digitChar.toUInt8.toNat - 0x30 = d := by decide
  rw [itoa, foldl_map]
  have h := Nat.foldl_toDigits (b := 10) (by decide)
    (f := fun c => c.toUInt8.toNat - 0x30) hdigit n
  simpa only [Nat.mul_comm] using h

/-- And so with 32 bits. -/
theorem parseUint32_itoa {n : Nat} (h : n < 2 ^ 32) : parseUint32 (itoa n) = n := by
  rw [parseUint32, foldl_itoa]
  omega

/-- A number has digits only. -/
theorem isRegexpDigit_of_mem_itoa {n : Nat} : ∀ b ∈ itoa n, isRegexpDigit b = true := by
  have hall : ∀ b ∈ ascii "0123456789", isRegexpDigit b = true := forall_mem_of_all (by decide)
  exact fun b hb => hall b (mem_itoa hb)

/-- At least one of them. -/
theorem itoa_ne_nil (n : Nat) : itoa n ≠ [] := by
  intro h
  have hdigits : Nat.toDigits 10 n = [] := map_eq_nil_iff.mp h
  exact absurd hdigits Nat.toDigits_ne_nil

theorem takeWhile_itoa (n : Nat) : (itoa n ++ ascii ";").takeWhile isRegexpDigit = itoa n := by
  rw [takeWhile_append_of_pos isRegexpDigit_of_mem_itoa]
  exact append_nil _

/-- A match starts with the letter M. -/
theorem binlogPos_skip {lead : GoString} (h : ∀ b ∈ lead, b ≠ 0x4d) (s : GoString) :
    binlogPos (lead ++ s) = binlogPos s := by
  induction lead with
  | nil => rfl
  | cons b lead ih =>
    have hb := h b mem_cons_self
    have hcons : ascii "MASTER_LOG_FILE='" = 0x4d :: ascii "ASTER_LOG_FILE='" := by decide
    have hnone : binlogPosAt (b :: (lead ++ s)) = none := by
      have hne : ((0x4d : UInt8) == b) = false := beq_false_of_ne (Ne.symm hb)
      simp only [binlogPosAt, hcons, List.isPrefixOf?, hne, Bool.false_eq_true, if_false,
        Option.bind_eq_bind, Option.bind_none]
    rw [cons_append, binlogPos, hnone, Option.none_or]
    exact ih fun b' hb' => h b' (mem_cons_of_mem b hb')

/-- `MASTER TO` is not the start of a match. -/
theorem binlogPos_masterTo (s : GoString) :
    binlogPos (ascii "MASTER TO " ++ s) = binlogPos s := by
  have hcons : ascii "MASTER TO " = 0x4d :: ascii "ASTER TO " := by decide
  have hnone : binlogPosAt (0x4d :: (ascii "ASTER TO " ++ s)) = none := rfl
  rw [hcons, cons_append, binlogPos, hnone, Option.none_or]
  exact binlogPos_skip (forall_mem_of_all (by decide)) s

theorem binlogPos_of_at {s : GoString} {m : GoString × GoString} (h : binlogPosAt s = some m) :
    binlogPos s = some m := by
  cases s with
  | nil => exact nomatch h
  | cons b s => rw [binlogPos, h, Option.some_or]

/-- The leftmost match in a CHANGE MASTER line is the one that is meant. -/
theorem binlogPos_changeMaster (c : ChangeMaster) :
    binlogPos c.text = some (c.file, itoa c.position) := by
  have hspaces : ∀ b ∈ ascii " ", isRegexpSpace b = true := forall_mem_of_all (by decide)
  have hmatch := binlogPosAt_pattern (itoa c.position ++ ascii ";") c.file_ne_nil c.file_plain
    hspaces (by rw [takeWhile_itoa]; exact itoa_ne_nil _)
  rw [takeWhile_itoa] at hmatch
  have hsplit : ascii "CHANGE MASTER TO " = ascii "CHANGE " ++ ascii "MASTER TO " := by decide
  have hlead : ∀ b ∈ (if c.commented then ascii "-- " else []), b ≠ 0x4d := by
    split
    · exact forall_mem_of_all (by decide)
    · exact fun b hb => nomatch hb
  rw [ChangeMaster.text, binlogPos_skip hlead, hsplit, append_assoc,
    binlogPos_skip (forall_mem_of_all (by decide)), binlogPos_masterTo]
  exact binlogPos_of_at hmatch

/-! ### INSERT lines -/

theorem flatMap_quoteBacktick {table : GoString} (h : 0x60 ∉ table) :
    table.flatMap quoteBacktick = table := by
  induction table with
  | nil => rfl
  | cons b table ih =>
    obtain ⟨hb, htable⟩ : (0x60 : UInt8) ≠ b ∧ 0x60 ∉ table := by simpa using h
    rw [flatMap_cons, quoteBacktick, if_neg (Ne.symm hb), ih htable, singleton_append]

theorem insertValues_text {i : Insert} (h : 0x60 ∉ i.table) :
    insertValues i.text = some (i.table, dumpText i.tuples) := by
  have hopen : ascii "` VALUES " = 0x60 :: ascii " VALUES " := by decide
  have hplain : ∀ b ∈ i.table, (b != 0x60) = true := by
    intro b hb
    exact bne_iff_ne.mpr fun heq => h (heq ▸ hb)
  have hspan := span_append hplain (b := 0x60) rfl (ascii " VALUES " ++ dumpText i.tuples)
  rw [← cons_append, ← hopen] at hspan
  unfold insertValues Insert.text
  rw [flatMap_quoteBacktick h]
  simp only [isPrefixOf?_eq_some_iff_append_eq.mpr rfl, Option.bind_eq_bind, Option.bind_some,
    hspan.1, hspan.2, guard, i.table_ne_nil, ne_eq, not_false_eq_true, if_true, Option.pure_def]

/-- The name ends at its first backtick, and what follows it is another one. -/
theorem insertValues_backtick {i : Insert} (h : 0x60 ∈ i.table) : insertValues i.text = none := by
  obtain ⟨front, back, htable, hfront⟩ : ∃ front back, i.table = front ++ 0x60 :: back ∧
      0x60 ∉ front := eq_append_cons_of_mem h
  have hplain : ∀ b ∈ front, (b != 0x60) = true := by
    intro b hb
    exact bne_iff_ne.mpr fun heq => hfront (heq ▸ hb)
  have hquoted : i.table.flatMap quoteBacktick =
      front ++ 0x60 :: (0x60 :: back.flatMap quoteBacktick) := by
    rw [htable, flatMap_append, flatMap_quoteBacktick hfront, flatMap_cons]
    rfl
  have hspan := span_append hplain (b := 0x60) rfl
    (0x60 :: back.flatMap quoteBacktick ++ (ascii "` VALUES " ++ dumpText i.tuples))
  unfold insertValues Insert.text
  rw [hquoted, append_assoc, cons_append]
  simp only [isPrefixOf?_eq_some_iff_append_eq.mpr rfl, Option.bind_eq_bind, Option.bind_some,
    hspan.1, hspan.2]
  have hclose : (ascii "` VALUES ").isPrefixOf? (0x60 ::
      (0x60 :: back.flatMap quoteBacktick ++ (ascii "` VALUES " ++ dumpText i.tuples))) = none :=
    rfl
  rw [hclose]
  cases (guard (front ≠ []) : Option Unit) with
  | none => rfl
  | some u => rfl

/-! ### Whole lines -/

theorem dropCR_of_getLast? {line : GoString} {b : UInt8} (h : line.getLast? = some b)
    (hb : b ≠ 0x0d) : dropCR line = line := by
  rw [dropCR, h, if_neg fun heq => hb (Option.some.inj heq)]

/-- A statement ends in a semicolon. -/
theorem getLast?_statementText (ts : List (List GoString)) :
    (statementText ts).getLast? = some 0x3b := by
  cases ts with
  | nil => rfl
  | cons t ts => exact getLast?_concat

/-- So an INSERT line is left alone. -/
theorem dropCR_insert (i : Insert) : dropCR i.text = i.text := by
  refine dropCR_of_getLast? (b := 0x3b) ?_ (by decide)
  rw [Insert.text, getLast?_append, getLast?_append, getLast?_append, dumpText,
    getLast?_statementText]
  rfl

/-- And so is a CHANGE MASTER line. -/
theorem dropCR_changeMaster (c : ChangeMaster) : dropCR c.text = c.text := by
  refine dropCR_of_getLast? (b := 0x3b) ?_ (by decide)
  have hlast : (itoa c.position ++ ascii ";").getLast? = some 0x3b := getLast?_concat
  simp only [ChangeMaster.text, getLast?_append, hlast, Option.some_or]

/-- A comment gives no rows, also if it ends in a carriage return. -/
theorem insertValues_comment (c : Comment) : insertValues (dropCR c.text) = none := by
  -- what the scanner leaves of the line still starts it
  obtain ⟨rest, hrest⟩ : ∃ rest, c.text = dropCR c.text ++ rest := by
    unfold dropCR
    split
    · rename_i hlast
      exact ⟨[0x0d], (dropLast_append_getLast? _ hlast).symm⟩
    · exact ⟨[], (append_nil _).symm⟩
  cases htext : dropCR c.text with
  | nil => rfl
  | cons b s =>
    rw [htext] at hrest
    rcases c.starts with hnil | ⟨b', s', hcons, hb⟩
    · rw [hnil] at hrest
      cases hrest
    · rw [hcons, cons_append, List.cons.injEq] at hrest
      rw [← hrest.1]
      rcases hb with rfl | rfl | rfl <;> rfl

/-- A comment gives the position it names. -/
theorem parseDumpLine_comment (schema : GoString) (c : Comment) :
    parseDumpLine schema (dropCR c.text) = (c.position, []) := by
  rw [parseDumpLine, Comment.position]
  cases binlogPos (dropCR c.text) with
  | some m => rfl
  | none => simp only [insertValues_comment, Option.map_none]

theorem parseDumpLine_changeMaster (schema : GoString) (c : ChangeMaster) :
    parseDumpLine schema (dropCR c.text) = (some ⟨c.file, c.position⟩, []) := by
  rw [dropCR_changeMaster, parseDumpLine, binlogPos_changeMaster]
  show (some (⟨c.file, parseUint32 (itoa c.position)⟩ : BinlogPosition), _) = _
  rw [parseUint32_itoa c.position_lt]

theorem parseDumpLine_insert (schema : GoString) {i : Insert}
    (h : DumpLine.Harmless (.insert i)) :
    parseDumpLine schema (dropCR i.text) = (none, DumpLine.events schema (.insert i)) := by
  rw [dropCR_insert, parseDumpLine, (binlogPos_eq_none_iff _).mpr h.1, insertValues_text h.2]
  show (none, (parseValuesList (dumpText i.tuples)).map _) = _
  rw [parse_dumpText, map_map]
  rfl

/-- All rows of a harmful line are lost. -/
theorem parseDumpLine_harmful (schema : GoString) {i : Insert}
    (h : ¬DumpLine.Harmless (.insert i)) : (parseDumpLine schema (dropCR i.text)).2 = [] := by
  rw [dropCR_insert, parseDumpLine]
  cases hpos : binlogPos i.text with
  | some m => rfl
  | none =>
    have hbacktick : 0x60 ∈ i.table := by
      by_contra hno
      exact h ⟨(binlogPos_eq_none_iff _).mp hpos, hno⟩
    simp only [insertValues_backtick hbacktick]

namespace DumpLine

/-- Every CHANGE MASTER line names its position. -/
theorem position_eq_none {l : DumpLine} (h : l.named = none) : l.position = none := by
  cases l with
  | comment c => rfl
  | changeMaster c => exact h
  | insert i => rfl

/-- A named position is not the empty one: it has a file. -/
theorem named_ne_none {l : DumpLine} {p : BinlogPosition} (h : l.named = some p) :
    p ≠ BinlogPosition.none := by
  rintro rfl
  cases l with
  | comment c =>
    obtain ⟨m, hm, hp⟩ := Option.map_eq_some_iff.mp h
    exact file_ne_nil_of_binlogPos hm (congrArg BinlogPosition.file hp)
  | changeMaster c =>
    exact c.file_ne_nil (congrArg BinlogPosition.file (Option.some.inj h))
  | insert i => cases h

/-- What the parser takes from a harmless line. -/
theorem parse_of_harmless (schema : GoString) {l : DumpLine} (h : l.Harmless) :
    parseDumpLine schema (dropCR l.text) = (l.named, l.events schema) := by
  cases l with
  | comment c => exact parseDumpLine_comment schema c
  | changeMaster c => exact parseDumpLine_changeMaster schema c
  | insert i => exact parseDumpLine_insert schema h

/-- A line never gives more events than it has rows, and as many only if it is harmless. -/
theorem length_parse (schema : GoString) (l : DumpLine) :
    (parseDumpLine schema (dropCR l.text)).2.length ≤ (l.events schema).length ∧
      ((parseDumpLine schema (dropCR l.text)).2.length = (l.events schema).length →
        l.Harmless) := by
  by_cases h : l.Harmless
  · rw [parse_of_harmless schema h]
    exact ⟨Nat.le_refl _, fun _ => h⟩
  · cases l with
    | comment c => exact absurd trivial h
    | changeMaster c => exact absurd trivial h
    | insert i =>
      show (parseDumpLine schema (dropCR i.text)).2.length ≤ _ ∧ _
      refine ⟨by rw [parseDumpLine_harmful schema h]; exact Nat.zero_le _, fun heq => ?_⟩
      have heq : (parseDumpLine schema (dropCR i.text)).2.length =
          (events schema (.insert i)).length := heq
      rw [parseDumpLine_harmful schema h, events, length_map] at heq
      exact absurd (eq_nil_of_length_eq_zero heq.symm) i.tuples_ne_nil

/-- An empty line gives nothing. -/
theorem parse_nil (schema : GoString) : parseDumpLine schema (dropCR []) = (none, []) := rfl

end DumpLine

/-! ### Whole dumps -/

namespace Dump

variable (d : Dump) (schema : GoString)

/-- What the lines give, one after the other. -/
def parsed : List (Option BinlogPosition × List Event) :=
  d.allLines.map fun l => parseDumpLine schema (dropCR l.text)

/-- The last position that a line gives, and the events of all lines in order. -/
theorem parse_data : parseMysqlDumpFile d.data schema =
    ((((d.parsed schema).filterMap Prod.fst).getLast?).getD BinlogPosition.none,
      (d.parsed schema).flatMap Prod.snd, false) := by
  have hlines : ∀ l ∈ d.lines.map DumpLine.text, 0x0a ∉ l ∧ l.length < maxDumpLine := by
    intro text htext
    obtain ⟨l, hl, rfl⟩ := mem_map.mp htext
    exact d.fits l (mem_append_left _ hl)
  have hflat : d.lines.flatMap (fun l => l.text ++ [0x0a]) =
      (d.lines.map DumpLine.text).flatMap fun line => line ++ [0x0a] := by rw [flatMap_map]
  unfold parseMysqlDumpFile parsed allLines
  cases hlast : d.unterminated with
  | none =>
    have hdata : d.data = (d.lines.map DumpLine.text).flatMap fun line => line ++ [0x0a] := by
      rw [data, hlast, hflat]
      exact append_nil _
    simp only [hdata, scanLines_flatMap hlines, map_map, Option.toList_none, append_nil]
    rfl
  | some last =>
    have hfits := d.fits last (by simp [hlast])
    have hdata : d.data = (d.lines.map DumpLine.text).flatMap (fun line => line ++ [0x0a]) ++
        last.text := by
      rw [data, hlast, hflat]
      simp
    have hraw := rawLines_flatMap_append (fun l hl => (hlines l hl).1) hfits.1
    have hscan := scanLines_of_rawLines maxDumpLine hraw (by
      intro line hline
      rcases mem_append.mp hline with hline | hline
      · exact (hlines line hline).2
      · split at hline
        · exact nomatch hline
        · rw [mem_singleton.mp hline]
          exact hfits.2)
    rw [← hdata] at hscan
    simp only [hscan, Option.toList_some]
    -- an empty last line is not there, and would give nothing
    by_cases hnil : last.text = []
    · simp only [hnil, if_true, append_nil, map_append, map_map, map_cons,
        map_nil, DumpLine.parse_nil, filterMap_append, flatMap_append]
      simp [Function.comp_def]
    · simp only [if_neg hnil, map_append, map_map, map_cons, map_nil]
      rfl

/-- The rows are handed over as they should be exactly if every line is harmless. -/
theorem events_iff : (d.parsed schema).flatMap Prod.snd =
    d.allLines.flatMap (DumpLine.events schema) ↔ ∀ l ∈ d.allLines, l.Harmless := by
  rw [parsed, flatMap_map]
  constructor
  · -- a harmful line would give fewer events
    intro h l hl
    exact (DumpLine.length_parse schema l).2
      (length_eq_of_flatMap_eq (fun l' _ => (DumpLine.length_parse schema l').1) h l hl)
  · intro h
    apply flatMap_congr
    intro l hl
    rw [DumpLine.parse_of_harmless schema (h l hl)]

/-- There is at most one CHANGE MASTER line. -/
theorem position_unique {l l' : DumpLine} {p q : BinlogPosition} (hl : l ∈ d.allLines)
    (hl' : l' ∈ d.allLines) (hp : l.position = some p) (hq : l'.position = some q) : p = q := by
  have hsingle : (d.allLines.filterMap DumpLine.position).length ≤ 1 := d.single
  have hpmem := mem_filterMap.mpr ⟨l, hl, hp⟩
  have hqmem := mem_filterMap.mpr ⟨l', hl', hq⟩
  cases hpos : d.allLines.filterMap DumpLine.position with
  | nil =>
    rw [hpos] at hpmem
    cases hpmem
  | cons r rs =>
    rw [hpos, length_cons] at hsingle
    obtain rfl : rs = [] := eq_nil_of_length_eq_zero (by omega)
    rw [hpos, mem_singleton] at hpmem hqmem
    rw [hpmem, hqmem]

/-- The position that is expected: that of the CHANGE MASTER line, or none. -/
theorem expected_eq_iff (p : BinlogPosition) (hp : p ≠ BinlogPosition.none) :
    (d.allLines.findSome? DumpLine.position).getD BinlogPosition.none = p ↔
      some p ∈ d.allLines.map DumpLine.position := by
  rw [mem_map]
  cases hfind : d.allLines.findSome? DumpLine.position with
  | none =>
    rw [findSome?_eq_none_iff] at hfind
    constructor
    · intro h
      exact absurd h.symm hp
    · rintro ⟨l, hl, hpos⟩
      rw [hfind l hl] at hpos
      cases hpos
  | some q =>
    obtain ⟨l, hl, hq⟩ := exists_of_findSome?_eq_some hfind
    constructor
    · rintro rfl
      exact ⟨l, hl, hq⟩
    · rintro ⟨l', hl', hp'⟩
      exact d.position_unique hl hl' hq hp'

/-- The last position that a line names is the one expected exactly if no comment interferes. -/
theorem position_iff :
    ((d.allLines.filterMap DumpLine.named).getLast?).getD BinlogPosition.none =
      (d.allLines.findSome? DumpLine.position).getD BinlogPosition.none ↔ d.CommentsAgree := by
  cases hlast : (d.allLines.filterMap DumpLine.named).getLast? with
  | none =>
    -- no line names a position, so there is no CHANGE MASTER line either
    have hnone : ∀ l ∈ d.allLines, l.named = none :=
      filterMap_eq_nil_iff.mp (getLast?_eq_none_iff.mp hlast)
    have hexpected : d.allLines.findSome? DumpLine.position = none :=
      findSome?_eq_none_iff.mpr fun l hl => DumpLine.position_eq_none (hnone l hl)
    rw [hexpected]
    refine iff_of_true rfl ?_
    intro before c after p hlines hp _
    have hc := hnone (.comment c) (by rw [hlines]; exact mem_append_right _ mem_cons_self)
    rw [DumpLine.named, hp] at hc
    cases hc
  | some p =>
    obtain ⟨before, l, after, hlines, hl, hafter⟩ := getLast?_filterMap_eq_some_iff.mp hlast
    have hmem : l ∈ d.allLines := by
      rw [hlines]
      exact mem_append_right _ mem_cons_self
    rw [Option.getD_some, eq_comm, d.expected_eq_iff p (DumpLine.named_ne_none hl)]
    constructor
    · -- a comment with the last word names `p`
      intro hp before' c after' q hlines' hq hafter'
      have hlast' : (d.allLines.filterMap DumpLine.named).getLast? = some q :=
        getLast?_filterMap_eq_some_iff.mpr ⟨before', .comment c, after', hlines', hq, hafter'⟩
      rw [hlast] at hlast'
      rwa [← Option.some.inj hlast']
    · intro hagree
      cases l with
      | comment c => exact hagree before c after p hlines hl hafter
      | changeMaster m => exact mem_map.mpr ⟨_, hmem, hl⟩
      | insert i => cases hl

/-- A dump is read as it should be exactly if no INSERT line names a position, no table has a
    backtick in its name, and a comment that names a position is followed by another line that
    does, or names the position of the CHANGE MASTER line. -/
theorem readsAll_iff :
    d.ReadsAll schema ↔ (∀ l ∈ d.allLines, l.Harmless) ∧ d.CommentsAgree := by
  rw [ReadsAll, d.parse_data schema, Prod.mk.injEq, Prod.mk.injEq, d.events_iff schema, and_comm,
    and_assoc]
  refine and_congr_right fun hharmless => ?_
  have hparsed : (d.parsed schema).filterMap Prod.fst = d.allLines.filterMap DumpLine.named := by
    rw [parsed, filterMap_map]
    apply filterMap_congr
    intro l hl
    rw [Function.comp_apply, DumpLine.parse_of_harmless schema (hharmless l hl)]
  rw [hparsed, d.position_iff]
  exact ⟨fun h => h.2, fun h => ⟨rfl, h⟩⟩

end Dump

/-- A string in which nothing is escaped. -/
def plainString (s : String) (h : ∀ b ∈ ascii s, b ≠ 0x27 ∧ b ≠ 0x5c) : DumpValue :=
  .string ((ascii s).attach.map fun b => .plain b.1 (h b.1 b.2).1 (h b.1 b.2).2)

/-- The values `MASTER_LOG_FILE=` and `,MASTER_LOG_POS=4` of two text columns. -/
def craftedRow : DumpTuple where
  values := [plainString "MASTER_LOG_FILE=" (forall_mem_of_all (by decide)),
    plainString ",MASTER_LOG_POS=4" (forall_mem_of_all (by decide))]
  ne_nil := cons_ne_nil _ _

def craftedInsert : Insert where
  table := ascii "t"
  tuples := [craftedRow]
  table_ne_nil := by decide
  tuples_ne_nil := cons_ne_nil _ _

def craftedDump : Dump where
  lines := [.insert craftedInsert]
  unterminated := none
  single := Nat.zero_le 1
  fits := by
    intro l hl
    obtain rfl := mem_singleton.mp hl
    decide

/-- The row is lost, and the position of the dump becomes 4 in a file named by a comma. -/
theorem craftedDump_lost :
    craftedDump.data =
      ascii "INSERT INTO `t` VALUES ('MASTER_LOG_FILE=',',MASTER_LOG_POS=4');\n" ∧
    parseMysqlDumpFile craftedDump.data (ascii "shop") = (⟨ascii ",", 4⟩, [], false) ∧
    ¬craftedDump.ReadsAll (ascii "shop") := by
  have hparse : parseMysqlDumpFile craftedDump.data (ascii "shop") =
      (⟨ascii ",", 4⟩, [], false) := by decide
  refine ⟨by decide, hparse, ?_⟩
  intro h
  rw [Dump.ReadsAll, hparse] at h
  exact absurd (congrArg (fun r => r.2.1.length) h) (by decide)

end Mysql
