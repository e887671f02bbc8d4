import Watcher.ForStd.List
import Watcher.Model.MysqlDump

/-!
# What survives a MySQL dump

The rows of an INSERT statement are literals. A literal has a value, and a text
as mysqldump writes it: NULL and numbers bare, strings in single quotes with
some characters escaped, where a single quote may also be doubled.

`parseValuesList` keeps of each literal less or more than its value
(`Literal.kept`): of a bare literal nothing, of an escaped character both bytes
and of a doubled quote none. Hence exactly the strings without any such
character survive, and of these not the string `NULL` (`survives_iff`).
-/

namespace Mysql

open Cdc Jsonutil List

/-! ## Literals -/

/-- Sign, digits, fraction and exponent. -/
def IsNumeric (v : GoString) : Prop :=
  ∃ sign int frac exp, v = sign ++ int ++ frac ++ exp ∧ (sign = [] ∨ sign = ascii "-") ∧
    Json.IsDigits int ∧ Json.IsFracPart frac ∧
    (exp = [] ∨ ∃ esign ds, exp = ascii "e" ++ esign ++ ds ∧
      (esign = [] ∨ esign = ascii "+" ∨ esign = ascii "-") ∧ Json.IsDigits ds)

/-- A number as it is written. -/
structure NumericLiteral where
  text : GoString
  isNumeric : IsNumeric text

/-- The value of a literal. -/
inductive SqlValue where
  | null
  | number (n : NumericLiteral)
  | string (s : List Char)

/-- The characters that mysqldump escapes, and the letter that then follows the backslash. -/
def escapes : List (Char × Char) :=
  [('\\', '\\'), ('\'', '\''), ('"', '"'), ('\n', 'n'), ('\r', 'r'), ('\x00', '0'), ('\x1a', 'Z')]

/-- The letter after the backslash, for a character that is escaped. -/
def escapeLetter (c : Char) : Option Char := escapes.lookup c

/-- A character as it stands between quotes. -/
def escapedChar (c : Char) : List Char :=
  match escapeLetter c with
  | some l => ['\\', l]
  | none => [c]

/-- A character inside quotes: escaped if it needs to be, or a quote that is doubled. -/
inductive Piece where
  | char (c : Char)
  | doubledQuote

namespace Piece

/-- The character it stands for. -/
def meaning : Piece → Char
  | char c => c
  | doubledQuote => '\''

def written : Piece → List Char
  | char c => escapedChar c
  | doubledQuote => ['\'', '\'']

/-- What `parseValuesList` keeps of it. -/
def kept : Piece → List Char
  | char c => escapedChar c
  | doubledQuote => []

end Piece

/-- A literal as mysqldump writes it. -/
inductive Literal where
  | null
  | number (n : NumericLiteral)
  | quoted (pieces : List Piece)

namespace Literal

def value : Literal → SqlValue
  | null => .null
  | number n => .number n
  | quoted pieces => .string (pieces.map Piece.meaning)

def text : Literal → GoString
  | null => ascii "NULL"
  | number n => n.text
  | quoted pieces => ascii "'" ++ pieces.flatMap (fun p => Utf8.encode p.written) ++ ascii "'"

/-- What `parseValuesList` keeps of it. -/
def kept : Literal → GoString
  | null => []
  | number _ => []
  | quoted pieces => pieces.flatMap fun p => Utf8.encode p.kept

end Literal

/-- A table has at least one column. -/
structure Row where
  first : Literal
  rest : List Literal

namespace Row

def literals (r : Row) : List Literal := r.first :: r.rest

/-- `(literal,literal)` -/
def text (r : Row) : GoString :=
  ascii "(" ++ r.first.text ++ r.rest.flatMap (fun l => ascii "," ++ l.text) ++ ascii ")"

end Row

/-- What follows `VALUES` in the statement: `(...),(...);` -/
def insertText : List Row → GoString
  | [] => ascii ";"
  | r :: rs => r.text ++ rs.flatMap (fun r => ascii "," ++ r.text) ++ ascii ";"

/-! ## Parsing -/

/-- A byte that means nothing outside a string. -/
abbrev IsBare (b : UInt8) : Prop := b ≠ 0x27 ∧ b ≠ 0x28 ∧ b ≠ 0x2c ∧ b ≠ 0x29

namespace ValuesParser

/-- The parser is outside a string. -/
def Outside (p : ValuesParser) : Prop := p.inString = false ∧ p.escaped = false

theorem run_bare {p : ValuesParser} (hp : p.Outside) {bs : GoString}
    (hbs : ∀ b ∈ bs, IsBare b) : bs.foldl step p = p := by
  induction bs with
  | nil => rfl
  | cons b bs ih =>
    obtain ⟨hq, ho, hc, hcl⟩ := hbs b mem_cons_self
    have hstep : p.step b = p := by
      simp only [step, hp.1, hp.2, Bool.false_eq_true, ↓reduceIte, Bool.and_false, hq, ho, hc, hcl]
    rw [foldl_cons, hstep]
    exact ih fun b' hb' => hbs b' (mem_cons_of_mem b hb')

/-- Bytes that mean nothing but themselves inside a string. -/
theorem run_plain {p : ValuesParser} (hin : p.inString = true) (hesc : p.escaped = false)
    {bs : GoString} (hbs : ∀ b ∈ bs, b ≠ 0x27 ∧ b ≠ 0x5c) :
    bs.foldl step p = { p with value := p.value ++ bs } := by
  induction bs generalizing p with
  | nil => rw [foldl_nil, append_nil]
  | cons b bs ih =>
    obtain ⟨hq, hb⟩ := hbs b mem_cons_self
    have hstep : p.step b = { p with value := p.value ++ [b] } := by
      simp only [step, hin, hesc, Bool.false_eq_true, ↓reduceIte, decide_false, Bool.false_and, hq,
        hb]
    rw [foldl_cons, hstep,
      ih (p := { p with value := p.value ++ [b] }) hin hesc
        fun b' hb' => hbs b' (mem_cons_of_mem b hb')]
    simp only [append_assoc, singleton_append]

/-- A backslash and the byte after it. -/
theorem run_escape {p : ValuesParser} (hin : p.inString = true) (hesc : p.escaped = false)
    (b : UInt8) : [0x5c, b].foldl step p = { p with value := p.value ++ [0x5c, b] } := by
  have hback : p.step 0x5c = { p with value := p.value ++ [0x5c], escaped := true } := by
    simp only [step, hin, hesc, Bool.false_eq_true, ↓reduceIte, decide_true, Bool.and_self]
  rw [foldl_cons, hback, foldl_cons, foldl_nil]
  simp only [step, ↓reduceIte, append_assoc, singleton_append, hesc]

end ValuesParser

theorem escapeLetter_mem {c l : Char} (h : escapeLetter c = some l) : (c, l) ∈ escapes := by
  obtain ⟨before, after, heq, -⟩ := lookup_eq_some_iff.mp h
  rw [heq]
  exact mem_append_right _ mem_cons_self

/-- They are ASCII. -/
theorem escapeLetter_ascii {c l : Char} (h : escapeLetter c = some l) : l.toNat < 0x80 := by
  have hall : ∀ e ∈ escapes, e.2.toNat < 0x80 := by decide
  exact hall (c, l) (escapeLetter_mem h)

/-- What is not escaped is neither a quote nor a backslash. -/
theorem escapeLetter_none {c : Char} (h : escapeLetter c = none) : c ≠ '\'' ∧ c ≠ '\\' := by
  constructor <;> rintro rfl <;> exact absurd h (by decide)

namespace ValuesParser

/-- A character is kept as it is written, with its backslash. -/
theorem run_char {p : ValuesParser} (hin : p.inString = true) (hesc : p.escaped = false)
    (c : Char) :
    (Utf8.encode (escapedChar c)).foldl step p =
      { p with value := p.value ++ Utf8.encode (escapedChar c) } := by
  unfold escapedChar
  cases hl : escapeLetter c with
  | some l =>
    -- the backslash and the letter are one byte each
    have htext : Utf8.encode ['\\', l] = [0x5c, UInt8.ofNat l.toNat] := by
      simp only [Utf8.encode, flatMap_cons, flatMap_nil, append_nil,
        Utf8.encodeRune, if_pos (escapeLetter_ascii hl)]
      rfl
    simp only [htext]
    exact run_escape hin hesc _
  | none =>
    obtain ⟨hquote, hback⟩ := escapeLetter_none hl
    apply run_plain hin hesc
    intro b hb
    have hb : b ∈ Utf8.encodeRune c.toNat := by simpa [Utf8.encode] using hb
    constructor
    · rintro rfl
      exact Utf8.notMem_encodeRune (by decide) (fun h => hquote (Char.toNat_inj.mp h)) hb
    · rintro rfl
      exact Utf8.notMem_encodeRune (by decide) (fun h => hback (Char.toNat_inj.mp h)) hb

/-- A piece of a string. -/
theorem run_piece {p : ValuesParser} (hin : p.inString = true) (hesc : p.escaped = false)
    (piece : Piece) :
    (Utf8.encode piece.written).foldl step p =
      { p with value := p.value ++ Utf8.encode piece.kept } := by
  cases piece with
  | char c => exact run_char hin hesc c
  | doubledQuote =>
    -- the first quote ends the string and the second one starts it again
    show step (step p 0x27) 0x27 = { p with value := p.value ++ [] }
    simp only [step, hin, hesc, Bool.false_eq_true, ↓reduceIte, Bool.not_true, Bool.not_false,
      Bool.and_false, append_nil, show ((0x27 : UInt8) = 0x5c) = False by decide, decide_false,
      Bool.false_and]

/-- And all of them. -/
theorem run_pieces {p : ValuesParser} (hin : p.inString = true) (hesc : p.escaped = false)
    (pieces : List Piece) :
    (pieces.flatMap fun q => Utf8.encode q.written).foldl step p =
      { p with value := p.value ++ pieces.flatMap fun q => Utf8.encode q.kept } := by
  induction pieces generalizing p with
  | nil => simp only [flatMap_nil, foldl_nil, append_nil]
  | cons q qs ih =>
    rw [flatMap_cons, foldl_append, run_piece hin hesc]
    rw [ih (p := { p with value := p.value ++ Utf8.encode q.kept }) hin hesc]
    simp only [flatMap_cons, append_assoc]

end ValuesParser

/-- A number has a digit. -/
theorem IsNumeric.ne_nil {v : GoString} (h : IsNumeric v) : v ≠ [] := by
  obtain ⟨sign, int, frac, exp, rfl, -, hint, -⟩ := h
  intro hnil
  simp only [append_eq_nil_iff] at hnil
  exact hint.1 hnil.1.1.2

/-- Nothing in a number means anything to the parser. -/
theorem IsNumeric.bare {v : GoString} (h : IsNumeric v) : ∀ b ∈ v, IsBare b := by
  have hdigit : ∀ b, Json.isDigit b = true → IsBare b := by
    intro b hb
    refine ⟨?_, ?_, ?_, ?_⟩ <;> rintro rfl <;> exact absurd hb (by decide)
  have hminus : ∀ b ∈ ascii "-", IsBare b := forall_mem_of_all (by decide)
  have hplus : ∀ b ∈ ascii "+", IsBare b := forall_mem_of_all (by decide)
  have he : ∀ b ∈ ascii "e", IsBare b := forall_mem_of_all (by decide)
  obtain ⟨sign, int, frac, exp, rfl, hsign, hint, hfrac, hexp⟩ := h
  intro b hb
  simp only [mem_append] at hb
  rcases hb with ((hb | hb) | hb) | hb
  · rcases hsign with rfl | rfl
    · exact absurd hb (by simp)
    · exact hminus b hb
  · exact hdigit b (hint.2 b hb)
  · rcases hfrac with rfl | ⟨fs, rfl, hfs⟩
    · exact absurd hb (by simp)
    · rcases mem_cons.mp hb with rfl | hb
      · decide
      · exact hdigit b (hfs.2 b hb)
  · rcases hexp with rfl | ⟨esign, ds, rfl, hesign, hds⟩
    · exact absurd hb (by simp)
    · simp only [mem_append] at hb
      rcases hb with (hb | hb) | hb
      · exact he b hb
      · rcases hesign with rfl | rfl | rfl
        · exact absurd hb (by simp)
        · exact hplus b hb
        · exact hminus b hb
      · exact hdigit b (hds.2 b hb)

namespace ValuesParser

/-- A literal is kept as its kind says. -/
theorem run_literal {p : ValuesParser} (hp : p.Outside) (l : Literal) :
    l.text.foldl step p = { p with value := p.value ++ l.kept } := by
  cases l with
  | null =>
    rw [Literal.text, run_bare hp (forall_mem_of_all (by decide))]
    simp only [Literal.kept, append_nil]
  | number n =>
    rw [Literal.text, run_bare hp n.isNumeric.bare]
    simp only [Literal.kept, append_nil]
  | quoted pieces =>
    have hopen : (ascii "'").foldl step p = { p with inString := true } := by
      show step p 0x27 = _
      simp only [step, hp.1, hp.2, Bool.false_eq_true, ↓reduceIte, Bool.and_false, Bool.not_false]
    rw [Literal.text, foldl_append, foldl_append, hopen,
      run_pieces (p := { p with inString := true }) rfl hp.2]
    show step _ 0x27 = _
    simp only [step, hp.1, hp.2, Bool.false_eq_true, ↓reduceIte, decide_false, Bool.false_and,
      show ((0x27 : UInt8) = 0x5c) = False by decide, Bool.not_true]
    rfl

/-- A comma ends a value, also the comma between two rows. -/
theorem run_comma {p : ValuesParser} (hp : p.Outside) :
    (ascii ",").foldl step p = { p with current := p.current ++ [p.value], value := [] } := by
  show step p 0x2c = _
  simp [step, hp.1, hp.2]

end ValuesParser

/-! ### Statements -/

/-- Outside a string the parser takes `text` for the value `kept`. -/
def ReadAs (text kept : GoString) : Prop :=
  ∀ p : ValuesParser, p.Outside →
    text.foldl ValuesParser.step p = { p with value := p.value ++ kept }

/-- `(text,text)` -/
def tupleText : List GoString → GoString
  | [] => ascii "()"
  | text :: texts => ascii "(" ++ text ++ texts.flatMap (fun t => ascii "," ++ t) ++ ascii ")"

/-- `(text,text),(text,text);` -/
def statementText : List (List GoString) → GoString
  | [] => ascii ";"
  | t :: ts => tupleText t ++ ts.flatMap (fun t => ascii "," ++ tupleText t) ++ ascii ";"

namespace ValuesParser

/-- The values after the first one, and the closing parenthesis. A cell is the text of a value and
    what is kept of it. -/
theorem run_rest {p : ValuesParser} (hp : p.Outside) {cells : List (GoString × GoString)}
    (h : ∀ c ∈ cells, ReadAs c.1 c.2) :
    ((cells.map Prod.fst).flatMap (fun t => ascii "," ++ t) ++ ascii ")").foldl step p =
      { p with
        tuples := p.tuples ++ [p.current ++ p.value :: cells.map Prod.snd]
        current := p.current ++ p.value :: cells.map Prod.snd
        value := [] } := by
  induction cells generalizing p with
  | nil =>
    show step p 0x29 = _
    simp [step, hp.1, hp.2]
  | cons c cells ih =>
    rw [map_cons, flatMap_cons, append_assoc, append_assoc, foldl_append, foldl_append,
      run_comma hp, h c mem_cons_self { p with current := p.current ++ [p.value], value := [] } hp]
    rw [ih (p := { p with current := p.current ++ [p.value], value := [] ++ c.2 }) hp
      fun c' hc' => h c' (mem_cons_of_mem c hc')]
    simp only [append_assoc, singleton_append, nil_append, map_cons]

theorem run_tuple {p : ValuesParser} (hp : p.Outside) {cells : List (GoString × GoString)}
    (hne : cells ≠ []) (h : ∀ c ∈ cells, ReadAs c.1 c.2) :
    (tupleText (cells.map Prod.fst)).foldl step p =
      { p with
        tuples := p.tuples ++ [cells.map Prod.snd]
        current := cells.map Prod.snd
        value := [] } := by
  have hopen : (ascii "(").foldl step p = { p with current := [], value := [] } := by
    show step p 0x28 = _
    simp [step, hp.1, hp.2]
  cases cells with
  | nil => exact absurd rfl hne
  | cons c cells =>
    rw [map_cons, tupleText, append_assoc, append_assoc, foldl_append, hopen,
      foldl_append, h c mem_cons_self { p with current := [], value := [] } hp]
    rw [run_rest (p := { p with current := [], value := [] ++ c.2 }) hp
      fun c' hc' => h c' (mem_cons_of_mem c hc')]
    simp only [nil_append, map_cons]

/-- More rows: the comma between two of them leaves something behind that the next opening
    parenthesis clears. -/
theorem run_tuples {p : ValuesParser} (hp : p.Outside)
    {tuples : List (List (GoString × GoString))} (hne : ∀ t ∈ tuples, t ≠ [])
    (h : ∀ t ∈ tuples, ∀ c ∈ t, ReadAs c.1 c.2) :
    (((tuples.map (List.map Prod.fst)).flatMap (fun t => ascii "," ++ tupleText t) ++
        ascii ";").foldl step p).tuples =
      p.tuples ++ tuples.map (List.map Prod.snd) := by
  induction tuples generalizing p with
  | nil =>
    show (step p 0x3b).tuples = _
    simp [step, hp.1, hp.2]
  | cons t tuples ih =>
    rw [map_cons, flatMap_cons, append_assoc, append_assoc, foldl_append, foldl_append,
      run_comma hp,
      run_tuple (p := { p with current := p.current ++ [p.value], value := [] }) hp
        (hne t mem_cons_self) (h t mem_cons_self)]
    rw [ih (p := { p with
        tuples := p.tuples ++ [t.map Prod.snd]
        current := t.map Prod.snd
        value := [] }) hp (fun t' ht' => hne t' (mem_cons_of_mem t ht'))
      fun t' ht' => h t' (mem_cons_of_mem t ht')]
    simp only [append_assoc, singleton_append, map_cons]

end ValuesParser

/-- A statement is taken apart where it was put together, if every value is read as one. -/
theorem parse_statementText (tuples : List (List (GoString × GoString)))
    (hne : ∀ t ∈ tuples, t ≠ []) (h : ∀ t ∈ tuples, ∀ c ∈ t, ReadAs c.1 c.2) :
    parseValuesList (statementText (tuples.map (List.map Prod.fst))) =
      tuples.map (List.map Prod.snd) := by
  have houtside : ValuesParser.init.Outside := ⟨rfl, rfl⟩
  cases tuples with
  | nil => rfl
  | cons t tuples =>
    rw [parseValuesList, map_cons, statementText, append_assoc, foldl_append,
      ValuesParser.run_tuple houtside (hne t mem_cons_self) (h t mem_cons_self)]
    exact ValuesParser.run_tuples ⟨rfl, rfl⟩ (fun t' ht' => hne t' (mem_cons_of_mem t ht'))
      fun t' ht' => h t' (mem_cons_of_mem t ht')

theorem Row.text_eq (r : Row) : r.text = tupleText (r.literals.map Literal.text) := by
  rw [Row.text, literals, map_cons, tupleText, flatMap_map]

/-- And of a statement. -/
theorem insertText_eq (rows : List Row) :
    insertText rows = statementText (rows.map fun r => r.literals.map Literal.text) := by
  cases rows with
  | nil => rfl
  | cons r rows =>
    simp only [insertText, map_cons, statementText, flatMap_map, Row.text_eq]

/-- What `parseValuesList` makes of a statement. -/
theorem parse_insertText (rows : List Row) :
    parseValuesList (insertText rows) = rows.map fun r => r.literals.map Literal.kept := by
  have hcells := parse_statementText
    (rows.map fun r => r.literals.map fun l => (l.text, l.kept)) ?_ ?_
  · rw [insertText_eq]
    simpa only [map_map, Function.comp_def] using hcells
  · intro t ht
    obtain ⟨r, -, rfl⟩ := mem_map.mp ht
    exact cons_ne_nil _ _
  · intro t ht c hc
    obtain ⟨r, -, rfl⟩ := mem_map.mp ht
    obtain ⟨l, -, rfl⟩ := mem_map.mp hc
    exact fun p hp => ValuesParser.run_literal hp l

/-! ## Reading the data -/

/-- The name `tupleToJSON` gives to a column. -/
def columnName (i : Nat) : GoString := ascii "col_" ++ itoa i

/-- The characters of the column's name. -/
def columnKey (i : Nat) : List Nat := (columnName i).map UInt8.toNat

/-- The value it writes for a column. -/
def cellText (v : GoString) : GoString :=
  if v = ascii "NULL" then ascii "null" else [0x22] ++ escapeString v ++ [0x22]

/-- What a reader of the data finds in a column. -/
def cellValue (v : GoString) : Json.Value :=
  if v = ascii "NULL" then .null else .string (Utf8.runes v)

/-- Nothing in a column's name is escaped. -/
theorem readsAs_columnName (i : Nat) : Json.ReadsAs (columnName i) (columnKey i) := by
  have hcol : ∀ b ∈ ascii "col_" ++ ascii "0123456789",
      0x20 ≤ b.toNat ∧ b.toNat < 0x80 ∧ b.toNat ≠ 0x22 ∧ b.toNat ≠ 0x5c :=
    forall_mem_of_all (by decide)
  apply Json.ReadsAs.ascii
  intro b hb
  apply hcol
  rcases mem_append.mp hb with hb | hb
  · exact mem_append_left _ hb
  · exact mem_append_right _ (mem_itoa hb)

theorem readsValue_cell (v : GoString) : Json.ReadsValue (cellText v) (cellValue v) := by
  unfold cellText cellValue
  split
  · exact Json.readsValue_null
  · exact Json.readsValue_string (escapeString_reads v)

/-- One member, as `tupleToJSON` writes it. -/
theorem member_eq (i : Nat) (v : GoString) :
    Json.member (columnName i, cellText v) =
      ascii "\"col_" ++ itoa i ++ ascii "\":" ++ cellText v := by
  have hopen : ascii "\"col_" = 0x22 :: ascii "col_" := by decide
  have hclose : ascii "\":" = [0x22, 0x3a] := by decide
  simp only [Json.member, columnName, hopen, hclose, cons_append, append_assoc]

/-- The loop writes an object. -/
theorem tupleToJSON_eq (vs : List GoString) :
    tupleToJSON vs = Json.object (vs.zipIdx.map fun a => (columnName a.2, cellText a.1)) := by
  have hsep : ascii ", " = [0x2c, 0x20] := by decide
  apply Json.object_of_loop (m := fun v i => (columnName i, cellText v)) fun _ => rfl
  intro i v vs
  rw [tupleMembers, member_eq, hsep]
  simp only [cellText, append_assoc]

/-- The data of a tuple is an object with one member for each value. -/
theorem read_tuple (vs : List GoString) :
    Json.read (tupleToJSON vs) =
      some (.object (vs.zipIdx.map fun a => (columnKey a.2, cellValue a.1))) := by
  rw [tupleToJSON_eq]
  exact Json.read_object vs.zipIdx (fun a _ => readsAs_columnName a.2)
    fun a _ => readsValue_cell a.1

/-! ## Which values survive -/

/-- A value as it should stand in the data: a number as its text. -/
def Represents : Json.Value → SqlValue → Prop
  | .null, .null => True
  | .string cs, .string s => cs = s.map Char.toNat
  | .string cs, .number n => cs = Utf8.runes n.text
  | .number text, .number n => text = n.text
  | _, _ => False

/-- The strings that mysqldump writes as they are, other than the string `NULL`. -/
def SqlValue.Plain : SqlValue → Prop
  | .string s => s ≠ "NULL".toList ∧ ∀ c ∈ s, escapeLetter c = none
  | _ => False

theorem escapedChar_quote (c : Char) : (escapedChar c).count '\'' = [c].count '\'' := by
  have hall : ∀ e ∈ escapes, ['\\', e.2].count '\'' = [e.1].count '\'' := by decide
  unfold escapedChar
  cases hl : escapeLetter c with
  | none => rfl
  | some l => exact hall (c, l) (escapeLetter_mem hl)

/-- Of the quotes, exactly the doubled ones are lost. -/
theorem count_quote (ps : List Piece) :
    (ps.flatMap Piece.kept).count '\'' + ps.countP (fun p => p matches .doubledQuote) =
      (ps.map Piece.meaning).count '\'' := by
  induction ps with
  | nil => rfl
  | cons p ps ih =>
    rw [flatMap_cons, count_append, countP_cons, map_cons, ← singleton_append, count_append]
    cases p with
    | char c =>
      have hc : (Piece.char c).kept.count '\'' = [(Piece.char c).meaning].count '\'' :=
        escapedChar_quote c
      simp only [Bool.false_eq_true, ↓reduceIte]
      omega
    | doubledQuote =>
      have hlost : Piece.doubledQuote.kept.count '\'' = 0 := rfl
      have hmeant : [Piece.doubledQuote.meaning].count '\'' = 1 := rfl
      simp only [↓reduceIte]
      omega

/-- Without doubled quotes the kept text is longer than the string, unless nothing is escaped. -/
theorem length_kept {ps : List Piece} (h : ∀ p ∈ ps, ∃ c, p = .char c) :
    ps.length ≤ (ps.flatMap Piece.kept).length ∧
      ((ps.flatMap Piece.kept).length = ps.length →
        ∀ c ∈ ps.map Piece.meaning, escapeLetter c = none) := by
  induction ps with
  | nil => exact ⟨Nat.le_refl _, fun _ c hc => absurd hc (by simp)⟩
  | cons p ps ih =>
    obtain ⟨c, rfl⟩ := h p mem_cons_self
    obtain ⟨hle, heq⟩ := ih fun q hq => h q (mem_cons_of_mem _ hq)
    rw [flatMap_cons, length_append, length_cons, map_cons]
    have hkept : (Piece.char c).kept = escapedChar c := rfl
    unfold escapedChar at hkept
    cases hl : escapeLetter c with
    | some l =>
      rw [hl] at hkept
      simp only [hkept, length_cons, length_nil]
      -- the backslash makes it longer
      exact ⟨by omega, fun h => absurd h (by omega)⟩
    | none =>
      rw [hl] at hkept
      simp only [hkept, length_cons, length_nil]
      refine ⟨by omega, fun h => ?_⟩
      have hrest := heq (by omega)
      intro d hd
      rcases mem_cons.mp hd with rfl | hd
      · exact hl
      · exact hrest d hd

/-- A string is kept as it is exactly when nothing in it is escaped. -/
theorem kept_eq_meaning_iff (ps : List Piece) :
    ps.flatMap Piece.kept = ps.map Piece.meaning ↔
      ∀ c ∈ ps.map Piece.meaning, escapeLetter c = none := by
  constructor
  · -- a doubled quote would be missing in the count, an escape would make the text longer
    intro h
    have hcount := count_quote ps
    rw [h] at hcount
    have hnone : ps.countP (fun p => p matches .doubledQuote) = 0 := by omega
    have hchar : ∀ p ∈ ps, ∃ c, p = .char c := by
      intro p hp
      cases p with
      | char c => exact ⟨c, rfl⟩
      | doubledQuote => exact absurd rfl (countP_eq_zero.mp hnone _ hp)
    exact (length_kept hchar).2 (by rw [h, length_map])
  · intro h
    induction ps with
    | nil => rfl
    | cons p ps ih =>
      rw [flatMap_cons, map_cons]
      have hp := h p.meaning mem_cons_self
      rw [ih fun c hc => h c (mem_cons_of_mem _ hc)]
      cases p with
      | char c =>
        have hkept : (Piece.char c).kept = [c] := by
          simp only [Piece.kept, escapedChar, show escapeLetter c = none from hp]
        rw [hkept]
        rfl
      | doubledQuote => exact absurd hp (by decide)

/-- Encoding goes piece by piece. -/
theorem encode_flatMap (ps : List Piece) :
    (ps.flatMap fun p => Utf8.encode p.kept) = Utf8.encode (ps.flatMap Piece.kept) := by
  rw [Utf8.encode, flatMap_assoc]
  rfl

/-- What is kept of a literal represents its value exactly when the value is a plain string. -/
theorem represents_kept_iff (l : Literal) :
    Represents (cellValue l.kept) l.value ↔ l.value.Plain := by
  cases l with
  | null => simp [cellValue, Literal.kept, Literal.value, Represents, SqlValue.Plain, ascii]
  | number n =>
    -- outside of strings nothing is kept, so a number is read as the empty string
    have hne : Utf8.runes n.text ≠ [] := by
      cases ht : n.text with
      | nil => exact absurd ht n.isNumeric.ne_nil
      | cons b s => simp [Utf8.runes, Utf8.runesFrom]
    have hcell : cellValue (Literal.number n).kept = .string [] := rfl
    rw [hcell]
    exact ⟨fun h => hne h.symm, fun h => h.elim⟩
  | quoted ps =>
    have hnull : ascii "NULL" = Utf8.encode "NULL".toList := by decide
    show Represents (cellValue (ps.flatMap fun p => Utf8.encode p.kept))
      (.string (ps.map Piece.meaning)) ↔ _ ∧ _
    rw [encode_flatMap, ← kept_eq_meaning_iff, cellValue, hnull]
    -- a string that spells NULL cannot be told from one
    by_cases hkept : ps.flatMap Piece.kept = "NULL".toList
    · rw [if_pos (Utf8.encode_inj.mpr hkept), hkept]
      exact ⟨fun h => h.elim, fun h => absurd h.2.symm h.1⟩
    · rw [if_neg (mt Utf8.encode_inj.mp hkept)]
      show Utf8.runes _ = _ ↔ _
      rw [Utf8.runes_encode, Utf8.map_toNat_inj]
      exact ⟨fun h => ⟨h ▸ hkept, h⟩, fun h => h.2⟩

/-- The data is an object that maps each column to the value. -/
def RowSurvives (data : GoString) (values : List SqlValue) : Prop :=
  ∃ members, Json.read data = some (.object members) ∧ members.length = values.length ∧
    ∀ (i : Nat) (m : List Nat × Json.Value) (v : SqlValue), members[i]? = some m →
      values[i]? = some v → m.1 = columnKey i ∧ Represents m.2 v

/-- A row survives exactly when each of its values is plain. -/
theorem rowSurvives_iff (ls : List Literal) :
    RowSurvives (tupleToJSON (ls.map Literal.kept)) (ls.map Literal.value) ↔
      ∀ l ∈ ls, l.value.Plain := by
  have hmember : ∀ i l, ls[i]? = some l →
      ((ls.map Literal.kept).zipIdx.map fun a => (columnKey a.2, cellValue a.1))[i]? =
        some (columnKey i, cellValue l.kept) := by
    intro i l hl
    simp [getElem?_zipIdx, hl]
  constructor
  · rintro ⟨members, hread, -, hall⟩ l hl
    rw [read_tuple, Option.some.injEq, Json.Value.object.injEq] at hread
    obtain ⟨i, hi⟩ := mem_iff_getElem?.mp hl
    have hm := hmember i l hi
    rw [hread] at hm
    have := (hall i _ l.value hm (by rw [getElem?_map, hi]; rfl)).2
    exact (represents_kept_iff l).mp this
  · intro hplain
    refine ⟨_, read_tuple _, by simp, ?_⟩
    intro i m v hm hv
    rw [getElem?_map, Option.map_eq_some_iff] at hv
    obtain ⟨l, hl, rfl⟩ := hv
    rw [hmember i l hl] at hm
    obtain rfl := Option.some.inj hm
    exact ⟨rfl, (represents_kept_iff l).mpr (hplain l (mem_of_getElem? hl))⟩

/-- The statement is taken apart into its rows, and every row survives. -/
def Survives (rows : List Row) : Prop :=
  (parseValuesList (insertText rows)).length = rows.length ∧
    ∀ (i : Nat) (tuple : List GoString) (r : Row),
      (parseValuesList (insertText rows))[i]? = some tuple → rows[i]? = some r →
      RowSurvives (tupleToJSON tuple) (r.literals.map Literal.value)

/-- The rows of a dump survive the snapshot exactly when every value is a string other than `NULL`
    in which mysqldump escapes nothing. -/
theorem survives_iff (rows : List Row) :
    Survives rows ↔ ∀ r ∈ rows, ∀ l ∈ r.literals, l.value.Plain := by
  unfold Survives
  rw [parse_insertText]
  constructor
  · rintro ⟨-, hall⟩ r hr
    obtain ⟨i, hi⟩ := mem_iff_getElem?.mp hr
    exact (rowSurvives_iff r.literals).mp
      (hall i _ r (by rw [getElem?_map, hi]; rfl) hi)
  · intro hplain
    refine ⟨length_map _, ?_⟩
    intro i tuple r htuple hr
    rw [getElem?_map, hr] at htuple
    obtain rfl := Option.some.inj htuple
    exact (rowSurvives_iff r.literals).mpr (hplain r (mem_of_getElem? hr))

/-- `(1,'O\'Brien',NULL)` -/
def customer : Row where
  first := .number ⟨ascii "1", [], ascii "1", [], [], rfl, .inl rfl,
    ⟨by decide, forall_mem_of_all (by decide)⟩, .inl rfl, .inl rfl⟩
  rest := [.quoted ("O'Brien".toList.map .char), .null]

/-- The number and NULL become empty strings, and the name keeps the backslash. -/
theorem customer_lost :
    insertText [customer] = ascii "(1,'O\\'Brien',NULL);" ∧
      (parseValuesList (insertText [customer])).map tupleToJSON =
        [ascii "\x7b\"col_0\":\"\", \"col_1\":\"O\\\\'Brien\", \"col_2\":\"\"\x7d"] ∧
      ¬ Survives [customer] := by
  refine ⟨by decide, by decide, ?_⟩
  rintro ⟨-, hall⟩
  rw [parse_insertText] at hall
  have hrow := (rowSurvives_iff customer.literals).mp (hall 0 _ customer rfl rfl)
  exact hrow customer.first mem_cons_self

end Mysql
