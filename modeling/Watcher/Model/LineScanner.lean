import Watcher.Model.GoString

/-!
# Reading a file line by line

`bufio.Scanner` with its default split function, and the little that the dump
parsers use of `regexp` and `strings`.
-/

/-- The lines of a file without their newlines; what follows the last newline is a line unless it
    is empty. -/
def rawLines : GoString → List GoString
  | [] => []
  | b :: s =>
    if b = 0x0a then [] :: rawLines s
    else
      match rawLines s with
      | [] => [[b]]
      | line :: lines => (b :: line) :: lines

/-- A carriage return before the newline is not part of the line. -/
def dropCR (line : GoString) : GoString :=
  if line.getLast? = some 0x0d then line.dropLast else line

theorem dropCR_of_notMem {line : GoString} (h : 0x0d ∉ line) : dropCR line = line := by
  have hlast : line.getLast? ≠ some 0x0d := fun hlast => h (List.mem_of_getLast? hlast)
  rw [dropCR, if_neg hlast]

/-- What a scanner with a buffer of `max` bytes returns, and whether it ended with `ErrTooLong`: a
    line has to fit into the buffer together with its newline. -/
def scanLines (max : Nat) (data : GoString) : List GoString × Bool :=
  let lines := rawLines data
  ((lines.takeWhile fun line => line.length < max).map dropCR,
    lines.any fun line => max ≤ line.length)

theorem rawLines_cons {line : GoString} (h : 0x0a ∉ line) (rest : GoString) :
    rawLines (line ++ 0x0a :: rest) = line :: rawLines rest := by
  induction line with
  | nil => rfl
  | cons b line ih =>
    obtain ⟨hb, hline⟩ : (0x0a : UInt8) ≠ b ∧ 0x0a ∉ line := by simpa using h
    rw [List.cons_append, rawLines, if_neg (Ne.symm hb), ih hline]

theorem rawLines_flatMap {lines : List GoString} (h : ∀ line ∈ lines, 0x0a ∉ line) :
    rawLines (lines.flatMap fun line => line ++ [0x0a]) = lines := by
  induction lines with
  | nil => rfl
  | cons line lines ih =>
    rw [List.flatMap_cons, List.append_assoc, List.singleton_append,
      rawLines_cons (h line List.mem_cons_self),
      ih fun line' h' => h line' (List.mem_cons_of_mem line h')]

/-- The newline after the last line may be missing. -/
theorem rawLines_flatMap_append {lines : List GoString} (h : ∀ line ∈ lines, 0x0a ∉ line)
    {last : GoString} (hlast : 0x0a ∉ last) :
    rawLines (lines.flatMap (fun line => line ++ [0x0a]) ++ last) =
      lines ++ if last = [] then [] else [last] := by
  induction lines with
  | nil =>
    rw [List.flatMap_nil, List.nil_append, List.nil_append]
    induction last with
    | nil => rfl
    | cons b last ih =>
      obtain ⟨hb, hlast⟩ : (0x0a : UInt8) ≠ b ∧ 0x0a ∉ last := by simpa using hlast
      rw [rawLines, if_neg (Ne.symm hb), ih hlast, if_neg (List.cons_ne_nil b last)]
      cases last with
      | nil => rfl
      | cons c last => rfl
  | cons line lines ih =>
    rw [List.flatMap_cons, List.append_assoc, List.append_assoc, List.singleton_append,
      rawLines_cons (h line List.mem_cons_self),
      ih fun line' h' => h line' (List.mem_cons_of_mem line h'), List.cons_append]

/-- Lines that fit into the buffer are all returned. -/
theorem scanLines_of_rawLines (max : Nat) {data : GoString} {lines : List GoString}
    (hraw : rawLines data = lines) (h : ∀ line ∈ lines, line.length < max) :
    scanLines max data = (lines.map dropCR, false) := by
  have hall : lines.takeWhile (fun line => line.length < max) = lines := by
    rw [List.takeWhile_eq_self_iff]
    exact fun line hline => decide_eq_true (h line hline)
  have hnone : lines.any (fun line => max ≤ line.length) = false := by
    rw [List.any_eq_false]
    intro line hline
    have := h line hline
    simpa using this
  rw [scanLines, hraw, hall, hnone]

theorem scanLines_flatMap {max : Nat} {lines : List GoString}
    (h : ∀ line ∈ lines, 0x0a ∉ line ∧ line.length < max) :
    scanLines max (lines.flatMap fun line => line ++ [0x0a]) = (lines.map dropCR, false) := by
  exact scanLines_of_rawLines max (rawLines_flatMap fun line hline => (h line hline).1)
    fun line hline => (h line hline).2

/-- The class `\s` of a regular expression. -/
def isRegexpSpace (c : UInt8) : Bool :=
  c == 0x09 || c == 0x0a || c == 0x0c || c == 0x0d || c == 0x20

/-- The class `\d` of a regular expression. -/
def isRegexpDigit (c : UInt8) : Bool := 0x30 ≤ c && c ≤ 0x39

/-- `strconv.ParseUint(s, 10, 32)` of a string of digits, with its error ignored: what does not
    fit is the largest number. -/
def parseUint32 (digits : GoString) : Nat :=
  min (digits.foldl (fun n d => n * 10 + (d.toNat - 0x30)) 0) (2 ^ 32 - 1)

/-! ### White space at the ends of a string -/

/-- The characters of `unicode.IsSpace`, encoded. -/
def unicodeSpaces : List GoString :=
  ([0x09, 0x0a, 0x0b, 0x0c, 0x0d, 0x20, 0x85, 0xa0, 0x1680] ++ List.range' 0x2000 11 ++
    [0x2028, 0x2029, 0x202f, 0x205f, 0x3000]).map Utf8.encodeRune

/-- Drop pieces of `cut` from the front as long as there is one; `skip` bytes belong to a piece
    already found. -/
def trimFrom (cut : List GoString) : (skip : Nat) → GoString → GoString
  | _, [] => []
  | skip + 1, _ :: s => trimFrom cut skip s
  | 0, b :: s =>
    match cut.find? fun piece => piece.isPrefixOf (b :: s) with
    | some piece => trimFrom cut (piece.length - 1) s
    | none => b :: s

/-- `strings.TrimSpace`; the runes at the end are found by reading backwards. -/
def trimSpace (s : GoString) : GoString :=
  (trimFrom (unicodeSpaces.map List.reverse) 0 (trimFrom unicodeSpaces 0 s).reverse).reverse
