import Watcher.Json.Write
import Watcher.Lib.Utf8

/-!
# Reading JSON

What an RFC 8259 text means: `read` decodes a text into a `Value`. Strings are
decoded as Go's `encoding/json` does it: a byte that is not UTF-8, or half of a
surrogate pair, stands for U+FFFD. Members of an object are kept in order.

The lemmas follow the text: a character (`IsChar`), a string (`ReadsAs`), a
value (`ReadsValue`), an object as `Write` renders it (`read_object`).
-/

namespace Json

open List

inductive Value where
  | null
  | bool (b : Bool)
  | number (text : List UInt8)
  | string (chars : List Nat)
  | array (elems : List Value)
  | object (members : List (List Nat × Value))
  deriving Repr

/-! ### Strings -/

/-- The number a hex digit stands for. -/
def hexValue (c : UInt8) : Option Nat :=
  if 0x30 ≤ c ∧ c ≤ 0x39 then some (c.toNat - 0x30)
  else if 0x61 ≤ c ∧ c ≤ 0x66 then some (c.toNat - 0x57)
  else if 0x41 ≤ c ∧ c ≤ 0x46 then some (c.toNat - 0x37)
  else none

/-- The number that four hex digits at the start of `s` stand for. -/
def hex4At : List UInt8 → Option Nat
  | a :: b :: c :: d :: _ => do
    return (← hexValue a) * 4096 + (← hexValue b) * 256 + (← hexValue c) * 16 + (← hexValue d)
  | _ => none

/-- The character that an escape other than `\u` stands for. -/
def simpleEscape (e : UInt8) : Option Nat :=
  if e = 0x22 ∨ e = 0x5c ∨ e = 0x2f then some e.toNat
  else if e = 0x62 then some 0x08
  else if e = 0x66 then some 0x0c
  else if e = 0x6e then some 0x0a
  else if e = 0x72 then some 0x0d
  else if e = 0x74 then some 0x09
  else none

/-- The low surrogate that an escape at the start of `s` stands for. -/
def lowSurrogateAt : List UInt8 → Option Nat
  | b :: e :: s =>
    if b = 0x5c ∧ e = 0x75 then (hex4At s).filter fun v => 0xdc00 ≤ v && v < 0xe000 else none
  | _ => none

/-- The character of the escape whose backslash is before `s`, and how many bytes of `s` belong
    to it. -/
def escapeAt : List UInt8 → Option (Nat × Nat)
  | [] => none
  | e :: s =>
    if e = 0x75 then
      match hex4At s with
      | none => none
      | some u =>
        if 0xd800 ≤ u ∧ u < 0xdc00 then
          match lowSurrogateAt (s.drop 4) with
          | some v => some (0x10000 + (u - 0xd800) * 1024 + (v - 0xdc00), 11)
          | none => some (Utf8.runeError, 5)
        else if 0xdc00 ≤ u ∧ u < 0xe000 then some (Utf8.runeError, 5)
        else some (u, 5)
    else (simpleEscape e).map fun r => (r, 1)

/-- The character that starts with the byte `b` before `s`, and how many bytes of `s` belong
    to it. -/
def charAt (b : UInt8) (s : List UInt8) : Option (Nat × Nat) :=
  if b = 0x5c then escapeAt s else if b < 0x20 then none else some (Utf8.decodeRune b s)

/-- The characters up to the closing quote, and what follows it, once `skip` bytes that belong to
    an earlier character are passed over. -/
def readChars : (skip : Nat) → List UInt8 → Option (List Nat × List UInt8)
  | _, [] => none
  | skip + 1, _ :: s => readChars skip s
  | 0, b :: s =>
    if b = 0x22 then some ([], s)
    else
      match charAt b s with
      | none => none
      | some (r, k) => (readChars k s).map fun (rs, rest) => (r :: rs, rest)

/-! ### Values -/

/-- The text from its first byte that is not a space on. -/
def skipSpace (s : List UInt8) : List UInt8 := s.dropWhile isSpace

/-- `null`, `true`, `false` or a number. -/
def readAtom (s : List UInt8) : Option (Value × List UInt8) :=
  let ends (c : UInt8) : Bool := c = 0x2c || c = 0x5d || c = 0x7d || isSpace c
  let text := s.takeWhile fun c => !ends c
  let rest := s.dropWhile fun c => !ends c
  if text = [0x6e, 0x75, 0x6c, 0x6c] then some (.null, rest)
  else if text = [0x74, 0x72, 0x75, 0x65] then some (.bool true, rest)
  else if text = [0x66, 0x61, 0x6c, 0x73, 0x65] then some (.bool false, rest)
  else if valid text then some (.number text, rest)
  else none

/-- What follows the byte `c`, if this is the next one that is not a space. -/
def expect (c : UInt8) (s : List UInt8) : Option (List UInt8) :=
  match skipSpace s with
  | [] => none
  | b :: rest => if b = c then some rest else none

mutual

/-- The value at the start of the text, and what follows it; `fuel` bounds the nesting and the
    number of members. -/
def readValue : (fuel : Nat) → List UInt8 → Option (Value × List UInt8)
  | 0, _ => none
  | fuel + 1, s =>
    match expect 0x22 s, expect 0x7b s, expect 0x5b s with
    | some s, _, _ => (readChars 0 s).map fun (cs, rest) => (.string cs, rest)
    | none, some s, _ =>
      match expect 0x7d s with
      | some rest => some (.object [], rest)
      | none => (readMembers fuel s).map fun (ms, rest) => (.object ms, rest)
    | none, none, some s =>
      match expect 0x5d s with
      | some rest => some (.array [], rest)
      | none => (readElems fuel s).map fun (vs, rest) => (.array vs, rest)
    | none, none, none => readAtom (skipSpace s)

/-- The members up to the closing brace. -/
def readMembers : (fuel : Nat) → List UInt8 → Option (List (List Nat × Value) × List UInt8)
  | 0, _ => none
  | fuel + 1, s => do
    let (key, s) ← readChars 0 (← expect 0x22 s)
    let (v, s) ← readValue fuel (← expect 0x3a s)
    match expect 0x2c s with
    | some s => (readMembers fuel s).map fun (ms, rest) => ((key, v) :: ms, rest)
    | none => (expect 0x7d s).map fun rest => ([(key, v)], rest)

/-- The elements up to the closing bracket. -/
def readElems : (fuel : Nat) → List UInt8 → Option (List Value × List UInt8)
  | 0, _ => none
  | fuel + 1, s => do
    let (v, s) ← readValue fuel s
    match expect 0x2c s with
    | some s => (readElems fuel s).map fun (vs, rest) => (v :: vs, rest)
    | none => (expect 0x5d s).map fun rest => ([v], rest)

end

/-- The value that a text stands for. -/
def read (s : List UInt8) : Option Value :=
  match readValue s.length s with
  | some (v, rest) => if skipSpace rest = [] then some v else none
  | none => none

/-! ### Reading what was written: strings -/

/-- `piece` is a way to write the character `r` inside a string. -/
def IsChar (piece : List UInt8) (r : Nat) : Prop :=
  ∃ b bs, piece = b :: bs ∧ b ≠ 0x22 ∧ ∀ rest, charAt b (bs ++ rest) = some (r, bs.length)

/-- `t` stands for the characters `cs` between quotes. -/
def ReadsAs (t : List UInt8) (cs : List Nat) : Prop :=
  ∀ rest, readChars 0 (t ++ 0x22 :: rest) = some (cs, rest)

theorem readChars_skip (l rest : List UInt8) :
    readChars l.length (l ++ rest) = readChars 0 rest := by
  induction l with
  | nil => rfl
  | cons b l ih => exact ih

theorem ReadsAs.nil : ReadsAs [] [] := fun _ => rfl

/-- One character more. -/
theorem ReadsAs.cons {piece t : List UInt8} {r : Nat} {cs : List Nat} (hp : IsChar piece r)
    (ht : ReadsAs t cs) : ReadsAs (piece ++ t) (r :: cs) := by
  intro rest
  obtain ⟨b, bs, rfl, hquote, hchar⟩ := hp
  rw [List.cons_append, List.cons_append, List.append_assoc, readChars, if_neg hquote, hchar]
  simp only [readChars_skip, ht rest, Option.map_some]

theorem ReadsAs.flatMap {f : Nat → List UInt8} {rs : List Nat} (h : ∀ r ∈ rs, IsChar (f r) r) :
    ReadsAs (rs.flatMap f) rs := by
  induction rs with
  | nil => exact .nil
  | cons r rs ih =>
    rw [List.flatMap_cons]
    exact .cons (h r List.mem_cons_self) (ih fun r' hr' => h r' (List.mem_cons_of_mem r hr'))

/-- A backslash and a letter. -/
theorem isChar_escape {e : UInt8} {r : Nat} (he : e ≠ 0x75) (hr : simpleEscape e = some r) :
    IsChar [0x5c, e] r := by
  refine ⟨0x5c, [e], rfl, by decide, fun rest => ?_⟩
  simp only [charAt, ↓reduceIte, List.cons_append, List.nil_append, escapeAt, if_neg he, hr,
    Option.map_some, List.length_singleton]

/-- A writer that has a short escape for the character `k` writes every character right if it does
    so with the others. -/
theorem isChar_ite {c k : Nat} {e : UInt8} {other : List UInt8} (he : e ≠ 0x75)
    (hk : simpleEscape e = some k) (hother : c ≠ k → IsChar other c) :
    IsChar (if c = k then [0x5c, e] else other) c := by
  by_cases hc : c = k
  · rw [if_pos hc, hc]
    exact isChar_escape he hk
  · rw [if_neg hc]
    exact hother hc

/-- `\u` and four digits that are not half of a surrogate pair. -/
theorem isChar_unicode {a b c d : UInt8} {r : Nat} (hr : hex4At [a, b, c, d] = some r)
    (hscalar : Utf8.IsScalar r) : IsChar [0x5c, 0x75, a, b, c, d] r := by
  refine ⟨0x5c, [0x75, a, b, c, d], rfl, by decide, fun rest => ?_⟩
  have hhex : hex4At (a :: b :: c :: d :: rest) = some r := hr
  unfold Utf8.IsScalar at hscalar
  simp only [charAt, ↓reduceIte, List.cons_append, List.nil_append, escapeAt, hhex]
  rw [if_neg (by omega), if_neg (by omega)]
  rfl

/-- A character that needs no escape. -/
theorem isChar_encodeRune {r : Nat} (hscalar : Utf8.IsScalar r) (hctl : 0x20 ≤ r)
    (hquote : r ≠ 0x22) (hback : r ≠ 0x5c) : IsChar (Utf8.encodeRune r) r := by
  obtain ⟨b, bs, heq, hdec⟩ := Utf8.decodeRune_encodeRune hscalar
  have hne : ∀ n : UInt8, n.toNat < 0x80 → r ≠ n.toNat → b ≠ n := by
    rintro n hn hr rfl
    exact Utf8.notMem_encodeRune hn hr (heq ▸ List.mem_cons_self)
  refine ⟨b, bs, heq, hne 0x22 (by decide) hquote, fun rest => ?_⟩
  have hge : ¬b < 0x20 := by
    intro hlt
    have hb : b.toNat < 0x20 := UInt8.lt_iff_toNat_lt.mp hlt
    exact hne b (by omega) (by omega) rfl
  rw [charAt, if_neg (hne 0x5c (by decide) hback), if_neg hge, hdec]

/-- Printable ASCII without quotes and backslashes stands for itself. -/
theorem ReadsAs.ascii {t : List UInt8}
    (h : ∀ b ∈ t, 0x20 ≤ b.toNat ∧ b.toNat < 0x80 ∧ b.toNat ≠ 0x22 ∧ b.toNat ≠ 0x5c) :
    ReadsAs t (t.map UInt8.toNat) := by
  induction t with
  | nil => exact .nil
  | cons b t ih =>
    obtain ⟨hctl, hascii, hquote, hback⟩ := h b List.mem_cons_self
    have hb : Utf8.encodeRune b.toNat = [b] := by
      rw [Utf8.encodeRune, if_pos hascii, UInt8.ofNat_toNat]
    have hchar := isChar_encodeRune (.inl (by omega)) hctl hquote hback
    rw [hb] at hchar
    exact .cons hchar (ih fun b' hb' => h b' (List.mem_cons_of_mem b hb'))

/-! ### Reading what was written: values -/

/-- The byte is there. -/
theorem expect_same {c : UInt8} (hspace : isSpace c = false) (s : List UInt8) :
    expect c (c :: s) = some s := by
  rw [expect, skipSpace, List.dropWhile_cons_of_neg (by simp [hspace])]
  exact if_pos rfl

/-- Another byte is there. -/
theorem expect_other {c b : UInt8} (hspace : isSpace b = false) (hne : b ≠ c) (s : List UInt8) :
    expect c (b :: s) = none := by
  rw [expect, skipSpace, List.dropWhile_cons_of_neg (by simp [hspace])]
  exact if_neg hne

theorem expect_space (c : UInt8) (s : List UInt8) : expect c (0x20 :: s) = expect c s := by
  rw [expect, skipSpace, List.dropWhile_cons_of_pos (by decide)]
  rfl

/-- The end of a member: a comma or the closing brace. -/
def EndsMember (rest : List UInt8) : Prop := ∃ c s, rest = c :: s ∧ (c = 0x2c ∨ c = 0x7d)

/-- `v` stands for the value `x` as a member's value. -/
def ReadsValue (v : List UInt8) (x : Value) : Prop :=
  ∀ fuel rest, EndsMember rest → readValue (fuel + 1) (v ++ rest) = some (x, rest)

/-- A string is a member's value. -/
theorem readsValue_string {t : List UInt8} {cs : List Nat} (h : ReadsAs t cs) :
    ReadsValue (0x22 :: t ++ [0x22]) (.string cs) := by
  intro fuel rest _
  rw [List.append_assoc, List.cons_append, readValue, expect_same rfl]
  simp only [List.singleton_append, h rest, Option.map_some]

/-- A string by itself. -/
theorem read_string {t : List UInt8} {cs : List Nat} (h : ReadsAs t cs) :
    read (0x22 :: t ++ [0x22]) = some (.string cs) := by
  have hlength : (0x22 :: t ++ [0x22]).length = (t.length + 1) + 1 := by
    rw [List.cons_append, List.length_cons, List.length_append, List.length_singleton]
  rw [read, hlength, List.cons_append, readValue, expect_same rfl]
  simp only [h [], Option.map_some]
  rfl

/-- So is `null`. -/
theorem readsValue_null : ReadsValue [0x6e, 0x75, 0x6c, 0x6c] .null := by
  rintro fuel rest ⟨c, s, rfl, hc⟩
  rw [List.cons_append, readValue, expect_other rfl (by decide), expect_other rfl (by decide),
    expect_other rfl (by decide)]
  rcases hc with rfl | rfl <;> rfl

/-! ### Reading what was written: objects -/

section Object

open List

variable {α : Type _} {name val : α → List UInt8} {key : α → List Nat} {value : α → Value}

/-- A member and what follows it. -/
theorem readMembers_member {fuel : Nat} {a : α} {rest : List UInt8}
    (hname : ReadsAs (name a) (key a)) (hval : ReadsValue (val a) (value a))
    (hrest : EndsMember rest) :
    readMembers (fuel + 2) (member (name a, val a) ++ rest) =
      match expect 0x2c rest with
      | some s => (readMembers (fuel + 1) s).map fun (ms, s) => ((key a, value a) :: ms, s)
      | none => (expect 0x7d rest).map fun s => ([(key a, value a)], s) := by
  have htext : member (name a, val a) ++ rest =
      0x22 :: (name a ++ 0x22 :: (0x3a :: (val a ++ rest))) := by
    simp [member]
  have hkey := hname (0x3a :: (val a ++ rest))
  have hcolon : expect 0x3a (0x3a :: (val a ++ rest)) = some (val a ++ rest) := expect_same rfl _
  rw [htext, readMembers, expect_same rfl]
  simp only [Option.bind_eq_bind, Option.bind_some, hkey, hcolon, hval fuel rest hrest]

/-- The members of an object, from the first one on. -/
theorem readMembers_tail (fuel : Nat) (a : α) (as : List α)
    (hname : ∀ b ∈ a :: as, ReadsAs (name b) (key b))
    (hval : ∀ b ∈ a :: as, ReadsValue (val b) (value b)) (hfuel : as.length ≤ fuel) :
    readMembers (fuel + 2) (members ((a :: as).map fun b => (name b, val b)) ++ [0x7d]) =
      some ((a :: as).map fun b => (key b, value b), []) := by
  induction as generalizing a fuel with
  | nil =>
    have hend : EndsMember [0x7d] := ⟨0x7d, [], rfl, .inr rfl⟩
    show readMembers (fuel + 2) (member (name a, val a) ++ [] ++ [0x7d]) = _
    rw [append_nil, readMembers_member (hname a mem_cons_self)
      (hval a mem_cons_self) hend, expect_other rfl (by decide), expect_same rfl]
    rfl
  | cons b bs ih =>
    -- the next member is reached with one unit of fuel less
    have htail : ∀ c ∈ b :: bs, c ∈ a :: b :: bs := fun c hc => mem_cons_of_mem a hc
    obtain ⟨fuel, rfl⟩ : ∃ f, fuel = f + 1 := ⟨fuel - 1, by rw [length_cons] at hfuel; omega⟩
    have hrest := ih fuel b (fun c hc => hname c (htail c hc)) (fun c hc => hval c (htail c hc))
      (by rw [length_cons] at hfuel; omega)
    have htext : members ((a :: b :: bs).map fun c => (name c, val c)) ++ [0x7d] =
        member (name a, val a) ++
          0x2c :: 0x20 :: (members ((b :: bs).map fun c => (name c, val c)) ++ [0x7d]) := by
      simp [members]
    have hskip : ∀ s, readMembers (fuel + 1 + 1) (0x20 :: s) = readMembers (fuel + 1 + 1) s := by
      intro s
      rw [readMembers, readMembers, expect_space]
    have hend : ∀ s, EndsMember (0x2c :: s) := fun s => ⟨0x2c, s, rfl, .inl rfl⟩
    rw [htext, readMembers_member (hname a mem_cons_self) (hval a mem_cons_self) (hend _),
      expect_same rfl]
    simp only [hskip]
    rw [hrest]
    rfl

/-- An object as it is written is read as the object of its members. -/
theorem read_object (as : List α) (hname : ∀ a ∈ as, ReadsAs (name a) (key a))
    (hval : ∀ a ∈ as, ReadsValue (val a) (value a)) :
    read (object (as.map fun a => (name a, val a))) =
      some (.object (as.map fun a => (key a, value a))) := by
  cases as with
  | nil => rfl
  | cons a as =>
    -- there are more bytes than members
    have hlength : ∀ bs : List α, bs.length ≤
        (bs.flatMap fun b => [0x2c, 0x20] ++ member (name b, val b)).length := by
      intro bs
      induction bs with
      | nil => exact Nat.le_refl _
      | cons b bs ih =>
        simp only [flatMap_cons, length_append, length_cons]
        omega
    obtain ⟨fuel, hfuel, hle⟩ : ∃ fuel,
        (object ((a :: as).map fun b => (name b, val b))).length = fuel + 3 ∧ as.length ≤ fuel := by
      refine ⟨(object ((a :: as).map fun b => (name b, val b))).length - 3, ?_, ?_⟩
      all_goals
        have := hlength as
        simp only [object, members, member, map_cons, length_cons, length_append,
          flatMap_map, length_nil] at this ⊢
        omega
    have hmembers := readMembers_tail fuel a as hname hval hle
    have hopen : ∃ s, members ((a :: as).map fun b => (name b, val b)) ++ [0x7d] = 0x22 :: s :=
      ⟨_, rfl⟩
    obtain ⟨s, hs⟩ := hopen
    rw [read, hfuel, object, readValue, cons_append, expect_other rfl (by decide), expect_same rfl]
    simp only [hs, expect_other (c := 0x7d) (b := 0x22) rfl (by decide)]
    rw [← hs, hmembers]
    rfl

end Object

end Json
