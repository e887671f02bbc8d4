import Watcher.ForStd.Digits

/-!
# Go strings

A Go `string` is a byte sequence that need not be UTF-8. This file has the few
operations the watcher performs on strings: literals, the `%d` and `%X` verbs,
ranging over runes and writing a rune.
-/

/-- A Go string: its bytes. -/
abbrev GoString := List UInt8

/-- A string literal of ASCII characters. -/
def ascii (s : String) : GoString := s.toList.map Char.toUInt8

/-- `strconv.Itoa` and the verb `%d`, on the non-negative numbers the watcher prints. -/
def itoa (n : Nat) : GoString := (Nat.toDigits 10 n).map Char.toUInt8

/-- The verb `%X`: upper-case hexadecimal without leading zeros. -/
def hexUpper (n : Nat) : GoString := (Nat.toDigits 16 n).map fun c => c.toUpper.toUInt8

theorem itoa_inj {n m : Nat} (h : itoa n = itoa m) : n = m :=
  Nat.toDigits_map_inj (by decide) (by decide) h

theorem hexUpper_inj {n m : Nat} (h : hexUpper n = hexUpper m) : n = m :=
  Nat.toDigits_map_inj (by decide) (by decide) h

theorem hexUpper_ne_nil (n : Nat) : hexUpper n ≠ [] :=
  fun h => Nat.toDigits_ne_nil (List.map_eq_nil_iff.mp h)

/-- A decimal numeral consists of digits. -/
theorem mem_itoa {n : Nat} {b : UInt8} (h : b ∈ itoa n) : b ∈ ascii "0123456789" := by
  obtain ⟨c, hc, rfl⟩ := List.mem_map.mp h
  exact Nat.forall_mem_toDigits (P := fun c => c.toUInt8 ∈ ascii "0123456789") (by decide)
    (by decide) n c hc

/-- A hexadecimal numeral consists of digits and upper-case letters up to F. -/
theorem mem_hexUpper {n : Nat} {b : UInt8} (h : b ∈ hexUpper n) : b ∈ ascii "0123456789ABCDEF" := by
  obtain ⟨c, hc, rfl⟩ := List.mem_map.mp h
  exact Nat.forall_mem_toDigits (P := fun c => c.toUpper.toUInt8 ∈ ascii "0123456789ABCDEF")
    (by decide) (by decide) n c hc

namespace Utf8

/-- `utf8.RuneError`, the rune that stands for a byte that is not UTF-8. -/
def runeError : Nat := 0xfffd

/-- A continuation byte between `lo` and `hi`. -/
def within (lo hi b : UInt8) : Bool := lo ≤ b && b ≤ hi

/-- The bounds of the second byte after the lead byte `b` of a three-byte rune. -/
def second3 (b : UInt8) : UInt8 × UInt8 :=
  if b = 0xe0 then (0xa0, 0xbf) else if b = 0xed then (0x80, 0x9f) else (0x80, 0xbf)

/-- The bounds of the second byte after the lead byte `b` of a four-byte rune. -/
def second4 (b : UInt8) : UInt8 × UInt8 :=
  if b = 0xf0 then (0x90, 0xbf) else if b = 0xf4 then (0x80, 0x8f) else (0x80, 0xbf)

/-- `utf8.DecodeRuneInString`: the rune that starts with lead byte `b` before `s`, and how many
    bytes of `s` belong to it. A byte that starts no rune is a rune error of its own. -/
def decodeRune (b : UInt8) (s : GoString) : Nat × Nat :=
  if b < 0x80 then (b.toNat, 0)
  -- 0xc0 and 0xc1 would only start overlong forms
  else if within 0xc2 0xdf b then
    match s with
    | b₁ :: _ =>
      if within 0x80 0xbf b₁ then (b.toNat % 32 * 64 + b₁.toNat % 64, 1) else (runeError, 0)
    | [] => (runeError, 0)
  else if within 0xe0 0xef b then
    match s with
    | b₁ :: b₂ :: _ =>
      if within (second3 b).1 (second3 b).2 b₁ && within 0x80 0xbf b₂ then
        (b.toNat % 16 * 4096 + b₁.toNat % 64 * 64 + b₂.toNat % 64, 2)
      else (runeError, 0)
    | _ => (runeError, 0)
  else if within 0xf0 0xf4 b then
    match s with
    | b₁ :: b₂ :: b₃ :: _ =>
      if within (second4 b).1 (second4 b).2 b₁ && within 0x80 0xbf b₂ && within 0x80 0xbf b₃ then
        (b.toNat % 8 * 262144 + b₁.toNat % 64 * 4096 + b₂.toNat % 64 * 64 + b₃.toNat % 64, 3)
      else (runeError, 0)
    | _ => (runeError, 0)
  else (runeError, 0)

/-- The runes of `s` once `skip` bytes that belong to an earlier rune are passed over. -/
def runesFrom : (skip : Nat) → GoString → List Nat
  | _, [] => []
  | skip + 1, _ :: s => runesFrom skip s
  | 0, b :: s => (decodeRune b s).1 :: runesFrom (decodeRune b s).2 s

/-- `for _, c := range s` -/
def runes (s : GoString) : List Nat := runesFrom 0 s

/-- `strings.Builder.WriteRune` -/
def encodeRune (r : Nat) : GoString :=
  if r < 0x80 then [UInt8.ofNat r]
  else if r < 0x800 then [0xc0 ||| UInt8.ofNat (r / 64), 0x80 ||| UInt8.ofNat (r % 64)]
  -- surrogates and what is beyond Unicode are written as `runeError`
  else if (0xd800 ≤ r ∧ r ≤ 0xdfff) ∨ 0x10ffff < r then [0xef, 0xbf, 0xbd]
  else if r < 0x10000 then
    [0xe0 ||| UInt8.ofNat (r / 4096), 0x80 ||| UInt8.ofNat (r / 64 % 64),
      0x80 ||| UInt8.ofNat (r % 64)]
  else
    [0xf0 ||| UInt8.ofNat (r / 262144), 0x80 ||| UInt8.ofNat (r / 4096 % 64),
      0x80 ||| UInt8.ofNat (r / 64 % 64), 0x80 ||| UInt8.ofNat (r % 64)]

/-- What `encoding/json` reads back for a string it wrote: a byte that is not UTF-8 was written
    as `runeError`. -/
def reread (s : GoString) : GoString := (runes s).flatMap encodeRune

/-- A rune outside ASCII is written with bytes outside ASCII only. -/
theorem encodeRune_ge (r : Nat) (h : 0x80 ≤ r) : ∀ b ∈ encodeRune r, 0x80 ≤ b := by
  -- the lead and continuation marks have the top bit, and `|||` keeps it
  have hor : ∀ (m : UInt8) (n : UInt8), 0x80 ≤ m → 0x80 ≤ m ||| n := by
    intro m n hm
    rw [UInt8.le_iff_toNat_le] at hm ⊢
    rw [UInt8.toNat_or]
    exact Nat.le_trans hm Nat.left_le_or
  intro b hb
  simp only [encodeRune, show ¬r < 0x80 by omega, ↓reduceIte] at hb
  repeat' split at hb
  all_goals
    simp only [List.mem_cons, List.not_mem_nil, or_false] at hb
  · rcases hb with rfl | rfl <;> exact hor _ _ (by decide)
  · rcases hb with rfl | rfl | rfl <;> decide
  · rcases hb with rfl | rfl | rfl <;> exact hor _ _ (by decide)
  · rcases hb with rfl | rfl | rfl | rfl <;> exact hor _ _ (by decide)

end Utf8
