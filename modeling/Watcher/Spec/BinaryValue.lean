import Watcher.ForStd.List
import Watcher.Lib.Utf8
import Watcher.Model.MysqlListener

/-!
# Binary columns of MySQL

The documented type mapping renders a value of a binary column as a string: its
text if the bytes are UTF-8, else their base64 form. Either way the bytes can be
recovered. `appendValue` escapes the bytes as if they were a text in both cases,
which is the mapping exactly on valid UTF-8 (`faithful_iff`): every byte that is
no UTF-8 becomes U+FFFD, whichever byte it was.
-/

namespace Mysql

open Cdc Jsonutil

/-! ## The documented mapping -/

/-- A base64 digit (RFC 4648). -/
def base64Digit (n : Nat) : UInt8 :=
  (ascii "ABCDEFGHIJKLMNOPQRSTUVWXYZabcdefghijklmnopqrstuvwxyz0123456789+/").getD n 0x3d

/-- The base64 form with padding (RFC 4648). -/
def base64 : GoString → GoString
  | [] => []
  | [a] => [base64Digit (a.toNat / 4), base64Digit (a.toNat % 4 * 16), 0x3d, 0x3d]
  | [a, b] =>
    [base64Digit (a.toNat / 4), base64Digit (a.toNat % 4 * 16 + b.toNat / 16),
      base64Digit (b.toNat % 16 * 4), 0x3d]
  | a :: b :: c :: s =>
    base64Digit (a.toNat / 4) :: base64Digit (a.toNat % 4 * 16 + b.toNat / 16) ::
      base64Digit (b.toNat % 16 * 4 + c.toNat / 64) :: base64Digit (c.toNat % 64) :: base64 s

/-- `value` is how the mapping renders the bytes `s`. -/
def IsMapping (s : GoString) (value : Json.Value) : Prop :=
  (Utf8.IsValid s → value = .string (Utf8.runes s)) ∧
    (¬Utf8.IsValid s → value = .string ((base64 s).map UInt8.toNat))

/-- `s` is rendered as the mapping says, and it can be told from every other value that is rendered
    by the same rule; `carry` is how canal delivers the bytes of the column. -/
def Faithful (carry : GoString → Value) (s : GoString) : Prop :=
  (∃ value, Json.read (appendValue (carry s) false) = some value ∧ IsMapping s value) ∧
    ∀ s', (Utf8.IsValid s' ↔ Utf8.IsValid s) →
      appendValue (carry s') false = appendValue (carry s) false → s' = s

/-! ## What is rendered -/

theorem base64Digit_ascii (n : Nat) : (base64Digit n).toNat < 0x80 := by
  unfold base64Digit
  rw [List.getD_eq_getElem?_getD]
  cases h : (ascii "ABCDEFGHIJKLMNOPQRSTUVWXYZabcdefghijklmnopqrstuvwxyz0123456789+/")[n]? with
  | none => decide
  | some b =>
    have hall : ∀ b ∈ ascii "ABCDEFGHIJKLMNOPQRSTUVWXYZabcdefghijklmnopqrstuvwxyz0123456789+/",
        b.toNat < 0x80 := List.forall_mem_of_all (by decide)
    exact hall b (List.mem_of_getElem? h)

theorem base64_ascii (s : GoString) : ∀ b ∈ base64 s, b.toNat < 0x80 := by
  fun_induction base64 s with
  | case1 => exact fun b hb => nomatch hb
  | case2 a => simp [base64Digit_ascii]
  | case3 a b => simp [base64Digit_ascii]
  | case4 a b c s ih => simpa [base64Digit_ascii] using ih

section

variable {carry : GoString → Value} (hcarry : carry = Value.bytes ∨ carry = Value.string)
include hcarry

/-- The bytes as a text, whatever they are. -/
theorem read_appendValue (s : GoString) :
    Json.read (appendValue (carry s) false) = some (.string (Utf8.runes s)) := by
  have hread := Json.read_string (escapeString_reads s)
  rcases hcarry with rfl | rfl
  · exact hread
  · exact hread

private theorem faithful_carried_iff (s : GoString) : Faithful carry s ↔ Utf8.IsValid s := by
  constructor
  · rintro ⟨⟨value, hread, hmap⟩, -⟩
    by_contra hinvalid
    rw [read_appendValue hcarry, Option.some.injEq] at hread
    -- the base64 form is ASCII, the text has a U+FFFD
    have hchars : Utf8.runes s = (base64 s).map UInt8.toNat := by
      have := hread.trans (hmap.2 hinvalid)
      rwa [Json.Value.string.injEq] at this
    have herror := Utf8.runeError_mem_runes hinvalid
    rw [hchars] at herror
    obtain ⟨b, hb, hbe⟩ := List.mem_map.mp herror
    have hascii := base64_ascii s b hb
    rw [hbe] at hascii
    exact absurd hascii (by decide)
  · intro hvalid
    refine ⟨⟨_, read_appendValue hcarry s, fun _ => rfl, fun h => absurd hvalid h⟩, ?_⟩
    intro s' hiff hsame
    have hread := read_appendValue hcarry s'
    rw [hsame, read_appendValue hcarry s, Option.some.injEq, Json.Value.string.injEq] at hread
    exact Utf8.runes_inj (hiff.mpr hvalid) hvalid hread.symm

end

/-- The mapping is kept exactly by the values that are valid UTF-8: those of BLOB columns, which
    arrive as bytes, and those of BINARY and VARBINARY columns, which arrive as strings. -/
theorem faithful_iff (s : GoString) :
    (Faithful Value.bytes s ↔ Utf8.IsValid s) ∧ (Faithful Value.string s ↔ Utf8.IsValid s) :=
  ⟨faithful_carried_iff (.inl rfl) s, faithful_carried_iff (.inr rfl) s⟩

/-- Two different bytes that are no UTF-8 are rendered alike. -/
theorem bytes_rendered_alike :
    appendValue (.bytes [0xff]) false = appendValue (.bytes [0xfe]) false ∧
      ¬Faithful Value.bytes [0xff] := by
  have hsame : appendValue (.bytes [0xff]) false = appendValue (.bytes [0xfe]) false := by decide
  refine ⟨hsame, ?_⟩
  rintro ⟨⟨value, hread, hmap⟩, -⟩
  have hinvalid : ¬Utf8.IsValid [0xff] := by
    intro hvalid
    exact absurd (Utf8.flatMap_encodeRune_runes hvalid) (by decide)
  rw [hmap.2 hinvalid] at hread
  have : Json.read (appendValue (.bytes [0xff]) false) = some (.string [0xfffd]) :=
    read_appendValue (.inl rfl) [0xff]
  rw [this, Option.some.injEq, Json.Value.string.injEq] at hread
  exact absurd hread (by decide)

end Mysql
