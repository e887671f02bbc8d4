import Watcher.Json.Read
import Watcher.Model.GoString

/-!
# JSON string escaping (`internal/jsonutil`)

`escapeString` writes a string so that it can stand between the quotes of a
JSON string. It ranges over runes, so a byte that is not UTF-8 is written as
U+FFFD, and whatever the input is the result is safe (`escapeString_safe`) and
stands for the runes of the input (`escapeString_reads`).
-/

namespace Jsonutil

/-- A lower-case hexadecimal digit. -/
def hexDigit (n : Nat) : UInt8 := if n < 10 then UInt8.ofNat (0x30 + n) else UInt8.ofNat (0x57 + n)

/-- The verb `%04x`, on the control characters it is used for. -/
def hex4 (c : Nat) : GoString :=
  [hexDigit (c / 4096 % 16), hexDigit (c / 256 % 16), hexDigit (c / 16 % 16), hexDigit (c % 16)]

/-- What `EscapeString` writes for one rune. -/
def escapeRune (c : Nat) : GoString :=
  if c = 0x5c then [0x5c, 0x5c]
  else if c = 0x22 then [0x5c, 0x22]
  else if c = 0x0a then [0x5c, 0x6e]
  else if c = 0x0d then [0x5c, 0x72]
  else if c = 0x09 then [0x5c, 0x74]
  else if c = 0x08 then [0x5c, 0x62]
  else if c = 0x0c then [0x5c, 0x66]
  else if c < 0x20 ∨ c = 0x7f then [0x5c, 0x75] ++ hex4 c
  else Utf8.encodeRune c

/-- `EscapeString` -/
def escapeString (s : GoString) : GoString := (Utf8.runes s).flatMap escapeRune

private theorem isHexDigit_hexDigit (n : Nat) (h : n < 16) :
    Json.isHexDigit (hexDigit n) = true := by
  have hall : ∀ m, m < 16 → Json.isHexDigit (hexDigit m) = true := by decide
  exact hall n h

open Json in
/-- Every rune is written as a backslash escape or as bytes that need none. -/
private theorem escapeRune_safe (c : Nat) : StringSafe (escapeRune c) := by
  simp only [escapeRune]
  repeat' split
  case isTrue | isTrue | isTrue | isTrue | isTrue | isTrue | isTrue => exact fun _ => rfl
  case isTrue =>
    exact StringSafe.unicodeEscape (isHexDigit_hexDigit _ (by omega))
      (isHexDigit_hexDigit _ (by omega)) (isHexDigit_hexDigit _ (by omega))
      (isHexDigit_hexDigit _ (by omega))
  case isFalse hback hquote _ _ _ _ _ hctl =>
    apply StringSafe.bytes
    intro b hb
    by_cases hascii : c < 0x80
    · -- the byte is the rune itself
      simp only [Utf8.encodeRune, hascii, ↓reduceIte, List.mem_cons, List.not_mem_nil,
        or_false] at hb
      subst hb
      refine ⟨?_, ?_, ?_⟩
      · rw [UInt8.le_iff_toNat_le]
        simp only [UInt8.toNat_ofNat']
        have : (0x20 : UInt8).toNat = 0x20 := rfl
        omega
      · intro h
        have := congrArg UInt8.toNat h
        simp only [UInt8.toNat_ofNat'] at this
        have h22 : (0x22 : UInt8).toNat = 0x22 := rfl
        omega
      · intro h
        have := congrArg UInt8.toNat h
        simp only [UInt8.toNat_ofNat'] at this
        have h5c : (0x5c : UInt8).toNat = 0x5c := rfl
        omega
    · -- outside ASCII no byte is a quote, a backslash or a control character
      have hge := Utf8.encodeRune_ge c (by omega) b hb
      refine ⟨?_, ?_, ?_⟩ <;> grind

/-- The escaped form of any string may stand between quotes. -/
theorem escapeString_safe (s : GoString) : Json.StringSafe (escapeString s) :=
  Json.StringSafe.flatMap fun c _ => escapeRune_safe c

/-- The digits of a `\u` escape are read back. -/
private theorem hex4At_hex4 : ∀ c < 0x80, Json.hex4At (hex4 c) = some c := by decide

open Json in
/-- Every rune is written as a character that is read as the rune. -/
private theorem isChar_escapeRune {c : Nat} (h : Utf8.IsScalar c) : IsChar (escapeRune c) c := by
  unfold escapeRune
  refine isChar_ite (by decide) rfl fun hback => isChar_ite (by decide) rfl fun hquote =>
    isChar_ite (by decide) rfl fun _ => isChar_ite (by decide) rfl fun _ =>
    isChar_ite (by decide) rfl fun _ => isChar_ite (by decide) rfl fun _ =>
    isChar_ite (by decide) rfl fun _ => ?_
  -- what has no escape of one letter
  split
  · exact isChar_unicode (hex4At_hex4 c (by omega)) h
  · exact isChar_encodeRune h (by omega) hquote hback

/-- Between quotes, the escaped form of a string is read as the runes of the string. -/
theorem escapeString_reads (s : GoString) : Json.ReadsAs (escapeString s) (Utf8.runes s) :=
  Json.ReadsAs.flatMap fun r hr => isChar_escapeRune (Utf8.runes_scalar s r hr)

end Jsonutil
