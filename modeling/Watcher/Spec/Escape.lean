import Watcher.Json.Text
import Watcher.Model.Escape

/-!
# `EscapeString` is a faithful encoder

Whatever bytes it is given, `escapeString` writes the inside of one JSON string:
it follows the grammar of RFC 8259 (`Json.Body`), it is UTF-8, and in any text
that goes on with a quote it is this quote that closes the string
(`Json.Body.append_quote_inj`). Decoding gives the input back, repaired where it
was not UTF-8 (`Utf8.Repairs`).

`Repairs` says what a repair is without decoding: the encodings of characters
are kept, and a byte at which no encoding starts becomes U+FFFD.
-/

namespace Utf8

open List

/-- The encoding of some character stands at the start of `s`. -/
def StartsChar (s : GoString) : Prop := ∃ r rest, IsScalar r ∧ s = encodeRune r ++ rest

/-- `t` is `s` with each byte that cannot be decoded replaced by U+FFFD. -/
inductive Repairs : (s t : GoString) → Prop where
  | nil : Repairs [] []
  | char {r : Nat} {s t : GoString} (hr : IsScalar r) (h : Repairs s t) :
      Repairs (encodeRune r ++ s) (encodeRune r ++ t)
  | byte {b : UInt8} {s t : GoString} (hno : ¬StartsChar (b :: s)) (h : Repairs s t) :
      Repairs (b :: s) (encodeRune runeError ++ t)

/-- Where decoding meets an error, no character starts: U+FFFD itself takes three bytes. -/
theorem not_startsChar_of_decodeRune {b : UInt8} {s : GoString}
    (h : decodeRune b s = (runeError, 0)) : ¬StartsChar (b :: s) := by
  intro ⟨r, rest, hr, hs⟩
  obtain ⟨b', bs, heq, hdec⟩ := decodeRune_encodeRune hr
  rw [heq, cons_append, List.cons.injEq] at hs
  rw [hs.1, hs.2, hdec rest, Prod.mk.injEq] at h
  have hlength : (encodeRune r).length = bs.length + 1 := by rw [heq, length_cons]
  have hthree : (encodeRune r).length = 3 := by
    rw [h.1]
    rfl
  omega

/-- Reading the runes of a text and writing them repairs it. -/
theorem repairs_runes (s : GoString) : Repairs s ((runes s).flatMap encodeRune) := by
  -- on the length, since a rune takes several bytes
  induction hn : s.length using Nat.strong_induction_on generalizing s with
  | _ n ih =>
    cases s with
    | nil => exact .nil
    | cons b s =>
      rw [length_cons] at hn
      rcases decodeRune_cases b s with herr | ⟨bs, rest, hsplit, hskip, hscalar, hwrite⟩
      · have hruns : runes (b :: s) = runeError :: runes s := by
          rw [runes, runesFrom, herr]
          rfl
        rw [hruns, flatMap_cons]
        exact .byte (not_startsChar_of_decodeRune herr) (ih s.length (by omega) s rfl)
      · have hlength : s.length = bs.length + rest.length := by rw [hsplit, length_append]
        have hbytes : b :: s = encodeRune (decodeRune b s).1 ++ rest := by
          rw [hwrite, cons_append, ← hsplit]
        rw [hbytes, runes_cons hscalar, flatMap_cons]
        exact .char hscalar (ih rest.length (by omega) rest rfl)

/-- There is one way to repair a text. -/
theorem repairs_iff {s t : GoString} : Repairs s t ↔ t = (runes s).flatMap encodeRune := by
  constructor
  · intro h
    induction h with
    | nil => rfl
    | char hr _ ih => rw [runes_cons hr, flatMap_cons, ← ih]
    | @byte b s t hno _ ih =>
      rcases decodeRune_cases b s with herr | ⟨bs, rest, hsplit, _, hscalar, hwrite⟩
      · rw [runes, runesFrom, herr, flatMap_cons, ih]
        rfl
      · -- what is decoded without an error starts with a character
        refine absurd ⟨_, rest, hscalar, ?_⟩ hno
        rw [hwrite, cons_append, ← hsplit]
  · intro h
    rw [h]
    exact repairs_runes s

end Utf8

namespace Json

open List

/-- A quote after a body closes it: it cannot belong to another body. -/
theorem Body.append_quote_inj {t t' rest rest' : List UInt8} (h : Body t) (h' : Body t')
    (heq : t ++ 0x22 :: rest = t' ++ 0x22 :: rest') : t = t' ∧ rest = rest' := by
  -- the first byte, and after a backslash the second, says which piece both start with
  induction h generalizing t' with
  | nil =>
    cases h' with
    | nil => exact ⟨rfl, (List.cons.inj heq).2⟩
    | byte _ hquote _ _ => exact absurd (List.cons.inj heq).1.symm hquote
    | escape => exact absurd (List.cons.inj heq).1 (by decide)
    | unicode => exact absurd (List.cons.inj heq).1 (by decide)
  | byte _ hquote hback _ ih =>
    cases h' with
    | nil => exact absurd (List.cons.inj heq).1 hquote
    | byte _ _ _ hs =>
      obtain ⟨hc, htail⟩ := List.cons.inj heq
      obtain ⟨hs, hrest⟩ := ih hs htail
      exact ⟨by rw [hc, hs], hrest⟩
    | escape => exact absurd (List.cons.inj heq).1 hback
    | unicode => exact absurd (List.cons.inj heq).1 hback
  | escape he _ ih =>
    cases h' with
    | nil => exact absurd (List.cons.inj heq).1 (by decide)
    | byte _ _ hback _ => exact absurd (List.cons.inj heq).1.symm hback
    | escape _ hs =>
      obtain ⟨he', htail⟩ := List.cons.inj (List.cons.inj heq).2
      obtain ⟨hs, hrest⟩ := ih hs htail
      exact ⟨by rw [he', hs], hrest⟩
    | unicode =>
      have hu := (List.cons.inj (List.cons.inj heq).2).1
      rw [hu] at he
      exact nomatch he
  | unicode _ _ _ _ _ ih =>
    cases h' with
    | nil => exact absurd (List.cons.inj heq).1 (by decide)
    | byte _ _ hback _ => exact absurd (List.cons.inj heq).1.symm hback
    | escape he _ =>
      have hu := (List.cons.inj (List.cons.inj heq).2).1
      rw [← hu] at he
      exact nomatch he
    | unicode _ _ _ _ hs =>
      simp only [cons_append, List.cons.injEq, true_and] at heq
      obtain ⟨ha, hb, hc, hd, htail⟩ := heq
      obtain ⟨hs, hrest⟩ := ih hs htail
      exact ⟨by rw [ha, hb, hc, hd, hs], hrest⟩

end Json

namespace Jsonutil

open Json List

theorem escapeString_body (s : GoString) : Body (escapeString s) :=
  stringSafe_iff_body.mp (escapeString_safe s)

/-- Escapes are ASCII, and what is not escaped is written as UTF-8. -/
private theorem isValid_escapeRune (c : Nat) : Utf8.IsValid (escapeRune c) := by
  have hdigit : ∀ n, n < 16 → (hexDigit n).toNat < 0x80 := by decide
  unfold escapeRune
  repeat' split
  case isTrue | isTrue | isTrue | isTrue | isTrue | isTrue | isTrue =>
    exact Utf8.isValid_of_ascii (forall_mem_of_all (by decide))
  case isTrue =>
    apply Utf8.isValid_of_ascii
    intro b hb
    simp only [hex4, cons_append, nil_append, mem_cons, not_mem_nil, or_false] at hb
    rcases hb with rfl | rfl | rfl | rfl | rfl | rfl
    · decide
    · decide
    all_goals exact hdigit _ (by omega)
  case isFalse =>
    have hone := Utf8.isValid_encodeRunes [c]
    rwa [flatMap_singleton] at hone

theorem isValid_escapeString (s : GoString) : Utf8.IsValid (escapeString s) := by
  unfold escapeString
  induction Utf8.runes s with
  | nil => exact ⟨[], rfl⟩
  | cons c cs ih =>
    obtain ⟨xs, hxs⟩ := isValid_escapeRune c
    obtain ⟨ys, hys⟩ := ih
    refine ⟨xs ++ ys, ?_⟩
    rw [flatMap_cons, hxs, hys, Utf8.encode, Utf8.encode, Utf8.encode, flatMap_append]

/-- Texts with the same escaped form have the same runes. -/
theorem runes_eq_of_escapeString_eq {s t : GoString} (h : escapeString s = escapeString t) :
    Utf8.runes s = Utf8.runes t := by
  have hs := escapeString_reads s []
  rw [h, escapeString_reads t []] at hs
  exact (Prod.mk.inj (Option.some.inj hs)).1.symm

/-- Between quotes the escaped form of any bytes is one string token, in UTF-8, that only the
    quote after it closes; it decodes to the bytes, each one that cannot be decoded replaced by
    U+FFFD. On UTF-8 nothing is replaced, and no two texts are written alike. -/
theorem escapeString_faithful (s : GoString) :
    (Body (escapeString s) ∧ Utf8.IsValid (escapeString s)) ∧
    (∀ t rest rest', Body t → escapeString s ++ 0x22 :: rest = t ++ 0x22 :: rest' →
      t = escapeString s ∧ rest' = rest) ∧
    (∃ cs, (∀ rest, readChars 0 (escapeString s ++ 0x22 :: rest) = some (cs, rest)) ∧
      read (0x22 :: escapeString s ++ [0x22]) = some (.string cs) ∧
      (∀ t, Utf8.Repairs s t ↔ t = cs.flatMap Utf8.encodeRune) ∧
      (Utf8.IsValid s → cs.flatMap Utf8.encodeRune = s)) ∧
    (∀ t, Utf8.IsValid s → Utf8.IsValid t → escapeString s = escapeString t → s = t) := by
  refine ⟨⟨escapeString_body s, isValid_escapeString s⟩, ?_, ?_, ?_⟩
  · intro t rest rest' ht heq
    obtain ⟨hbody, hrest⟩ := (escapeString_body s).append_quote_inj ht heq
    exact ⟨hbody.symm, hrest.symm⟩
  · exact ⟨Utf8.runes s, escapeString_reads s, read_string (escapeString_reads s),
      fun _ => Utf8.repairs_iff, Utf8.flatMap_encodeRune_runes⟩
  · intro t hs ht heq
    exact Utf8.runes_inj hs ht (runes_eq_of_escapeString_eq heq)

end Jsonutil
