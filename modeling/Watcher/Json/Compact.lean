import Watcher.Json.Parse

/-!
# Compact texts

`compact` is what Go's encoder does to a text that is handed to it as it is: it
drops the spaces between tokens and writes `<`, `>`, `&`, U+2028 and U+2029 as
escapes. The result is the text of the same value (`Denotes.compact`), compacting
it again changes nothing (`Denotes.compact_idem`), and a text in the middle of
another one is compacted on its own (`Denotes.compact_append`).
-/

namespace Json

open List

/-- Where the compaction is: between tokens, inside a string with `skip` bytes to pass over, or
    right after a backslash. -/
inductive Quoting where
  | outside
  | inside (skip : Nat)
  | escaped
  deriving DecidableEq, Repr

/-- A lower-case hexadecimal digit. -/
def hexLower (n : UInt8) : UInt8 := if n < 10 then 0x30 + n else 0x57 + n

/-- `<`, `>` and `&`. -/
def isHtml (c : UInt8) : Bool := c = 0x3c || c = 0x3e || c = 0x26

/-- The escape of a byte below 0x100. -/
def byteEscape (c : UInt8) : List UInt8 :=
  [0x5c, 0x75, 0x30, 0x30, hexLower (c >>> 4), hexLower (c &&& 0xf)]

/-- The last byte of U+2028 or U+2029, if the text goes on with them after the byte E2. -/
def separatorAt : List UInt8 → Option UInt8
  | a :: b :: _ => if a = 0x80 ∧ (b = 0xa8 ∨ b = 0xa9) then some b else none
  | _ => none

/-- The escape of U+2028 or U+2029, by its last byte. -/
def separatorEscape (c : UInt8) : List UInt8 :=
  [0x5c, 0x75, 0x32, 0x30, 0x32, hexLower (c &&& 0xf)]

/-- The compaction from a place on. -/
def compactFrom : Quoting → List UInt8 → List UInt8
  | _, [] => []
  | .outside, c :: s =>
    if isSpace c then compactFrom .outside s
    else c :: compactFrom (if c = 0x22 then .inside 0 else .outside) s
  | .escaped, c :: s => c :: compactFrom (.inside 0) s
  | .inside (skip + 1), _ :: s => compactFrom (.inside skip) s
  | .inside 0, c :: s =>
    if c = 0x22 then c :: compactFrom .outside s
    else if c = 0x5c then c :: compactFrom .escaped s
    else if isHtml c then byteEscape c ++ compactFrom (.inside 0) s
    else
      match if c = 0xe2 then separatorAt s else none with
      | some b => separatorEscape b ++ compactFrom (.inside 2) s
      | none => c :: compactFrom (.inside 0) s

/-- The `compact` of `encoding/json`, with HTML escaping. -/
def compact (s : List UInt8) : List UInt8 := compactFrom .outside s

/-- What becomes of the bytes between the quotes of a string. -/
def compactBody (t : List UInt8) : List UInt8 := compactFrom (.inside 0) t

/-! ### Strings -/

theorem compactBody_escape (e : UInt8) (s : List UInt8) :
    compactBody (0x5c :: e :: s) = 0x5c :: e :: compactBody s := rfl

variable {b c : UInt8} {t : List UInt8} {d : Nat} {v : Value}

/-- What is taken for a separator is one. -/
theorem separatorAt_eq_some {s : List UInt8} (h : separatorAt s = some b) :
    (b = 0xa8 ∨ b = 0xa9) ∧ ∃ t, s = 0x80 :: b :: t := by
  rcases s with _ | ⟨x, _ | ⟨y, t⟩⟩
  · exact nomatch h
  · exact nomatch h
  · rw [separatorAt] at h
    split at h
    · rename_i hbytes
      injection h with h
      subst h
      exact ⟨hbytes.2, t, by rw [hbytes.1]⟩
    · exact nomatch h

/-- A byte that no rewriting concerns. -/
theorem compactBody_byte {s : List UInt8} (hquote : c ≠ 0x22) (hback : c ≠ 0x5c)
    (hhtml : isHtml c = false) (hsep : c = 0xe2 → separatorAt s = none) :
    compactBody (c :: s) = c :: compactBody s := by
  have hnone : (if c = 0xe2 then separatorAt s else none) = none := by
    split
    · rename_i hlead
      exact hsep hlead
    · rfl
  rw [compactBody, compactFrom, if_neg hquote, if_neg hback, if_neg (by simp [hhtml]), hnone]
  rfl

/-- `<`, `>` and `&`. -/
theorem compactBody_html (hhtml : isHtml c = true) (s : List UInt8) :
    compactBody (c :: s) = byteEscape c ++ compactBody s := by
  have hquote : c ≠ 0x22 := by
    rintro rfl
    exact nomatch hhtml
  have hback : c ≠ 0x5c := by
    rintro rfl
    exact nomatch hhtml
  rw [compactBody, compactFrom, if_neg hquote, if_neg hback, if_pos hhtml]
  rfl

/-- U+2028 and U+2029. -/
theorem compactBody_separator (hb : b = 0xa8 ∨ b = 0xa9) (s : List UInt8) :
    compactBody (0xe2 :: 0x80 :: b :: s) = separatorEscape b ++ compactBody s := by
  rcases hb with rfl | rfl <;> rfl

/-- A hex digit stays. -/
theorem compactBody_hexDigit (h : isHexDigit c = true) (s : List UInt8) :
    compactBody (c :: s) = c :: compactBody s := by
  simp only [isHexDigit, isDigit, Bool.or_eq_true, Bool.and_eq_true, decide_eq_true_eq] at h
  apply compactBody_byte
  · grind
  · grind
  · simp only [isHtml]
    grind
  · grind

/-- And so a `\u` escape stays. -/
theorem compactBody_unicode {a d : UInt8} (ha : isHexDigit a = true) (hb : isHexDigit b = true)
    (hc : isHexDigit c = true) (hd : isHexDigit d = true) (s : List UInt8) :
    compactBody (0x5c :: 0x75 :: a :: b :: c :: d :: s) =
      0x5c :: 0x75 :: a :: b :: c :: d :: compactBody s := by
  rw [compactBody_escape, compactBody_hexDigit ha, compactBody_hexDigit hb, compactBody_hexDigit hc,
    compactBody_hexDigit hd]

/-- `piece` is the `\u` escape of a character, and not half of a pair of surrogates. -/
structure IsUnicode (piece : List UInt8) (u : Nat) : Prop where
  digits : ∃ a b c d, piece = [0x5c, 0x75, a, b, c, d] ∧ isHexDigit a = true ∧
    isHexDigit b = true ∧ isHexDigit c = true ∧ isHexDigit d = true ∧
    ∀ s, hex4At (a :: b :: c :: d :: s) = some u
  scalar : Utf8.IsScalar u

/-- The escapes of `<`, `>` and `&`. -/
theorem isUnicode_htmlEscape (h : isHtml c = true) : IsUnicode (byteEscape c) c.toNat := by
  simp only [isHtml, Bool.or_eq_true, decide_eq_true_eq] at h
  rcases h with (rfl | rfl) | rfl
  all_goals exact ⟨⟨_, _, _, _, rfl, rfl, rfl, rfl, rfl, fun _ => rfl⟩, .inl (by decide)⟩

/-- The escapes of the separators. -/
theorem isUnicode_separatorEscape (hb : b = 0xa8 ∨ b = 0xa9) :
    IsUnicode (separatorEscape b) (0x1f80 + b.toNat) := by
  rcases hb with rfl | rfl
  all_goals exact ⟨⟨_, _, _, _, rfl, rfl, rfl, rfl, rfl, fun _ => rfl⟩, .inl (by decide)⟩

namespace IsUnicode

variable {piece : List UInt8} {u : Nat} (h : IsUnicode piece u)

include h

theorem body {s : List UInt8} (hs : Body s) : Body (piece ++ s) := by
  obtain ⟨a, b, c, d, rfl, ha, hb, hc, hd, -⟩ := h.digits
  exact .unicode ha hb hc hd hs

/-- An escape is not rewritten. -/
theorem compactBody (s : List UInt8) : compactBody (piece ++ s) = piece ++ compactBody s := by
  obtain ⟨a, b, c, d, rfl, ha, hb, hc, hd, -⟩ := h.digits
  exact compactBody_unicode ha hb hc hd s

theorem takeWhile (s : List UInt8) : (piece ++ s).takeWhile Utf8.isContinuation = [] := by
  obtain ⟨a, b, c, d, rfl, -⟩ := h.digits
  rfl

/-- It is not the second half of a pair. -/
theorem lowSurrogateAt (s : List UInt8) : lowSurrogateAt (piece ++ s) = none := by
  obtain ⟨a, b, c, d, rfl, -, -, -, -, hu⟩ := h.digits
  have hrange : (decide (0xdc00 ≤ u) && decide (u < 0xe000)) = false := by
    have hscalar := h.scalar
    rw [Utf8.IsScalar] at hscalar
    rw [Bool.and_eq_false_iff, decide_eq_false_iff_not, decide_eq_false_iff_not]
    omega
  show Json.lowSurrogateAt (0x5c :: 0x75 :: a :: b :: c :: d :: s) = none
  simp only [Json.lowSurrogateAt, hu, Option.filter, hrange]
  rfl

/-- It is read as its character. -/
theorem readChars (s : List UInt8) :
    readChars 0 (piece ++ s) = (readChars 0 s).map fun (cs, rest) => (u :: cs, rest) := by
  obtain ⟨a, b, c, d, rfl, -, -, -, -, hu⟩ := h.digits
  have hchar : unicodeChar u (Json.lowSurrogateAt s) = (u, 5) := by
    have hscalar := h.scalar
    rw [Utf8.IsScalar] at hscalar
    unfold unicodeChar
    rw [if_neg (by omega), if_neg (by omega)]
  show Json.readChars 0 (0x5c :: 0x75 :: a :: b :: c :: d :: s) = _
  rw [readChars_unicode (hu s), hchar]
  rfl

end IsUnicode

theorem Body.of_separator (hb : b = 0xa8 ∨ b = 0xa9) (h : Body (0x80 :: b :: t)) : Body t := by
  cases h with
  | byte _ _ _ h =>
    rcases hb with rfl | rfl
    all_goals
      cases h with
      | byte _ _ _ h => exact h

/-- Induction over a body by the pieces that the compaction treats as one. -/
@[elab_as_elim]
theorem Body.pieces {motive : (t : List UInt8) → Body t → Prop} (nil : motive [] .nil)
    (plain : ∀ {c : UInt8} {s : List UInt8} (hctl : 0x20 ≤ c) (hquote : c ≠ 0x22) (hback : c ≠ 0x5c)
      (h : Body s), isHtml c = false → (c = 0xe2 → separatorAt s = none) → motive s h →
      motive (c :: s) (.byte hctl hquote hback h))
    (html : ∀ {c : UInt8} {s : List UInt8} (hctl : 0x20 ≤ c) (hquote : c ≠ 0x22) (hback : c ≠ 0x5c)
      (h : Body s), isHtml c = true → motive s h → motive (c :: s) (.byte hctl hquote hback h))
    (separator : ∀ {b : UInt8} {s : List UInt8} (h : Body s) (h' : Body (0xe2 :: 0x80 :: b :: s)),
      (b = 0xa8 ∨ b = 0xa9) → motive s h → motive (0xe2 :: 0x80 :: b :: s) h')
    (escape : ∀ {e : UInt8} {r : Nat} {s : List UInt8} (he : simpleEscape e = some r) (h : Body s),
      motive s h → motive (0x5c :: e :: s) (.escape he h))
    (unicode : ∀ {a b c d : UInt8} {s : List UInt8} (ha : isHexDigit a = true)
      (hb : isHexDigit b = true) (hc : isHexDigit c = true) (hd : isHexDigit d = true) (h : Body s),
      motive s h → motive (0x5c :: 0x75 :: a :: b :: c :: d :: s) (.unicode ha hb hc hd h))
    {t : List UInt8} (h : Body t) : motive t h := by
  -- on the length: a separator is three bytes of the body at once
  induction hn : t.length using Nat.strongRecOn generalizing t with
  | ind n ih =>
    subst hn
    have hsmaller : ∀ {s : List UInt8} (h : Body s), s.length < t.length → motive s h :=
      fun h hlt => ih _ hlt h rfl
    cases h with
    | nil => exact nil
    | @byte c s hctl hquote hback h =>
      cases hhtml : isHtml c with
      | true => exact html hctl hquote hback h hhtml (hsmaller h (by simp))
      | false =>
        by_cases hsep : c = 0xe2 → separatorAt s = none
        · exact plain hctl hquote hback h hhtml hsep (hsmaller h (by simp))
        · obtain ⟨rfl, hsome⟩ := Classical.not_imp.mp hsep
          obtain ⟨b, hat⟩ := Option.ne_none_iff_exists'.mp hsome
          obtain ⟨hb, t, rfl⟩ := separatorAt_eq_some hat
          have ht := Body.of_separator hb h
          exact separator ht _ hb (hsmaller ht (by simp only [length_cons]; omega))
    | escape he h => exact escape he h (hsmaller h (by simp only [length_cons]; omega))
    | unicode ha hb hc hd h =>
      exact unicode ha hb hc hd h (hsmaller h (by simp only [length_cons]; omega))

/-- A quote is no part of a separator. -/
theorem separatorAt_append (s rest : List UInt8) :
    separatorAt (s ++ 0x22 :: rest) = separatorAt s := by
  rcases s with _ | ⟨a, _ | ⟨b, s⟩⟩
  · cases rest <;> rfl
  · exact if_neg fun h => by simp at h
  · rfl

/-- A body is rewritten up to its closing quote. -/
theorem Body.compactBody_append (h : Body t) (rest : List UInt8) :
    compactBody (t ++ 0x22 :: rest) = compactBody t ++ 0x22 :: compact rest := by
  induction h using Body.pieces with
  | nil => rfl
  | @plain c s _ hquote hback _ hhtml hsep ih =>
    have hsep' : c = 0xe2 → separatorAt (s ++ 0x22 :: rest) = none := by
      rw [separatorAt_append]
      exact hsep
    rw [cons_append, compactBody_byte hquote hback hhtml hsep', ih,
      compactBody_byte hquote hback hhtml hsep, cons_append]
  | html _ _ _ _ hhtml ih =>
    rw [cons_append, compactBody_html hhtml, ih, compactBody_html hhtml, append_assoc]
  | separator _ _ hb ih =>
    simp only [cons_append, compactBody_separator hb, ih, append_assoc]
  | escape he _ ih => simp only [cons_append, compactBody_escape, ih]
  | unicode ha hb hc hd _ ih => simp only [cons_append, compactBody_unicode ha hb hc hd, ih]

/-- Continuation bytes stay where they are. -/
theorem Body.takeWhile_compactBody (h : Body t) :
    (compactBody t).takeWhile Utf8.isContinuation = t.takeWhile Utf8.isContinuation := by
  induction h using Body.pieces with
  | nil => rfl
  | @plain c s _ hquote hback _ hhtml hsep ih =>
    rw [compactBody_byte hquote hback hhtml hsep, takeWhile_cons, takeWhile_cons, ih]
  | @html c s _ _ _ _ hhtml _ =>
    have hc : Utf8.isContinuation c = false := by
      simp only [isHtml, Bool.or_eq_true, decide_eq_true_eq] at hhtml
      rcases hhtml with (rfl | rfl) | rfl <;> rfl
    rw [compactBody_html hhtml, (isUnicode_htmlEscape hhtml).takeWhile,
      takeWhile_cons_of_neg (by simp [hc])]
  | separator _ _ hb _ =>
    rw [compactBody_separator hb, (isUnicode_separatorEscape hb).takeWhile]
    rfl
  | escape => rfl
  | unicode ha hb hc hd => rw [compactBody_unicode ha hb hc hd]; rfl

theorem Body.decodeRune_compactBody (h : Body t) (b : UInt8) :
    Utf8.decodeRune b (compactBody t) = Utf8.decodeRune b t := by
  rw [← Utf8.decodeRune_takeWhile, h.takeWhile_compactBody, Utf8.decodeRune_takeWhile]

/-- No escape that the compaction writes is a surrogate, and none goes away. -/
theorem Body.lowSurrogateAt_compactBody (h : Body t) :
    lowSurrogateAt (compactBody t) = lowSurrogateAt t := by
  -- only a backslash begins an escape
  have hnone : ∀ {c : UInt8} (s : List UInt8), c ≠ 0x5c → lowSurrogateAt (c :: s) = none := by
    intro c s hc
    cases s with
    | nil => rfl
    | cons e s => exact if_neg fun h => hc h.1
  induction h using Body.pieces with
  | nil => rfl
  | plain _ hquote hback _ hhtml hsep _ =>
    rw [compactBody_byte hquote hback hhtml hsep, hnone _ hback, hnone _ hback]
  | html _ _ hback _ hhtml _ =>
    rw [compactBody_html hhtml, hnone _ hback, (isUnicode_htmlEscape hhtml).lowSurrogateAt]
  | separator _ _ hb _ =>
    rw [compactBody_separator hb, hnone _ (by decide),
      (isUnicode_separatorEscape hb).lowSurrogateAt]
  | @escape e r s he _ _ =>
    have hother : ¬((0x5c : UInt8) = 0x5c ∧ e = 0x75) := by
      rintro ⟨-, rfl⟩
      exact nomatch he
    rw [compactBody_escape, lowSurrogateAt, if_neg hother, lowSurrogateAt, if_neg hother]
  | unicode ha hb hc hd _ _ =>
    obtain ⟨u, hu⟩ := hex4At_of_isHexDigit ha hb hc hd
    rw [compactBody_unicode ha hb hc hd]
    simp only [lowSurrogateAt, hu]

/-- What comes out is a body. -/
theorem Body.compactBody (h : Body t) : Body (compactBody t) := by
  induction h using Body.pieces with
  | nil => exact .nil
  | plain hctl hquote hback _ hhtml hsep ih =>
    rw [compactBody_byte hquote hback hhtml hsep]
    exact .byte hctl hquote hback ih
  | html _ _ _ _ hhtml ih =>
    rw [compactBody_html hhtml]
    exact (isUnicode_htmlEscape hhtml).body ih
  | separator _ _ hb ih =>
    rw [compactBody_separator hb]
    exact (isUnicode_separatorEscape hb).body ih
  | escape he _ ih => exact .escape he ih
  | unicode ha hb hc hd _ ih =>
    rw [compactBody_unicode ha hb hc hd]
    exact .unicode ha hb hc hd ih

theorem separatorAt_takeWhile (s : List UInt8) :
    separatorAt (s.takeWhile Utf8.isContinuation) = separatorAt s := by
  rcases s with _ | ⟨a, _ | ⟨b, s⟩⟩
  · rfl
  · cases ha : Utf8.isContinuation a <;> simp [ha, separatorAt]
  · cases ha : Utf8.isContinuation a with
    | false =>
      have hne : a ≠ 0x80 := by
        rintro rfl
        exact nomatch ha
      rw [takeWhile_cons_of_neg (by simp [ha])]
      exact (if_neg fun h => hne h.1).symm
    | true =>
      cases hb : Utf8.isContinuation b with
      | false =>
        have hne : ¬(b = 0xa8 ∨ b = 0xa9) := by
          rintro (rfl | rfl) <;> exact nomatch hb
        rw [takeWhile_cons_of_pos ha, takeWhile_cons_of_neg (by simp [hb])]
        exact (if_neg fun h => hne h.2).symm
      | true =>
        rw [takeWhile_cons_of_pos ha, takeWhile_cons_of_pos hb]
        rfl

/-- Rewriting a body that was rewritten changes nothing. -/
theorem Body.compactBody_idem (h : Body t) :
    Json.compactBody (Json.compactBody t) = Json.compactBody t := by
  -- what follows E2 afterwards is what followed it before
  have hsep : ∀ {t : List UInt8}, Body t → separatorAt t = none →
      separatorAt (Json.compactBody t) = none := by
    intro t ht hnone
    rw [← separatorAt_takeWhile, ht.takeWhile_compactBody, separatorAt_takeWhile, hnone]
  induction h using Body.pieces with
  | nil => rfl
  | plain _ hquote hback hs hhtml hsep' ih =>
    rw [compactBody_byte hquote hback hhtml hsep',
      compactBody_byte hquote hback hhtml fun hlead => hsep hs (hsep' hlead), ih]
  | html _ _ _ _ hhtml ih =>
    rw [compactBody_html hhtml, (isUnicode_htmlEscape hhtml).compactBody, ih]
  | separator _ _ hb ih =>
    rw [compactBody_separator hb, (isUnicode_separatorEscape hb).compactBody, ih]
  | escape _ _ ih => rw [compactBody_escape, compactBody_escape, ih]
  | unicode ha hb hc hd _ ih =>
    rw [compactBody_unicode ha hb hc hd, compactBody_unicode ha hb hc hd, ih]

/-- The characters are the same, also when the first bytes are to be skipped. -/
private theorem Body.readChars_compactBody (h : Body t) (rest : List UInt8) :
    ∀ k, Skips k t →
      readChars k (Json.compactBody t ++ 0x22 :: rest) = readChars k (t ++ 0x22 :: rest) := by
  -- what is skipped is either continuation bytes, which stay, or a whole escape
  induction h using Body.pieces with
  | nil => exact fun _ _ => rfl
  | @plain c s hctl hquote hback hs hhtml hsep ih =>
    intro k hk
    rw [compactBody_byte hquote hback hhtml hsep, cons_append, cons_append]
    cases k with
    | zero =>
      rw [readChars_byte hctl hquote hback, readChars_byte hctl hquote hback,
        Utf8.decodeRune_append_cons not_isContinuation_quote,
        Utf8.decodeRune_append_cons not_isContinuation_quote, hs.decodeRune_compactBody,
        ih _ (.inl (Utf8.decodeRune_snd_le c s))]
    | succ k => exact ih k (hk.byte hback).2
  | @html c s hctl hquote hback _ hhtml ih =>
    intro k hk
    have hdecode : Utf8.isContinuation c = false ∧
        ∀ s, Utf8.decodeRune c s = (c.toNat, 0) := by
      simp only [isHtml, Bool.or_eq_true, decide_eq_true_eq] at hhtml
      rcases hhtml with (rfl | rfl) | rfl <;> exact ⟨rfl, fun _ => rfl⟩
    cases k with
    | zero =>
      rw [compactBody_html hhtml, append_assoc, (isUnicode_htmlEscape hhtml).readChars,
        cons_append, readChars_byte hctl hquote hback, hdecode.2, ih 0 (.zero s)]
    | succ k =>
      rw [(hk.byte hback).1] at hdecode
      exact nomatch hdecode.1
  | @separator b s _ _ hb ih =>
    intro k hk
    cases k with
    | zero =>
      have hdecode : ∀ s, Utf8.decodeRune 0xe2 (0x80 :: b :: s) = (0x1f80 + b.toNat, 2) := by
        rcases hb with rfl | rfl <;> exact fun _ => rfl
      rw [compactBody_separator hb, append_assoc, (isUnicode_separatorEscape hb).readChars,
        cons_append, readChars_byte (by decide) (by decide) (by decide)]
      simp only [cons_append, hdecode, ih 0 (.zero s)]
      rfl
    | succ k => exact nomatch (hk.byte (by decide)).1
  | @escape e r s he _ ih =>
    intro k hk
    rcases hk.backslash with rfl | ⟨-, rfl⟩
    · simp only [compactBody_escape, cons_append, readChars_escape he, ih 0 (.zero s)]
    · exact nomatch he
  | @unicode a b c d s ha hb hc hd hs ih =>
    intro k hk
    rw [compactBody_unicode ha hb hc hd]
    rcases hk.backslash with rfl | ⟨rfl, -⟩
    · obtain ⟨u, hu⟩ := hex4At_of_isHexDigit ha hb hc hd
      simp only [cons_append]
      rw [readChars_unicode (hu _), readChars_unicode (hu _), hs.compactBody.lowSurrogateAt_append,
        hs.lowSurrogateAt_append, hs.lowSurrogateAt_compactBody, ih _ (skips_unicodeChar u s)]
    · exact ih 0 (.zero s)

/-- The rewritten body stands for the same characters. -/
theorem Body.reads_compactBody (h : Body t) {cs : List Nat} (hcs : ReadsAs t cs) :
    ReadsAs (Json.compactBody t) cs := by
  intro rest
  rw [h.readChars_compactBody rest 0 (.zero t), hcs rest]

/-! ### Values -/

@[simp] theorem compact_nil : compact [] = [] := rfl

/-- A token of one byte, or the first byte of another one. -/
theorem compact_cons (hspace : isSpace c = false) (hquote : c ≠ 0x22) (s : List UInt8) :
    compact (c :: s) = c :: compact s := by
  rw [compact, compactFrom, if_neg (by simp [hspace]), if_neg hquote]
  rfl

/-- Spaces between tokens are dropped. -/
theorem compact_spaces (sp : Spaces) (s : List UInt8) : compact (sp.1 ++ s) = compact s := by
  obtain ⟨sp, hsp⟩ := sp
  induction sp with
  | nil => rfl
  | cons c sp ih =>
    show compact (c :: (sp ++ s)) = compact s
    rw [compact, compactFrom, if_pos (hsp c mem_cons_self)]
    exact ih fun c hc => hsp c (mem_cons_of_mem _ hc)

theorem compact_string (h : Body t) (rest : List UInt8) :
    compact (0x22 :: (t ++ 0x22 :: rest)) = 0x22 :: (compactBody t ++ 0x22 :: compact rest) := by
  rw [← h.compactBody_append]
  rfl

/-- An atom stays. -/
theorem compact_atom (h : ∀ c ∈ t, isAtomByte c = true) (rest : List UInt8) :
    compact (t ++ rest) = t ++ compact rest := by
  induction t with
  | nil => rfl
  | cons c t ih =>
    obtain ⟨-, hspace, hquote, -⟩ := isAtomByte_spec (h c mem_cons_self)
    rw [cons_append, compact_cons hspace hquote,
      ih fun c hc => h c (mem_cons_of_mem _ hc), cons_append]

/-- A text that is compacted on its own when others follow it. -/
def Compacts (t : List UInt8) : Prop := ∀ rest, compact (t ++ rest) = compact t ++ compact rest

theorem compact_element {e : Element} (h : Compacts e.text) (rest : List UInt8) :
    compact (e.bytes ++ rest) = compact e.text ++ compact rest := by
  rw [Element.bytes, append_assoc, append_assoc, compact_spaces, h, compact_spaces]

theorem compact_member {m : Member} (h : Compacts m.text) (rest : List UInt8) :
    compact (m.bytes ++ rest) =
      0x22 :: (compactBody m.name ++ 0x22 :: 0x3a :: compact m.text) ++ compact rest := by
  simp only [Member.bytes, append_assoc, cons_append]
  rw [compact_spaces, compact_string m.body, compact_spaces, compact_cons rfl (by decide),
    compact_element h]

/-- Pieces between commas, up to a closing bracket or brace. -/
theorem compact_commas {α : Type _} {bytes text : α → List UInt8} {as : List α}
    (h : ∀ a ∈ as, ∀ rest, compact (bytes a ++ rest) = text a ++ compact rest)
    (hspace : isSpace c = false) (hquote : c ≠ 0x22) (rest : List UInt8) :
    compact (commas (as.map bytes) ++ c :: rest) = commas (as.map text) ++ c :: compact rest := by
  induction as with
  | nil => exact compact_cons hspace hquote rest
  | cons a as ih =>
    have ha := h a mem_cons_self
    cases as with
    | nil =>
      show compact (bytes a ++ c :: rest) = text a ++ c :: compact rest
      rw [ha, compact_cons hspace hquote]
    | cons b as =>
      have htail := ih fun b hb => h b (mem_cons_of_mem a hb)
      simp only [map_cons, commas, append_assoc, cons_append] at htail ⊢
      rw [ha, compact_cons rfl (by decide), htail]

/-- An array and what follows it. -/
theorem compact_array (sp : Spaces) {es : List Element} (h : ∀ e ∈ es, Compacts e.text)
    (rest : List UInt8) :
    compact (0x5b :: (sp.1 ++ commas (es.map Element.bytes) ++ [0x5d]) ++ rest) =
      0x5b :: (commas (es.map fun e => compact e.text) ++ 0x5d :: compact rest) := by
  simp only [append_assoc, cons_append, nil_append]
  rw [compact_cons rfl (by decide), compact_spaces,
    compact_commas (fun e he => compact_element (h e he)) rfl (by decide)]

/-- An object and what follows it. -/
theorem compact_object (sp : Spaces) {ms : List Member} (h : ∀ m ∈ ms, Compacts m.text)
    (rest : List UInt8) :
    compact (0x7b :: (sp.1 ++ commas (ms.map Member.bytes) ++ [0x7d]) ++ rest) =
      0x7b :: (commas (ms.map fun m =>
        0x22 :: (compactBody m.name ++ 0x22 :: 0x3a :: compact m.text)) ++
        0x7d :: compact rest) := by
  simp only [append_assoc, cons_append, nil_append]
  rw [compact_cons rfl (by decide), compact_spaces,
    compact_commas (fun m hm => compact_member (h m hm)) rfl (by decide)]

/-- The text of a value is compacted on its own, whatever follows it. -/
theorem Denotes.compact_append (h : Denotes d t v) : Compacts t := by
  induction h with
  | @atom d t h =>
    intro rest
    have hself : compact t = t := by
      rw [← append_nil t, compact_atom h.bytes]
      rfl
    rw [compact_atom h.bytes, hself]
  | string hbody hreads =>
    intro rest
    simp only [cons_append, append_assoc, nil_append]
    rw [compact_string hbody, compact_string hbody]
    simp only [cons_append, append_assoc, nil_append, compact_nil]
  | array sp es _ ih =>
    intro rest
    have hself := compact_array sp ih []
    rw [append_nil] at hself
    rw [compact_array sp ih, hself]
    simp only [cons_append, append_assoc, nil_append, compact_nil]
  | object sp ms _ ih =>
    intro rest
    have hself := compact_object sp ih []
    rw [append_nil] at hself
    rw [compact_object sp ih, hself]
    simp only [cons_append, append_assoc, nil_append, compact_nil]

/-- The element as the compaction leaves it. -/
def Element.compacted (e : Element) : Element := ⟨.none, compact e.text, e.value, .none⟩

@[simp] theorem Element.bytes_compacted (e : Element) : e.compacted.bytes = compact e.text := by
  rw [bytes, compacted, Spaces.val_none, nil_append, append_nil]

/-- The member as the compaction leaves it. -/
def Member.compacted (m : Member) : Member where
  toElement := m.toElement.compacted
  beforeName := .none
  name := compactBody m.name
  key := m.key
  afterName := .none
  body := m.body.compactBody
  reads := m.body.reads_compactBody m.reads

/-- Its bytes. -/
@[simp] theorem Member.bytes_compacted (m : Member) : m.compacted.bytes =
    0x22 :: (compactBody m.name ++ 0x22 :: 0x3a :: compact m.text) := by
  rw [bytes, compacted, Element.bytes_compacted]
  rfl

theorem Denotes.compact_array (sp : Spaces) {es : List Element}
    (h : ∀ e ∈ es, Denotes d e.text e.value) :
    compact (0x5b :: (sp.1 ++ commas (es.map Element.bytes) ++ [0x5d])) =
      0x5b :: (Spaces.none.1 ++ commas ((es.map Element.compacted).map Element.bytes) ++
        [0x5d]) := by
  have hself := Json.compact_array sp (fun e he => (h e he).compact_append) []
  have hbytes : Element.bytes ∘ Element.compacted = fun e => compact e.text :=
    funext Element.bytes_compacted
  rw [append_nil] at hself
  rw [hself, map_map, hbytes]
  rfl

theorem Denotes.compact_object (sp : Spaces) {ms : List Member}
    (h : ∀ m ∈ ms, Denotes d m.text m.value) :
    compact (0x7b :: (sp.1 ++ commas (ms.map Member.bytes) ++ [0x7d])) =
      0x7b :: (Spaces.none.1 ++ commas ((ms.map Member.compacted).map Member.bytes) ++ [0x7d]) := by
  have hself := Json.compact_object sp (fun m hm => (h m hm).compact_append) []
  have hbytes : Member.bytes ∘ Member.compacted = fun m =>
      0x22 :: (compactBody m.name ++ 0x22 :: 0x3a :: compact m.text) :=
    funext Member.bytes_compacted
  rw [append_nil] at hself
  rw [hself, map_map, hbytes]
  rfl

/-- The compacted text is the text of the same value. -/
theorem Denotes.compact (h : Denotes d t v) : Denotes d (compact t) v := by
  induction h with
  | @atom d t h =>
    rw [← append_nil t, compact_atom h.bytes, compact_nil, append_nil]
    exact .atom h
  | string hbody hreads =>
    rw [compact_string hbody, compact_nil]
    exact .string hbody.compactBody (hbody.reads_compactBody hreads)
  | array sp es h ih =>
    have hvalues : es.map Element.value = (es.map Element.compacted).map Element.value := by
      rw [map_map]
      rfl
    rw [Denotes.compact_array sp h, hvalues]
    exact .array .none _ (forall_mem_map.mpr ih)
  | object sp ms h ih =>
    have hvalues : (ms.map fun m => (m.key, m.value)) =
        (ms.map Member.compacted).map fun m => (m.key, m.value) := by
      rw [map_map]
      rfl
    rw [Denotes.compact_object sp h, hvalues]
    exact .object .none _ (forall_mem_map.mpr ih)

/-- Compacting a compacted text changes nothing. -/
theorem Denotes.compact_idem (h : Denotes d t v) :
    Json.compact (Json.compact t) = Json.compact t := by
  induction h with
  | @atom d t h =>
    have hself : Json.compact t = t := by
      rw [← append_nil t, compact_atom h.bytes]
      rfl
    rw [hself, hself]
  | string hbody hreads =>
    rw [compact_string hbody, compact_nil, compact_string hbody.compactBody,
      hbody.compactBody_idem, compact_nil]
  | array sp es h ih =>
    rw [Denotes.compact_array sp h,
      Denotes.compact_array .none (forall_mem_map.mpr fun e he => (h e he).compact)]
    congr 4
    rw [map_map, map_map, map_map]
    apply map_congr_left
    intro e he
    show e.compacted.compacted.bytes = e.compacted.bytes
    rw [Element.bytes_compacted, Element.bytes_compacted]
    exact ih e he
  | object sp ms h ih =>
    rw [Denotes.compact_object sp h,
      Denotes.compact_object .none (forall_mem_map.mpr fun m hm => (h m hm).compact)]
    congr 4
    rw [map_map, map_map, map_map]
    apply map_congr_left
    intro m hm
    -- the name and the value of a member are compacted on their own
    have hname : compactBody (compactBody m.name) = compactBody m.name := m.body.compactBody_idem
    have htext : Json.compact (Json.compact m.text) = Json.compact m.text := ih m hm
    show m.compacted.compacted.bytes = m.compacted.bytes
    rw [Member.bytes_compacted, Member.bytes_compacted]
    show 0x22 :: (compactBody (compactBody m.name) ++ 0x22 :: 0x3a ::
      Json.compact (Json.compact m.text)) = _
    rw [hname, htext]

end Json
