import Watcher.ForStd.List
import Watcher.Json.Read

/-!
# The text of a string

`Body` is the grammar of what may stand between the quotes of a string, byte by
byte and escape by escape. It is what the scanner accepts there
(`stringSafe_iff_body`, `body_of_run`), and every body stands for some
characters (`Body.exists_reads`).

A character may take several bytes: continuation bytes, an escape, or two escapes
that are a pair of surrogates. So what is proved about reading a body is proved
for every number of bytes that may be left of the character before it (`Skips`).
-/

namespace Json

open Scanner List

/-- What may stand between the quotes of a string. -/
inductive Body : List UInt8 → Prop where
  | nil : Body []
  | byte {c : UInt8} {s : List UInt8} (hctl : 0x20 ≤ c) (hquote : c ≠ 0x22) (hback : c ≠ 0x5c)
      (h : Body s) : Body (c :: s)
  | escape {e : UInt8} {r : Nat} {s : List UInt8} (he : simpleEscape e = some r) (h : Body s) :
      Body (0x5c :: e :: s)
  | unicode {a b c d : UInt8} {s : List UInt8} (ha : isHexDigit a = true)
      (hb : isHexDigit b = true) (hc : isHexDigit c = true) (hd : isHexDigit d = true)
      (h : Body s) : Body (0x5c :: 0x75 :: a :: b :: c :: d :: s)

/-! ### Bodies and the scanner -/

/-- The escapes that the scanner knows besides `\u`. -/
theorem simpleEscape_isSome_iff (e : UInt8) : (∃ r, simpleEscape e = some r) ↔
    e = 0x62 ∨ e = 0x66 ∨ e = 0x6e ∨ e = 0x72 ∨ e = 0x74 ∨ e = 0x5c ∨ e = 0x2f ∨ e = 0x22 := by
  unfold simpleEscape
  constructor
  · rintro ⟨r, hr⟩
    repeat' split at hr
    all_goals grind
  · intro h
    repeat' split
    all_goals first | exact ⟨_, rfl⟩ | grind

variable {e c a b d : UInt8} {s t : List UInt8} {ps : List ParseState}

theorem step_simpleEscape {r : Nat} (he : simpleEscape e = some r) (base : List ParseState) :
    step ⟨.inStringEsc, base⟩ e = ⟨.inString, base⟩ := by
  show stateInStringEsc _ e = _
  rw [stateInStringEsc, if_pos ((simpleEscape_isSome_iff e).mp ⟨r, he⟩)]
  rfl

theorem Body.stringSafe (h : Body s) : StringSafe s := by
  induction h with
  | nil => exact StringSafe.nil
  | byte hctl hquote hback _ ih => exact StringSafe.append (StringSafe.byte hctl hquote hback) ih
  | @escape e r s he _ ih =>
    intro base
    have hopen : step ⟨.inString, base⟩ 0x5c = ⟨.inStringEsc, base⟩ := rfl
    rw [run_cons, run_cons, hopen, step_simpleEscape he, ih]
  | unicode ha hb hc hd _ ih =>
    exact StringSafe.append (StringSafe.unicodeEscape ha hb hc hd) ih

/-- Where a hex digit is demanded there is one. -/
private theorem run_hexDigit {m : Mode} (m' : Mode)
    (hstep : step ⟨m, ps⟩ c = demand ⟨m, ps⟩ (isHexDigit c) m')
    (h : (run ⟨m, ps⟩ (c :: s)).mode ≠ .error) :
    isHexDigit c = true ∧ run ⟨m, ps⟩ (c :: s) = run ⟨m', ps⟩ s := by
  rw [run_cons, hstep, demand] at h ⊢
  split
  · rename_i hc
    exact ⟨hc, rfl⟩
  · rename_i hc
    rw [if_neg hc, run_error _ _ rfl] at h
    exact absurd rfl h

/-- The digits of a `\u` escape, unless the text ends among them. -/
private theorem hexDigits_of_run (h : (run ⟨.inStringEscU, ps⟩ s).mode ≠ .error) :
    (∃ a b c d t, s = a :: b :: c :: d :: t ∧ (isHexDigit a = true ∧ isHexDigit b = true ∧
        isHexDigit c = true ∧ isHexDigit d = true) ∧
        run ⟨.inStringEscU, ps⟩ s = run ⟨.inString, ps⟩ t) ∨
      ∃ m, m.isString = true ∧ run ⟨.inStringEscU, ps⟩ s = ⟨m, ps⟩ := by
  rcases s with _ | ⟨a, s⟩
  · exact .inr ⟨_, rfl, rfl⟩
  obtain ⟨ha, hrun₁⟩ := run_hexDigit .inStringEscU1 rfl h
  rw [hrun₁] at h ⊢
  rcases s with _ | ⟨b, s⟩
  · exact .inr ⟨_, rfl, rfl⟩
  obtain ⟨hb, hrun₂⟩ := run_hexDigit .inStringEscU12 rfl h
  rw [hrun₂] at h ⊢
  rcases s with _ | ⟨c, s⟩
  · exact .inr ⟨_, rfl, rfl⟩
  obtain ⟨hc, hrun₃⟩ := run_hexDigit .inStringEscU123 rfl h
  rw [hrun₃] at h ⊢
  rcases s with _ | ⟨d, s⟩
  · exact .inr ⟨_, rfl, rfl⟩
  obtain ⟨hd, hrun₄⟩ := run_hexDigit .inString rfl h
  exact .inl ⟨a, b, c, d, s, rfl, ⟨ha, hb, hc, hd⟩, hrun₄⟩

/-- A text that is accepted inside a string is a body up to the closing quote, unless it ends
    before that. -/
theorem body_of_run (h : (run ⟨.inString, ps⟩ s).mode ≠ .error) :
    (∃ t rest, Body t ∧ s = t ++ 0x22 :: rest) ∨
      ∃ m, m.isString = true ∧ run ⟨.inString, ps⟩ s = ⟨m, ps⟩ := by
  -- escapes are several bytes long, so the induction is on the length
  induction hn : s.length using Nat.strongRecOn generalizing s with
  | ind n ih =>
    subst hn
    rcases s with _ | ⟨c, s⟩
    · exact .inr ⟨_, rfl, rfl⟩
    by_cases hquote : c = 0x22
    · exact .inl ⟨[], s, .nil, by rw [hquote]; rfl⟩
    by_cases hback : c = 0x5c
    · subst hback
      have hopen : step ⟨.inString, ps⟩ 0x5c = ⟨.inStringEsc, ps⟩ := rfl
      rw [run_cons, hopen] at h ⊢
      rcases s with _ | ⟨e, s⟩
      · exact .inr ⟨_, rfl, rfl⟩
      by_cases hsimple : ∃ r, simpleEscape e = some r
      · obtain ⟨r, hr⟩ := hsimple
        rw [run_cons, step_simpleEscape hr] at h ⊢
        rcases ih s.length (by simp only [length_cons]; omega) h rfl with
          ⟨t, rest, ht, rfl⟩ | hend
        · exact .inl ⟨0x5c :: e :: t, rest, .escape hr ht, rfl⟩
        · exact .inr hend
      by_cases hu : e = 0x75
      · subst hu
        have hstep : step ⟨.inStringEsc, ps⟩ 0x75 = ⟨.inStringEscU, ps⟩ := rfl
        rw [run_cons, hstep] at h ⊢
        rcases hexDigits_of_run h with ⟨a, b, c, d, t, rfl, ⟨ha, hb, hc, hd⟩, hrun⟩ | hend
        · rw [hrun] at h ⊢
          rcases ih t.length (by simp only [length_cons]; omega) h rfl with
            ⟨t, rest, ht, rfl⟩ | hend
          · exact .inl ⟨0x5c :: 0x75 :: a :: b :: c :: d :: t, rest, .unicode ha hb hc hd ht, rfl⟩
          · exact .inr hend
        · exact .inr hend
      · -- no other letter may follow a backslash
        have hfail : step ⟨.inStringEsc, ps⟩ e = ⟨.error, ps⟩ := by
          show stateInStringEsc _ e = _
          rw [stateInStringEsc, if_neg (fun h => hsimple ((simpleEscape_isSome_iff e).mpr h)),
            if_neg hu]
          rfl
        rw [run_cons, hfail, run_error _ _ rfl] at h
        exact absurd rfl h
    by_cases hctl : c < 0x20
    · have hfail : step ⟨.inString, ps⟩ c = ⟨.error, ps⟩ := by
        show stateInString _ c = _
        rw [stateInString, if_neg hquote, if_neg hback, if_pos hctl]
        rfl
      rw [run_cons, hfail, run_error _ _ rfl] at h
      exact absurd rfl h
    · have hstay : step ⟨.inString, ps⟩ c = ⟨.inString, ps⟩ := by
        show stateInString _ c = _
        rw [stateInString, if_neg hquote, if_neg hback, if_neg hctl]
      rw [run_cons, hstay] at h ⊢
      rcases ih s.length (by simp only [length_cons]; omega) h rfl with
        ⟨t, rest, ht, rfl⟩ | hend
      · exact .inl ⟨c :: t, rest, .byte (UInt8.not_lt.mp hctl) hquote hback ht, rfl⟩
      · exact .inr hend

/-- After the top-level value no string is opened. -/
private theorem isString_run_top {m : Mode} (hm : m = .endValue ∨ m = .endTop ∨ m = .error)
    (s : List UInt8) : (run ⟨m, []⟩ s).mode.isString = false := by
  induction s generalizing m with
  | nil => rcases hm with rfl | rfl | rfl <;> rfl
  | cons c s ih =>
    have hstep : ∃ m', (m' = .endValue ∨ m' = .endTop ∨ m' = .error) ∧
        step ⟨m, []⟩ c = ⟨m', []⟩ := by
      rcases hm with rfl | rfl | rfl
      case inr.inr => exact ⟨.error, .inr (.inr rfl), rfl⟩
      all_goals
        by_cases hc : isSpace c = true
        · exact ⟨.endTop, .inr (.inl rfl), if_pos hc⟩
        · exact ⟨.error, .inr (.inr rfl), if_neg hc⟩
    obtain ⟨m', hm', hstep⟩ := hstep
    rw [run_cons, hstep]
    exact ih hm'

theorem stringSafe_iff_body : StringSafe s ↔ Body s := by
  constructor
  · intro h
    have hquoted : run ⟨.inString, []⟩ (s ++ [0x22]) = ⟨.endValue, []⟩ := by
      rw [run_append, h]
      rfl
    have hok : (run ⟨.inString, []⟩ (s ++ [0x22])).mode ≠ .error := by
      rw [hquoted]
      exact fun h => nomatch h
    rcases body_of_run hok with ⟨t, rest, ht, heq⟩ | ⟨m, hm, hrun⟩
    · rcases concat_eq_append_cons heq with ⟨rfl, -, -⟩ | ⟨after, hs, -⟩
      · exact ht
      · -- a quote inside would have ended the string
        have hinside := h []
        rw [hs, run_append, ht.stringSafe, run_cons] at hinside
        have houtside := isString_run_top (m := .endValue) (.inl rfl) after
        have hclose : step ⟨.inString, []⟩ 0x22 = ⟨.endValue, []⟩ := rfl
        rw [← hclose, hinside] at houtside
        exact nomatch houtside
    · rw [hquoted] at hrun
      injection hrun with hmode
      subst hmode
      exact nomatch hm
  · exact Body.stringSafe

/-! ### What a body stands for -/

/-- `skip` bytes of `t` may belong to a character that begins before `t`: continuation bytes, or
    the escape of a low surrogate. -/
def Skips (skip : Nat) (t : List UInt8) : Prop :=
  skip ≤ (t.takeWhile Utf8.isContinuation).length ∨ skip = 6 ∧ ∃ s, t = 0x5c :: 0x75 :: s

theorem Skips.zero (t : List UInt8) : Skips 0 t := .inl (Nat.zero_le _)

/-- A hex digit has a value. -/
theorem hexValue_of_isHexDigit (h : isHexDigit c = true) : ∃ n, hexValue c = some n := by
  unfold hexValue
  simp only [isHexDigit, isDigit, Bool.or_eq_true, Bool.and_eq_true, decide_eq_true_eq] at h
  repeat' split
  all_goals first | exact ⟨_, rfl⟩ | grind

/-- And so have four of them. -/
theorem hex4At_of_isHexDigit (ha : isHexDigit a = true) (hb : isHexDigit b = true)
    (hc : isHexDigit c = true) (hd : isHexDigit d = true) :
    ∃ u, ∀ s, hex4At (a :: b :: c :: d :: s) = some u := by
  obtain ⟨i, hi⟩ := hexValue_of_isHexDigit ha
  obtain ⟨j, hj⟩ := hexValue_of_isHexDigit hb
  obtain ⟨k, hk⟩ := hexValue_of_isHexDigit hc
  obtain ⟨l, hl⟩ := hexValue_of_isHexDigit hd
  exact ⟨i * 4096 + j * 256 + k * 16 + l, fun s => by simp [hex4At, hi, hj, hk, hl]⟩

/-- A surrogate escape is looked for inside the body only. -/
theorem Body.lowSurrogateAt_append (h : Body t) (rest : List UInt8) :
    lowSurrogateAt (t ++ 0x22 :: rest) = lowSurrogateAt t := by
  cases h with
  | nil => cases rest <;> rfl
  | @byte c s _ _ hback _ =>
    have hnone : ∀ s, lowSurrogateAt (c :: s) = none := by
      intro s
      cases s with
      | nil => rfl
      | cons e s => exact if_neg fun h => hback h.1
    rw [cons_append, hnone, hnone]
  | @escape e r s he _ =>
    have hnone : ∀ s, lowSurrogateAt (0x5c :: e :: s) = none := by
      intro s
      refine if_neg fun h => ?_
      rw [h.2] at he
      exact nomatch he
    rw [cons_append, cons_append, hnone, hnone]
  | unicode ha hb hc hd _ =>
    obtain ⟨u, hu⟩ := hex4At_of_isHexDigit ha hb hc hd
    simp only [cons_append, lowSurrogateAt, hu]

/-- The character of a `\u` escape with the number `u`, given the low surrogate that an escape
    right after it stands for, and how many bytes after the backslash belong to it. -/
def unicodeChar (u : Nat) (low : Option Nat) : Nat × Nat :=
  if 0xd800 ≤ u ∧ u < 0xdc00 then
    match low with
    | some v => (0x10000 + (u - 0xd800) * 1024 + (v - 0xdc00), 11)
    | none => (Utf8.runeError, 5)
  else if 0xdc00 ≤ u ∧ u < 0xe000 then (Utf8.runeError, 5)
  else (u, 5)

/-- What a `\u` escape is read as. -/
private theorem escapeAt_unicode {u : Nat} (hu : hex4At (a :: b :: c :: d :: s) = some u) :
    escapeAt (0x75 :: a :: b :: c :: d :: s) = some (unicodeChar u (lowSurrogateAt s)) := by
  simp only [escapeAt, ↓reduceIte, hu, drop_succ_cons, drop_zero, unicodeChar]
  by_cases hhigh : 0xd800 ≤ u ∧ u < 0xdc00
  · rw [if_pos hhigh, if_pos hhigh]
    cases lowSurrogateAt s <;> rfl
  rw [if_neg hhigh, if_neg hhigh]
  split <;> rfl

private theorem unicodeChar_snd (u : Nat) (low : Option Nat) :
    (unicodeChar u low).2 = 5 ∨ (unicodeChar u low).2 = 11 ∧ low ≠ none := by
  unfold unicodeChar
  repeat' split
  · exact .inr ⟨rfl, by simp⟩
  all_goals exact .inl rfl

/-- A low surrogate is a whole escape. -/
private theorem skips_of_lowSurrogateAt (h : lowSurrogateAt t ≠ none) : Skips 6 t := by
  rcases t with _ | ⟨b, _ | ⟨e, s⟩⟩
  · exact absurd rfl h
  · exact absurd rfl h
  · rw [lowSurrogateAt] at h
    split at h
    · rename_i hbytes
      exact .inr ⟨rfl, s, by rw [hbytes.1, hbytes.2]⟩
    · exact absurd rfl h

theorem Skips.byte {k : Nat} (hback : c ≠ 0x5c) (h : Skips (k + 1) (c :: s)) :
    Utf8.isContinuation c = true ∧ Skips k s := by
  rcases h with h | ⟨-, s', h⟩
  · cases hc : Utf8.isContinuation c with
    | false =>
      rw [takeWhile_cons_of_neg (by simp [hc])] at h
      exact absurd h (Nat.not_succ_le_zero k)
    | true =>
      rw [takeWhile_cons_of_pos hc, length_cons] at h
      exact ⟨rfl, .inl (Nat.le_of_succ_le_succ h)⟩
  · injection h with h
    exact absurd h hback

/-- No character goes on with a backslash, but a pair of surrogates goes on with a whole escape. -/
theorem Skips.backslash {k : Nat} (h : Skips k (0x5c :: e :: s)) : k = 0 ∨ k = 6 ∧ e = 0x75 := by
  rcases h with h | ⟨hk, s', h⟩
  · exact .inl (Nat.le_zero.mp h)
  · injection h with _ h
    injection h with h
    exact .inr ⟨hk, h⟩

/-- A character that is not escaped. -/
theorem readChars_byte (hctl : 0x20 ≤ c) (hquote : c ≠ 0x22) (hback : c ≠ 0x5c) (s : List UInt8) :
    readChars 0 (c :: s) =
      (readChars (Utf8.decodeRune c s).2 s).map fun (cs, rest) =>
        ((Utf8.decodeRune c s).1 :: cs, rest) := by
  rw [readChars, if_neg hquote, charAt, if_neg hback, if_neg (UInt8.not_lt.mpr hctl)]

theorem readChars_escape {r : Nat} (he : simpleEscape e = some r) (s : List UInt8) :
    readChars 0 (0x5c :: e :: s) = (readChars 0 s).map fun (cs, rest) => (r :: cs, rest) := by
  have hu : e ≠ 0x75 := by
    rintro rfl
    exact nomatch he
  have hchar : charAt 0x5c (e :: s) = some (r, 1) := by
    simp only [charAt, ↓reduceIte, escapeAt, if_neg hu, he, Option.map_some]
  rw [readChars, if_neg (by decide), hchar]
  rfl

theorem readChars_unicode {u : Nat} (hu : hex4At (a :: b :: c :: d :: s) = some u) :
    readChars 0 (0x5c :: 0x75 :: a :: b :: c :: d :: s) =
      (readChars ((unicodeChar u (lowSurrogateAt s)).2 - 5) s).map fun (cs, rest) =>
        ((unicodeChar u (lowSurrogateAt s)).1 :: cs, rest) := by
  have hchar : charAt 0x5c (0x75 :: a :: b :: c :: d :: s) =
      some (unicodeChar u (lowSurrogateAt s)) := by
    rw [charAt, if_pos rfl, escapeAt_unicode hu]
  rw [readChars, if_neg (by decide), hchar]
  rcases unicodeChar_snd u (lowSurrogateAt s) with h | ⟨h, -⟩ <;> simp only [h] <;> rfl

/-- What follows a `\u` escape in its body may be passed over as the escape says. -/
theorem skips_unicodeChar (u : Nat) (s : List UInt8) :
    Skips ((unicodeChar u (lowSurrogateAt s)).2 - 5) s := by
  rcases unicodeChar_snd u (lowSurrogateAt s) with h | ⟨h, hlow⟩
  · rw [h]
    exact .zero s
  · rw [h]
    exact skips_of_lowSurrogateAt hlow

theorem not_isContinuation_quote : Utf8.isContinuation 0x22 = false := rfl

/-- Reading a body from any byte that a character may go on to. -/
private theorem Body.exists_readChars (h : Body t) :
    ∀ k, Skips k t → ∃ cs, ∀ rest, readChars k (t ++ 0x22 :: rest) = some (cs, rest) := by
  -- `k` bytes are left of the character before
  induction h with
  | nil =>
    intro k hk
    rcases hk with hk | ⟨-, s, hs⟩
    · rw [Nat.le_zero.mp hk]
      exact ⟨[], fun _ => rfl⟩
    · exact nomatch hs
  | @byte c s hctl hquote hback _ ih =>
    intro k hk
    cases k with
    | zero =>
      obtain ⟨cs, hcs⟩ := ih _ (.inl (Utf8.decodeRune_snd_le c s))
      refine ⟨(Utf8.decodeRune c s).1 :: cs, fun rest => ?_⟩
      rw [cons_append, readChars_byte hctl hquote hback,
        Utf8.decodeRune_append_cons not_isContinuation_quote, hcs]
      rfl
    | succ k => exact ih k (hk.byte hback).2
  | @escape e r s he _ ih =>
    intro k hk
    rcases hk.backslash with rfl | ⟨-, rfl⟩
    · obtain ⟨cs, hcs⟩ := ih 0 (.zero s)
      refine ⟨r :: cs, fun rest => ?_⟩
      rw [cons_append, cons_append, readChars_escape he, hcs]
      rfl
    · exact nomatch he
  | @unicode a b c d s ha hb hc hd hs ih =>
    intro k hk
    rcases hk.backslash with rfl | ⟨rfl, -⟩
    · obtain ⟨u, hu⟩ := hex4At_of_isHexDigit ha hb hc hd
      obtain ⟨cs, hcs⟩ := ih _ (skips_unicodeChar u s)
      refine ⟨(unicodeChar u (lowSurrogateAt s)).1 :: cs, fun rest => ?_⟩
      show readChars 0 (0x5c :: 0x75 :: a :: b :: c :: d :: (s ++ 0x22 :: rest)) = _
      rw [readChars_unicode (hu _), hs.lowSurrogateAt_append, hcs]
      rfl
    · exact ih 0 (.zero s)

/-- Every body stands for some characters. -/
theorem Body.exists_reads (h : Body t) : ∃ cs, ReadsAs t cs :=
  h.exists_readChars 0 (.zero t)

end Json
