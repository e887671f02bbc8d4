import Watcher.Json.Embed

/-!
# Writing JSON piece by piece

A row is rendered by writing member names and values one after the other.
`Completes base v` says that the bytes `v`, read where a value is expected and
on top of the open values `base`, are one whole value: the next separator is
read as if the value had just ended. `Fails base v` says that they are refused
before they end.

## Key results

- `completes_null`, `completes_true`, `completes_false`, `completes_string`,
  `completes_number`: the scalar values
- `completes_of_valid` / `fails_of_valid`: a text that is valid on its own
- `run_object` / `fails_object`: an object completes exactly when every value
  in it does
-/

namespace Json

open Scanner List

/-- `v` is one whole value where a value is expected inside `base`. -/
def Completes (base : List ParseState) (v : List UInt8) : Prop :=
  ∀ c, c = 0x2c ∨ c = 0x7d →
    (Scanner.run ⟨.beginValue, base⟩ v).step c = stateEndValue ⟨.endValue, base⟩ c

/-- `v` is refused where a value is expected inside `base`. -/
def Fails (base : List ParseState) (v : List UInt8) : Prop :=
  (Scanner.run ⟨.beginValue, base⟩ v).mode = .error

/-- `s` may stand between the quotes of a string. -/
def StringSafe (s : List UInt8) : Prop :=
  ∀ base, Scanner.run ⟨.inString, base⟩ s = ⟨.inString, base⟩

/-! ### Scalars -/

variable {base : List ParseState} {v : List UInt8} {ms : List (List UInt8 × List UInt8)}
    {s : Scanner}

/-- A value that announces its end. -/
theorem completes_of_run (h : Scanner.run ⟨.beginValue, base⟩ v = ⟨.endValue, base⟩) :
    Completes base v := by
  intro c _
  rw [h]
  rfl

/-- `null` -/
theorem completes_null (base : List ParseState) : Completes base [0x6e, 0x75, 0x6c, 0x6c] :=
  completes_of_run rfl

/-- `true` -/
theorem completes_true (base : List ParseState) : Completes base [0x74, 0x72, 0x75, 0x65] :=
  completes_of_run rfl

/-- `false` -/
theorem completes_false (base : List ParseState) :
    Completes base [0x66, 0x61, 0x6c, 0x73, 0x65] :=
  completes_of_run rfl

namespace StringSafe

theorem nil : StringSafe [] := fun _ => rfl

variable {s : List UInt8}

/-- One after the other. -/
theorem append {t : List UInt8} (hs : StringSafe s) (ht : StringSafe t) : StringSafe (s ++ t) := by
  intro base
  rw [run_append, hs, ht]

/-- Any number of them. -/
theorem flatMap {α : Type} {f : α → List UInt8} {l : List α} (h : ∀ a ∈ l, StringSafe (f a)) :
    StringSafe (l.flatMap f) := by
  induction l with
  | nil => exact nil
  | cons a l ih =>
    rw [flatMap_cons]
    exact append (h a (mem_cons_self ..)) (ih fun b hb => h b (mem_cons_of_mem _ hb))

/-- A byte that is no control character, no quote and no backslash. -/
theorem byte {c : UInt8} (hctl : 0x20 ≤ c) (hquote : c ≠ 0x22) (hback : c ≠ 0x5c) :
    StringSafe [c] := by
  intro base
  have hge : ¬c < 0x20 := by grind
  simp only [run_cons, run_nil, step, stateInString, hquote, hback, hge, ↓reduceIte]

/-- A run of such bytes. -/
theorem bytes (h : ∀ c ∈ s, 0x20 ≤ c ∧ c ≠ 0x22 ∧ c ≠ 0x5c) : StringSafe s := by
  induction s with
  | nil => exact nil
  | cons c s ih =>
    obtain ⟨h₁, h₂, h₃⟩ := h c (mem_cons_self ..)
    exact append (byte h₁ h₂ h₃) (ih fun d hd => h d (mem_cons_of_mem _ hd))

theorem of_all (h : s.all (fun c => decide (0x20 ≤ c) && c != 0x22 && c != 0x5c) = true) :
    StringSafe s :=
  bytes fun c hc => by simpa [and_assoc] using all_eq_true.mp h c hc

/-- `\u` and four hex digits. -/
theorem unicodeEscape {a b c d : UInt8} (ha : isHexDigit a = true) (hb : isHexDigit b = true)
    (hc : isHexDigit c = true) (hd : isHexDigit d = true) :
    StringSafe [0x5c, 0x75, a, b, c, d] := by
  intro base
  have hback : Scanner.step ⟨.inString, base⟩ 0x5c = ⟨.inStringEsc, base⟩ := rfl
  have hu : Scanner.step ⟨.inStringEsc, base⟩ 0x75 = ⟨.inStringEscU, base⟩ := rfl
  simp only [run_cons, run_nil, hback, hu]
  simp only [step, demand, goto, ha, hb, hc, hd, ↓reduceIte]

end StringSafe

/-- A safe string between quotes. -/
theorem completes_string (base : List ParseState) {s : List UInt8} (h : StringSafe s) :
    Completes base (0x22 :: s ++ [0x22]) := by
  apply completes_of_run
  have hopen : Scanner.step ⟨.beginValue, base⟩ 0x22 = ⟨.inString, base⟩ := rfl
  rw [cons_append, run_cons, hopen, run_append, h]
  rfl

/-! ### Numbers -/

/-- A non-empty run of decimal digits. -/
def IsDigits (ds : List UInt8) : Prop := ds ≠ [] ∧ ∀ d ∈ ds, isDigit d = true

/-- The integer part of a number: `0`, or digits that do not start with `0`. -/
def IsIntPart (ds : List UInt8) : Prop :=
  ds = [0x30] ∨ ∃ d rest, ds = d :: rest ∧ isDigit d = true ∧ d ≠ 0x30 ∧
    ∀ x ∈ rest, isDigit x = true

/-- `.` and digits, or nothing. -/
def IsFracPart (ds : List UInt8) : Prop := ds = [] ∨ ∃ fs, ds = 0x2e :: fs ∧ IsDigits fs

/-- `e`, a sign and digits, or nothing. -/
def IsExpPart (ds : List UInt8) : Prop :=
  ds = [] ∨ ∃ sign es, ds = 0x65 :: sign :: es ∧ (sign = 0x2b ∨ sign = 0x2d) ∧ IsDigits es

/-- An RFC 8259 number: sign, integer part, fraction and exponent. -/
def IsNumber (v : List UInt8) : Prop :=
  ∃ sign int frac exp, v = sign ++ int ++ frac ++ exp ∧ (sign = [] ∨ sign = [0x2d]) ∧
    IsIntPart int ∧ IsFracPart frac ∧ IsExpPart exp

/-- A mode in which a number may end. -/
def NumberEnd (m : Mode) : Prop := m = .zero ∨ m = .one ∨ m = .dot0 ∨ m = .e0

private theorem digit_not_space {c : UInt8} (h : isDigit c = true) : isSpace c = false := by
  simp only [isDigit, isSpace, Bool.and_eq_true, decide_eq_true_eq] at h ⊢
  grind

/-- Digits change nothing in the modes that read digits. -/
private theorem run_digits (base : List ParseState) (m : Mode)
    (hm : m = .one ∨ m = .dot0 ∨ m = .e0) (ds : List UInt8) (h : ∀ d ∈ ds, isDigit d = true) :
    Scanner.run ⟨m, base⟩ ds = ⟨m, base⟩ := by
  induction ds with
  | nil => rfl
  | cons d ds ih =>
    have hd := h d (mem_cons_self ..)
    -- the three modes treat a digit alike: they stay
    have hstep : Scanner.step ⟨m, base⟩ d = ⟨m, base⟩ := by
      rcases hm with rfl | rfl | rfl <;>
        simp only [step, stateOne, stateDot0, stateE0, goto, hd, ↓reduceIte]
    rw [run_cons, hstep]
    exact ih fun x hx => h x (mem_cons_of_mem _ hx)

/-- A minus sign, or none. -/
private theorem run_sign (base : List ParseState) (sign : List UInt8)
    (h : sign = [] ∨ sign = [0x2d]) :
    Scanner.run ⟨.beginValue, base⟩ sign = ⟨.beginValue, base⟩ ∨
      Scanner.run ⟨.beginValue, base⟩ sign = ⟨.neg, base⟩ := by
  rcases h with rfl | rfl
  · exact Or.inl rfl
  · exact Or.inr rfl

/-- A non-zero digit starts a number, with or without a sign before it. -/
private theorem step_firstDigit (base : List ParseState) (m : Mode)
    (hm : m = .beginValue ∨ m = .neg) (d : UInt8) (hd : isDigit d = true) (hne : d ≠ 0x30) :
    Scanner.step ⟨m, base⟩ d = ⟨.one, base⟩ := by
  have hsp := digit_not_space hd
  rcases hm with rfl | rfl
  · have hbounds : 0x30 ≤ d ∧ d ≤ 0x39 := by simpa [isDigit] using hd
    simp only [step, stateBeginValue, hsp, Bool.false_eq_true, ↓reduceIte, show d ≠ 0x7b by grind,
      show d ≠ 0x5b by grind, show d ≠ 0x22 by grind, show d ≠ 0x2d by grind, hne,
      show d ≠ 0x74 by grind, show d ≠ 0x66 by grind, show d ≠ 0x6e by grind, hd, goto]
  · simp only [step, stateNeg, hne, hd, goto, ↓reduceIte]

/-- The integer part. -/
private theorem run_intPart (base : List ParseState) (m : Mode)
    (hm : m = .beginValue ∨ m = .neg) (int : List UInt8) (h : IsIntPart int) :
    Scanner.run ⟨m, base⟩ int = ⟨.zero, base⟩ ∨ Scanner.run ⟨m, base⟩ int = ⟨.one, base⟩ := by
  rcases h with rfl | ⟨d, rest, rfl, hd, hne, hrest⟩
  · left
    rcases hm with rfl | rfl <;> rfl
  · right
    rw [run_cons, step_firstDigit base m hm d hd hne]
    exact run_digits base .one (Or.inl rfl) rest hrest

/-- The fraction. -/
private theorem run_fracPart (base : List ParseState) (m : Mode) (hm : m = .zero ∨ m = .one)
    (frac : List UInt8) (h : IsFracPart frac) :
    Scanner.run ⟨m, base⟩ frac = ⟨m, base⟩ ∨ Scanner.run ⟨m, base⟩ frac = ⟨.dot0, base⟩ := by
  rcases h with rfl | ⟨fs, rfl, hne, hfs⟩
  · exact Or.inl rfl
  · right
    obtain ⟨d, ds, rfl⟩ := exists_cons_of_ne_nil hne
    have hdot : Scanner.step ⟨m, base⟩ 0x2e = ⟨.dot, base⟩ := by rcases hm with rfl | rfl <;> rfl
    have hfirst : Scanner.step ⟨.dot, base⟩ d = ⟨.dot0, base⟩ := by
      simp only [step, demand, goto, hfs d (mem_cons_self ..), ↓reduceIte]
    rw [run_cons, hdot, run_cons, hfirst]
    exact run_digits base .dot0 (by simp) ds fun x hx => hfs x (mem_cons_of_mem _ hx)

/-- The exponent. -/
private theorem run_expPart (base : List ParseState) (m : Mode)
    (hm : m = .zero ∨ m = .one ∨ m = .dot0) (exp : List UInt8) (h : IsExpPart exp) :
    Scanner.run ⟨m, base⟩ exp = ⟨m, base⟩ ∨ Scanner.run ⟨m, base⟩ exp = ⟨.e0, base⟩ := by
  rcases h with rfl | ⟨sign, es, rfl, hsign, hne, hes⟩
  · exact Or.inl rfl
  · right
    obtain ⟨d, ds, rfl⟩ := exists_cons_of_ne_nil hne
    have he : Scanner.step ⟨m, base⟩ 0x65 = ⟨.e, base⟩ := by rcases hm with rfl | rfl | rfl <;> rfl
    have hs : Scanner.step ⟨.e, base⟩ sign = ⟨.eSign, base⟩ := by
      rcases hsign with rfl | rfl <;> rfl
    have hfirst : Scanner.step ⟨.eSign, base⟩ d = ⟨.e0, base⟩ := by
      simp only [step, demand, goto, hes d (mem_cons_self ..), ↓reduceIte]
    rw [run_cons, he, run_cons, hs, run_cons, hfirst]
    exact run_digits base .e0 (by simp) ds fun x hx => hes x (mem_cons_of_mem _ hx)

/-- A number is read up to a mode in which it may end. -/
theorem run_number (base : List ParseState) (h : IsNumber v) :
    ∃ m, NumberEnd m ∧ Scanner.run ⟨.beginValue, base⟩ v = ⟨m, base⟩ := by
  obtain ⟨sign, int, frac, exp, rfl, hsign, hint, hfrac, hexp⟩ := h
  -- part by part, each from the modes the part before it can end in
  obtain ⟨m₁, hm₁, h₁⟩ : ∃ m, (m = .beginValue ∨ m = .neg) ∧
      Scanner.run ⟨.beginValue, base⟩ sign = ⟨m, base⟩ := by
    rcases run_sign base sign hsign with h | h <;> exact ⟨_, by simp, h⟩
  obtain ⟨m₂, hm₂, h₂⟩ : ∃ m, (m = .zero ∨ m = .one) ∧
      Scanner.run ⟨m₁, base⟩ int = ⟨m, base⟩ := by
    rcases run_intPart base m₁ hm₁ int hint with h | h <;> exact ⟨_, by simp, h⟩
  obtain ⟨m₃, hm₃, h₃⟩ : ∃ m, (m = .zero ∨ m = .one ∨ m = .dot0) ∧
      Scanner.run ⟨m₂, base⟩ frac = ⟨m, base⟩ := by
    rcases run_fracPart base m₂ hm₂ frac hfrac with h | h
    · exact ⟨m₂, by rcases hm₂ with hm | hm <;> simp [hm], h⟩
    · exact ⟨.dot0, by simp, h⟩
  obtain ⟨m₄, hm₄, h₄⟩ : ∃ m, NumberEnd m ∧ Scanner.run ⟨m₃, base⟩ exp = ⟨m, base⟩ := by
    rcases run_expPart base m₃ hm₃ exp hexp with h | h
    · exact ⟨m₃, by rcases hm₃ with hm | hm | hm <;> simp [NumberEnd, hm], h⟩
    · exact ⟨.e0, by simp [NumberEnd], h⟩
  exact ⟨m₄, hm₄, by simp only [run_append, h₁, h₂, h₃, h₄]⟩

/-- What ends a value depends on the open values only. -/
theorem stateEndValue_mode (m m' : Mode) (base : List ParseState) (c : UInt8) :
    stateEndValue ⟨m, base⟩ c = stateEndValue ⟨m', base⟩ c := by
  cases base <;> rfl

/-- A number is a whole value. -/
theorem completes_number (base : List ParseState) (h : IsNumber v) : Completes base v := by
  intro c hc
  -- a number does not announce its end: the next byte ends it
  obtain ⟨m, hm, hrun⟩ := run_number base h
  rw [hrun, stateEndValue_mode .endValue m]
  rcases hc with rfl | rfl <;> rcases hm with rfl | rfl | rfl | rfl <;> rfl

/-! ### A text that is valid on its own -/

/-- The end of the top-level value is reached with nothing open. -/
def TopClosed (s : Scanner) : Prop := s.mode = .endTop → s.parseState = []

private theorem topClosed_goto (s : Scanner) {m : Mode} (hm : m ≠ .endTop) :
    TopClosed (s.goto m) := fun h => absurd h hm

private theorem topClosed_fail (s : Scanner) : TopClosed s.fail := fun h => nomatch h

/-- Opening something is not the end. -/
private theorem topClosed_pushParseState (s : Scanner) (p : ParseState) {m : Mode}
    (hm : m ≠ .endTop) : TopClosed (s.pushParseState p m) := by
  rcases pushParseState_cases s p m with h | h
  · rw [h]
    exact fun h' => absurd h' hm
  · rw [h]
    exact topClosed_fail s

private theorem topClosed_popParseState (rest : List ParseState) :
    TopClosed (popParseState rest) := by
  cases rest with
  | nil => exact fun _ => rfl
  | cons p rest => exact fun h => nomatch h

/-- After a value. -/
private theorem topClosed_stateEndValue (s : Scanner) (c : UInt8) :
    TopClosed (s.stateEndValue c) := by
  obtain ⟨m, ps⟩ := s
  cases ps with
  | nil =>
    simp only [stateEndValue, stateEndTop]
    split
    · exact fun _ => rfl
    · exact topClosed_fail _
  | cons p rest =>
    cases p <;> simp only [stateEndValue] <;> (repeat' split) <;>
      first
        | exact topClosed_popParseState rest
        | exact topClosed_fail _
        | (intro h; cases h)

/-- Where a value is expected. -/
private theorem topClosed_stateBeginValue (s : Scanner) (c : UInt8) (hs : TopClosed s) :
    TopClosed (s.stateBeginValue c) := by
  rcases stateBeginValue_cases s c with h | h | h | ⟨-, h⟩ | ⟨m, -, hm, h⟩
  · rw [h]
    exact hs
  · rw [h]
    exact topClosed_pushParseState s _ (by decide)
  · rw [h]
    exact topClosed_pushParseState s _ (by decide)
  · rw [h]
    exact topClosed_goto s (by decide)
  · rw [h]
    exact topClosed_goto s hm

/-- Where a name is expected. -/
private theorem topClosed_stateBeginStringOrEmpty (s : Scanner) (c : UInt8) (hs : TopClosed s) :
    TopClosed (s.stateBeginStringOrEmpty c) := by
  obtain ⟨m, ps⟩ := s
  cases ps <;> simp only [stateBeginStringOrEmpty, stateBeginString] <;> (repeat' split) <;>
    first
      | exact hs
      | exact topClosed_goto _ (by decide)
      | exact topClosed_fail _
      | exact topClosed_stateEndValue _ _

/-- Every step keeps it. -/
private theorem topClosed_step (s : Scanner) (c : UInt8) (hs : TopClosed s) :
    TopClosed (s.step c) := by
  obtain ⟨m, ps⟩ := s
  -- modes that read a literal or a number, then those inside a string
  by_cases hplain : m.isPlain = true
  · rcases step_plain hplain ps c with h | ⟨m', -, htop, h⟩
    · rw [h]
      exact topClosed_stateEndValue _ c
    · rw [h]
      exact fun h' => hs (htop h')
  by_cases hstring : m.isString = true
  · by_cases hclose : m = .inString ∧ c = 0x22
    · obtain ⟨rfl, rfl⟩ := hclose
      exact fun h => nomatch h
    · obtain ⟨m', hm', hstep⟩ := step_inside hstring fun h hc => hclose ⟨h, hc⟩
      rw [hstep]
      rintro rfl
      rcases hm' with h | h <;> exact nomatch h
  -- what is left are the modes in which something begins
  cases m
  case beginValue => exact topClosed_stateBeginValue _ c hs
  case beginStringOrEmpty => exact topClosed_stateBeginStringOrEmpty _ c hs
  case beginValueOrEmpty =>
    show TopClosed (stateBeginValueOrEmpty _ c)
    unfold stateBeginValueOrEmpty
    repeat' split
    · exact hs
    · exact topClosed_stateEndValue _ c
    · exact topClosed_stateBeginValue _ c hs
  case beginString =>
    show TopClosed (stateBeginString _ c)
    unfold stateBeginString
    repeat' split
    all_goals exact fun h => nomatch h
  all_goals first | exact absurd rfl hplain | exact absurd rfl hstring

/-- And so does a run. -/
theorem topClosed_run (s : Scanner) (bs : List UInt8) (hs : TopClosed s) :
    TopClosed (s.run bs) := by
  induction bs generalizing s with
  | nil => exact hs
  | cons c bs ih => exact ih _ (topClosed_step s c hs)

/-- The state after an accepted text, seen from inside `base`, waits for a separator. -/
private theorem step_of_eof (f : Scanner) (htop : TopClosed f) (heof : f.eof = true) (c : UInt8)
    (hc : c = 0x2c ∨ c = 0x7d) : (f.embed base).step c = stateEndValue ⟨.endValue, base⟩ c := by
  obtain ⟨m, ps⟩ := f
  simp only [eof, Bool.or_eq_true, beq_iff_eq] at heof
  rcases heof with hm | hm
  · -- the value was over and at most spaces followed
    have hps := htop hm
    simp only at hm hps
    subst hm hps
    rfl
  · -- only a finished literal, string or number ends at the space
    cases m
    case endTop =>
      have hps := htop rfl
      simp only at hps
      subst hps
      rfl
    case endValue | zero | one | dot0 | e0 =>
      cases ps with
      | nil =>
        rw [stateEndValue_mode .endValue _ base c]
        rcases hc with rfl | rfl <;> rfl
      | cons p rest => cases hm
    all_goals cases hm

private theorem mode_of_eof {f : Scanner} (h : f.eof = true) : f.mode ≠ .error := by
  intro he
  rw [eof_of_error f he] at h
  exact nomatch h

/-- A valid text is a whole value inside `base` as long as its nesting fits on top. -/
theorem completes_of_valid (hb : base ≠ []) (hv : valid v = true)
    (hd : nestingDepth v + base.length ≤ maxNestingDepth) : Completes base v := by
  intro c hc
  rw [← embed_init, run_embed hb init v (mode_of_eof hv) hd]
  exact step_of_eof _ (topClosed_run init v (fun h => nomatch h)) hv c hc

/-- A valid text is refused inside `base` once its nesting does not fit on top. -/
theorem fails_of_valid (hb : base ≠ []) (hv : valid v = true)
    (hfit : base.length ≤ maxNestingDepth) (hd : maxNestingDepth < nestingDepth v + base.length) :
    Fails base v := by
  have hfit' : init.parseState.length + base.length ≤ maxNestingDepth := by
    simp only [init, length_nil]
    omega
  exact run_embed_overflow hb init v (mode_of_eof hv) hfit' hd

/-! ### Objects -/

/-- `"name":value` -/
def member (m : List UInt8 × List UInt8) : List UInt8 := 0x22 :: m.1 ++ [0x22, 0x3a] ++ m.2

/-- Members separated by `, `. -/
def members : List (List UInt8 × List UInt8) → List UInt8
  | [] => []
  | m :: ms => member m ++ ms.flatMap fun m => [0x2c, 0x20] ++ member m

/-- `{"name":value, "name":value}` -/
def object (ms : List (List UInt8 × List UInt8)) : List UInt8 := 0x7b :: members ms ++ [0x7d]

theorem length_object (ms : List (List UInt8 × List UInt8)) :
    (object ms).length = 2 + ((ms.map fun m => (member m).length + 2).sum - 2) := by
  cases ms with
  | nil => rfl
  | cons m ms =>
    have htail : (ms.flatMap fun m => [0x2c, 0x20] ++ member m).length =
        (ms.map fun m => (member m).length + 2).sum := by
      induction ms with
      | nil => rfl
      | cons m ms ih =>
        rw [flatMap_cons, length_append, ih, map_cons, sum_cons, length_append]
        simp only [length_cons, length_nil]
        omega
    simp only [object, members, length_cons, length_append, htail, length_nil, map_cons, sum_cons]
    omega

/-- Leaving members out makes an object shorter. -/
theorem length_object_le {ms' : List (List UInt8 × List UInt8)} (h : ms.Sublist ms') :
    (object ms).length ≤ (object ms').length := by
  have hsum : (ms.map fun m => (member m).length + 2).sum ≤
      (ms'.map fun m => (member m).length + 2).sum := by
    induction h with
    | slnil => exact Nat.le_refl _
    | cons m _ ih => rw [map_cons, sum_cons]; omega
    | cons_cons m _ ih => simp only [map_cons, sum_cons]; omega
  rw [length_object, length_object]
  omega

theorem length_object_lt (ms : List (List UInt8 × List UInt8))
    {ms' : List (List UInt8 × List UInt8)} (h : ms' ≠ []) :
    (object ms).length < (object (ms ++ ms')).length := by
  obtain ⟨m, ms', rfl⟩ := exists_cons_of_ne_nil h
  have hmember : 3 ≤ (member m).length := by
    simp only [member, length_cons, length_append, length_nil]
    omega
  rw [length_object, length_object, map_append, map_cons, sum_append, sum_cons]
  omega

/-- A member ends as its value does. -/
theorem getLast?_member (m : List UInt8 × List UInt8) :
    (member m).getLast? = m.2.getLast?.or (some 0x3a) := by
  have hcolon : (0x22 :: m.1 ++ [0x22, 0x3a]).getLast? = some 0x3a := by
    rw [getLast?_append]
    rfl
  rw [member, getLast?_append, hcolon]

theorem getLast?_members (ms : List (List UInt8 × List UInt8)) (m : List UInt8 × List UInt8) :
    (members (ms ++ [m])).getLast? = m.2.getLast?.or (some 0x3a) := by
  obtain ⟨text, htext⟩ : ∃ text, members (ms ++ [m]) = text ++ member m := by
    cases ms with
    | nil => exact ⟨[], append_nil _⟩
    | cons x ms =>
      refine ⟨member x ++ (ms.flatMap fun m => [0x2c, 0x20] ++ member m) ++ [0x2c, 0x20], ?_⟩
      simp [members]
  rw [htext, getLast?_append, getLast?_member]
  cases m.2.getLast? <;> rfl

/-- Members written by a loop that puts `, ` before all but the first. -/
theorem object_of_loop {α : Type _} {loop : Nat → List α → List UInt8}
    {m : α → Nat → List UInt8 × List UInt8} (hnil : ∀ i, loop i [] = [])
    (hcons : ∀ i a as, loop i (a :: as) =
      (if 0 < i then [0x2c, 0x20] else []) ++ member (m a i) ++ loop (i + 1) as)
    (as : List α) :
    [0x7b] ++ loop 0 as ++ [0x7d] = object (as.zipIdx.map fun a => m a.1 a.2) := by
  have htail : ∀ i as, loop (i + 1) as =
      (as.zipIdx (i + 1)).flatMap fun a => [0x2c, 0x20] ++ member (m a.1 a.2) := by
    intro i as
    induction as generalizing i with
    | nil => exact hnil (i + 1)
    | cons a as ih =>
      rw [hcons, ih, if_pos (Nat.succ_pos i), zipIdx_cons, flatMap_cons]
  cases as with
  | nil => rw [hnil]; rfl
  | cons a as =>
    rw [hcons, htail, if_neg (Nat.lt_irrefl 0), zipIdx_cons, map_cons, object, members, flatMap_map]
    rfl

/-- The scanner is just past a member's value in an object inside `base`. -/
def AfterValue (base : List ParseState) (s : Scanner) : Prop :=
  ∀ c, c = 0x2c ∨ c = 0x7d → s.step c = stateEndValue ⟨.endValue, .objectValue :: base⟩ c

theorem run_member (base : List ParseState) (m : Mode)
    (hm : m = .beginString ∨ m = .beginStringOrEmpty) (x : List UInt8 × List UInt8)
    (hname : StringSafe x.1) :
    Scanner.run ⟨m, .objectKey :: base⟩ (member x) =
      Scanner.run ⟨.beginValue, .objectValue :: base⟩ x.2 := by
  have hquote : Scanner.step ⟨m, .objectKey :: base⟩ 0x22 = ⟨.inString, .objectKey :: base⟩ := by
    rcases hm with rfl | rfl <;> rfl
  rw [member, run_append, cons_append, run_cons, hquote, run_append, hname]
  rfl

/-- `, ` leads from one member to the name of the next. -/
theorem run_separator (hs : AfterValue base s) :
    s.run [0x2c, 0x20] = ⟨.beginString, .objectKey :: base⟩ := by
  rw [run_cons, hs _ (Or.inl rfl)]
  rfl

/-- Members after a first one. -/
theorem run_tail (hs : AfterValue base s) (ms : List (List UInt8 × List UInt8))
    (hname : ∀ m ∈ ms, StringSafe m.1) (hval : ∀ m ∈ ms, Completes (.objectValue :: base) m.2) :
    AfterValue base (s.run (ms.flatMap fun m => [0x2c, 0x20] ++ member m)) := by
  induction ms generalizing s with
  | nil => exact hs
  | cons m ms ih =>
    -- being whole is exactly to leave the scanner past a value
    rw [flatMap_cons, run_append, run_append, run_separator hs,
      run_member base .beginString (Or.inl rfl) m (hname m (mem_cons_self ..))]
    exact ih (hval m (mem_cons_self ..)) (fun x hx => hname x (mem_cons_of_mem _ hx))
      (fun x hx => hval x (mem_cons_of_mem _ hx))

theorem step_openBrace (hfit : base.length < maxNestingDepth) :
    Scanner.step ⟨.beginValue, base⟩ 0x7b = ⟨.beginStringOrEmpty, .objectKey :: base⟩ := by
  have : Scanner.step ⟨.beginValue, base⟩ 0x7b =
      pushParseState ⟨.beginValue, base⟩ .objectKey .beginStringOrEmpty := rfl
  rw [this, pushParseState, if_pos hfit]

/-- An object whose values are all whole is read up to its closing brace. -/
theorem run_object (hfit : base.length < maxNestingDepth) (hname : ∀ m ∈ ms, StringSafe m.1)
    (hval : ∀ m ∈ ms, Completes (.objectValue :: base) m.2) :
    Scanner.run ⟨.beginValue, base⟩ (object ms) = popParseState base := by
  rw [object, cons_append, run_cons, step_openBrace hfit, run_append]
  cases ms with
  | nil => rfl
  | cons m ms =>
    have hfirst := hval m (mem_cons_self ..)
    rw [members, run_append,
      run_member base _ (Or.inr rfl) m (hname m (mem_cons_self ..)), run_cons, run_nil,
      run_tail hfirst ms (fun x hx => hname x (mem_cons_of_mem _ hx))
        (fun x hx => hval x (mem_cons_of_mem _ hx)) _ (Or.inr rfl)]
    rfl

theorem completes_object (hb : base ≠ []) (hfit : base.length < maxNestingDepth)
    (hname : ∀ m ∈ ms, StringSafe m.1) (hval : ∀ m ∈ ms, Completes (.objectValue :: base) m.2) :
    Completes base (object ms) := by
  apply completes_of_run
  rw [run_object hfit hname hval]
  cases base with
  | nil => exact absurd rfl hb
  | cons b bs => rfl

/-- A refused value after the first member. -/
private theorem fails_tail (hs : AfterValue base s) (ms : List (List UInt8 × List UInt8))
    (hname : ∀ m ∈ ms, StringSafe m.1)
    (hval : ∀ m ∈ ms, Completes (.objectValue :: base) m.2 ∨ Fails (.objectValue :: base) m.2)
    (hbad : ∃ m ∈ ms, Fails (.objectValue :: base) m.2) :
    (s.run (ms.flatMap fun m => [0x2c, 0x20] ++ member m)).mode = .error := by
  induction ms generalizing s with
  | nil => obtain ⟨m, hm, _⟩ := hbad; exact nomatch hm
  | cons m ms ih =>
    rw [flatMap_cons, run_append, run_append, run_separator hs,
      run_member base .beginString (Or.inl rfl) m (hname m (mem_cons_self ..))]
    by_cases hm : Fails (.objectValue :: base) m.2
    · rw [run_error _ _ hm]
      exact hm
    · -- the first value is whole, so the offending one comes later
      have hfirst := (hval m (mem_cons_self ..)).resolve_right hm
      refine ih hfirst (fun x hx => hname x (mem_cons_of_mem _ hx))
        (fun x hx => hval x (mem_cons_of_mem _ hx)) ?_
      obtain ⟨x, hx, hxbad⟩ := hbad
      rcases mem_cons.mp hx with rfl | hx
      · exact absurd hxbad hm
      · exact ⟨x, hx, hxbad⟩

/-- One refused value refuses the whole object. -/
theorem fails_object (hfit : base.length < maxNestingDepth) (hname : ∀ m ∈ ms, StringSafe m.1)
    (hval : ∀ m ∈ ms, Completes (.objectValue :: base) m.2 ∨ Fails (.objectValue :: base) m.2)
    (hbad : ∃ m ∈ ms, Fails (.objectValue :: base) m.2) : Fails base (object ms) := by
  rw [Fails, object, cons_append, run_cons, step_openBrace hfit, run_append]
  cases ms with
  | nil => obtain ⟨m, hm, _⟩ := hbad; exact nomatch hm
  | cons m ms =>
    rw [members, run_append, run_member base _ (Or.inr rfl) m (hname m (mem_cons_self ..))]
    by_cases hm : Fails (.objectValue :: base) m.2
    · have hm' : (Scanner.run ⟨.beginValue, .objectValue :: base⟩ m.2).mode = .error := hm
      rw [run_error _ _ hm', run_error _ _ hm']
      exact hm'
    · have hfirst := (hval m (mem_cons_self ..)).resolve_right hm
      have htail := fails_tail hfirst ms (fun x hx => hname x (mem_cons_of_mem _ hx))
        (fun x hx => hval x (mem_cons_of_mem _ hx)) (by
          obtain ⟨x, hx, hxbad⟩ := hbad
          rcases mem_cons.mp hx with rfl | hx
          · exact absurd hxbad hm
          · exact ⟨x, hx, hxbad⟩)
      rw [run_error _ _ htail]
      exact htail

/-- A refused value is not a whole one. -/
theorem not_completes_of_fails (h : Fails (.objectValue :: base) v) :
    ¬Completes (.objectValue :: base) v := by
  intro hc
  have hstep := hc 0x2c (Or.inl rfl)
  have herr := run_error _ [0x2c] h
  rw [run_cons, run_nil, hstep] at herr
  have hmode := congrArg Scanner.mode herr
  rw [h] at hmode
  exact nomatch hmode

/-- A top-level object is valid JSON exactly when none of its values is refused. -/
theorem valid_object_iff (hname : ∀ m ∈ ms, StringSafe m.1)
    (hval : ∀ m ∈ ms, Completes [.objectValue] m.2 ∨ Fails [.objectValue] m.2) :
    valid (object ms) = true ↔ ∀ m ∈ ms, Completes [.objectValue] m.2 := by
  have hfit : ([] : List ParseState).length < maxNestingDepth := by decide
  constructor
  · intro h m hm
    refine (hval m hm).resolve_right fun hbad => ?_
    have herr := fails_object hfit hname hval ⟨m, hm, hbad⟩
    exact mode_of_eof h herr
  · intro h
    rw [valid, init, run_object hfit hname h]
    rfl

end Json
