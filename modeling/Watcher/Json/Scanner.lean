import Mathlib

/-!
# JSON syntax scanner

A byte-at-a-time pushdown scanner for RFC 8259 texts, in the shape of the
`scanner` of Go's `encoding/json`: a mode (the Go `step` function currently
installed), a stack of the objects and arrays that are still open, and a limit
on how deep that stack may grow. `valid` is `json.Valid`.

The scanner never backtracks, so what it does on `xs ++ ys` is what it does on
`ys` from the state `xs` leads to (`run_append`), and an error is final
(`run_error`). Everything proved about rendered rows rests on these two facts.
What a single byte can do is said once, in `stateBeginValue_cases`, `step_plain`
and `step_inside`, and invariants of the scanner are derived from these.
-/

namespace Json

/-- What the innermost open composite value waits for (`parseState` of the Go scanner). -/
inductive ParseState where
  | objectKey
  | objectValue
  | arrayValue
  deriving DecidableEq, Repr

/-- The Go step functions, by name. -/
inductive Mode where
  | beginValueOrEmpty
  | beginValue
  | beginStringOrEmpty
  | beginString
  | endValue
  | endTop
  | inString
  | inStringEsc
  | inStringEscU
  | inStringEscU1
  | inStringEscU12
  | inStringEscU123
  | neg
  | one
  | zero
  | dot
  | dot0
  | e
  | eSign
  | e0
  | t
  | tr
  | tru
  | f
  | fa
  | fal
  | fals
  | n
  | nu
  | nul
  | error
  deriving DecidableEq, Repr

/-- Scanner state; the innermost open composite value is first. -/
structure Scanner where
  mode : Mode
  parseState : List ParseState
  deriving DecidableEq, Repr

/-- `maxNestingDepth` of `encoding/json`. -/
def maxNestingDepth : Nat := 10000

/-- Space, tab, carriage return and newline. -/
def isSpace (c : UInt8) : Bool :=
  c ≤ 0x20 && (c == 0x20 || c == 0x09 || c == 0x0d || c == 0x0a)

def isDigit (c : UInt8) : Bool := 0x30 ≤ c && c ≤ 0x39

def isHexDigit (c : UInt8) : Bool :=
  isDigit c || (0x61 ≤ c && c ≤ 0x66) || (0x41 ≤ c && c ≤ 0x46)

namespace Scanner

/-- The state before the first byte. -/
def init : Scanner := ⟨.beginValue, []⟩

def fail (s : Scanner) : Scanner := { s with mode := .error }

def goto (s : Scanner) (m : Mode) : Scanner := { s with mode := m }

/-- Opening one more composite value fails once `maxNestingDepth` are open. -/
def pushParseState (s : Scanner) (p : ParseState) (m : Mode) : Scanner :=
  if s.parseState.length < maxNestingDepth then ⟨m, p :: s.parseState⟩ else s.fail

/-- Leave the innermost composite value; `rest` are the ones still open around it. -/
def popParseState (rest : List ParseState) : Scanner :=
  match rest with
  | [] => ⟨.endTop, []⟩
  | _ :: _ => ⟨.endValue, rest⟩

def stateEndTop (s : Scanner) (c : UInt8) : Scanner :=
  if isSpace c then s.goto .endTop else s.fail

def stateEndValue (s : Scanner) (c : UInt8) : Scanner :=
  match s.parseState with
  | [] => s.stateEndTop c
  | p :: rest =>
    if isSpace c then s.goto .endValue
    else match p with
      | .objectKey =>
        if c = 0x3a then ⟨.beginValue, .objectValue :: rest⟩  -- ':'
        else s.fail
      | .objectValue =>
        if c = 0x2c then ⟨.beginString, .objectKey :: rest⟩  -- ','
        else if c = 0x7d then popParseState rest  -- '}'
        else s.fail
      | .arrayValue =>
        if c = 0x2c then ⟨.beginValue, .arrayValue :: rest⟩  -- ','
        else if c = 0x5d then popParseState rest  -- ']'
        else s.fail

def stateBeginValue (s : Scanner) (c : UInt8) : Scanner :=
  if isSpace c then s
  else if c = 0x7b then s.pushParseState .objectKey .beginStringOrEmpty  -- '{'
  else if c = 0x5b then s.pushParseState .arrayValue .beginValueOrEmpty  -- '['
  else if c = 0x22 then s.goto .inString  -- '"'
  else if c = 0x2d then s.goto .neg  -- '-'
  else if c = 0x30 then s.goto .zero  -- '0'
  else if c = 0x74 then s.goto .t  -- 't'
  else if c = 0x66 then s.goto .f  -- 'f'
  else if c = 0x6e then s.goto .n  -- 'n'
  else if isDigit c then s.goto .one
  else s.fail

def stateBeginValueOrEmpty (s : Scanner) (c : UInt8) : Scanner :=
  if isSpace c then s
  else if c = 0x5d then s.stateEndValue c  -- ']'
  else s.stateBeginValue c

def stateBeginString (s : Scanner) (c : UInt8) : Scanner :=
  if isSpace c then s
  else if c = 0x22 then s.goto .inString  -- '"'
  else s.fail

/-- An empty object closes as if its (absent) last member had just ended. -/
def stateBeginStringOrEmpty (s : Scanner) (c : UInt8) : Scanner :=
  if isSpace c then s
  else if c = 0x7d then  -- '}'
    match s.parseState with
    | [] => s.fail
    | _ :: rest => stateEndValue { s with parseState := .objectValue :: rest } c
  else s.stateBeginString c

def stateInString (s : Scanner) (c : UInt8) : Scanner :=
  if c = 0x22 then s.goto .endValue  -- '"'
  else if c = 0x5c then s.goto .inStringEsc  -- '\'
  else if c < 0x20 then s.fail
  else s

/-- After a backslash: one of `b f n r t \ / "`, or a `u` and four hex digits. -/
def stateInStringEsc (s : Scanner) (c : UInt8) : Scanner :=
  if c = 0x62 ∨ c = 0x66 ∨ c = 0x6e ∨ c = 0x72 ∨ c = 0x74 ∨ c = 0x5c ∨ c = 0x2f ∨ c = 0x22 then
    s.goto .inString
  else if c = 0x75 then s.goto .inStringEscU
  else s.fail

/-- Demand that `c` satisfies `p`, then continue in mode `m`. -/
def demand (s : Scanner) (p : Bool) (m : Mode) : Scanner :=
  if p then s.goto m else s.fail

/-- After the integer part of a number. -/
def stateZero (s : Scanner) (c : UInt8) : Scanner :=
  if c = 0x2e then s.goto .dot  -- '.'
  else if c = 0x65 ∨ c = 0x45 then s.goto .e  -- 'e', 'E'
  else s.stateEndValue c

def stateOne (s : Scanner) (c : UInt8) : Scanner :=
  if isDigit c then s.goto .one else s.stateZero c

def stateNeg (s : Scanner) (c : UInt8) : Scanner :=
  if c = 0x30 then s.goto .zero
  else if isDigit c then s.goto .one
  else s.fail

def stateDot0 (s : Scanner) (c : UInt8) : Scanner :=
  if isDigit c then s
  else if c = 0x65 ∨ c = 0x45 then s.goto .e  -- 'e', 'E'
  else s.stateEndValue c

def stateE (s : Scanner) (c : UInt8) : Scanner :=
  if c = 0x2b ∨ c = 0x2d then s.goto .eSign  -- '+', '-'
  else s.demand (isDigit c) .e0

def stateE0 (s : Scanner) (c : UInt8) : Scanner :=
  if isDigit c then s else s.stateEndValue c

/-- One byte. -/
def step (s : Scanner) (c : UInt8) : Scanner :=
  match s.mode with
  | .beginValueOrEmpty => s.stateBeginValueOrEmpty c
  | .beginValue => s.stateBeginValue c
  | .beginStringOrEmpty => s.stateBeginStringOrEmpty c
  | .beginString => s.stateBeginString c
  | .endValue => s.stateEndValue c
  | .endTop => s.stateEndTop c
  -- strings
  | .inString => s.stateInString c
  | .inStringEsc => s.stateInStringEsc c
  | .inStringEscU => s.demand (isHexDigit c) .inStringEscU1
  | .inStringEscU1 => s.demand (isHexDigit c) .inStringEscU12
  | .inStringEscU12 => s.demand (isHexDigit c) .inStringEscU123
  | .inStringEscU123 => s.demand (isHexDigit c) .inString
  -- numbers
  | .neg => s.stateNeg c
  | .one => s.stateOne c
  | .zero => s.stateZero c
  | .dot => s.demand (isDigit c) .dot0
  | .dot0 => s.stateDot0 c
  | .e => s.stateE c
  | .eSign => s.demand (isDigit c) .e0
  | .e0 => s.stateE0 c
  -- `true`, `false` and `null`
  | .t => s.demand (c == 0x72) .tr
  | .tr => s.demand (c == 0x75) .tru
  | .tru => s.demand (c == 0x65) .endValue
  | .f => s.demand (c == 0x61) .fa
  | .fa => s.demand (c == 0x6c) .fal
  | .fal => s.demand (c == 0x73) .fals
  | .fals => s.demand (c == 0x65) .endValue
  | .n => s.demand (c == 0x75) .nu
  | .nu => s.demand (c == 0x6c) .nul
  | .nul => s.demand (c == 0x6c) .endValue
  | .error => s

/-- The bytes of a text, one after the other. -/
def run (s : Scanner) (bs : List UInt8) : Scanner := bs.foldl step s

/-- At the end of the input a space is fed, which ends a number at top level. -/
def eof (s : Scanner) : Bool :=
  s.mode == .endTop || (s.step 0x20).mode == .endTop

end Scanner

/-- `json.Valid`: the text is one JSON value, with spaces around it allowed. -/
def valid (bs : List UInt8) : Bool := (Scanner.init.run bs).eof

/-- Inside a string. -/
def Mode.isString : Mode → Bool
  | .inString | .inStringEsc | .inStringEscU | .inStringEscU1 | .inStringEscU12
  | .inStringEscU123 => true
  | _ => false

/-- Neither inside a string nor where a value or a name begins. -/
def Mode.isPlain : Mode → Bool
  | .beginValueOrEmpty | .beginValue | .beginStringOrEmpty | .beginString => false
  | m => !m.isString

namespace Scanner

/-! ### Runs -/

@[simp] theorem run_nil (s : Scanner) : s.run [] = s := rfl

@[simp] theorem run_cons (s : Scanner) (c : UInt8) (bs : List UInt8) :
    s.run (c :: bs) = (s.step c).run bs := rfl

theorem run_append (s : Scanner) (xs ys : List UInt8) :
    s.run (xs ++ ys) = (s.run xs).run ys := by
  simp only [run, List.foldl_append]

/-- No byte leads out of an error. -/
theorem run_error (s : Scanner) (bs : List UInt8) (h : s.mode = .error) :
    s.run bs = s := by
  induction bs with
  | nil => rfl
  | cons c bs ih =>
    have hstep : s.step c = s := by simp only [step, h]
    rw [run_cons, hstep, ih]

/-- A text that leads to an error is not accepted, whatever follows. -/
theorem eof_of_error (s : Scanner) (h : s.mode = .error) : s.eof = false := by
  simp [eof, step, h]

/-! ### What a byte can do -/

theorem pushParseState_cases (s : Scanner) (p : ParseState) (m : Mode) :
    s.pushParseState p m = ⟨m, p :: s.parseState⟩ ∨ s.pushParseState p m = s.goto .error := by
  unfold pushParseState
  split
  · exact .inl rfl
  · exact .inr rfl

/-- What begins with a byte where a value is expected. -/
theorem stateBeginValue_cases (s : Scanner) (c : UInt8) :
    s.stateBeginValue c = s ∨
      s.stateBeginValue c = s.pushParseState .objectKey .beginStringOrEmpty ∨
      s.stateBeginValue c = s.pushParseState .arrayValue .beginValueOrEmpty ∨
      (c = 0x22 ∧ s.stateBeginValue c = s.goto .inString) ∨
      ∃ m, m.isPlain = true ∧ m ≠ .endTop ∧ s.stateBeginValue c = s.goto m := by
  unfold stateBeginValue
  by_cases hspace : isSpace c = true
  · rw [if_pos hspace]
    exact .inl rfl
  by_cases hobject : c = 0x7b
  · rw [if_neg hspace, if_pos hobject]
    exact .inr (.inl rfl)
  by_cases harray : c = 0x5b
  · rw [if_neg hspace, if_neg hobject, if_pos harray]
    exact .inr (.inr (.inl rfl))
  rw [if_neg hspace, if_neg hobject, if_neg harray]
  by_cases hquote : c = 0x22
  · rw [if_pos hquote]
    exact .inr (.inr (.inr (.inl ⟨hquote, rfl⟩)))
  rw [if_neg hquote]
  -- the literals and the numbers, one byte after the other
  have hplain : ∀ (p : Prop) [Decidable p] (m : Mode) (t : Scanner), m.isPlain = true →
      m ≠ .endTop → (∃ m', m'.isPlain = true ∧ m' ≠ .endTop ∧ t = s.goto m') →
      ∃ m', m'.isPlain = true ∧ m' ≠ .endTop ∧ (if p then s.goto m else t) = s.goto m' := by
    intro p _ m t hm htop ht
    split
    · exact ⟨m, hm, htop, rfl⟩
    · exact ht
  right; right; right; right
  repeat apply hplain _ _ _ rfl (by decide)
  exact ⟨.error, rfl, by decide, rfl⟩

/-- A plain mode stays plain until a value ends; only there is the top-level value over. -/
theorem step_plain {m : Mode} (hm : m.isPlain = true) (ps : List ParseState) (c : UInt8) :
    step ⟨m, ps⟩ c = stateEndValue ⟨m, ps⟩ c ∨
      ∃ m', m'.isPlain = true ∧ (m' = .endTop → m = .endTop) ∧ step ⟨m, ps⟩ c = ⟨m', ps⟩ := by
  cases m <;> cases hm
  case endValue => exact .inl rfl
  all_goals
    simp only [step, demand, stateEndTop, stateNeg, stateOne, stateZero, stateDot0, stateE, stateE0]
    repeat' split
    all_goals
      first
        | exact .inl rfl
        | exact .inr ⟨_, rfl, by decide, rfl⟩

/-- Unless it closes the string, a byte is read without regard to what is around the string. -/
theorem step_inside {m : Mode} (hm : m.isString = true) {c : UInt8}
    (hc : m = .inString → c ≠ 0x22) :
    ∃ m', (m'.isString = true ∨ m' = .error) ∧
      ∀ base, step ⟨m, base⟩ c = ⟨m', base⟩ := by
  -- the digits of a `\u` escape
  have hdemand : ∀ (p : Bool) (m' : Mode), m'.isString = true → ∃ m'',
      (m''.isString = true ∨ m'' = .error) ∧ ∀ base, demand ⟨m, base⟩ p m' = ⟨m'', base⟩ := by
    intro p m' hm'
    cases p with
    | true => exact ⟨m', .inl hm', fun _ => rfl⟩
    | false => exact ⟨.error, .inr rfl, fun _ => rfl⟩
  cases m <;> cases hm
  case inString =>
    simp only [step, stateInString, if_neg (hc rfl)]
    repeat' split
    · exact ⟨.inStringEsc, .inl rfl, fun _ => rfl⟩
    · exact ⟨.error, .inr rfl, fun _ => rfl⟩
    · exact ⟨.inString, .inl rfl, fun _ => rfl⟩
  case inStringEsc =>
    simp only [step, stateInStringEsc]
    repeat' split
    · exact ⟨.inString, .inl rfl, fun _ => rfl⟩
    · exact ⟨.inStringEscU, .inl rfl, fun _ => rfl⟩
    · exact ⟨.error, .inr rfl, fun _ => rfl⟩
  all_goals exact hdemand _ _ rfl

end Scanner

end Json
