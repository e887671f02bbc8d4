import Watcher.Json.Grammar

/-!
# What the scanner accepts

Every text that the scanner accepts is the text of a value, with spaces around
it (`denotes_of_valid`), so `valid` texts are exactly the ones of the grammar
(`valid_iff`).

The scanner sees a text once, from left to right, and may find that it ends
inside a value. So the statement that carries the induction is about every text
that is not refused: it starts with a whole value, or it ends inside the value
it starts with (`Unfinished`).
-/

namespace Json

open Scanner List

/-! ### Texts that end too early -/

/-- A mode in which nothing is missing, if nothing is open. -/
def Mode.mayEnd : Mode → Bool
  | .endTop | .endValue | .zero | .one | .dot0 | .e0 => true
  | _ => false

/-- The value that was begun inside `base` is not over. -/
def Unfinished (base : List ParseState) (s : Scanner) : Prop :=
  ∃ ps, s.parseState = ps ++ base ∧ (ps = [] → s.mode.mayEnd = false)

variable {p : ParseState} {base : List ParseState} {s : Scanner} {c : UInt8} {m : Mode}
    {rest : List UInt8} {n : Nat}

theorem Unfinished.outer (h : Unfinished (p :: base) s) : Unfinished base s := by
  obtain ⟨ps, hps, -⟩ := h
  exact ⟨ps ++ [p], by rw [hps, append_assoc]; rfl, fun h => by simp at h⟩

/-- Something inside is open. -/
theorem unfinished_of_open (h : s.parseState = p :: base) : Unfinished base s :=
  ⟨[p], h, fun h => nomatch h⟩

theorem eof_of_unfinished (h : Unfinished [] s) (htop : TopClosed s) : s.eof = false := by
  obtain ⟨m, ps⟩ := s
  obtain ⟨ps', hps, hmode⟩ := h
  rw [append_nil] at hps
  simp only at hps hmode
  subst hps
  cases ps with
  | nil =>
    have hm := hmode rfl
    cases m <;> first | rfl | exact nomatch hm
  | cons p ps =>
    have hm : m ≠ .endTop := fun h => nomatch htop h
    cases m <;> first | rfl | exact absurd rfl hm

/-! ### One byte -/

/-- The delimiters one by one. -/
theorem isDelimiter_cases (h : isDelimiter c = true) :
    c = 0x2c ∨ c = 0x5d ∨ c = 0x7d ∨ c = 0x20 ∨ c = 0x09 ∨ c = 0x0d ∨ c = 0x0a := by
  simp only [isDelimiter, isSpace, Bool.or_eq_true, Bool.and_eq_true, decide_eq_true_eq,
    beq_iff_eq] at h
  grind

/-- After a name comes a colon. -/
theorem eq_of_stateEndValue_objectKey (hc : isSpace c = false)
    (h : (stateEndValue ⟨.endValue, .objectKey :: base⟩ c).mode ≠ .error) : c = 0x3a := by
  simp only [stateEndValue, hc, Bool.false_eq_true, if_false] at h
  by_contra hcolon
  rw [if_neg hcolon] at h
  exact h rfl

/-- After a value in an object comes a comma or the closing brace. -/
theorem eq_of_stateEndValue_objectValue (hc : isSpace c = false)
    (h : (stateEndValue ⟨.endValue, .objectValue :: base⟩ c).mode ≠ .error) :
    c = 0x2c ∨ c = 0x7d := by
  simp only [stateEndValue, hc, Bool.false_eq_true, if_false] at h
  by_contra hneither
  rw [not_or] at hneither
  rw [if_neg hneither.1, if_neg hneither.2] at h
  exact h rfl

/-- After a value in an array comes a comma or the closing bracket. -/
theorem eq_of_stateEndValue_arrayValue (hc : isSpace c = false)
    (h : (stateEndValue ⟨.endValue, .arrayValue :: base⟩ c).mode ≠ .error) :
    c = 0x2c ∨ c = 0x5d := by
  simp only [stateEndValue, hc, Bool.false_eq_true, if_false] at h
  by_contra hneither
  rw [not_or] at hneither
  rw [if_neg hneither.1, if_neg hneither.2] at h
  exact h rfl

/-- What comes after a value is a delimiter; a colon is only for names. -/
theorem isDelimiter_of_stateEndValue (hbase : base.head? ≠ some .objectKey)
    (h : (stateEndValue ⟨.endValue, base⟩ c).mode ≠ .error) : isDelimiter c = true := by
  cases hspace : isSpace c with
  | true => rw [isDelimiter, hspace, Bool.or_true]
  | false =>
    cases base with
    | nil =>
      simp only [stateEndValue, stateEndTop, hspace, Bool.false_eq_true, if_false] at h
      exact absurd rfl h
    | cons p base =>
      cases p with
      | objectKey => exact absurd rfl hbase
      | objectValue => rcases eq_of_stateEndValue_objectValue hspace h with rfl | rfl <;> rfl
      | arrayValue => rcases eq_of_stateEndValue_arrayValue hspace h with rfl | rfl <;> rfl

/-- Inside `null`, `true`, `false` or a number. -/
def Mode.isAtom : Mode → Bool
  | .neg | .one | .zero | .dot | .dot0 | .e | .eSign | .e0 | .t | .tr | .tru | .f | .fa | .fal
  | .fals | .n | .nu | .nul => true
  | _ => false

/-- What a byte can do there: it ends the value, belongs to it or is refused. -/
def AtomStep (m : Mode) (c : UInt8) : Prop :=
  (m.mayEnd = true ∧ ∀ base, step ⟨m, base⟩ c = stateEndValue ⟨m, base⟩ c) ∨
    (∃ m', (m'.isAtom = true ∨ m' = .endValue) ∧ isAtomByte c = true ∧
      ∀ base, step ⟨m, base⟩ c = ⟨m', base⟩) ∨
    ∀ base, step ⟨m, base⟩ c = ⟨.error, base⟩

private theorem isAtomByte_of_isDigit (h : isDigit c = true) : isAtomByte c = true := by
  rw [isAtomByte, h, Bool.true_or]

/-- The letters of a literal and the digits that have to come. -/
private theorem atomStep_demand {m' : Mode} {p : Bool}
    (hstep : ∀ base, step ⟨m, base⟩ c = demand ⟨m, base⟩ p m')
    (hm' : m'.isAtom = true ∨ m' = .endValue) (hp : p = true → isAtomByte c = true) :
    AtomStep m c := by
  cases p with
  | true => exact .inr (.inl ⟨m', hm', hp rfl, hstep⟩)
  | false => exact .inr (.inr hstep)

private theorem atomStep_goto (m' : Mode) (hm' : m'.isAtom = true) (hc : isAtomByte c = true)
    (hstep : ∀ base, step ⟨m, base⟩ c = ⟨m', base⟩) : AtomStep m c :=
  .inr (.inl ⟨m', .inl hm', hc, hstep⟩)

private theorem isAtomByte_exponent (h : c = 0x65 ∨ c = 0x45) : isAtomByte c = true := by
  rcases h with rfl | rfl <;> rfl

/-- After the integer part. -/
private theorem atomStep_zero (hm : m.mayEnd = true)
    (hstep : ∀ base, step ⟨m, base⟩ c = stateZero ⟨m, base⟩ c) : AtomStep m c := by
  by_cases hdot : c = 0x2e
  · exact atomStep_goto .dot rfl (by rw [hdot]; rfl) fun base =>
      (hstep base).trans (if_pos hdot)
  by_cases hexp : c = 0x65 ∨ c = 0x45
  · exact atomStep_goto .e rfl (isAtomByte_exponent hexp) fun base =>
      (hstep base).trans ((if_neg hdot).trans (if_pos hexp))
  · exact .inl ⟨hm, fun base => (hstep base).trans ((if_neg hdot).trans (if_neg hexp))⟩

/-- After a minus comes a digit. -/
private theorem atomStep_neg (c : UInt8) : AtomStep .neg c := by
  by_cases hzero : c = 0x30
  · exact atomStep_goto .zero rfl (by rw [hzero]; rfl) fun _ => if_pos hzero
  by_cases hdigit : isDigit c = true
  · exact atomStep_goto .one rfl (isAtomByte_of_isDigit hdigit) fun _ =>
      (if_neg hzero).trans (if_pos hdigit)
  · exact .inr (.inr fun _ => (if_neg hzero).trans (if_neg hdigit))

private theorem atomStep_one (c : UInt8) : AtomStep .one c := by
  by_cases hdigit : isDigit c = true
  · exact atomStep_goto .one rfl (isAtomByte_of_isDigit hdigit) fun _ => if_pos hdigit
  · exact atomStep_zero rfl fun _ => if_neg hdigit

/-- After a digit behind the point. -/
private theorem atomStep_dot0 (c : UInt8) : AtomStep .dot0 c := by
  by_cases hdigit : isDigit c = true
  · exact atomStep_goto .dot0 rfl (isAtomByte_of_isDigit hdigit) fun _ => if_pos hdigit
  by_cases hexp : c = 0x65 ∨ c = 0x45
  · exact atomStep_goto .e rfl (isAtomByte_exponent hexp) fun _ =>
      (if_neg hdigit).trans (if_pos hexp)
  · exact .inl ⟨rfl, fun _ => (if_neg hdigit).trans (if_neg hexp)⟩

private theorem atomStep_e (c : UInt8) : AtomStep .e c := by
  by_cases hsign : c = 0x2b ∨ c = 0x2d
  · exact atomStep_goto .eSign rfl (by rcases hsign with rfl | rfl <;> rfl) fun _ => if_pos hsign
  · exact atomStep_demand (fun _ => if_neg hsign) (.inl rfl) isAtomByte_of_isDigit

/-- After a digit of the exponent. -/
private theorem atomStep_e0 (c : UInt8) : AtomStep .e0 c := by
  by_cases hdigit : isDigit c = true
  · exact atomStep_goto .e0 rfl (isAtomByte_of_isDigit hdigit) fun _ => if_pos hdigit
  · exact .inl ⟨rfl, fun _ => if_neg hdigit⟩

theorem atomStep (hm : m.isAtom = true) (c : UInt8) : AtomStep m c := by
  have hletter : ∀ d : UInt8, isAtomByte d = true → (c == d) = true → isAtomByte c = true := by
    intro d hd hc
    rw [beq_iff_eq.mp hc, hd]
  cases m <;> cases hm
  case neg => exact atomStep_neg c
  case one => exact atomStep_one c
  case zero => exact atomStep_zero rfl fun _ => rfl
  case dot0 => exact atomStep_dot0 c
  case e => exact atomStep_e c
  case e0 => exact atomStep_e0 c
  case dot | eSign => exact atomStep_demand (fun _ => rfl) (.inl rfl) isAtomByte_of_isDigit
  -- the literals
  all_goals exact atomStep_demand (fun _ => rfl) (by simp [Mode.isAtom]) (hletter _ rfl)

/-- A value that may end here is over. -/
theorem over_of_mayEnd (hm : m.isAtom = true ∨ m = .endValue) (hend : m.mayEnd = true)
    (base : List ParseState) : Over base ⟨m, base⟩ := by
  refine ⟨rfl, fun c hc => ?_⟩
  rw [stateEndValue_mode .endValue m]
  rcases hm with hm | rfl
  · cases m <;> cases hm <;> cases hend
    all_goals
      rcases isDelimiter_cases hc with rfl | rfl | rfl | rfl | rfl | rfl | rfl <;> rfl
  · rfl

/-- A literal or a number, from any byte of it on, up to the delimiter. -/
theorem atom_of_run (hbase : base.head? ≠ some .objectKey) (hm : m.isAtom = true ∨ m = .endValue)
    {s : List UInt8} (h : (run ⟨m, base⟩ s).mode ≠ .error) :
    (∃ t rest, s = t ++ rest ∧ Delimited rest ∧ (∀ c ∈ t, isAtomByte c = true) ∧
        ∀ base, Over base (run ⟨m, base⟩ t)) ∨
      Unfinished base (run ⟨m, base⟩ s) := by
  -- byte by byte, up to the one that the value ends before
  induction s generalizing m with
  | nil =>
    cases hend : m.mayEnd with
    | true =>
      exact .inl ⟨[], [], rfl, delimited_nil, fun _ h => absurd h not_mem_nil,
        over_of_mayEnd hm hend⟩
    | false => exact .inr ⟨[], rfl, fun _ => hend⟩
  | cons c s ih =>
    -- the value may end before `c`, if `c` is read as what follows a value
    have hends : m.mayEnd = true → (∀ base, step ⟨m, base⟩ c = stateEndValue ⟨m, base⟩ c) →
        ∃ t rest, c :: s = t ++ rest ∧ Delimited rest ∧ (∀ c ∈ t, isAtomByte c = true) ∧
          ∀ base, Over base (run ⟨m, base⟩ t) := by
      intro hend hstep
      have hc : isDelimiter c = true := by
        apply isDelimiter_of_stateEndValue hbase
        intro herr
        rw [run_cons, hstep, stateEndValue_mode m .endValue, run_error _ _ herr] at h
        exact h herr
      exact ⟨[], c :: s, rfl, delimited_cons hc s, fun _ h => absurd h not_mem_nil,
        over_of_mayEnd hm hend⟩
    rcases hm with hatom | rfl
    · rcases atomStep hatom c with ⟨hend, hstep⟩ | ⟨m', hm', hc, hstep⟩ | hstep
      · exact .inl (hends hend hstep)
      · rw [run_cons, hstep] at h ⊢
        rcases ih hm' h with ⟨t, rest, rfl, hrest, ht, hover⟩ | hunf
        · refine .inl ⟨c :: t, rest, rfl, hrest, ?_, ?_⟩
          · intro d hd
            rcases mem_cons.mp hd with rfl | hd
            · exact hc
            · exact ht d hd
          · intro base
            rw [run_cons, hstep]
            exact hover base
        · exact .inr hunf
      · rw [run_cons, hstep, run_error _ _ rfl] at h
        exact absurd rfl h
    · exact .inl (hends rfl fun _ => rfl)

/-! ### Whole values -/

theorem exists_spaces (s : List UInt8) : ∃ (sp : Spaces) (rest : List UInt8), s = sp.1 ++ rest ∧
    (rest = [] ∨ ∃ c t, rest = c :: t ∧ isSpace c = false) := by
  induction s with
  | nil => exact ⟨.none, [], rfl, .inl rfl⟩
  | cons c s ih =>
    cases hc : isSpace c with
    | false => exact ⟨.none, c :: s, rfl, .inr ⟨c, s, rfl, hc⟩⟩
    | true =>
      obtain ⟨sp, rest, rfl, hrest⟩ := ih
      refine ⟨⟨c :: sp.1, ?_⟩, rest, rfl, hrest⟩
      intro d hd
      rcases mem_cons.mp hd with rfl | hd
      · exact hc
      · exact sp.2 d hd

private theorem room_of_pushParseState (h : (pushParseState s p m).mode ≠ .error) :
    s.parseState.length < maxNestingDepth := by
  rw [pushParseState] at h
  split at h
  · rename_i hlt
    exact hlt
  · exact absurd rfl h

/-- How a value may begin. -/
theorem step_beginValue_cases (hc : isSpace c = false)
    (h : (step ⟨.beginValue, base⟩ c).mode ≠ .error) :
    (c = 0x7b ∧ base.length < maxNestingDepth) ∨ (c = 0x5b ∧ base.length < maxNestingDepth) ∨
      c = 0x22 ∨ ∃ m, m.isAtom = true ∧ isAtomByte c = true ∧
        ∀ base, step ⟨.beginValue, base⟩ c = ⟨m, base⟩ := by
  by_cases hbrace : c = 0x7b
  · subst hbrace
    exact .inl ⟨rfl, room_of_pushParseState h⟩
  by_cases hbracket : c = 0x5b
  · subst hbracket
    exact .inr (.inl ⟨rfl, room_of_pushParseState h⟩)
  by_cases hquote : c = 0x22
  · exact .inr (.inr (.inl hquote))
  -- what is left begins a number or a literal, whatever is open
  refine .inr (.inr (.inr ?_))
  have hstep : ∀ base, step ⟨.beginValue, base⟩ c =
      if c = 0x2d then ⟨.neg, base⟩ else if c = 0x30 then ⟨.zero, base⟩
      else if c = 0x74 then ⟨.t, base⟩ else if c = 0x66 then ⟨.f, base⟩
      else if c = 0x6e then ⟨.n, base⟩ else if isDigit c then ⟨.one, base⟩
      else ⟨.error, base⟩ := by
    intro base
    show stateBeginValue _ c = _
    simp only [stateBeginValue, hc, Bool.false_eq_true, if_false, if_neg hbrace, if_neg hbracket,
      if_neg hquote]
    rfl
  rw [hstep] at h
  simp only [hstep]
  split
  · rename_i heq
    exact ⟨.neg, rfl, by rw [heq]; rfl, fun _ => rfl⟩
  split
  · rename_i heq
    exact ⟨.zero, rfl, by rw [heq]; rfl, fun _ => rfl⟩
  split
  · rename_i heq
    exact ⟨.t, rfl, by rw [heq]; rfl, fun _ => rfl⟩
  split
  · rename_i heq
    exact ⟨.f, rfl, by rw [heq]; rfl, fun _ => rfl⟩
  split
  · rename_i heq
    exact ⟨.n, rfl, by rw [heq]; rfl, fun _ => rfl⟩
  split
  · rename_i hdigit
    exact ⟨.one, rfl, isAtomByte_of_isDigit hdigit, fun _ => rfl⟩
  · rename_i h₁ h₂ h₃ h₄ h₅ h₆
    rw [if_neg h₁, if_neg h₂, if_neg h₃, if_neg h₄, if_neg h₅, if_neg h₆] at h
    exact absurd rfl h

/-- A value that announced its end is followed by a delimiter. -/
theorem delimited_of_closed (hbase : base.head? ≠ some .objectKey)
    (hs : s = popParseState base ∨ s = ⟨.endValue, base⟩) (h : (s.run rest).mode ≠ .error) :
    Delimited rest := by
  rintro c t rfl
  have hstep : s.step c = stateEndValue ⟨.endValue, base⟩ c := by
    rcases hs with rfl | rfl
    · cases base <;> rfl
    · rfl
  apply isDelimiter_of_stateEndValue hbase
  intro herr
  rw [run_cons, hstep, run_error _ _ herr] at h
  exact h herr

/-- What is left of the nesting inside `base`. -/
private def room (base : List ParseState) : Nat := maxNestingDepth - base.length

/-- A value, after spaces. -/
private def ValueParses (n : Nat) : Prop :=
  ∀ {s : List UInt8} {base : List ParseState}, s.length ≤ n →
    base.length ≤ maxNestingDepth → base.head? ≠ some .objectKey →
    (run ⟨.beginValue, base⟩ s).mode ≠ .error →
    (∃ (sp : Spaces) (t : List UInt8) (v : Value) (rest : List UInt8), s = sp.1 ++ (t ++ rest) ∧
      Denotes (room base) t v ∧ Delimited rest) ∨ Unfinished base (run ⟨.beginValue, base⟩ s)

/-- The elements of an array up to its bracket. -/
private def ElementsParse (n : Nat) : Prop :=
  ∀ {s : List UInt8} {base : List ParseState}, s.length ≤ n →
    base.length < maxNestingDepth → (run ⟨.beginValue, .arrayValue :: base⟩ s).mode ≠ .error →
    (∃ (e : Element) (es : List Element) (rest : List UInt8),
      s = commas ((e :: es).map Element.bytes) ++ 0x5d :: rest ∧
      ∀ x ∈ e :: es, Denotes (room (.arrayValue :: base)) x.text x.value) ∨
      Unfinished base (run ⟨.beginValue, .arrayValue :: base⟩ s)

/-- The members of an object up to its brace. -/
private def MembersParse (n : Nat) : Prop :=
  ∀ {s : List UInt8} {base : List ParseState}, s.length ≤ n →
    base.length < maxNestingDepth → (run ⟨.beginString, .objectKey :: base⟩ s).mode ≠ .error →
    (∃ (m : Member) (ms : List Member) (rest : List UInt8),
      s = commas ((m :: ms).map Member.bytes) ++ 0x7d :: rest ∧
      ∀ x ∈ m :: ms, Denotes (room (.objectValue :: base)) x.text x.value) ∨
      Unfinished base (run ⟨.beginString, .objectKey :: base⟩ s)

/-- Texts of at most `n` bytes start with what the scanner waits for, or end before it is over. -/
private structure Parses (n : Nat) : Prop where
  value : ValueParses n
  elements : ElementsParse n
  members : MembersParse n

/-- The byte after a value inside an object or an array, and after spaces. -/
theorem Over.step_after (h : Over (p :: base) s) (sp : Spaces) {t : List UInt8}
    (hrest : Delimited (sp.1 ++ c :: t)) :
    (s.run sp.1).step c = stateEndValue ⟨.endValue, p :: base⟩ c := by
  obtain ⟨sp, hsp⟩ := sp
  cases sp with
  | nil => exact h.step c (hrest c t rfl)
  | cons b sp =>
    have hb := hsp b mem_cons_self
    let rest : Spaces := ⟨sp, fun c hc => hsp c (mem_cons_of_mem _ hc)⟩
    have hstep : stateEndValue ⟨.endValue, p :: base⟩ b = ⟨.endValue, p :: base⟩ := if_pos hb
    show ((s.step b).run rest.1).step c = _
    rw [h.step b (by rw [isDelimiter, hb, Bool.or_true]), hstep, run_spaces_endValue]
    rfl

/-- After a value inside an object or an array the text ends or goes on with what may follow. -/
theorem after_value (h : Over (p :: base) s) (hrest : Delimited rest)
    (hok : (s.run rest).mode ≠ .error) :
    Unfinished base (s.run rest) ∨ ∃ (sp : Spaces) (c : UInt8) (u : List UInt8),
      rest = sp.1 ++ c :: u ∧ isSpace c = false ∧
      s.run rest = (stateEndValue ⟨.endValue, p :: base⟩ c).run u := by
  obtain ⟨sp, rest, rfl, hnext⟩ := exists_spaces rest
  rw [run_append] at hok ⊢
  rcases hnext with rfl | ⟨c, u, rfl, hc⟩
  · exact .inl (unfinished_of_open (h.spaces sp).parseState)
  · rw [run_cons, h.step_after sp hrest] at hok ⊢
    exact .inr ⟨sp, c, u, rfl, hc, rfl⟩

private theorem room_add (h : base.length ≤ maxNestingDepth) :
    room base + base.length ≤ maxNestingDepth := by
  rw [room]
  omega

private theorem room_cons (h : base.length < maxNestingDepth) :
    room base = room (p :: base) + 1 := by
  rw [room, room, length_cons]
  omega

private theorem elements_of_run (hvalue : ValueParses n) (ih : ∀ k < n, Parses k) :
    ElementsParse n := by
  intro s base hlength hfit hok
  have hfit' : (ParseState.arrayValue :: base).length ≤ maxNestingDepth := hfit
  rcases hvalue hlength hfit' (by simp) hok with ⟨sp, t, v, rest, rfl, ht, hrest⟩ | hunf
  · rw [run_append, run_spaces (.inl rfl), run_append] at hok ⊢
    rcases after_value (ht.ends (room_add hfit')) hrest hok with hunf | ⟨sp', c, u, rfl, hc, hrun⟩
    · exact .inr hunf
    rw [hrun] at hok ⊢
    let e : Element := ⟨sp, t, v, sp'⟩
    have he : Denotes (room (.arrayValue :: base)) e.text e.value := ht
    rcases eq_of_stateEndValue_arrayValue hc (mode_of_run hok) with rfl | rfl
    · -- another element
      have hlt : u.length < n := by
        simp only [length_append, length_cons] at hlength
        omega
      rcases (ih _ hlt).elements (Nat.le_refl _) hfit hok with ⟨e', es, rest, rfl, hes⟩ | hunf
      · refine .inl ⟨e, e' :: es, rest, ?_, forall_mem_cons.mpr ⟨he, hes⟩⟩
        simp only [map_cons, commas, e, Element.bytes, append_assoc, cons_append]
      · exact .inr hunf
    · refine .inl ⟨e, [], u, ?_, forall_mem_singleton.mpr he⟩
      simp only [map_cons, map_nil, commas, e, Element.bytes, append_assoc]
  · exact .inr hunf.outer

/-- The first member, and by induction its value and the other members. -/
private theorem members_of_run (ih : ∀ k < n, Parses k) : MembersParse n := by
  intro s base hlength hfit hok
  have hfit' : (ParseState.objectValue :: base).length ≤ maxNestingDepth := hfit
  obtain ⟨sp, rest, rfl, hrest⟩ := exists_spaces s
  rw [run_append, run_spaces (by simp)] at hok ⊢
  rcases hrest with rfl | ⟨c, u, rfl, hc⟩
  · exact .inr (unfinished_of_open rfl)
  -- the name
  have hquote : c = 0x22 := by
    by_contra hne
    have hfail : step ⟨.beginString, .objectKey :: base⟩ c = ⟨.error, .objectKey :: base⟩ := by
      show stateBeginString _ c = _
      simp only [stateBeginString, hc, Bool.false_eq_true, if_false, if_neg hne]
      rfl
    rw [run_cons, hfail, run_error _ _ rfl] at hok
    exact hok rfl
  subst hquote
  have hopen : step ⟨.beginString, .objectKey :: base⟩ 0x22 = ⟨.inString, .objectKey :: base⟩ := rfl
  have hclose : step ⟨.inString, .objectKey :: base⟩ 0x22 = ⟨.endValue, .objectKey :: base⟩ := rfl
  rw [run_cons, hopen] at hok ⊢
  rcases body_of_run hok with ⟨name, rest, hbody, rfl⟩ | ⟨m, -, hrun⟩
  swap
  · exact .inr (unfinished_of_open (by rw [hrun]))
  obtain ⟨key, hkey⟩ := hbody.exists_reads
  rw [run_append, hbody.stringSafe, run_cons, hclose] at hok ⊢
  -- the colon
  obtain ⟨sp₁, rest, rfl, hrest⟩ := exists_spaces rest
  rw [run_append, run_spaces_endValue] at hok ⊢
  rcases hrest with rfl | ⟨c, u, rfl, hc⟩
  · exact .inr (unfinished_of_open rfl)
  obtain rfl := eq_of_stateEndValue_objectKey hc (mode_of_run hok)
  -- the value
  have hlt : u.length < n := by
    simp only [length_append, length_cons] at hlength
    omega
  rcases (ih _ hlt).value (Nat.le_refl _) hfit' (by simp) hok with
    ⟨sp₂, t, v, rest, rfl, ht, hrest⟩ | hunf
  swap
  · exact .inr hunf.outer
  have hcolon : step ⟨.endValue, .objectKey :: base⟩ 0x3a = ⟨.beginValue, .objectValue :: base⟩ :=
    rfl
  rw [run_cons, hcolon, run_append, run_spaces (.inl rfl), run_append] at hok ⊢
  rcases after_value (ht.ends (room_add hfit')) hrest hok with hunf | ⟨sp₃, c, u, rfl, hc, hrun⟩
  · exact .inr hunf
  rw [hrun] at hok ⊢
  let m : Member := ⟨⟨sp₂, t, v, sp₃⟩, sp, name, key, sp₁, hbody, hkey⟩
  have hm : Denotes (room (.objectValue :: base)) m.text m.value := ht
  rcases eq_of_stateEndValue_objectValue hc (mode_of_run hok) with rfl | rfl
  · -- another member
    have hlt' : u.length < n := by
      simp only [length_append, length_cons] at hlt
      omega
    rcases (ih _ hlt').members (Nat.le_refl _) hfit hok with ⟨m', ms, rest, rfl, hms⟩ | hunf
    · refine .inl ⟨m, m' :: ms, rest, ?_, forall_mem_cons.mpr ⟨hm, hms⟩⟩
      simp only [map_cons, commas, m, Member.bytes, Element.bytes, append_assoc, cons_append]
    · exact .inr hunf
  · refine .inl ⟨m, [], u, ?_, forall_mem_singleton.mpr hm⟩
    simp only [map_cons, map_nil, commas, m, Member.bytes, Element.bytes, append_assoc, cons_append]

/-- The text starts with a value. -/
private def StartsWithValue (base : List ParseState) (s : List UInt8) : Prop :=
  ∃ (t : List UInt8) (v : Value) (rest : List UInt8), s = t ++ rest ∧
    Denotes (room base) t v ∧ Delimited rest

/-- An object or an array that is closed, behind the byte that opens it. -/
private theorem startsWithValue_of_closed (hbase : base.head? ≠ some .objectKey) {b : UInt8}
    {t : List UInt8} {v : Value} (hden : Denotes (room base) (b :: t) v)
    (hclosed : s.run t = popParseState base) (hok : (s.run (t ++ rest)).mode ≠ .error) :
    StartsWithValue base (b :: (t ++ rest)) := by
  rw [run_append, hclosed] at hok
  exact ⟨b :: t, v, rest, rfl, hden, delimited_of_closed hbase (.inl rfl) hok⟩

/-- After the opening brace. -/
private theorem object_of_run (ih : ∀ k < n, Parses k) {u : List UInt8} (hlt : u.length < n)
    (hfit : base.length < maxNestingDepth) (hbase : base.head? ≠ some .objectKey)
    (hok : (run ⟨.beginStringOrEmpty, .objectKey :: base⟩ u).mode ≠ .error) :
    StartsWithValue base (0x7b :: u) ∨
      Unfinished base (run ⟨.beginStringOrEmpty, .objectKey :: base⟩ u) := by
  have hwhole : ∀ (sp : Spaces) (ms : List Member) (rest : List UInt8),
      u = sp.1 ++ commas (ms.map Member.bytes) ++ [0x7d] ++ rest →
      (∀ m ∈ ms, Denotes (room (.objectValue :: base)) m.text m.value) →
      StartsWithValue base (0x7b :: u) := by
    intro sp ms rest hu hms
    have hden := Denotes.object sp ms hms
    rw [← room_cons hfit] at hden
    have hclosed := run_members hfit sp ms fun m hm => (hms m hm).ends (room_add hfit)
    rw [run_cons, step_openBrace hfit] at hclosed
    subst hu
    exact startsWithValue_of_closed hbase hden hclosed hok
  obtain ⟨sp, rest, rfl, hrest⟩ := exists_spaces u
  rcases hrest with rfl | ⟨c, w, rfl, hc⟩
  · rw [append_nil, run_spaces (by simp)]
    exact .inr (unfinished_of_open rfl)
  by_cases hbrace : c = 0x7d
  · subst hbrace
    exact .inl (hwhole sp [] w (by simp [commas]) fun _ h => nomatch h)
  · rw [run_beginStringOrEmpty hc hbrace] at hok ⊢
    rcases (ih _ hlt).members (Nat.le_refl _) hfit hok with ⟨m, ms, rest, heq, hms⟩ | hunf
    · exact .inl (hwhole .none (m :: ms) rest (by simp [heq]) hms)
    · exact .inr hunf

/-- After the opening bracket. -/
private theorem array_of_run (ih : ∀ k < n, Parses k) {u : List UInt8} (hlt : u.length < n)
    (hfit : base.length < maxNestingDepth) (hbase : base.head? ≠ some .objectKey)
    (hok : (run ⟨.beginValueOrEmpty, .arrayValue :: base⟩ u).mode ≠ .error) :
    StartsWithValue base (0x5b :: u) ∨
      Unfinished base (run ⟨.beginValueOrEmpty, .arrayValue :: base⟩ u) := by
  have hwhole : ∀ (sp : Spaces) (es : List Element) (rest : List UInt8),
      u = sp.1 ++ commas (es.map Element.bytes) ++ [0x5d] ++ rest →
      (∀ e ∈ es, Denotes (room (.arrayValue :: base)) e.text e.value) →
      StartsWithValue base (0x5b :: u) := by
    intro sp es rest hu hes
    have hden := Denotes.array sp es hes
    rw [← room_cons hfit] at hden
    have hclosed := run_array hfit sp es (fun e he => (hes e he).head)
      fun e he => (hes e he).ends (room_add hfit)
    rw [run_cons, step_openBracket hfit] at hclosed
    subst hu
    exact startsWithValue_of_closed hbase hden hclosed hok
  obtain ⟨sp, rest, rfl, hrest⟩ := exists_spaces u
  rcases hrest with rfl | ⟨c, w, rfl, hc⟩
  · rw [append_nil, run_spaces (by simp)]
    exact .inr (unfinished_of_open rfl)
  by_cases hbracket : c = 0x5d
  · subst hbracket
    exact .inl (hwhole sp [] w (by simp [commas]) fun _ h => nomatch h)
  · rw [run_beginValueOrEmpty hc hbracket] at hok ⊢
    rcases (ih _ hlt).elements (Nat.le_refl _) hfit hok with ⟨e, es, rest, heq, hes⟩ | hunf
    · exact .inl (hwhole .none (e :: es) rest (by simp [heq]) hes)
    · exact .inr hunf

/-- By the byte the value starts with. -/
private theorem value_of_run (ih : ∀ k < n, Parses k) : ValueParses n := by
  intro s base hlength hfit hbase hok
  obtain ⟨sp, rest, rfl, hrest⟩ := exists_spaces s
  rw [run_append, run_spaces (.inl rfl)] at hok ⊢
  rcases hrest with rfl | ⟨c, u, rfl, hc⟩
  · exact .inr ⟨[], rfl, fun _ => rfl⟩
  have hlt : u.length < n := by
    simp only [length_append, length_cons] at hlength
    omega
  -- the spaces go in front of whatever value is found
  suffices h : StartsWithValue base (c :: u) ∨
      Unfinished base (run ⟨.beginValue, base⟩ (c :: u)) by
    rcases h with ⟨t, v, rest, heq, hden, hrest⟩ | hunf
    · exact .inl ⟨sp, t, v, rest, by rw [heq], hden, hrest⟩
    · exact .inr hunf
  rcases step_beginValue_cases hc (mode_of_run hok) with
    ⟨rfl, hroom⟩ | ⟨rfl, hroom⟩ | rfl | ⟨m, hm, hbyte, hstep⟩
  · rw [run_cons, step_openBrace hroom] at hok ⊢
    exact object_of_run ih hlt hroom hbase hok
  · rw [run_cons, step_openBracket hroom] at hok ⊢
    exact array_of_run ih hlt hroom hbase hok
  · have hopen : step ⟨.beginValue, base⟩ 0x22 = ⟨.inString, base⟩ := rfl
    have hclose : step ⟨.inString, base⟩ 0x22 = ⟨.endValue, base⟩ := rfl
    rw [run_cons, hopen] at hok ⊢
    rcases body_of_run hok with ⟨t, rest, hbody, rfl⟩ | ⟨m, hm, hrun⟩
    · obtain ⟨cs, hcs⟩ := hbody.exists_reads
      rw [run_append, hbody.stringSafe, run_cons, hclose] at hok
      refine .inl ⟨_, _, rest, ?_, .string hbody hcs, delimited_of_closed hbase (.inr rfl) hok⟩
      simp only [cons_append, append_assoc, nil_append]
    · refine .inr ⟨[], by rw [hrun]; rfl, fun _ => ?_⟩
      rw [hrun]
      cases m <;> first | rfl | exact nomatch hm
  · rw [run_cons, hstep] at hok ⊢
    rcases atom_of_run hbase (.inl hm) hok with ⟨t, rest, rfl, hrest, ht, hover⟩ | hunf
    · have hatom : IsAtom (c :: t) :=
        ⟨cons_ne_nil c t, forall_mem_cons.mpr ⟨hbyte, ht⟩, fun base => by
          rw [run_cons, hstep]
          exact hover base⟩
      exact .inl ⟨c :: t, _, rest, rfl, .atom hatom, hrest⟩
    · exact .inr hunf

private theorem parses (n : Nat) : Parses n := by
  induction n using Nat.strongRecOn with
  | ind n ih =>
    exact ⟨value_of_run ih, elements_of_run (value_of_run ih) ih, members_of_run ih⟩

/-- After the top-level value only spaces may come. -/
private theorem spaces_of_endTop (h : (run ⟨.endTop, []⟩ rest).mode ≠ .error) :
    ∀ c ∈ rest, isSpace c = true := by
  induction rest with
  | nil => exact fun _ h => absurd h not_mem_nil
  | cons c rest ih =>
    cases hc : isSpace c with
    | true =>
      have hstep : step ⟨.endTop, []⟩ c = ⟨.endTop, []⟩ := if_pos hc
      rw [run_cons, hstep] at h
      exact forall_mem_cons.mpr ⟨hc, ih h⟩
    | false =>
      have hstep : step ⟨.endTop, []⟩ c = ⟨.error, []⟩ := if_neg (by simp [hc])
      rw [run_cons, hstep, run_error _ _ rfl] at h
      exact absurd rfl h

private theorem spaces_of_over (h : Over [] s) (hrest : Delimited rest)
    (hok : (s.run rest).mode ≠ .error) : ∀ c ∈ rest, isSpace c = true := by
  cases rest with
  | nil => exact fun _ h => absurd h not_mem_nil
  | cons c rest =>
    -- the state after the first space is that of the end of the top-level value
    have hstep : s.step c = step ⟨.endTop, []⟩ c := h.step c (hrest c rest rfl)
    rw [run_cons, hstep, ← run_cons] at hok
    exact spaces_of_endTop hok

/-- A valid text is the text of a value, with spaces around it. -/
theorem denotes_of_valid {s : List UInt8} (h : valid s = true) :
    ∃ (before after : Spaces) (t : List UInt8) (v : Value), s = before.1 ++ t ++ after.1 ∧
      Denotes maxNestingDepth t v := by
  have hok : (run ⟨.beginValue, []⟩ s).mode ≠ .error := by
    intro herr
    rw [valid, init, eof_of_error _ herr] at h
    cases h
  rcases (parses s.length).value (Nat.le_refl _) (Nat.zero_le _) (by simp) hok with
    ⟨sp, t, v, rest, rfl, ht, hrest⟩ | hunf
  · rw [run_append, run_spaces (.inl rfl), run_append] at hok
    have hafter := spaces_of_over (ht.ends (room_add (Nat.zero_le _))) hrest hok
    exact ⟨sp, ⟨rest, hafter⟩, t, v, (append_assoc ..).symm, ht⟩
  · rw [valid, init, eof_of_unfinished hunf (topClosed_run _ s (by rintro ⟨⟩))] at h
    cases h

/-- The valid texts are the ones of the grammar. -/
theorem valid_iff {s : List UInt8} : valid s = true ↔
    ∃ (before after : Spaces) (t : List UInt8) (v : Value), s = before.1 ++ t ++ after.1 ∧
      Denotes maxNestingDepth t v := by
  constructor
  · exact denotes_of_valid
  · rintro ⟨before, after, t, v, rfl, ht⟩
    exact ht.valid (Nat.le_refl _) before after

/-- What a valid text is read as is what it is the text of. -/
theorem denotes_of_read {s : List UInt8} {v : Value} (h : valid s = true)
    (hread : read s = some v) :
    ∃ (before after : Spaces) (t : List UInt8), s = before.1 ++ t ++ after.1 ∧
      Denotes maxNestingDepth t v := by
  obtain ⟨before, after, t, w, rfl, ht⟩ := denotes_of_valid h
  rw [ht.read before after] at hread
  injection hread with hread
  exact ⟨before, after, t, rfl, hread ▸ ht⟩

end Json
