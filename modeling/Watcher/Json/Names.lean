import Watcher.Json.Write

/-!
# Names that do not fit between their quotes

What happens to a written object when a member name is not `StringSafe`: the
name ends its string early, or runs on over the closing quote. Either way the
scanner is lost: it has opened a value that no later member closes, or it takes
quotes that open strings for quotes that close them. It finds back only through
a comma outside a string, which the names do not have. So an object with
comma-free names is valid only if all of them are safe
(`valid_object_names_iff`).
-/

namespace Json

open Scanner List

/-! ### Outside of strings -/

variable {m : Mode} {s : Scanner} {c : UInt8} {t : List UInt8}

theorem isString_of_isPlain (h : m.isPlain = true) : m.isString = false := by
  cases m <;> first | rfl | exact nomatch h

theorem isString_stateEndValue (s : Scanner) (c : UInt8) :
    (s.stateEndValue c).mode.isString = false := by
  unfold stateEndValue stateEndTop popParseState
  repeat' split
  all_goals rfl

/-- Only a quote begins a string as a value. -/
theorem isString_stateBeginValue (hs : s.mode.isString = false) (hc : c ≠ 0x22) :
    (s.stateBeginValue c).mode.isString = false := by
  have hpush : ∀ p m, m.isString = false → (s.pushParseState p m).mode.isString = false := by
    intro p m hm
    rcases pushParseState_cases s p m with h | h
    · rw [h]
      exact hm
    · rw [h]
      rfl
  rcases stateBeginValue_cases s c with h | h | h | ⟨h, -⟩ | ⟨m, hm, -, h⟩
  · rw [h]
    exact hs
  · rw [h]
    exact hpush _ _ rfl
  · rw [h]
    exact hpush _ _ rfl
  · exact absurd h hc
  · rw [h]
    exact isString_of_isPlain hm

/-- Only a quote begins a name. -/
theorem isString_stateBeginStringOrEmpty (hs : s.mode.isString = false) (hc : c ≠ 0x22) :
    (s.stateBeginStringOrEmpty c).mode.isString = false := by
  unfold stateBeginStringOrEmpty stateBeginString
  rw [if_neg hc]
  repeat' split
  all_goals first | exact hs | rfl | exact isString_stateEndValue _ c

/-- Only a quote opens a string. -/
theorem isString_step (hs : s.mode.isString = false) (hc : c ≠ 0x22) :
    (s.step c).mode.isString = false := by
  obtain ⟨m, ps⟩ := s
  by_cases hm : m.isPlain = true
  · rcases step_plain hm ps c with h | ⟨m', hm', -, h⟩
    · rw [h]
      exact isString_stateEndValue _ c
    · rw [h]
      exact isString_of_isPlain hm'
  · cases m
    case beginValue => exact isString_stateBeginValue hs hc
    case beginStringOrEmpty => exact isString_stateBeginStringOrEmpty hs hc
    case beginValueOrEmpty =>
      show (stateBeginValueOrEmpty _ c).mode.isString = false
      unfold stateBeginValueOrEmpty
      repeat' split
      · exact hs
      · exact isString_stateEndValue _ c
      · exact isString_stateBeginValue hs hc
    case beginString =>
      show (stateBeginString _ c).mode.isString = false
      unfold stateBeginString
      rw [if_neg hc]
      split
      · exact hs
      · rfl
    all_goals first | exact absurd rfl hm | exact nomatch hs

theorem step_quote (hs : s.mode.isString = false) :
    (s.step 0x22).mode = .inString ∨ (s.step 0x22).mode = .error := by
  obtain ⟨m, ps⟩ := s
  cases m <;> cases hs
  case beginValue | beginValueOrEmpty | beginString | beginStringOrEmpty => exact .inl rfl
  all_goals
    right
    first
      | rfl
      | cases ps with
        | nil => rfl
        | cons p rest => cases p <;> rfl

theorem step_backslash (hs : s.mode.isString = false) : (s.step 0x5c).mode = .error := by
  obtain ⟨m, ps⟩ := s
  cases m <;> cases hs
  all_goals
    first
      | rfl
      | cases ps with
        | nil => rfl
        | cons p rest => cases p <;> rfl

/-- Every quote comes after a backslash. -/
def QuotesEscaped (t : List UInt8) : Prop := ∀ a b, t = a ++ 0x22 :: b → 0x5c ∈ a

namespace QuotesEscaped

theorem nil : QuotesEscaped [] := fun a b h => absurd h (by simp)

theorem backslash (t : List UInt8) : QuotesEscaped (0x5c :: t) := by
  intro a b h
  cases a with
  | nil => exact absurd (List.cons.inj h).1 (by decide)
  | cons c a =>
    rw [← (List.cons.inj h).1]
    exact mem_cons_self

/-- There is no quote at all. -/
theorem of_notMem {t : List UInt8} (h : 0x22 ∉ t) : QuotesEscaped t := by
  rintro a b rfl
  exact absurd (mem_append_right a mem_cons_self) h

/-- One after the other. -/
theorem append {s t : List UInt8} (hs : QuotesEscaped s) (ht : QuotesEscaped t) :
    QuotesEscaped (s ++ t) := by
  intro a b h
  rcases append_eq_append_iff.mp h with ⟨a', rfl, h'⟩ | ⟨c', rfl, h'⟩
  · exact mem_append_right s (ht a' b h')
  · cases c' with
    | nil => exact nomatch ht [] b h'.symm
    | cons c c' =>
      obtain ⟨rfl, -⟩ := List.cons.inj h'
      exact hs a c' rfl

/-- Any number of them. -/
theorem flatMap {α : Type _} {f : α → List UInt8} {l : List α} (h : ∀ a ∈ l, QuotesEscaped (f a)) :
    QuotesEscaped (l.flatMap f) := by
  induction l with
  | nil => exact nil
  | cons a l ih =>
    rw [flatMap_cons]
    exact append (h a mem_cons_self) (ih fun b hb => h b (mem_cons_of_mem a hb))

end QuotesEscaped

/-- Outside a string such a text opens none. -/
theorem isString_run (hs : s.mode.isString = false) (ht : QuotesEscaped t) :
    (s.run t).mode.isString = false := by
  induction t generalizing s with
  | nil => exact hs
  | cons c t ih =>
    rw [run_cons]
    by_cases hback : c = 0x5c
    · -- outside of strings a backslash is the end
      have herr := step_backslash hs
      rw [hback, run_error _ _ herr, herr]
      rfl
    · have hquote : c ≠ 0x22 := by
        rintro rfl
        exact nomatch ht [] t rfl
      apply ih (isString_step hs hquote)
      intro a b hab
      have hmem := ht (c :: a) b (by rw [hab]; rfl)
      exact (mem_cons.mp hmem).resolve_left (Ne.symm hback)

/-! ### Inside of strings -/

/-- A name is read inside its string up to its end, or up to a quote that closes the string. -/
theorem run_inside (hm : m.isString = true ∨ m = .error) (t : List UInt8) :
    (∃ m', (m'.isString = true ∨ m' = .error) ∧
      ∀ base, Scanner.run ⟨m, base⟩ t = ⟨m', base⟩) ∨
    ∃ a b, t = a ++ 0x22 :: b ∧ ∀ base, Scanner.run ⟨m, base⟩ a = ⟨.inString, base⟩ := by
  induction t generalizing m with
  | nil => exact .inl ⟨m, hm, fun _ => rfl⟩
  | cons c t ih =>
    by_cases hclose : m = .inString ∧ c = 0x22
    · obtain ⟨rfl, rfl⟩ := hclose
      exact .inr ⟨[], t, rfl, fun _ => rfl⟩
    · obtain ⟨m', hm', hstep⟩ : ∃ m', (m'.isString = true ∨ m' = .error) ∧
          ∀ base, Scanner.step ⟨m, base⟩ c = ⟨m', base⟩ := by
        rcases hm with hm | rfl
        · exact step_inside hm fun h hc => hclose ⟨h, hc⟩
        · exact ⟨.error, .inr rfl, fun _ => rfl⟩
      rcases ih hm' with ⟨m'', hm'', hrun⟩ | ⟨a, b, rfl, hrun⟩
      · exact .inl ⟨m'', hm'', fun base => by rw [run_cons, hstep, hrun]⟩
      · exact .inr ⟨c :: a, b, rfl, fun base => by rw [run_cons, hstep, hrun]⟩

/-! ### Nested scanners -/

/-- No name of the outermost object can begin without a comma. -/
def Nested (s : Scanner) : Prop :=
  match s.mode with
  | .beginString => False
  | .beginStringOrEmpty => ∃ b, s.parseState = .objectKey :: b ∧ b ≠ []
  | .beginValue | .beginValueOrEmpty => ∃ p b, s.parseState = p :: b ∧ p ≠ .objectKey
  | .inString | .inStringEsc | .inStringEscU | .inStringEscU1 | .inStringEscU12
  | .inStringEscU123 => s.parseState ≠ [.objectKey]
  | _ => True

theorem nested_of_isPlain (h : m.isPlain = true) (ps : List ParseState) : Nested ⟨m, ps⟩ := by
  cases m <;> first | exact trivial | exact nomatch h

theorem nested_of_isString (h : m.isString = true ∨ m = .error) {ps : List ParseState}
    (hps : ps ≠ [.objectKey]) : Nested ⟨m, ps⟩ := by
  rcases h with h | rfl
  · cases m <;> first | exact hps | exact nomatch h
  · exact trivial

theorem nested_stateEndValue (s : Scanner) (hc : c ≠ 0x2c) : Nested (s.stateEndValue c) := by
  unfold stateEndValue stateEndTop popParseState
  simp only [if_neg hc]
  repeat' split
  all_goals first | exact trivial | exact ⟨_, _, rfl, by decide⟩

/-- Where a value is expected. -/
theorem nested_stateBeginValue (hs : Nested s)
    (hstack : ∃ p b, s.parseState = p :: b ∧ p ≠ .objectKey) (c : UInt8) :
    Nested (s.stateBeginValue c) := by
  obtain ⟨p, b, hps, hp⟩ := hstack
  rcases stateBeginValue_cases s c with h | h | h | ⟨-, h⟩ | ⟨m, hm, -, h⟩
  · rw [h]
    exact hs
  · rcases pushParseState_cases s .objectKey .beginStringOrEmpty with h' | h'
    · rw [h, h']
      exact ⟨_, rfl, by rw [hps]; exact cons_ne_nil p b⟩
    · rw [h, h']
      exact trivial
  · rcases pushParseState_cases s .arrayValue .beginValueOrEmpty with h' | h'
    · rw [h, h']
      exact ⟨_, _, rfl, by decide⟩
    · rw [h, h']
      exact trivial
  · rw [h]
    exact fun h' => hp (List.cons.inj (hps.symm.trans h')).1
  · rw [h]
    exact nested_of_isPlain hm _

theorem nested_stateBeginStringOrEmpty (hs : Nested s)
    (hstack : ∃ b, s.parseState = .objectKey :: b ∧ b ≠ []) (hc : c ≠ 0x2c) :
    Nested (s.stateBeginStringOrEmpty c) := by
  obtain ⟨b, hps, hb⟩ := hstack
  unfold stateBeginStringOrEmpty stateBeginString
  repeat' split
  all_goals
    first
      | exact hs
      | exact trivial
      | exact nested_stateEndValue _ hc
      | exact fun h => hb (List.cons.inj (hps.symm.trans h)).2

/-- Every byte but a comma keeps it. -/
theorem nested_step (hs : Nested s) (hc : c ≠ 0x2c) : Nested (s.step c) := by
  obtain ⟨m, ps⟩ := s
  by_cases hplain : m.isPlain = true
  · rcases step_plain hplain ps c with h | ⟨m', hm', -, h⟩
    · rw [h]
      exact nested_stateEndValue _ hc
    · rw [h]
      exact nested_of_isPlain hm' ps
  by_cases hstring : m.isString = true
  · by_cases hclose : m = .inString ∧ c = 0x22
    · obtain ⟨rfl, rfl⟩ := hclose
      exact trivial
    · obtain ⟨m', hm', hstep⟩ := step_inside hstring fun h hc => hclose ⟨h, hc⟩
      rw [hstep]
      apply nested_of_isString hm'
      cases m <;> first | exact hs | exact nomatch hstring
  cases m
  case beginValue => exact nested_stateBeginValue hs hs c
  case beginStringOrEmpty => exact nested_stateBeginStringOrEmpty hs hs hc
  case beginValueOrEmpty =>
    show Nested (stateBeginValueOrEmpty _ c)
    unfold stateBeginValueOrEmpty
    repeat' split
    · exact hs
    · exact nested_stateEndValue _ hc
    · exact nested_stateBeginValue hs hs c
  case beginString => exact nomatch hs
  all_goals first | exact absurd rfl hplain | exact absurd rfl hstring

/-- And so does a text without commas. -/
theorem nested_run (hs : Nested s) (ht : 0x2c ∉ t) : Nested (s.run t) := by
  induction t generalizing s with
  | nil => exact hs
  | cons c t ih =>
    obtain ⟨hc, ht⟩ : (0x2c : UInt8) ≠ c ∧ 0x2c ∉ t := by simpa using ht
    exact ih (nested_step hs (Ne.symm hc)) ht

/-! ### Lost scanners -/

/-- Lost before a member's value: an object too deep, or inside of a string. -/
def LostValue (s : Scanner) : Prop :=
  s.mode = .error ∨ s.mode = .inString ∨ ∃ b, b ≠ [] ∧ s = ⟨.beginValue, .objectValue :: b⟩

/-- Lost after a member's value. -/
def LostEnd (s : Scanner) : Prop :=
  s.mode = .error ∨ s.mode = .inString ∨ ∃ b, b ≠ [] ∧ s = ⟨.endValue, .objectValue :: b⟩

/-- What is a string of its own where a value is expected, and closes a string and opens another
    one inside of a string. -/
def PlainValue (v : List UInt8) : Prop :=
  v = [0x6e, 0x75, 0x6c, 0x6c] ∨
    ∃ t, v = 0x22 :: t ++ [0x22] ∧ StringSafe t ∧ QuotesEscaped t

/-- A plain value is a whole value. -/
theorem completes_plainValue {v : List UInt8} (h : PlainValue v) (base : List ParseState) :
    Completes base v := by
  rcases h with rfl | ⟨t, rfl, ht, -⟩
  · exact completes_null base
  · exact completes_string base ht

/-- The quote and the colon after a name. -/
theorem run_endName (s : Scanner) :
    (s.run [0x22, 0x3a]).mode = .error ∨ (s.run [0x22, 0x3a]).mode = .inString ∨
      ∃ b, s = ⟨.inString, .objectKey :: b⟩ ∧
        s.run [0x22, 0x3a] = ⟨.beginValue, .objectValue :: b⟩ := by
  by_cases hs : s.mode.isString = true
  · -- the quote ends the string, and the colon fits after a name only
    obtain ⟨m, ps⟩ := s
    cases m
    case inString =>
      cases ps with
      | nil => exact .inl rfl
      | cons p b =>
        cases p with
        | objectKey => exact .inr (.inr ⟨b, rfl, rfl⟩)
        | objectValue | arrayValue => exact .inl rfl
    case inStringEsc => exact .inr (.inl rfl)
    case inStringEscU | inStringEscU1 | inStringEscU12 | inStringEscU123 => exact .inl rfl
    all_goals exact nomatch hs
  · -- the quote opens a string, and the colon is part of it
    rw [run_cons, run_cons, run_nil]
    generalize ht : s.step 0x22 = t
    have hquote := step_quote (Bool.eq_false_iff.mpr hs)
    rw [ht] at hquote
    obtain ⟨m, ps⟩ := t
    rcases hquote with h | h
    · cases h
      exact .inr (.inl rfl)
    · cases h
      exact .inl rfl

theorem lostValue_of_nested (hs : Nested s) : LostValue (s.run [0x22, 0x3a]) := by
  rcases run_endName s with h | h | ⟨b, rfl, h⟩
  · exact .inl h
  · exact .inr (.inl h)
  · refine .inr (.inr ⟨b, ?_, h⟩)
    rintro rfl
    exact hs rfl

/-- A name that is not safe loses the scanner. -/
theorem lostValue_of_not_safe (hcomma : 0x2c ∉ t) (ht : ¬ StringSafe t) :
    LostValue (Scanner.run ⟨.inString, [.objectKey]⟩ (t ++ [0x22, 0x3a])) := by
  rw [run_append]
  have hstring : Mode.isString .inString = true ∨ Mode.inString = .error := .inl rfl
  rcases run_inside hstring t with ⟨m, hm, hrun⟩ | ⟨a, b, rfl, hrun⟩
  · -- the string goes on over the quote
    rw [hrun]
    rcases run_endName ⟨m, [.objectKey]⟩ with h | h | ⟨b, h, -⟩
    · exact .inl h
    · exact .inr (.inl h)
    · cases h
      exact absurd hrun ht
  · -- the string is closed early, and what follows has no comma
    apply lostValue_of_nested
    rw [run_append, hrun, run_cons]
    apply nested_run
    · exact trivial
    · intro hmem
      exact hcomma (mem_append_right a (mem_cons_of_mem _ hmem))

/-- Nor does a value. -/
theorem lostEnd_value (hs : LostValue s) {v : List UInt8} (hv : PlainValue v) :
    LostEnd (s.run v) := by
  obtain ⟨m, ps⟩ := s
  rcases hs with h | h | ⟨b, hb, h⟩
  · rw [run_error _ _ h]
    exact .inl h
  · cases h
    rcases hv with rfl | ⟨t, rfl, -, ht⟩
    · exact .inr (.inl rfl)
    · -- the first quote closes, and only the last one opens again
      have hclose : Scanner.step ⟨.inString, ps⟩ 0x22 = ⟨.endValue, ps⟩ := rfl
      rw [cons_append, run_cons, hclose, run_append, run_cons, run_nil]
      have hbare : (Scanner.run ⟨.endValue, ps⟩ t).mode.isString = false := isString_run rfl ht
      exact (step_quote hbare).symm.imp_right .inl
  · cases h
    refine .inr (.inr ⟨b, hb, ?_⟩)
    rcases hv with rfl | ⟨t, rfl, ht, -⟩
    · rfl
    · have hopen : Scanner.step ⟨.beginValue, .objectValue :: b⟩ 0x22 =
          ⟨.inString, .objectValue :: b⟩ := rfl
      rw [cons_append, run_cons, hopen, run_append, ht]
      rfl

/-- `, "` leads to the next name. -/
theorem nested_separator (hs : LostEnd s) : Nested (s.run [0x2c, 0x20, 0x22]) := by
  obtain ⟨m, ps⟩ := s
  rcases hs with h | h | ⟨b, hb, h⟩
  · cases h
    exact trivial
  · cases h
    exact trivial
  · cases h
    show .objectKey :: b ≠ [.objectKey]
    exact fun h => hb (List.cons.inj h).2

theorem not_eof_of_lostEnd (hs : LostEnd s) : (s.step 0x7d).eof = false := by
  obtain ⟨m, ps⟩ := s
  rcases hs with h | h | ⟨b, hb, h⟩
  · cases h
    rfl
  · cases h
    rfl
  · cases h
    cases b with
    | nil => exact absurd rfl hb
    | cons p b => rfl

section Members

variable {ms : List (List UInt8 × List UInt8)}

theorem lostEnd_tail {s : Scanner} (hs : LostEnd s) (hcomma : ∀ m ∈ ms, 0x2c ∉ m.1)
    (hval : ∀ m ∈ ms, PlainValue m.2) :
    LostEnd (s.run (ms.flatMap fun m => [0x2c, 0x20] ++ member m)) := by
  induction ms generalizing s with
  | nil => exact hs
  | cons m ms ih =>
    have htext : [0x2c, 0x20] ++ member m = [0x2c, 0x20, 0x22] ++ m.1 ++ [0x22, 0x3a] ++ m.2 := by
      simp [member]
    rw [flatMap_cons, run_append, htext, run_append, run_append, run_append]
    apply ih _ (fun x hx => hcomma x (mem_cons_of_mem m hx))
      fun x hx => hval x (mem_cons_of_mem m hx)
    apply lostEnd_value _ (hval m mem_cons_self)
    apply lostValue_of_nested
    exact nested_run (nested_separator hs) (hcomma m mem_cons_self)

/-- The member with the first unsafe name. -/
theorem lostEnd_member {m : Mode} (hm : m = .beginString ∨ m = .beginStringOrEmpty)
    {x : List UInt8 × List UInt8} (hcomma : 0x2c ∉ x.1) (hval : PlainValue x.2)
    (hx : ¬ StringSafe x.1) : LostEnd (Scanner.run ⟨m, [.objectKey]⟩ (member x)) := by
  have hopen : Scanner.step ⟨m, [.objectKey]⟩ 0x22 = ⟨.inString, [.objectKey]⟩ := by
    rcases hm with rfl | rfl <;> rfl
  rw [member, cons_append, run_append, run_cons, hopen]
  exact lostEnd_value (lostValue_of_not_safe hcomma hx) hval

/-- An unsafe name after the first member. -/
theorem lostEnd_of_badName {s : Scanner} (hs : AfterValue [] s) (hcomma : ∀ m ∈ ms, 0x2c ∉ m.1)
    (hval : ∀ m ∈ ms, PlainValue m.2) (hbad : ∃ m ∈ ms, ¬ StringSafe m.1) :
    LostEnd (s.run (ms.flatMap fun m => [0x2c, 0x20] ++ member m)) := by
  induction ms generalizing s with
  | nil => exact absurd hbad (by simp)
  | cons m ms ih =>
    have hcomma' : ∀ x ∈ ms, 0x2c ∉ x.1 := fun x hx => hcomma x (mem_cons_of_mem m hx)
    have hval' : ∀ x ∈ ms, PlainValue x.2 := fun x hx => hval x (mem_cons_of_mem m hx)
    rw [flatMap_cons, run_append, run_append, run_separator hs]
    by_cases hm : StringSafe m.1
    · rw [run_member [] .beginString (.inl rfl) m hm]
      apply ih (completes_plainValue (hval m mem_cons_self) _) hcomma' hval'
      simpa [hm] using hbad
    · exact lostEnd_tail (lostEnd_member (.inl rfl) (hcomma m mem_cons_self)
        (hval m mem_cons_self) hm) hcomma' hval'

theorem not_valid_of_badName (hcomma : ∀ m ∈ ms, 0x2c ∉ m.1) (hval : ∀ m ∈ ms, PlainValue m.2)
    (hbad : ∃ m ∈ ms, ¬ StringSafe m.1) : valid (object ms) = false := by
  have hopen : init.step 0x7b = ⟨.beginStringOrEmpty, [.objectKey]⟩ := step_openBrace (by decide)
  have hlost : LostEnd (Scanner.run ⟨.beginStringOrEmpty, [.objectKey]⟩ (members ms)) := by
    cases ms with
    | nil => exact absurd hbad (by simp)
    | cons m ms =>
      have hcomma' : ∀ x ∈ ms, 0x2c ∉ x.1 := fun x hx => hcomma x (mem_cons_of_mem m hx)
      have hval' : ∀ x ∈ ms, PlainValue x.2 := fun x hx => hval x (mem_cons_of_mem m hx)
      rw [members, run_append]
      by_cases hm : StringSafe m.1
      · rw [run_member [] _ (.inr rfl) m hm]
        apply lostEnd_of_badName (completes_plainValue (hval m mem_cons_self) _) hcomma' hval'
        simpa [hm] using hbad
      · exact lostEnd_tail (lostEnd_member (.inr rfl) (hcomma m mem_cons_self)
          (hval m mem_cons_self) hm) hcomma' hval'
  rw [valid, object, cons_append, run_cons, hopen, run_append]
  exact not_eof_of_lostEnd hlost

/-- An object with comma-free names is valid exactly when every name fits between its quotes. -/
theorem valid_object_names_iff (hcomma : ∀ m ∈ ms, 0x2c ∉ m.1) (hval : ∀ m ∈ ms, PlainValue m.2) :
    valid (object ms) = true ↔ ∀ m ∈ ms, StringSafe m.1 := by
  have hcompletes : ∀ m ∈ ms, Completes [.objectValue] m.2 :=
    fun m hm => completes_plainValue (hval m hm) _
  constructor
  · intro hvalid m hm
    apply Classical.byContradiction
    intro hbad
    rw [not_valid_of_badName hcomma hval ⟨m, hm, hbad⟩] at hvalid
    exact nomatch hvalid
  · intro hname
    exact (valid_object_iff hname fun m hm => .inl (hcompletes m hm)).mpr hcompletes

end Members

end Json
