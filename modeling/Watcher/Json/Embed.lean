import Watcher.Json.Scanner

/-!
# A JSON value inside an enclosing text

`json.Valid` is asked about one value on its own, and the value is then written
into the middle of an object. `embed base` is the scanner state inside the
object that corresponds to a state of the run on the value alone: the open
composite values `base` lie under the value's own, and a value that is over
waits for a separator instead of for the end of the text.

The two runs agree step by step (`run_embed`) until the enclosing values push
the stack over `maxNestingDepth`, where the embedded run fails
(`run_embed_overflow`). A text that `valid` accepts can therefore still be
refused once it is embedded, and `nestingDepth` says exactly when.
-/

namespace Json

open List

namespace Scanner

/-- The state on top of the open values `base` that corresponds to `s`. -/
def embed (base : List ParseState) (s : Scanner) : Scanner :=
  ⟨if s.mode = .endTop then .endValue else s.mode, s.parseState ++ base⟩

@[simp] theorem embed_parseState (base : List ParseState) (s : Scanner) :
    (s.embed base).parseState = s.parseState ++ base := rfl

theorem embed_init (base : List ParseState) : init.embed base = ⟨.beginValue, base⟩ := rfl

/-! ### One step -/

/-- The next mode is the same. -/
private theorem goto_embed (base : List ParseState) (s : Scanner) (m : Mode) (hm : m ≠ .endTop) :
    (s.embed base).goto m = (s.goto m).embed base := by
  simp only [goto, embed, hm, ↓reduceIte]

private theorem fail_embed (base : List ParseState) (s : Scanner) :
    (s.embed base).fail = s.fail.embed base := rfl

variable {base : List ParseState}

/-- `t` is the embedded `s`, unless `s` has failed or the larger stack has no room for it. -/
def Embeds (base : List ParseState) (t s : Scanner) : Prop :=
  s.mode ≠ .error → s.parseState.length + base.length ≤ maxNestingDepth → t = s.embed base

/-- The two scanners decide alike. -/
private theorem Embeds.ite {p : Prop} [Decidable p] {t t' u u' : Scanner} (ht : Embeds base t u)
    (ht' : Embeds base t' u') : Embeds base (if p then t else t') (if p then u else u') := by
  split
  · exact ht
  · exact ht'

private theorem Embeds.of_eq {t s : Scanner} (h : t = s.embed base) : Embeds base t s :=
  fun _ _ => h

private theorem embeds_goto {s : Scanner} {m : Mode} (hm : m ≠ .endTop) :
    Embeds base ((s.embed base).goto m) (s.goto m) := .of_eq (goto_embed base s m hm)

/-- A value is opened. -/
private theorem embeds_pushParseState (s : Scanner) (p : ParseState) {m : Mode} (hm : m ≠ .endTop) :
    Embeds base ((s.embed base).pushParseState p m) (s.pushParseState p m) := by
  intro hs hd
  simp only [pushParseState] at hd hs ⊢
  -- the scanner alone had room for one more, and so has the larger stack by `hd`
  split at hd
  · rename_i hlt
    simp only [length_cons] at hd
    rw [if_pos (by simp only [embed_parseState, length_append]; omega), if_pos hlt]
    simp only [embed, hm, ↓reduceIte, cons_append]
  · rename_i hge
    rw [if_neg hge] at hs
    exact absurd rfl hs

private theorem embeds_stateEndValue (hb : base ≠ []) (s : Scanner) (m : Mode) (c : UInt8) :
    Embeds base (stateEndValue ⟨m, s.parseState ++ base⟩ c) (s.stateEndValue c) := by
  intro hs _
  obtain ⟨b, bs, rfl⟩ := exists_cons_of_ne_nil hb
  obtain ⟨m', ps⟩ := s
  -- the value's own stack decides: over, about to be over, or still open
  rcases ps with _ | ⟨p, _ | ⟨q, ps⟩⟩
  · simp only [stateEndValue, stateEndTop, fail, goto, embed, nil_append] at hs ⊢
    split at hs <;> simp_all
  · simp only [stateEndValue, fail, goto, embed, popParseState, cons_append, nil_append] at hs ⊢
    cases p <;> simp only at hs ⊢ <;> (repeat' split at hs) <;> simp_all
  · simp only [stateEndValue, fail, goto, embed, popParseState, cons_append] at hs ⊢
    cases p <;> simp only at hs ⊢ <;> (repeat' split at hs) <;> simp_all

/-- Where a value begins. -/
private theorem embeds_stateBeginValue (s : Scanner) (c : UInt8) :
    Embeds base ((s.embed base).stateBeginValue c) (s.stateBeginValue c) := by
  refine .ite (.of_eq rfl) (.ite (embeds_pushParseState s _ (by decide))
    (.ite (embeds_pushParseState s _ (by decide)) ?_))
  -- every other byte only changes the mode
  repeat refine .ite (embeds_goto (by decide)) ?_
  exact .of_eq rfl

/-- Where a name begins. -/
private theorem embeds_stateBeginString (s : Scanner) (c : UInt8) :
    Embeds base ((s.embed base).stateBeginString c) (s.stateBeginString c) :=
  .ite (.of_eq rfl) (.ite (embeds_goto (by decide)) (.of_eq rfl))

/-- After an opening brace. -/
private theorem embeds_stateBeginStringOrEmpty (hb : base ≠ []) (s : Scanner) (c : UInt8) :
    Embeds base ((s.embed base).stateBeginStringOrEmpty c) (s.stateBeginStringOrEmpty c) := by
  refine .ite (.of_eq rfl) (.ite ?_ (embeds_stateBeginString s c))
  obtain ⟨m, ps⟩ := s
  cases ps with
  | nil => exact fun hs => absurd rfl hs
  -- an empty object ends as if it had had a value
  | cons p rest => exact embeds_stateEndValue hb ⟨m, .objectValue :: rest⟩ _ c

private theorem embeds_stateBeginValueOrEmpty (hb : base ≠ []) (s : Scanner) (c : UInt8) :
    Embeds base ((s.embed base).stateBeginValueOrEmpty c) (s.stateBeginValueOrEmpty c) :=
  .ite (.of_eq rfl) (.ite (embeds_stateEndValue hb s _ c) (embeds_stateBeginValue s c))

/-- After the whole value. -/
private theorem embeds_stateEndTop (hb : base ≠ []) (ps : List ParseState) (c : UInt8) :
    Embeds base (stateEndValue ⟨.endValue, ps ++ base⟩ c) (stateEndTop ⟨.endTop, ps⟩ c) := by
  intro hs _
  obtain ⟨b, bs, rfl⟩ := exists_cons_of_ne_nil hb
  simp only [stateEndTop, fail, goto] at hs ⊢
  -- only a space may follow the top-level value, and it may follow a member's too
  split at hs
  · rename_i hsp
    cases ps <;> simp [embed, stateEndValue, hsp, goto]
  · exact absurd rfl hs

/-- After a leading zero. -/
private theorem embeds_stateZero (hb : base ≠ []) (s : Scanner) (c : UInt8) :
    Embeds base ((s.embed base).stateZero c) (s.stateZero c) :=
  .ite (embeds_goto (by decide)) (.ite (embeds_goto (by decide)) (embeds_stateEndValue hb s _ c))

/-- After a digit. -/
private theorem embeds_stateOne (hb : base ≠ []) (s : Scanner) (c : UInt8) :
    Embeds base ((s.embed base).stateOne c) (s.stateOne c) :=
  .ite (embeds_goto (by decide)) (embeds_stateZero hb s c)

/-- After a digit behind the point. -/
private theorem embeds_stateDot0 (hb : base ≠ []) (s : Scanner) (c : UInt8) :
    Embeds base ((s.embed base).stateDot0 c) (s.stateDot0 c) :=
  .ite (.of_eq rfl) (.ite (embeds_goto (by decide)) (embeds_stateEndValue hb s _ c))

/-- After a digit of the exponent. -/
private theorem embeds_stateE0 (hb : base ≠ []) (s : Scanner) (c : UInt8) :
    Embeds base ((s.embed base).stateE0 c) (s.stateE0 c) :=
  .ite (.of_eq rfl) (embeds_stateEndValue hb s _ c)

/-- Where one byte is demanded. -/
private theorem demand_embed (base : List ParseState) (s : Scanner) (p : Bool) (m : Mode)
    (hm : m ≠ .endTop) : (s.embed base).demand p m = (s.demand p m).embed base := by
  simp only [demand, apply_ite (embed base), fail_embed, goto_embed base s m hm]

/-- The modes in which a byte neither opens nor ends a value. -/
private theorem inner_embed (base : List ParseState) (s : Scanner) (c : UInt8) :
    (s.embed base).stateInString c = (s.stateInString c).embed base ∧
    (s.embed base).stateInStringEsc c = (s.stateInStringEsc c).embed base ∧
    (s.embed base).stateNeg c = (s.stateNeg c).embed base ∧
    (s.embed base).stateE c = (s.stateE c).embed base := by
  refine ⟨?_, ?_, ?_, ?_⟩ <;>
    simp (disch := decide) only [stateInString, stateInStringEsc, stateNeg, stateE, demand_embed,
      apply_ite (embed base), fail_embed, goto_embed]

/-- While the whole stack fits, a step of the embedded run is the embedded step. -/
theorem step_embed (hb : base ≠ []) (s : Scanner) (c : UInt8) :
    Embeds base ((s.embed base).step c) (s.step c) := by
  obtain ⟨hstr, hesc, hneg, he⟩ := inner_embed base s c
  obtain ⟨m, ps⟩ := s
  cases m
  case endTop => exact embeds_stateEndTop hb ps c
  case endValue => exact embeds_stateEndValue hb ⟨.endValue, ps⟩ _ c
  case beginValue => exact embeds_stateBeginValue ⟨.beginValue, ps⟩ c
  case beginString => exact embeds_stateBeginString ⟨.beginString, ps⟩ c
  case beginStringOrEmpty => exact embeds_stateBeginStringOrEmpty hb ⟨_, ps⟩ c
  case beginValueOrEmpty => exact embeds_stateBeginValueOrEmpty hb ⟨_, ps⟩ c
  case one => exact embeds_stateOne hb ⟨.one, ps⟩ c
  case zero => exact embeds_stateZero hb ⟨.zero, ps⟩ c
  case dot0 => exact embeds_stateDot0 hb ⟨.dot0, ps⟩ c
  case e0 => exact embeds_stateE0 hb ⟨.e0, ps⟩ c
  case inString => exact .of_eq hstr
  case inStringEsc => exact .of_eq hesc
  case neg => exact .of_eq hneg
  case e => exact .of_eq he
  case error => exact .of_eq rfl
  all_goals exact .of_eq (demand_embed base ⟨_, ps⟩ _ _ (by decide))

/-- A value that has ended opens nothing. -/
private theorem stateEndValue_length_le (s : Scanner) (c : UInt8) :
    (s.stateEndValue c).parseState.length ≤ s.parseState.length := by
  obtain ⟨m, ps⟩ := s
  rcases ps with _ | ⟨p, _ | ⟨q, ps⟩⟩ <;>
    simp only [stateEndValue, stateEndTop, popParseState, fail, goto] <;>
    (repeat' split) <;> simp

/-- Only where a value may begin does the stack grow. -/
private theorem step_length_le (s : Scanner) (c : UInt8) (h₁ : s.mode ≠ .beginValue)
    (h₂ : s.mode ≠ .beginValueOrEmpty) :
    (s.step c).parseState.length ≤ s.parseState.length := by
  obtain ⟨m, ps⟩ := s
  have hend := stateEndValue_length_le ⟨m, ps⟩ c
  cases m
  case beginValue => exact absurd rfl h₁
  case beginValueOrEmpty => exact absurd rfl h₂
  case beginStringOrEmpty =>
    simp only [step, stateBeginStringOrEmpty, stateBeginString, fail, goto]
    cases ps with
    | nil => simp only [apply_ite parseState, ite_self, Nat.le_refl]
    | cons p rest =>
      have hend' := stateEndValue_length_le ⟨.beginStringOrEmpty, .objectValue :: rest⟩ c
      (repeat' split) <;> simp_all
  all_goals
    simp only [step, stateEndTop, stateBeginString, stateInString, stateInStringEsc, demand,
      stateNeg, stateOne, stateZero, stateDot0, stateE, stateE0, fail, goto] at hend ⊢
    (repeat' split) <;> simp_all

private theorem pushParseState_overflow (s : Scanner) (p : ParseState) (m : Mode)
    (hfit : s.parseState.length + base.length ≤ maxNestingDepth)
    (hd : maxNestingDepth < (s.pushParseState p m).parseState.length + base.length) :
    ((s.embed base).pushParseState p m).mode = .error := by
  simp only [pushParseState] at hd ⊢
  split at hd
  · simp only [length_cons] at hd
    rw [if_neg (by simp only [embed_parseState, length_append]; omega)]
    rfl
  · simp only [fail] at hd
    omega

private theorem stateBeginValue_overflow (base : List ParseState) (s : Scanner) (c : UInt8)
    (hfit : s.parseState.length + base.length ≤ maxNestingDepth)
    (hd : maxNestingDepth < (s.stateBeginValue c).parseState.length + base.length) :
    ((s.embed base).stateBeginValue c).mode = .error := by
  simp only [stateBeginValue] at hd ⊢
  by_cases hsp : isSpace c = true
  · rw [if_pos hsp] at hd
    omega
  rw [if_neg hsp] at hd ⊢
  by_cases hobj : c = 0x7b
  · rw [if_pos hobj] at hd ⊢
    exact pushParseState_overflow s _ _ hfit hd
  rw [if_neg hobj] at hd ⊢
  by_cases harr : c = 0x5b
  · rw [if_pos harr] at hd ⊢
    exact pushParseState_overflow s _ _ hfit hd
  rw [if_neg harr] at hd
  simp only [apply_ite parseState, goto, fail, ite_self] at hd
  omega

/-- The step at which the whole stack would pass `maxNestingDepth` fails. -/
theorem step_embed_overflow (s : Scanner) (c : UInt8)
    (hfit : s.parseState.length + base.length ≤ maxNestingDepth)
    (hd : maxNestingDepth < (s.step c).parseState.length + base.length) :
    ((s.embed base).step c).mode = .error := by
  -- the stack grows in two modes only; in the others `hd` cannot be
  by_cases h₁ : s.mode = .beginValue
  · obtain ⟨m, ps⟩ := s
    subst h₁
    exact stateBeginValue_overflow base ⟨.beginValue, ps⟩ c hfit hd
  by_cases h₂ : s.mode = .beginValueOrEmpty
  · obtain ⟨m, ps⟩ := s
    subst h₂
    have hend := stateEndValue_length_le ⟨.beginValueOrEmpty, ps⟩ c
    have hbegin := stateBeginValue_overflow base ⟨.beginValueOrEmpty, ps⟩ c hfit
    simp only [step, stateBeginValueOrEmpty, embed] at hd hend hbegin hfit ⊢
    split at hd
    · simp at hd; omega
    · split at hd
      · omega
      · simp_all
  · have := step_length_le s c h₁ h₂
    omega

/-! ### Whole runs -/

/-- The deepest stack during a run. -/
def peak : Scanner → List UInt8 → Nat
  | s, [] => s.parseState.length
  | s, c :: bs => max s.parseState.length (peak (s.step c) bs)

theorem length_le_peak (s : Scanner) (bs : List UInt8) : s.parseState.length ≤ s.peak bs := by
  cases bs <;> simp only [peak] <;> omega

theorem mode_of_run {s : Scanner} {bs : List UInt8} (h : (s.run bs).mode ≠ .error) :
    s.mode ≠ .error := by
  intro he
  rw [run_error s bs he] at h
  exact h he

theorem run_embed (hb : base ≠ []) (s : Scanner) (bs : List UInt8) (hs : (s.run bs).mode ≠ .error)
    (hd : s.peak bs + base.length ≤ maxNestingDepth) :
    (s.embed base).run bs = (s.run bs).embed base := by
  induction bs generalizing s with
  | nil => rfl
  | cons c bs ih =>
    simp only [run_cons, peak] at hs hd ⊢
    have hle := length_le_peak (s.step c) bs
    rw [step_embed hb s c (mode_of_run hs) (by omega)]
    exact ih (s.step c) hs (by omega)

theorem run_embed_overflow (hb : base ≠ []) (s : Scanner) (bs : List UInt8)
    (hs : (s.run bs).mode ≠ .error) (hfit : s.parseState.length + base.length ≤ maxNestingDepth)
    (hd : maxNestingDepth < s.peak bs + base.length) : ((s.embed base).run bs).mode = .error := by
  induction bs generalizing s with
  | nil => simp only [peak] at hd; omega
  | cons c bs ih =>
    simp only [run_cons, peak] at hs hd ⊢
    by_cases hstep : (s.step c).parseState.length + base.length ≤ maxNestingDepth
    · rw [step_embed hb s c (mode_of_run hs) hstep]
      exact ih (s.step c) hs hstep (by omega)
    · -- the peak is reached by this step
      have herr := step_embed_overflow s c hfit (by omega)
      rw [run_error _ _ herr]
      exact herr

end Scanner

/-- How many composite values are open at once, at most, while a text is read. -/
def nestingDepth (bs : List UInt8) : Nat := Scanner.init.peak bs

end Json
