import Watcher.Json.Parse

/-!
# What a written text means

`Write` says when an object that is written member by member is accepted by the
scanner. Here is what it is the text of: if every value is the text of some
value, the object is the text of the object of these values
(`renders_object`), whatever spaces a value has around it.
-/

namespace Json

open Scanner List

/-- `s` is the text of `v`, with spaces around it. -/
def Renders (d : Nat) (s : List UInt8) (v : Value) : Prop :=
  ∃ (before after : Spaces) (t : List UInt8), s = before.1 ++ t ++ after.1 ∧ Denotes d t v

variable {d : Nat} {s : List UInt8} {v : Value}

/-- The text is read as the value. -/
theorem Renders.read (h : Renders d s v) : read s = some v := by
  obtain ⟨before, after, t, rfl, ht⟩ := h
  exact ht.read before after

/-- There need not be spaces. -/
theorem Denotes.renders (h : Denotes d s v) : Renders d s v := by
  refine ⟨.none, .none, s, ?_, h⟩
  rw [Spaces.val_none, nil_append, append_nil]

/-! ### Values -/

/-- One of the three words. -/
theorem renders_word (d : Nat) (hs : s ≠ []) (hbytes : ∀ c ∈ s, isAtomByte c = true)
    (hrun : ∀ base, run ⟨.beginValue, base⟩ s = ⟨.endValue, base⟩) :
    Renders d s (atomValue s) :=
  (Denotes.atom ⟨hs, hbytes, fun base => hrun base ▸ over_endValue base⟩).renders

theorem renders_null (d : Nat) : Renders d [0x6e, 0x75, 0x6c, 0x6c] .null :=
  renders_word d (cons_ne_nil _ _) (forall_mem_of_all (by decide)) fun _ => rfl

theorem renders_true (d : Nat) : Renders d [0x74, 0x72, 0x75, 0x65] (.bool true) :=
  renders_word d (cons_ne_nil _ _) (forall_mem_of_all (by decide)) fun _ => rfl

theorem renders_false (d : Nat) : Renders d [0x66, 0x61, 0x6c, 0x73, 0x65] (.bool false) :=
  renders_word d (cons_ne_nil _ _) (forall_mem_of_all (by decide)) fun _ => rfl

/-- The bytes that numbers consist of. -/
def isNumberByte (c : UInt8) : Bool := isDigit c || [0x2b, 0x2d, 0x2e, 0x65].contains c

theorem isAtomByte_of_isNumberByte {c : UInt8} (h : isNumberByte c = true) :
    isAtomByte c = true := by
  simp only [isNumberByte, isAtomByte, Bool.or_eq_true, contains_iff_mem] at h ⊢
  refine h.imp_right fun hmem => ?_
  have hsub : ∀ b ∈ [0x2b, 0x2d, 0x2e, 0x65],
      b ∈ ([0x2b, 0x2d, 0x2e, 0x45, 0x61, 0x65, 0x66, 0x6c, 0x6e, 0x72, 0x73, 0x74, 0x75] :
        List UInt8) := by simp
  exact hsub c hmem

theorem isNumberByte_of_isDigit {c : UInt8} (h : isDigit c = true) : isNumberByte c = true := by
  rw [isNumberByte, h, Bool.true_or]

/-- A number has no other bytes. -/
theorem IsNumber.bytes (h : IsNumber s) : ∀ c ∈ s, isNumberByte c = true := by
  obtain ⟨sign, int, frac, exp, rfl, hsign, hint, hfrac, hexp⟩ := h
  intro c hc
  simp only [mem_append] at hc
  -- the byte is in the sign, the integer, the fraction or the exponent
  rcases hc with ((hc | hc) | hc) | hc
  · cases hsign with
    | inl h => exact absurd (h ▸ hc) not_mem_nil
    | inr h =>
      subst h
      rw [mem_singleton.mp hc]
      decide
  · cases hint with
    | inl h =>
      subst h
      rw [mem_singleton.mp hc]
      decide
    | inr h =>
      obtain ⟨d, rest, rfl, hd, _, hrest⟩ := h
      cases mem_cons.mp hc with
      | inl h => exact isNumberByte_of_isDigit (h ▸ hd)
      | inr h => exact isNumberByte_of_isDigit (hrest c h)
  · cases hfrac with
    | inl h => exact absurd (h ▸ hc) not_mem_nil
    | inr h =>
      obtain ⟨fs, rfl, _, hfs⟩ := h
      cases mem_cons.mp hc with
      | inl h => rw [h]; decide
      | inr h => exact isNumberByte_of_isDigit (hfs c h)
  · cases hexp with
    | inl h => exact absurd (h ▸ hc) not_mem_nil
    | inr h =>
      obtain ⟨sign, es, rfl, hsign, _, hes⟩ := h
      simp only [mem_cons] at hc
      rcases hc with rfl | rfl | hc
      · decide
      · cases hsign with
        | inl h => rw [h]; decide
        | inr h => rw [h]; decide
      · exact isNumberByte_of_isDigit (hes c hc)

/-- A number has a digit. -/
theorem IsNumber.ne_nil (h : IsNumber s) : s ≠ [] := by
  obtain ⟨sign, int, frac, exp, rfl, _, hint, _⟩ := h
  intro hnil
  simp only [append_eq_nil_iff] at hnil
  cases hint with
  | inl h => exact cons_ne_nil _ _ (h ▸ hnil.1.1.2)
  | inr h =>
    obtain ⟨d, rest, rfl, _⟩ := h
    exact cons_ne_nil _ _ hnil.1.1.2

theorem isDelimiter_spec {c : UInt8} (h : isDelimiter c = true) :
    isDigit c = false ∧ c ≠ 0x2e ∧ c ≠ 0x65 ∧ c ≠ 0x45 := by
  have hmem : c ∈ ([0x2c, 0x5d, 0x7d, 0x20, 0x09, 0x0d, 0x0a] : List UInt8) := by
    simp only [isDelimiter, isSpace, Bool.or_eq_true, Bool.and_eq_true, decide_eq_true_eq,
      beq_iff_eq] at h
    simp only [mem_cons, not_mem_nil, or_false]
    tauto
  have hall : ∀ b ∈ ([0x2c, 0x5d, 0x7d, 0x20, 0x09, 0x0d, 0x0a] : List UInt8),
      isDigit b = false ∧ b ≠ 0x2e ∧ b ≠ 0x65 ∧ b ≠ 0x45 := forall_mem_of_all (by decide)
  exact hall c hmem

/-- A number is read as one literal. -/
theorem IsNumber.isAtom (h : IsNumber s) : IsAtom s where
  ne_nil := h.ne_nil
  bytes c hc := isAtomByte_of_isNumberByte (h.bytes c hc)
  ends base := by
    -- a number does not announce its end: the next byte ends it
    obtain ⟨m, hm, hrun⟩ := run_number base h
    rw [hrun]
    refine ⟨rfl, fun c hc => ?_⟩
    obtain ⟨hdigit, hdot, he, hE⟩ := isDelimiter_spec hc
    rw [stateEndValue_mode .endValue m]
    rcases hm with rfl | rfl | rfl | rfl
    all_goals simp only [step, stateZero, stateOne, stateDot0, stateE0, hdigit, hdot, he, hE,
      Bool.false_eq_true, or_self, if_false]

/-- A number is the text of itself. -/
theorem renders_number (d : Nat) (h : IsNumber s) : Renders d s (.number s) := by
  have hvalue : atomValue s = .number s := by
    -- no number starts like one of the words
    have hne : ∀ b t, isNumberByte b = false → s ≠ b :: t := by
      intro b t hb hs
      have hbyte := h.bytes b (hs ▸ mem_cons_self)
      rw [hb] at hbyte
      exact nomatch hbyte
    rw [atomValue, if_neg (hne _ _ rfl), if_neg (hne _ _ rfl), if_neg (hne _ _ rfl)]
  rw [← hvalue]
  exact (Denotes.atom h.isAtom).renders

theorem renders_string (d : Nat) {cs : List Nat} (hsafe : StringSafe s) (hreads : ReadsAs s cs) :
    Renders d (0x22 :: s ++ [0x22]) (.string cs) :=
  (Denotes.string (stringSafe_iff_body.mp hsafe) hreads).renders

/-- A text that is valid on its own. -/
theorem renders_of_valid (h : valid s = true) : ∃ v, Renders maxNestingDepth s v := by
  obtain ⟨before, after, t, v, hs, ht⟩ := valid_iff.mp h
  exact ⟨v, before, after, t, hs, ht⟩

/-! ### Objects -/

section Object

variable {α : Type _} {name val : α → List UInt8} {key : α → List Nat} {value : α → Value}

/-- A member as `Write` writes it, in the grammar; the space after a comma is before its name. -/
theorem exists_member {a : α} (hsafe : StringSafe (name a)) (hreads : ReadsAs (name a) (key a))
    (hval : Renders d (val a) (value a)) (sp : Spaces) :
    ∃ m : Member, m.bytes = sp.1 ++ member (name a, val a) ∧ m.key = key a ∧
      m.value = value a ∧ Denotes d m.text m.value := by
  obtain ⟨before, after, t, hs, ht⟩ := hval
  refine ⟨⟨⟨before, t, value a, after⟩, sp, name a, key a, .none,
    stringSafe_iff_body.mp hsafe, hreads⟩, ?_, rfl, rfl, ht⟩
  simp only [Member.bytes, Element.bytes, Spaces.val_none, member, hs, nil_append,
    cons_append, append_assoc]

/-- The space after a comma. -/
def Spaces.one : Spaces := ⟨[0x20], forall_mem_singleton.mpr rfl⟩

/-- The members as they are written are members of the grammar. -/
theorem exists_members (sp : Spaces) (a : α) (as : List α)
    (hsafe : ∀ b ∈ a :: as, StringSafe (name b)) (hreads : ∀ b ∈ a :: as, ReadsAs (name b) (key b))
    (hval : ∀ b ∈ a :: as, Renders d (val b) (value b)) :
    ∃ (m : Member) (ms : List Member), commas ((m :: ms).map Member.bytes) =
        sp.1 ++ members ((a :: as).map fun b => (name b, val b)) ∧
      ((m :: ms).map fun m => (m.key, m.value)) = (a :: as).map (fun b => (key b, value b)) ∧
      ∀ x ∈ m :: ms, Denotes d x.text x.value := by
  have hfirst := exists_member (hsafe a mem_cons_self) (hreads a mem_cons_self)
    (hval a mem_cons_self) sp
  obtain ⟨m, hbytes, hkey, hvalue, hm⟩ := hfirst
  cases as with
  | nil =>
    refine ⟨m, [], ?_, ?_, forall_mem_singleton.mpr hm⟩
    · show m.bytes = sp.1 ++ (member (name a, val a) ++ [])
      rw [hbytes, append_nil]
    · simp only [map_cons, map_nil, hkey, hvalue]
  | cons b bs =>
    -- the next member starts with the space after the comma
    have htail : ∀ c ∈ b :: bs, c ∈ a :: b :: bs := fun c hc => mem_cons_of_mem a hc
    obtain ⟨n, ns, htext, hpairs, hall⟩ := exists_members Spaces.one b bs
      (fun c hc => hsafe c (htail c hc)) (fun c hc => hreads c (htail c hc))
      (fun c hc => hval c (htail c hc))
    refine ⟨m, n :: ns, ?_, ?_, forall_mem_cons.mpr ⟨hm, hall⟩⟩
    · show m.bytes ++ 0x2c :: commas ((n :: ns).map Member.bytes) = _
      rw [htext, hbytes]
      simp [members, Spaces.one]
    · show (m.key, m.value) :: (n :: ns).map (fun m => (m.key, m.value)) = _
      rw [hpairs, hkey, hvalue]
      rfl

/-- An object as it is written is the text of the object of its members. -/
theorem renders_object (as : List α) (hsafe : ∀ a ∈ as, StringSafe (name a))
    (hreads : ∀ a ∈ as, ReadsAs (name a) (key a))
    (hval : ∀ a ∈ as, Renders d (val a) (value a)) :
    Renders (d + 1) (object (as.map fun a => (name a, val a)))
      (.object (as.map fun a => (key a, value a))) := by
  cases as with
  | nil => exact (Denotes.object .none [] fun m hm => absurd hm not_mem_nil).renders
  | cons a as =>
    obtain ⟨m, ms, htext, hpairs, hall⟩ := exists_members .none a as hsafe hreads hval
    have hobject := Denotes.object .none (m :: ms) hall
    rw [htext, hpairs] at hobject
    exact hobject.renders

end Object

/-! ### Deep texts -/

/-- A zero inside `n` arrays. -/
def nestedArrays : Nat → List UInt8
  | 0 => [0x30]
  | n + 1 => 0x5b :: (nestedArrays n ++ [0x5d])

/-- It is the text of a value. -/
theorem denotes_nestedArrays (n : Nat) : ∃ v, Denotes n (nestedArrays n) v := by
  induction n with
  | zero =>
    have hzero : IsNumber [0x30] :=
      ⟨[], [0x30], [], [], rfl, .inl rfl, .inl rfl, .inl rfl, .inl rfl⟩
    exact ⟨_, .atom hzero.isAtom⟩
  | succ n ih =>
    obtain ⟨v, hv⟩ := ih
    have harray := Denotes.array .none [⟨.none, nestedArrays n, v, .none⟩]
      (forall_mem_singleton.mpr hv)
    simp only [map_cons, map_nil, commas, Element.bytes, Spaces.val_none, nil_append,
      append_nil] at harray
    exact ⟨_, harray⟩

theorem valid_nestedArrays {n : Nat} (hn : n ≤ maxNestingDepth) :
    valid (nestedArrays n) = true := by
  obtain ⟨v, hv⟩ := denotes_nestedArrays n
  have hvalid := hv.valid hn .none .none
  rw [Spaces.val_none, nil_append, append_nil] at hvalid
  exact hvalid

theorem le_peak_nestedArrays {mode : Mode} (hmode : mode = .beginValue ∨ mode = .beginValueOrEmpty)
    (n : Nat) (base : List ParseState) (rest : List UInt8)
    (hfit : base.length + n ≤ maxNestingDepth) :
    base.length + n ≤ peak ⟨mode, base⟩ (nestedArrays n ++ rest) := by
  induction n generalizing mode base rest with
  | zero => exact length_le_peak ⟨mode, base⟩ _
  | succ n ih =>
    have hstep : step ⟨mode, base⟩ 0x5b = ⟨.beginValueOrEmpty, .arrayValue :: base⟩ := by
      rcases hmode with rfl | rfl
      · exact step_openBracket (by omega)
      · exact step_openBracket (by omega)
    have hrest := ih (.inr rfl) (.arrayValue :: base) ([0x5d] ++ rest)
      (by rw [length_cons]; omega)
    rw [nestedArrays, cons_append, append_assoc, peak, hstep]
    rw [length_cons] at hrest
    omega

theorem le_nestingDepth_nestedArrays {n : Nat} (hn : n ≤ maxNestingDepth) :
    n ≤ nestingDepth (nestedArrays n) := by
  have hpeak := le_peak_nestedArrays (.inl rfl) n [] [] (by rw [length_nil]; omega)
  rw [append_nil, length_nil, Nat.zero_add] at hpeak
  exact hpeak

end Json
