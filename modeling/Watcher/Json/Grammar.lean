import Watcher.Json.Text

/-!
# The grammar of JSON texts

`Denotes d t v` says that the bytes `t` are the text of the value `v`, with no
spaces around it and with objects and arrays nested at most `d` deep. The other
modules about JSON meet here:

- `Denotes.readValue`, `Denotes.read`: the reader reads `v` from `t`
- `Denotes.ends`, `Denotes.valid`: the scanner accepts `t`

Elements and members carry the spaces around them, so that the grammar covers
every spelling of a value and not only the ones this program writes.
-/

namespace Json

open Scanner List Option

/-! ### Pieces of a text -/

/-- Spaces between tokens. -/
abbrev Spaces : Type := { s : List UInt8 // ∀ c ∈ s, isSpace c = true }

namespace Spaces

/-- No spaces. -/
def none : Spaces := ⟨[], fun _ h => nomatch h⟩

@[simp] theorem val_none : none.1 = [] := rfl

end Spaces

/-- A byte that ends `null`, `true`, `false` or a number. -/
def isDelimiter (c : UInt8) : Bool := c = 0x2c || c = 0x5d || c = 0x7d || isSpace c

/-- The text ends or goes on with a delimiter. -/
def Delimited (rest : List UInt8) : Prop := ∀ c s, rest = c :: s → isDelimiter c = true

/-- A value with the spaces around it. -/
structure Element where
  before : Spaces
  text : List UInt8
  value : Value
  after : Spaces

/-- The bytes of an element. -/
def Element.bytes (e : Element) : List UInt8 := e.before.1 ++ e.text ++ e.after.1

/-- A member of an object with the spaces around its parts. -/
structure Member extends Element where
  beforeName : Spaces
  name : List UInt8
  key : List Nat
  afterName : Spaces
  body : Body name
  reads : ReadsAs name key

/-- The bytes of a member. -/
def Member.bytes (m : Member) : List UInt8 :=
  m.beforeName.1 ++ 0x22 :: (m.name ++ 0x22 :: (m.afterName.1 ++ 0x3a :: m.toElement.bytes))

/-- Pieces separated by commas. -/
def commas : List (List UInt8) → List UInt8
  | [] => []
  | [x] => x
  | x :: y :: l => x ++ 0x2c :: commas (y :: l)

/-- The scanner is past a value inside `base`: what comes next ends it. -/
structure Over (base : List ParseState) (s : Scanner) : Prop where
  parseState : s.parseState = base
  step : ∀ c, isDelimiter c = true → s.step c = stateEndValue ⟨.endValue, base⟩ c

/-- The bytes of `null`, `true`, `false` and numbers. -/
def isAtomByte (c : UInt8) : Bool :=
  isDigit c ||
    [0x2b, 0x2d, 0x2e, 0x45, 0x61, 0x65, 0x66, 0x6c, 0x6e, 0x72, 0x73, 0x74, 0x75].contains c

/-- `null`, `true`, `false` or a number. -/
structure IsAtom (t : List UInt8) : Prop where
  ne_nil : t ≠ []
  bytes : ∀ c ∈ t, isAtomByte c = true
  ends : ∀ base, Over base (run ⟨.beginValue, base⟩ t)

/-- The value of such a text. -/
def atomValue (t : List UInt8) : Value :=
  if t = [0x6e, 0x75, 0x6c, 0x6c] then .null
  else if t = [0x74, 0x72, 0x75, 0x65] then .bool true
  else if t = [0x66, 0x61, 0x6c, 0x73, 0x65] then .bool false
  else .number t

/-- `t` is the text of `v`, nested at most `d` deep. -/
inductive Denotes : (d : Nat) → (t : List UInt8) → (v : Value) → Prop where
  | atom {d : Nat} {t : List UInt8} (h : IsAtom t) : Denotes d t (atomValue t)
  | string {d : Nat} {t : List UInt8} {cs : List Nat} (hbody : Body t) (hreads : ReadsAs t cs) :
      Denotes d (0x22 :: (t ++ [0x22])) (.string cs)
  | array {d : Nat} (sp : Spaces) (es : List Element)
      (h : ∀ e ∈ es, Denotes d e.text e.value) :
      Denotes (d + 1) (0x5b :: (sp.1 ++ commas (es.map Element.bytes) ++ [0x5d]))
        (.array (es.map Element.value))
  | object {d : Nat} (sp : Spaces) (ms : List Member)
      (h : ∀ m ∈ ms, Denotes d m.text m.value) :
      Denotes (d + 1) (0x7b :: (sp.1 ++ commas (ms.map Member.bytes) ++ [0x7d]))
        (.object (ms.map fun m => (m.key, m.value)))

/-- `null`, `true`, `false` and numbers are no objects. -/
theorem atomValue_ne_object (t : List UInt8) (row : List (List Nat × Value)) :
    atomValue t ≠ .object row := by
  unfold atomValue
  repeat' split
  all_goals exact fun h => nomatch h

variable {d fuel : Nat} {t : List UInt8} {c : UInt8} {v : Value} {s : Scanner} {e : Element}
    {base : List ParseState}

/-- The text of an object has members in it. -/
theorem Denotes.members {row : List (List Nat × Value)} (h : Denotes d t (.object row)) :
    ∃ (n : Nat) (sp : Spaces) (ms : List Member), d = n + 1 ∧
      t = 0x7b :: (sp.1 ++ commas (ms.map Member.bytes) ++ [0x7d]) ∧
      row = ms.map (fun m => (m.key, m.value)) ∧ ∀ m ∈ ms, Denotes n m.text m.value := by
  generalize hv : Value.object row = v at h
  cases h with
  | atom h => exact absurd hv.symm (atomValue_ne_object _ row)
  | string => exact nomatch hv
  | array => exact nomatch hv
  | object sp ms h =>
    injection hv with hrow
    exact ⟨_, sp, ms, rfl, rfl, hrow, h⟩

/-! ### The first byte -/

theorem isAtomByte_spec (h : isAtomByte c = true) :
    isDelimiter c = false ∧ isSpace c = false ∧ c ≠ 0x22 ∧ c ≠ 0x7b ∧ c ≠ 0x5b := by
  simp only [isAtomByte, isDigit, contains_eq_mem, mem_cons, not_mem_nil, or_false,
    Bool.or_eq_true, Bool.and_eq_true, decide_eq_true_eq] at h
  rcases h with hdigit | hletter
  · simp only [isDelimiter, isSpace]
    grind
  · rcases hletter with rfl | rfl | rfl | rfl | rfl | rfl | rfl | rfl | rfl | rfl | rfl | rfl | rfl
    all_goals decide

/-- A value begins with a byte that is no space and closes nothing. -/
theorem Denotes.head (h : Denotes d t v) : ∃ c s, t = c :: s ∧ isSpace c = false ∧ c ≠ 0x5d := by
  cases h with
  | atom h =>
    obtain ⟨c, s, rfl⟩ := exists_cons_of_ne_nil h.ne_nil
    obtain ⟨hdelim, hspace, -⟩ := isAtomByte_spec (h.bytes c mem_cons_self)
    refine ⟨c, s, rfl, hspace, ?_⟩
    rintro rfl
    exact nomatch hdelim
  | string => exact ⟨_, _, rfl, rfl, by decide⟩
  | array => exact ⟨_, _, rfl, rfl, by decide⟩
  | object => exact ⟨_, _, rfl, rfl, by decide⟩

/-- Only objects begin with a brace. -/
theorem Denotes.eq_object {s : List UInt8} (h : Denotes d (0x7b :: s) v) :
    ∃ row, v = .object row := by
  generalize ht : 0x7b :: s = t at h
  cases h with
  | atom h =>
    subst ht
    have hbyte := (isAtomByte_spec (h.bytes 0x7b mem_cons_self)).2.2.2.1
    exact absurd rfl hbyte
  | string => exact nomatch ht
  | array => exact nomatch ht
  | object sp ms _ => exact ⟨_, rfl⟩

/-! ### Reading -/

theorem skipSpace_append (sp : Spaces) (s : List UInt8) : skipSpace (sp.1 ++ s) = skipSpace s :=
  dropWhile_append_of_pos sp.2

theorem expect_append (c : UInt8) (sp : Spaces) (s : List UInt8) :
    expect c (sp.1 ++ s) = expect c s := by
  rw [expect, skipSpace_append, ← expect]

/-- Nor do spaces before a value. -/
theorem readValue_append (fuel : Nat) (sp : Spaces) (s : List UInt8) :
    readValue fuel (sp.1 ++ s) = readValue fuel s := by
  cases fuel with
  | zero => rfl
  | succ fuel =>
    rw [Json.readValue, Json.readValue, expect_append, expect_append, expect_append,
      skipSpace_append]

theorem delimited_nil : Delimited [] := fun _ _ h => nomatch h

/-- And so does a delimiter. -/
theorem delimited_cons (hc : isDelimiter c = true) (s : List UInt8) : Delimited (c :: s) := by
  intro c' s' h
  injection h with h
  rw [← h, hc]

theorem delimited_append (hc : isDelimiter c = true) (sp : Spaces) (s : List UInt8) :
    Delimited (sp.1 ++ c :: s) := by
  obtain ⟨sp, hsp⟩ := sp
  cases sp with
  | nil => exact delimited_cons hc s
  | cons b sp =>
    refine delimited_cons ?_ _
    rw [isDelimiter, hsp b mem_cons_self, Bool.or_true]

theorem eof_of_over (h : Over [] s) : s.eof = true := by
  rw [eof, h.step 0x20 rfl]
  exact Bool.or_true _

theorem IsAtom.valid (h : IsAtom t) : valid t = true := eof_of_over (h.ends [])

/-- An atom is read up to its delimiter. -/
theorem IsAtom.readAtom (h : IsAtom t) {rest : List UInt8} (hrest : Delimited rest) :
    readAtom (t ++ rest) = some (atomValue t, rest) := by
  have hspan : (t ++ rest).takeWhile (fun c => !isDelimiter c) = t ∧
      (t ++ rest).dropWhile (fun c => !isDelimiter c) = rest := by
    have ht : ∀ c ∈ t, (!isDelimiter c) = true := by
      intro c hc
      rw [(isAtomByte_spec (h.bytes c hc)).1]
      rfl
    cases rest with
    | nil =>
      rw [takeWhile_append_of_pos ht, dropWhile_append_of_pos ht]
      exact ⟨append_nil t, rfl⟩
    | cons c s =>
      apply span_append ht
      rw [hrest c s rfl]
      rfl
  -- the reader, with its inner definitions put in
  have hread : Json.readAtom (t ++ rest) =
      (let text := (t ++ rest).takeWhile fun c => !isDelimiter c
      let rest := (t ++ rest).dropWhile fun c => !isDelimiter c
      if text = [0x6e, 0x75, 0x6c, 0x6c] then some (.null, rest)
      else if text = [0x74, 0x72, 0x75, 0x65] then some (.bool true, rest)
      else if text = [0x66, 0x61, 0x6c, 0x73, 0x65] then some (.bool false, rest)
      else if Json.valid text then some (.number text, rest)
      else none) := rfl
  rw [hread, hspan.1, hspan.2, atomValue]
  simp only [h.valid, ↓reduceIte]
  repeat' split
  all_goals rfl

/-- The reader reads `v` from `t` and stops after it. -/
def ReadsText (t : List UInt8) (v : Value) : Prop :=
  ∀ fuel, t.length ≤ fuel → ∀ rest, Delimited rest → readValue fuel (t ++ rest) = some (v, rest)

/-- A value with spaces around it, up to the delimiter `c`. -/
theorem Element.readValue (h : ReadsText e.text e.value) (hfuel : e.bytes.length ≤ fuel)
    (hc : isDelimiter c = true) (rest : List UInt8) :
    readValue fuel (e.bytes ++ c :: rest) = some (e.value, e.after.1 ++ c :: rest) := by
  have hlength : e.text.length ≤ fuel := by
    simp only [bytes, length_append] at hfuel
    omega
  rw [bytes, append_assoc, append_assoc, readValue_append]
  exact h fuel hlength _ (delimited_append hc e.after rest)

/-- A token is found after spaces. -/
theorem expect_after (sp : Spaces) (hc : isSpace c = false) (rest : List UInt8) :
    expect c (sp.1 ++ c :: rest) = some rest := by
  rw [expect_append, expect_same hc]

/-- Another one is not. -/
theorem expect_after_other (sp : Spaces) {b : UInt8} (hb : isSpace b = false) (hne : b ≠ c)
    (rest : List UInt8) : expect c (sp.1 ++ b :: rest) = none := by
  rw [expect_append, expect_other hb hne]

/-- A loop that takes pieces up to a comma, and a last one up to the byte `close`. -/
theorem loop_commas {α : Type _} {β : Type _} {bytes : α → List UInt8} {close : UInt8}
    {rest : List UInt8} {loop : Nat → List UInt8 → Option β} {o : List α → β} {as : List α}
    (hlast : ∀ a ∈ as, ∀ fuel, (bytes a).length ≤ fuel →
      loop (fuel + 1) (bytes a ++ close :: rest) = some (o [a]))
    (hmore : ∀ a ∈ as, ∀ fuel s l, (bytes a).length ≤ fuel → loop fuel s = some (o l) →
      loop (fuel + 1) (bytes a ++ 0x2c :: s) = some (o (a :: l)))
    (hne : as ≠ []) {fuel : Nat} (hfuel : (commas (as.map bytes)).length < fuel) :
    loop fuel (commas (as.map bytes) ++ close :: rest) = some (o as) := by
  induction as generalizing fuel with
  | nil => exact absurd rfl hne
  | cons a as ih =>
    obtain ⟨fuel, rfl⟩ : ∃ f, fuel = f + 1 := ⟨fuel - 1, by omega⟩
    cases as with
    | nil => exact hlast a mem_cons_self fuel (Nat.le_of_lt_succ hfuel)
    | cons b as =>
      have hlength : (commas ((a :: b :: as).map bytes)).length =
          (bytes a).length + (commas ((b :: as).map bytes)).length + 1 := by
        simp only [map_cons, commas, length_append, length_cons]
        omega
      have htext : commas ((a :: b :: as).map bytes) ++ close :: rest =
          bytes a ++ 0x2c :: (commas ((b :: as).map bytes) ++ close :: rest) := by
        simp only [map_cons, commas, append_assoc, cons_append]
      have htail := ih (fun x hx => hlast x (mem_cons_of_mem a hx))
        (fun x hx => hmore x (mem_cons_of_mem a hx)) (cons_ne_nil b as)
        (show (commas ((b :: as).map bytes)).length < fuel by omega)
      rw [htext]
      exact hmore a mem_cons_self fuel _ (b :: as) (by omega) htail

theorem readElems_commas (e : Element) (es : List Element)
    (h : ∀ x ∈ e :: es, ReadsText x.text x.value)
    (hfuel : (commas ((e :: es).map Element.bytes)).length < fuel) (rest : List UInt8) :
    readElems fuel (commas ((e :: es).map Element.bytes) ++ 0x5d :: rest) =
      some ((e :: es).map Element.value, rest) := by
  refine loop_commas (o := fun es => (es.map Element.value, rest)) ?_ ?_ (cons_ne_nil e es)
    hfuel
  · intro x hx fuel hfuel
    rw [readElems, Element.readValue (h x hx) hfuel (c := 0x5d) rfl rest]
    simp only [bind_eq_bind, bind_some, expect_after_other x.after (b := 0x5d)
      (c := 0x2c) rfl (by decide), expect_after x.after (c := 0x5d) rfl]
    rfl
  · intro x hx fuel s l hfuel hs
    rw [readElems, Element.readValue (h x hx) hfuel (c := 0x2c) rfl s]
    simp only [bind_eq_bind, bind_some, expect_after x.after (c := 0x2c) rfl, hs]
    rfl

/-- The name of a member, its colon and its value, up to the delimiter `c`. -/
theorem Member.readMembers {m : Member} (h : ReadsText m.text m.value)
    (hfuel : m.bytes.length ≤ fuel) (hc : isDelimiter c = true) (rest : List UInt8) :
    Json.readMembers (fuel + 1) (m.bytes ++ c :: rest) =
      match expect 0x2c (m.after.1 ++ c :: rest) with
      | some s => (Json.readMembers fuel s).map fun (ms, rest) => ((m.key, m.value) :: ms, rest)
      | none => (expect 0x7d (m.after.1 ++ c :: rest)).map fun rest =>
          ([(m.key, m.value)], rest) := by
  have hlength : m.toElement.bytes.length ≤ fuel := by
    simp only [bytes, length_append, length_cons] at hfuel
    omega
  have htext : m.bytes ++ c :: rest = m.beforeName.1 ++ 0x22 :: (m.name ++ 0x22 ::
      (m.afterName.1 ++ 0x3a :: (m.toElement.bytes ++ c :: rest))) := by
    simp only [bytes, append_assoc, cons_append]
  have hkey := m.reads (m.afterName.1 ++ 0x3a :: (m.toElement.bytes ++ c :: rest))
  rw [htext, Json.readMembers, expect_after m.beforeName rfl]
  cases hcomma : expect 0x2c (m.after.1 ++ c :: rest)
  all_goals simp only [bind_eq_bind, bind_some, hkey,
    expect_after m.afterName (c := 0x3a) rfl, Element.readValue h hlength hc, hcomma]

/-- The members of an object up to its brace. -/
theorem readMembers_commas (m : Member) (ms : List Member)
    (h : ∀ x ∈ m :: ms, ReadsText x.text x.value)
    (hfuel : (commas ((m :: ms).map Member.bytes)).length < fuel) (rest : List UInt8) :
    readMembers fuel (commas ((m :: ms).map Member.bytes) ++ 0x7d :: rest) =
      some ((m :: ms).map fun x => (x.key, x.value), rest) := by
  refine loop_commas (o := fun ms => (ms.map fun x => (x.key, x.value), rest)) ?_ ?_
    (cons_ne_nil m ms) hfuel
  · intro x hx fuel hfuel
    rw [Member.readMembers (h x hx) hfuel (c := 0x7d) rfl,
      expect_after_other x.after rfl (by decide), expect_after x.after rfl]
    rfl
  · intro x hx fuel s l hfuel hs
    rw [Member.readMembers (h x hx) hfuel (c := 0x2c) rfl, expect_after x.after rfl]
    simp only [hs]
    rfl

/-- What comes first in the elements is what comes first in the first value. -/
theorem commas_elements {s : List UInt8} (hs : e.text = c :: s) (es : List Element) :
    ∃ tail, commas ((e :: es).map Element.bytes) = e.before.1 ++ c :: tail := by
  cases es with
  | nil =>
    exact ⟨s ++ e.after.1, by
      simp only [map_cons, map_nil, commas, Element.bytes, hs, append_assoc, cons_append]⟩
  | cons e' es =>
    exact ⟨s ++ (e.after.1 ++ 0x2c :: commas ((e' :: es).map Element.bytes)), by
      simp only [map_cons, commas, Element.bytes, hs, append_assoc, cons_append]⟩

/-- What comes first in the members is a quote. -/
theorem commas_members (m : Member) (ms : List Member) :
    ∃ tail, commas ((m :: ms).map Member.bytes) = m.beforeName.1 ++ 0x22 :: tail := by
  cases ms with
  | nil => exact ⟨_, rfl⟩
  | cons m' ms =>
    exact ⟨m.name ++ 0x22 :: (m.afterName.1 ++ 0x3a :: (m.toElement.bytes ++
      0x2c :: commas ((m' :: ms).map Member.bytes))), by
        simp only [map_cons, commas, Member.bytes, append_assoc, cons_append]⟩

theorem readElems_append (fuel : Nat) (sp : Spaces) (s : List UInt8) :
    readElems fuel (sp.1 ++ s) = readElems fuel s := by
  cases fuel with
  | zero => rfl
  | succ fuel => rw [readElems, readElems, readValue_append]

theorem readMembers_append (fuel : Nat) (sp : Spaces) (s : List UInt8) :
    readMembers fuel (sp.1 ++ s) = readMembers fuel s := by
  cases fuel with
  | zero => rfl
  | succ fuel => rw [readMembers, readMembers, expect_append]

theorem readsText_cons {c : UInt8} {t : List UInt8} {v : Value}
    (h : ∀ fuel, t.length ≤ fuel → ∀ rest, Delimited rest →
      readValue (fuel + 1) (c :: (t ++ rest)) = some (v, rest)) : ReadsText (c :: t) v := by
  intro fuel hfuel rest hrest
  rw [length_cons] at hfuel
  obtain ⟨fuel, rfl⟩ : ∃ f, fuel = f + 1 := ⟨fuel - 1, by omega⟩
  exact h fuel (Nat.le_of_succ_le_succ hfuel) rest hrest

/-- An atom is read as its value. -/
theorem IsAtom.readsText (h : IsAtom t) : ReadsText t (atomValue t) := by
  obtain ⟨c, s, rfl⟩ := exists_cons_of_ne_nil h.ne_nil
  apply readsText_cons
  intro fuel _ rest hrest
  obtain ⟨-, hspace, hquote, hbrace, hbracket⟩ := isAtomByte_spec (h.bytes c mem_cons_self)
  have hskip : skipSpace (c :: (s ++ rest)) = c :: s ++ rest :=
    dropWhile_cons_of_neg (by simp [hspace])
  rw [Json.readValue, hskip, h.readAtom hrest, expect_other hspace hquote,
    expect_other hspace hbrace, expect_other hspace hbracket]

/-- An array is read as its elements. -/
theorem readsText_array (sp : Spaces) {es : List Element}
    (hhead : ∀ e ∈ es, ∃ c s, e.text = c :: s ∧ isSpace c = false ∧ c ≠ 0x5d)
    (h : ∀ e ∈ es, ReadsText e.text e.value) :
    ReadsText (0x5b :: (sp.1 ++ commas (es.map Element.bytes) ++ [0x5d]))
      (.array (es.map Element.value)) := by
  apply readsText_cons
  intro fuel hfuel rest _
  rw [Json.readValue, expect_other rfl (by decide), expect_other rfl (by decide), expect_same rfl]
  simp only [append_assoc, singleton_append]
  cases es with
  | nil =>
    show (match expect 0x5d (sp.1 ++ 0x5d :: rest) with | some _ => _ | none => _) = _
    rw [expect_after sp rfl]
    rfl
  | cons e es =>
    have hlt : (commas ((e :: es).map Element.bytes)).length < fuel := by
      simp only [length_cons, length_append] at hfuel
      omega
    -- the first element does not start with the bracket that closes the array
    obtain ⟨c, s, hs, hspace, hne⟩ := hhead e mem_cons_self
    obtain ⟨tail, htail⟩ := commas_elements hs es
    have hopen : expect 0x5d (sp.1 ++ (commas ((e :: es).map Element.bytes) ++ 0x5d :: rest)) =
        none := by
      rw [htail, expect_append, append_assoc, cons_append, expect_after_other e.before hspace hne]
    rw [hopen, readElems_append, readElems_commas e es h hlt]
    rfl

/-- An object is read as its members. -/
theorem readsText_object (sp : Spaces) {ms : List Member}
    (h : ∀ m ∈ ms, ReadsText m.text m.value) :
    ReadsText (0x7b :: (sp.1 ++ commas (ms.map Member.bytes) ++ [0x7d]))
      (.object (ms.map fun m => (m.key, m.value))) := by
  apply readsText_cons
  intro fuel hfuel rest _
  rw [Json.readValue, expect_other rfl (by decide), expect_same rfl]
  simp only [append_assoc, singleton_append]
  cases ms with
  | nil =>
    show (match expect 0x7d (sp.1 ++ 0x7d :: rest) with | some _ => _ | none => _) = _
    rw [expect_after sp rfl]
    rfl
  | cons m ms =>
    have hlt : (commas ((m :: ms).map Member.bytes)).length < fuel := by
      simp only [length_cons, length_append] at hfuel
      omega
    obtain ⟨tail, htail⟩ := commas_members m ms
    have hopen : expect 0x7d (sp.1 ++ (commas ((m :: ms).map Member.bytes) ++ 0x7d :: rest)) =
        none := by
      rw [htail, expect_append, append_assoc, cons_append,
        expect_after_other m.beforeName rfl (by decide)]
    rw [hopen, readMembers_append, readMembers_commas m ms h hlt]
    rfl

theorem Denotes.readValue (h : Denotes d t v) : ReadsText t v := by
  induction h with
  | atom h => exact h.readsText
  | @string d t cs hbody hreads =>
    apply readsText_cons
    intro fuel _ rest _
    rw [Json.readValue, expect_same rfl]
    simp only [append_assoc, singleton_append, hreads rest, map_some]
  | array sp es hes ih => exact readsText_array sp (fun e he => (hes e he).head) ih
  | object sp ms hms ih => exact readsText_object sp ih

/-- The text of a value, with spaces around it, is read as that value. -/
theorem Denotes.read (h : Denotes d t v) (before after : Spaces) :
    read (before.1 ++ t ++ after.1) = some v := by
  have hrest : Delimited after.1 := by
    intro c s hs
    rw [isDelimiter, after.2 c (hs ▸ mem_cons_self), Bool.or_true]
  have hskip : skipSpace after.1 = [] := by
    rw [← append_nil after.1, skipSpace_append]
    rfl
  have hlength : t.length ≤ (before.1 ++ (t ++ after.1)).length := by
    simp only [length_append]
    omega
  rw [Json.read, append_assoc, readValue_append, h.readValue _ hlength _ hrest]
  simp only [hskip, ↓reduceIte]

/-! ### Scanning -/

theorem over_endValue (base : List ParseState) : Over base ⟨.endValue, base⟩ :=
  ⟨rfl, fun _ _ => rfl⟩

theorem over_popParseState (base : List ParseState) : Over base (popParseState base) := by
  cases base with
  | nil => exact ⟨rfl, fun _ _ => rfl⟩
  | cons p base => exact over_endValue _

/-- Spaces where the scanner waits for something else. -/
theorem run_of_stays (h : ∀ c, isSpace c = true → s.step c = s) (sp : Spaces) : s.run sp.1 = s := by
  obtain ⟨sp, hsp⟩ := sp
  induction sp with
  | nil => rfl
  | cons c sp ih =>
    rw [run_cons, h c (hsp c mem_cons_self)]
    exact ih fun c hc => hsp c (mem_cons_of_mem _ hc)

/-- Spaces before a value or a name are passed over. -/
theorem run_spaces {m : Mode} (hm : m = .beginValue ∨ m = .beginValueOrEmpty ∨ m = .beginString ∨
    m = .beginStringOrEmpty) (ps : List ParseState) (sp : Spaces) :
    run ⟨m, ps⟩ sp.1 = ⟨m, ps⟩ := by
  apply run_of_stays
  intro c hc
  rcases hm with rfl | rfl | rfl | rfl <;> exact if_pos hc

/-- So are spaces after a value or a name inside an object or an array. -/
theorem run_spaces_endValue (p : ParseState) (base : List ParseState) (sp : Spaces) :
    run ⟨.endValue, p :: base⟩ sp.1 = ⟨.endValue, p :: base⟩ :=
  run_of_stays (s := ⟨.endValue, p :: base⟩) (fun _ hc => if_pos hc) sp

/-- Spaces after a value leave it over. -/
theorem Over.spaces (h : Over base s) (sp : Spaces) : Over base (s.run sp.1) := by
  obtain ⟨sp, hsp⟩ := sp
  cases sp with
  | nil => exact h
  | cons c sp =>
    have hc := hsp c mem_cons_self
    let rest : Spaces := ⟨sp, fun c hc => hsp c (mem_cons_of_mem _ hc)⟩
    show Over base ((s.step c).run rest.1)
    rw [h.step c (by rw [isDelimiter, hc, Bool.or_true])]
    cases base with
    | nil =>
      have hstep : stateEndValue ⟨.endValue, []⟩ c = ⟨.endTop, []⟩ := if_pos hc
      rw [hstep, run_of_stays (s := ⟨.endTop, []⟩) fun _ hc => if_pos hc]
      exact over_popParseState []
    | cons p base =>
      have hstep : stateEndValue ⟨.endValue, p :: base⟩ c = ⟨.endValue, p :: base⟩ := if_pos hc
      rw [hstep, run_spaces_endValue]
      exact over_endValue _

theorem Element.ends (h : Over base (run ⟨.beginValue, base⟩ e.text)) :
    Over base (run ⟨.beginValue, base⟩ e.bytes) := by
  rw [bytes, run_append, run_append, run_spaces (.inl rfl)]
  exact h.spaces e.after

theorem over_elements {base : List ParseState} (e : Element) (es : List Element)
    (h : ∀ x ∈ e :: es,
      Over (.arrayValue :: base) (run ⟨.beginValue, .arrayValue :: base⟩ x.text)) :
    Over (.arrayValue :: base)
      (run ⟨.beginValue, .arrayValue :: base⟩ (commas ((e :: es).map Element.bytes))) := by
  induction es generalizing e with
  | nil => exact Element.ends (h e mem_cons_self)
  | cons e' es ih =>
    have hfirst := Element.ends (h e mem_cons_self)
    show Over _ (run _ (e.bytes ++ 0x2c :: commas ((e' :: es).map Element.bytes)))
    rw [run_append, run_cons, hfirst.step 0x2c rfl]
    exact ih e' fun x hx => h x (mem_cons_of_mem e hx)

/-- A member is over with its value. -/
theorem Member.ends {m : Member} {mode : Mode}
    (hmode : mode = .beginString ∨ mode = .beginStringOrEmpty)
    (h : Over (.objectValue :: base) (run ⟨.beginValue, .objectValue :: base⟩ m.text)) :
    Over (.objectValue :: base) (run ⟨mode, .objectKey :: base⟩ m.bytes) := by
  have hquote : step ⟨mode, .objectKey :: base⟩ 0x22 = ⟨.inString, .objectKey :: base⟩ := by
    rcases hmode with rfl | rfl <;> rfl
  have hclose : step ⟨.inString, .objectKey :: base⟩ 0x22 = ⟨.endValue, .objectKey :: base⟩ := rfl
  have hcolon : step ⟨.endValue, .objectKey :: base⟩ 0x3a = ⟨.beginValue, .objectValue :: base⟩ :=
    rfl
  rw [bytes, run_append, run_spaces (by rcases hmode with rfl | rfl <;> simp), run_cons, hquote,
    run_append, m.body.stringSafe, run_cons, hclose, run_append, run_spaces_endValue, run_cons,
    hcolon]
  exact Element.ends h

/-- The members of an object, up to the brace. -/
theorem over_members {base : List ParseState} (m : Member) (ms : List Member) {mode : Mode}
    (hmode : mode = .beginString ∨ mode = .beginStringOrEmpty)
    (h : ∀ x ∈ m :: ms,
      Over (.objectValue :: base) (run ⟨.beginValue, .objectValue :: base⟩ x.text)) :
    Over (.objectValue :: base)
      (run ⟨mode, .objectKey :: base⟩ (commas ((m :: ms).map Member.bytes))) := by
  induction ms generalizing m mode with
  | nil => exact Member.ends hmode (h m mem_cons_self)
  | cons m' ms ih =>
    have hfirst := Member.ends hmode (h m mem_cons_self)
    show Over _ (run _ (m.bytes ++ 0x2c :: commas ((m' :: ms).map Member.bytes)))
    rw [run_append, run_cons, hfirst.step 0x2c rfl]
    exact ih m' (.inl rfl) fun x hx => h x (mem_cons_of_mem m hx)

/-- Where an element may come, a byte that closes nothing begins one. -/
theorem run_beginValueOrEmpty (hspace : isSpace c = false) (hne : c ≠ 0x5d) (ps : List ParseState)
    (sp : Spaces) (s : List UInt8) :
    run ⟨.beginValueOrEmpty, ps⟩ (sp.1 ++ c :: s) = run ⟨.beginValue, ps⟩ (sp.1 ++ c :: s) := by
  have hstep : step ⟨.beginValueOrEmpty, ps⟩ c = step ⟨.beginValue, ps⟩ c := by
    show stateBeginValueOrEmpty _ c = stateBeginValue _ c
    simp only [stateBeginValueOrEmpty, stateBeginValue, hspace, Bool.false_eq_true, if_false,
      if_neg hne]
    rfl
  rw [run_append, run_append, run_spaces (by simp), run_spaces (by simp), run_cons, run_cons, hstep]

/-- Where a name may come, a byte that does not close the object begins one. -/
theorem run_beginStringOrEmpty (hspace : isSpace c = false) (hne : c ≠ 0x7d)
    (ps : List ParseState) (sp : Spaces) (s : List UInt8) :
    run ⟨.beginStringOrEmpty, ps⟩ (sp.1 ++ c :: s) = run ⟨.beginString, ps⟩ (sp.1 ++ c :: s) := by
  have hstep : step ⟨.beginStringOrEmpty, ps⟩ c = step ⟨.beginString, ps⟩ c := by
    show stateBeginStringOrEmpty _ c = stateBeginString _ c
    simp only [stateBeginStringOrEmpty, stateBeginString, hspace, Bool.false_eq_true, if_false,
      if_neg hne]
    rfl
  rw [run_append, run_append, run_spaces (by simp), run_spaces (by simp), run_cons, run_cons, hstep]

theorem step_openBracket (hfit : base.length < maxNestingDepth) :
    step ⟨.beginValue, base⟩ 0x5b = ⟨.beginValueOrEmpty, .arrayValue :: base⟩ := by
  have hpush : step ⟨.beginValue, base⟩ 0x5b =
      pushParseState ⟨.beginValue, base⟩ .arrayValue .beginValueOrEmpty := rfl
  rw [hpush, pushParseState, if_pos hfit]

/-- An array is read up to its closing bracket. -/
theorem run_array (hfit : base.length < maxNestingDepth) (sp : Spaces) (es : List Element)
    (hhead : ∀ e ∈ es, ∃ c s, e.text = c :: s ∧ isSpace c = false ∧ c ≠ 0x5d)
    (h : ∀ e ∈ es, Over (.arrayValue :: base) (run ⟨.beginValue, .arrayValue :: base⟩ e.text)) :
    run ⟨.beginValue, base⟩ (0x5b :: (sp.1 ++ commas (es.map Element.bytes) ++ [0x5d])) =
      popParseState base := by
  rw [run_cons, step_openBracket hfit, append_assoc, run_append, run_spaces (by simp)]
  cases es with
  | nil => rfl
  | cons e es =>
    obtain ⟨c, s, hs, hspace, hne⟩ := hhead e mem_cons_self
    obtain ⟨tail, htail⟩ := commas_elements hs es
    have hover := over_elements e es h
    rw [htail] at hover ⊢
    rw [append_assoc, cons_append, run_beginValueOrEmpty hspace hne, ← cons_append,
      ← append_assoc, run_append, run_cons, hover.step 0x5d rfl]
    rfl

/-- An object is read up to its closing brace. -/
theorem run_members (hfit : base.length < maxNestingDepth) (sp : Spaces) (ms : List Member)
    (h : ∀ m ∈ ms, Over (.objectValue :: base) (run ⟨.beginValue, .objectValue :: base⟩ m.text)) :
    run ⟨.beginValue, base⟩ (0x7b :: (sp.1 ++ commas (ms.map Member.bytes) ++ [0x7d])) =
      popParseState base := by
  rw [run_cons, step_openBrace hfit, append_assoc, run_append, run_spaces (by simp)]
  cases ms with
  | nil => rfl
  | cons m ms =>
    have hover := over_members m ms (.inr rfl) h
    rw [run_append, run_cons, hover.step 0x7d rfl]
    rfl

theorem Denotes.ends (h : Denotes d t v) (hfit : d + base.length ≤ maxNestingDepth) :
    Over base (run ⟨.beginValue, base⟩ t) := by
  induction h generalizing base with
  | atom h => exact h.ends base
  | @string d t cs hbody hreads =>
    have hopen : step ⟨.beginValue, base⟩ 0x22 = ⟨.inString, base⟩ := rfl
    rw [run_cons, hopen, run_append, hbody.stringSafe]
    exact over_endValue base
  | array sp es hes ih =>
    rw [run_array (by omega) sp es (fun e he => (hes e he).head)
      fun e he => ih e he (by rw [length_cons]; omega)]
    exact over_popParseState base
  | object sp ms _ ih =>
    rw [run_members (by omega) sp ms fun m hm => ih m hm (by rw [length_cons]; omega)]
    exact over_popParseState base

/-- The text of a value, with spaces around it, is valid. -/
theorem Denotes.valid (h : Denotes d t v) (hfit : d ≤ maxNestingDepth) (before after : Spaces) :
    valid (before.1 ++ t ++ after.1) = true := by
  have hover : Over [] (run ⟨.beginValue, []⟩ t) := h.ends hfit
  rw [Json.valid, init, run_append, run_append, run_spaces (.inl rfl)]
  exact eof_of_over (hover.spaces after)

end Json
