import Watcher.Json.Compact

/-!
# Objects as maps of raw texts

`json.Unmarshal` into a `map[string]json.RawMessage` and `json.Marshal` of one.
The map keeps the texts of the values as they are; only the names are decoded.
Marshal writes the members in the order of their names, quotes the names and
compacts the values.

- `unmarshal_of_denotes`, `unmarshal_of_not_object`: what the map holds
- `denotes_marshalText`, `lookup_marshalText`: what the written text stands for
- `unmarshal_marshalText`, `marshalText_congr`: what was written is read back, and
  written again the same way
-/

namespace Json

open List

/-! ### Names -/

/-- What Marshal writes for an ASCII byte of a string. -/
def quoteByte (b : UInt8) : List UInt8 :=
  if 0x20 ≤ b ∧ b ≠ 0x22 ∧ b ≠ 0x5c ∧ isHtml b = false then [b]
  else if b = 0x5c ∨ b = 0x22 then [0x5c, b]
  else if b = 0x08 then [0x5c, 0x62]
  else if b = 0x0c then [0x5c, 0x66]
  else if b = 0x0a then [0x5c, 0x6e]
  else if b = 0x0d then [0x5c, 0x72]
  else if b = 0x09 then [0x5c, 0x74]
  else byteEscape b

/-- What Marshal writes between quotes, once `skip` bytes of an earlier rune are passed over. -/
def quoteFrom : (skip : Nat) → GoString → List UInt8
  | _, [] => []
  | skip + 1, _ :: s => quoteFrom skip s
  | 0, b :: s =>
    if b < 0x80 then quoteByte b ++ quoteFrom 0 s
    else
      let (r, k) := Utf8.decodeRune b s
      if r = Utf8.runeError ∧ k = 0 then [0x5c, 0x75, 0x66, 0x66, 0x66, 0x64] ++ quoteFrom 0 s
      else if r = 0x2028 ∨ r = 0x2029 then separatorEscape (UInt8.ofNat r) ++ quoteFrom k s
      else b :: s.take k ++ quoteFrom k s

/-- What Marshal writes between the quotes of a string. -/
def quote (s : GoString) : List UInt8 := quoteFrom 0 s

theorem quoteFrom_skip (l rest : List UInt8) :
    quoteFrom l.length (l ++ rest) = quoteFrom 0 rest := by
  induction l with
  | nil => rfl
  | cons b l ih => exact ih

private theorem byteEscape_ascii : ∀ n < 0x80,
    ((byteEscape (UInt8.ofNat n)).drop 2).all isHexDigit = true := by
  decide

/-- They are those of the byte. -/
private theorem hex4At_byteEscape : ∀ n < 0x80,
    hex4At ((byteEscape (UInt8.ofNat n)).drop 2) = some n := by
  decide

variable {b : UInt8} {r fuel d : Nat} {ms : List Member}

theorem isUnicode_byteEscape (hascii : b < 0x80) : IsUnicode (byteEscape b) b.toNat := by
  have hlt : b.toNat < 0x80 := UInt8.lt_iff_toNat_lt.mp hascii
  have hdigits := byteEscape_ascii b.toNat hlt
  have hvalue := hex4At_byteEscape b.toNat hlt
  rw [UInt8.ofNat_toNat] at hdigits hvalue
  simp only [byteEscape, drop_succ_cons, drop_zero, all_cons, Bool.and_eq_true,
    all_nil, and_true] at hdigits
  obtain ⟨h₁, h₂, h₃, h₄⟩ := hdigits
  exact ⟨⟨_, _, _, _, rfl, h₁, h₂, h₃, h₄, fun _ => hvalue⟩, .inl (by omega)⟩

/-- A writer that has a short escape for the byte `k`, and writes the others as escapes. -/
theorem escaped_ite {b k e : UInt8} {other : List UInt8} (hk : simpleEscape e = some k.toNat)
    (hother : (∃ e', simpleEscape e' = some b.toNat ∧ other = [0x5c, e']) ∨
      IsUnicode other b.toNat) :
    (∃ e', simpleEscape e' = some b.toNat ∧ (if b = k then [0x5c, e] else other) = [0x5c, e']) ∨
      IsUnicode (if b = k then [0x5c, e] else other) b.toNat := by
  by_cases hb : b = k
  · rw [if_pos hb, hb]
    exact .inl ⟨e, hk, rfl⟩
  · rw [if_neg hb]
    exact hother

/-- How an ASCII byte is written: as it is, as an escape of one letter or as a `\u` escape. -/
theorem quoteByte_cases (hascii : b < 0x80) :
    (0x20 ≤ b ∧ b ≠ 0x22 ∧ b ≠ 0x5c ∧ isHtml b = false ∧ quoteByte b = [b]) ∨
      (∃ e, simpleEscape e = some b.toNat ∧ quoteByte b = [0x5c, e]) ∨
      IsUnicode (quoteByte b) b.toNat := by
  unfold quoteByte
  split
  · rename_i h
    exact .inl ⟨h.1, h.2.1, h.2.2.1, h.2.2.2, rfl⟩
  refine .inr ?_
  split
  · rename_i h
    rcases h with rfl | rfl <;> exact .inl ⟨_, rfl, rfl⟩
  · exact escaped_ite rfl (escaped_ite rfl (escaped_ite rfl (escaped_ite rfl (escaped_ite rfl
      (.inr (isUnicode_byteEscape hascii))))))

/-- A piece of a body that stands for the character `r` and that the compaction leaves alone. -/
structure IsPiece (piece : List UInt8) (r : Nat) : Prop where
  body : ∀ {s : List UInt8}, Body s → Body (piece ++ s)
  reads : ∀ s, readChars 0 (piece ++ s) = (readChars 0 s).map fun (cs, rest) => (r :: cs, rest)
  compactBody : ∀ s, compactBody (piece ++ s) = piece ++ compactBody s

theorem IsUnicode.isPiece {piece : List UInt8} (h : IsUnicode piece r) :
    IsPiece piece r := ⟨h.body, h.readChars, h.compactBody⟩

theorem isPiece_quoteByte (hascii : b < 0x80) : IsPiece (quoteByte b) b.toNat := by
  rcases quoteByte_cases hascii with ⟨hctl, hquote, hback, hhtml, heq⟩ | ⟨e, he, heq⟩ | h
  · have hlead : b ≠ 0xe2 := by
      rintro rfl
      exact absurd hascii (by decide)
    have hdecode : ∀ s, Utf8.decodeRune b s = (b.toNat, 0) := by
      intro s
      unfold Utf8.decodeRune
      rw [if_pos hascii]
    rw [heq]
    refine ⟨.byte hctl hquote hback, fun s => ?_, fun s => ?_⟩
    · rw [singleton_append, readChars_byte hctl hquote hback, hdecode]
    · exact compactBody_byte hquote hback hhtml fun h => absurd h hlead
  · rw [heq]
    exact ⟨.escape he, readChars_escape he, compactBody_escape e⟩
  · exact h.isPiece

/-- Continuation bytes are part of no escape and stay. -/
theorem compactBody_continuation {bs : List UInt8} (h : ∀ b ∈ bs, Utf8.isContinuation b = true)
    (s : List UInt8) : compactBody (bs ++ s) = bs ++ compactBody s := by
  induction bs with
  | nil => rfl
  | cons b bs ih =>
    have hb := h b mem_cons_self
    have hne : ∀ c : UInt8, Utf8.isContinuation c = false → b ≠ c := by
      rintro c hc rfl
      rw [hc] at hb
      exact nomatch hb
    have hhtml : isHtml b = false := by
      simp [isHtml, hne 0x3c rfl, hne 0x3e rfl, hne 0x26 rfl]
    rw [cons_append, compactBody_byte (hne 0x22 rfl) (hne 0x5c rfl) hhtml
      (fun h => absurd h (hne 0xe2 rfl)), ih fun b hb => h b (mem_cons_of_mem _ hb),
      cons_append]

theorem Body.append_bytes {piece s : List UInt8}
    (h : ∀ c ∈ piece, 0x20 ≤ c ∧ c ≠ 0x22 ∧ c ≠ 0x5c) (hs : Body s) : Body (piece ++ s) := by
  induction piece with
  | nil => exact hs
  | cons c piece ih =>
    obtain ⟨hctl, hquote, hback⟩ := h c mem_cons_self
    exact .byte hctl hquote hback (ih fun c hc => h c (mem_cons_of_mem _ hc))

/-- What decodes to another character is not taken for a line separator. -/
private theorem separatorAt_eq_none {bs : List UInt8} (hrune : (Utf8.decodeRune 0xe2 bs).1 = r)
    (hsep : ¬(r = 0x2028 ∨ r = 0x2029)) : separatorAt bs = none := by
  by_contra hsome
  obtain ⟨c, hat⟩ := Option.ne_none_iff_exists'.mp hsome
  obtain ⟨hc, t, rfl⟩ := separatorAt_eq_some hat
  apply hsep
  rcases hc with rfl | rfl
  · exact .inl hrune.symm
  · exact .inr hrune.symm

/-- A character outside ASCII that is no line separator. -/
theorem isPiece_encodeRune (h : Utf8.IsScalar r) (hascii : 0x80 ≤ r)
    (hsep : ¬(r = 0x2028 ∨ r = 0x2029)) : IsPiece (Utf8.encodeRune r) r := by
  obtain ⟨b, bs, heq, hdec⟩ := Utf8.decodeRune_encodeRune h
  have hbytes : ∀ c ∈ b :: bs, 0x20 ≤ c ∧ c ≠ 0x22 ∧ c ≠ 0x5c ∧ isHtml c = false := by
    intro c hc
    have hge := Utf8.encodeRune_ge r hascii c (heq ▸ hc)
    simp only [isHtml]
    grind
  have hcont : ∀ c ∈ bs, Utf8.isContinuation c = true := by
    have hself := hdec []
    rw [append_nil] at hself
    exact Utf8.isContinuation_of_decodeRune (congrArg Prod.snd hself)
  obtain ⟨hctl, hquote, hback, hhtml⟩ := hbytes b mem_cons_self
  rw [heq]
  refine ⟨Body.append_bytes fun c hc => ?_, fun s => ?_, fun s => ?_⟩
  · obtain ⟨h₁, h₂, h₃, -⟩ := hbytes c hc
    exact ⟨h₁, h₂, h₃⟩
  · rw [cons_append, readChars_byte hctl hquote hback, hdec]
    simp only [readChars_skip]
  · have hother : b = 0xe2 → separatorAt (bs ++ s) = none := by
      rintro rfl
      exact separatorAt_eq_none (congrArg Prod.fst (hdec s)) hsep
    rw [cons_append, compactBody_byte hquote hback hhtml hother,
      compactBody_continuation hcont, cons_append]

/-- An ASCII byte is a character by itself. -/
private theorem quote_ascii (hascii : b < 0x80) (s : GoString) :
    quote (b :: s) = quoteByte b ++ quote s ∧
      Utf8.runes (b :: s) = b.toNat :: Utf8.runes s := by
  have hdecode : Utf8.decodeRune b s = (b.toNat, 0) := by
    unfold Utf8.decodeRune
    rw [if_pos hascii]
  constructor
  · rw [quote, quoteFrom, if_pos hascii]
    rfl
  · rw [Utf8.runes, Utf8.runesFrom, hdecode]
    rfl

/-- A byte that is no part of a character is written as `\ufffd`. -/
private theorem quote_invalid (hascii : ¬b < 0x80) {s : GoString}
    (herror : (Utf8.decodeRune b s).1 = Utf8.runeError ∧ (Utf8.decodeRune b s).2 = 0) :
    quote (b :: s) = [0x5c, 0x75, 0x66, 0x66, 0x66, 0x64] ++ quote s ∧
      Utf8.runes (b :: s) = Utf8.runeError :: Utf8.runes s := by
  constructor
  · rw [quote, quoteFrom, if_neg hascii]
    simp only [if_pos herror]
    rfl
  · rw [Utf8.runes, Utf8.runesFrom, herror.1, herror.2]
    rfl

/-- A character outside ASCII is written as it is, the line separators apart. -/
private theorem quote_rune (hascii : ¬b < 0x80) {bs rest : GoString}
    (hdec : Utf8.decodeRune b (bs ++ rest) = (r, bs.length))
    (herror : ¬(r = Utf8.runeError ∧ bs.length = 0)) :
    quote (b :: (bs ++ rest)) =
        (if r = 0x2028 ∨ r = 0x2029 then separatorEscape (UInt8.ofNat r) else b :: bs) ++
          quote rest ∧
      Utf8.runes (b :: (bs ++ rest)) = r :: Utf8.runes rest := by
  constructor
  · rw [quote, quoteFrom, if_neg hascii, hdec]
    simp only [if_neg herror, quoteFrom_skip, take_left]
    split <;> rfl
  · rw [Utf8.runes, Utf8.runesFrom, hdec, Utf8.runesFrom_skip]
    rfl

/-- The first character of a string, how it is written and what follows it. -/
theorem quote_cons (b : UInt8) (s : GoString) : ∃ piece r rest, IsPiece piece r ∧
    rest.length ≤ s.length ∧ quote (b :: s) = piece ++ quote rest ∧
    Utf8.runes (b :: s) = r :: Utf8.runes rest := by
  by_cases hascii : b < 0x80
  · exact ⟨_, _, s, isPiece_quoteByte hascii, Nat.le_refl _, quote_ascii hascii s⟩
  by_cases herror : (Utf8.decodeRune b s).1 = Utf8.runeError ∧ (Utf8.decodeRune b s).2 = 0
  · have hpiece : IsUnicode [0x5c, 0x75, 0x66, 0x66, 0x66, 0x64] Utf8.runeError :=
      ⟨⟨_, _, _, _, rfl, rfl, rfl, rfl, rfl, fun _ => rfl⟩, .inr (by decide)⟩
    exact ⟨_, _, s, hpiece.isPiece, Nat.le_refl _, quote_invalid hascii herror⟩
  rcases Utf8.decodeRune_cases b s with h | ⟨bs, rest, rfl, hlength, hscalar, hwrite⟩
  · rw [h] at herror
    exact absurd ⟨rfl, rfl⟩ herror
  have hge := Utf8.decodeRune_ge hascii (bs ++ rest)
  have hdec : Utf8.decodeRune b (bs ++ rest) =
      ((Utf8.decodeRune b (bs ++ rest)).1, bs.length) := Prod.ext rfl hlength
  rw [hlength] at herror
  have hrest : rest.length ≤ (bs ++ rest).length := by
    rw [length_append]
    omega
  refine ⟨_, _, rest, ?_, hrest, quote_rune hascii hdec herror⟩
  split
  · rename_i hsep
    rcases hsep with hsep | hsep
    · rw [hsep]
      exact (isUnicode_separatorEscape (.inl rfl)).isPiece
    · rw [hsep]
      exact (isUnicode_separatorEscape (.inr rfl)).isPiece
  · rename_i hsep
    exact hwrite ▸ isPiece_encodeRune hscalar hge hsep

/-- What is written between the quotes of a name is a body that stands for the runes of the name
    and that needs no compaction. -/
theorem quote_spec (s : GoString) :
    Body (quote s) ∧ ReadsAs (quote s) (Utf8.runes s) ∧ compactBody (quote s) = quote s := by
  induction hn : s.length using Nat.strongRecOn generalizing s with
  | ind n ih =>
    subst hn
    cases s with
    | nil => exact ⟨.nil, .nil, rfl⟩
    | cons b s =>
      obtain ⟨piece, r, rest, hpiece, hlt, hquote, hrunes⟩ := quote_cons b s
      obtain ⟨hbody, hreads, hcompact⟩ :=
        ih rest.length (by rw [length_cons]; omega) rest rfl
      rw [hquote, hrunes]
      refine ⟨hpiece.body hbody, fun tail => ?_, ?_⟩
      · rw [append_assoc, hpiece.reads, hreads]
        rfl
      · rw [hpiece.compactBody, hcompact]

/-! ### Maps -/

/-- A `map[string]json.RawMessage`: distinct names with the texts of their values. -/
structure RawMap where
  entries : List (GoString × List UInt8)
  nodup : (entries.map Prod.fst).Nodup

namespace RawMap

/-- `map[string]json.RawMessage{}` -/
def empty : RawMap := ⟨[], nodup_nil⟩

/-- `m[name] = text` -/
def set (m : RawMap) (name : GoString) (text : List UInt8) : RawMap where
  entries := (name, text) :: m.entries.filter fun e => e.1 ≠ name
  nodup := by
    rw [map_cons, nodup_cons]
    constructor
    · intro hmem
      obtain ⟨e, he, hname⟩ := mem_map.mp hmem
      have hne := (mem_filter.mp he).2
      simp [hname] at hne
    · exact (filter_sublist.map Prod.fst).nodup m.nodup

/-- `m[name]`, if there is such an entry. -/
def get? (m : RawMap) (name : GoString) : Option (List UInt8) := m.entries.lookup name

/-- The entries put in one after the other. -/
def ofList (es : List (GoString × List UInt8)) : RawMap :=
  es.foldl (fun m e => m.set e.1 e.2) empty

/-- The entries in the order of their names. -/
def sorted (m : RawMap) : List (GoString × List UInt8) :=
  m.entries.insertionSort fun a b => a.1 ≤ b.1

end RawMap

/-- `"name":text`, as Marshal writes it. -/
def entryText (e : GoString × List UInt8) : List UInt8 :=
  0x22 :: (quote e.1 ++ 0x22 :: 0x3a :: compact e.2)

/-- `json.Marshal`: fails if a text is not JSON. -/
def marshal (m : RawMap) : Option (List UInt8) :=
  if m.entries.all fun e => valid e.2 then
    some (0x7b :: (commas (m.sorted.map entryText) ++ [0x7d]))
  else none

/-- The text of the value at the start of `s`, and what follows it. -/
def readRaw (fuel : Nat) (s : List UInt8) : Option (List UInt8 × List UInt8) :=
  let s := skipSpace s
  (readValue fuel s).map fun (_, rest) => (s.take (s.length - rest.length), rest)

/-- The names and the texts of the members up to the closing brace. -/
def readRawMembers : (fuel : Nat) → List UInt8 → Option (List (List Nat × List UInt8))
  | 0, _ => none
  | fuel + 1, s => do
    let (key, s) ← readChars 0 (← expect 0x22 s)
    let (text, s) ← readRaw fuel (← expect 0x3a s)
    match expect 0x2c s with
    | some s => (readRawMembers fuel s).map fun ms => (key, text) :: ms
    | none => (expect 0x7d s).map fun _ => [(key, text)]

/-- The bytes of a decoded name. -/
def nameBytes (key : List Nat) : GoString := key.flatMap Utf8.encodeRune

/-- `json.Unmarshal` into a map: fails if the text is not JSON or neither an object nor `null`,
    which leaves a nil map. -/
def unmarshal (data : List UInt8) : Option (Option RawMap) :=
  if valid data then
    match expect 0x7b data with
    | some s =>
      match expect 0x7d s with
      | some _ => some (some .empty)
      | none => (readRawMembers data.length s).map fun ms =>
          some (.ofList (ms.map fun m => (nameBytes m.1, m.2)))
    | none =>
      match read data with
      | some .null => some none
      | _ => none
  else none

/-- The value of the last member of that name. -/
def lookup (members : List (List Nat × Value)) (name : GoString) : Option Value :=
  (members.reverse.map fun m => (nameBytes m.1, m.2)).lookup name

/-! ### Finding entries -/

theorem lookup_eq_some_iff {members : List (List Nat × Value)}
    (h : (members.map fun m => nameBytes m.1).Nodup) {name : GoString} {v : Value} :
    lookup members name = some v ↔ ∃ m ∈ members, nameBytes m.1 = name ∧ m.2 = v := by
  rw [lookup, lookup_eq_some_iff_mem]
  · simp only [mem_map, mem_reverse, Prod.mk.injEq]
  · rw [map_map, map_reverse, nodup_reverse]
    exact h

namespace RawMap

@[simp] theorem get?_empty (name : GoString) : empty.get? name = none := rfl

variable {m : RawMap}

/-- What is found is an entry. -/
theorem get?_eq_some_iff {name : GoString} {text : List UInt8} :
    m.get? name = some text ↔ (name, text) ∈ m.entries :=
  lookup_eq_some_iff_mem m.nodup

/-- An entry is given by its name. -/
theorem eq_of_name (m : RawMap) {a b : GoString × List UInt8} (ha : a ∈ m.entries)
    (hb : b ∈ m.entries) (h : a.1 = b.1) : a = b := by
  have hget : m.get? b.1 = some b.2 := get?_eq_some_iff.mpr hb
  rw [← h, get?_eq_some_iff.mpr ha, Option.some_inj] at hget
  exact Prod.ext h hget

theorem perm_of_get? {m' : RawMap} (h : ∀ name, m.get? name = m'.get? name) :
    m.entries.Perm m'.entries := by
  rw [perm_ext_iff_of_nodup (.of_map _ m.nodup) (.of_map _ m'.nodup)]
  intro e
  rw [← get?_eq_some_iff, ← get?_eq_some_iff, h]

theorem get?_of_perm {m' : RawMap} (h : m.entries.Perm m'.entries) (name : GoString) :
    m.get? name = m'.get? name := by
  apply Option.ext
  intro text
  rw [get?_eq_some_iff, get?_eq_some_iff, h.mem_iff]

/-- What is found after an assignment. -/
theorem get?_set (m : RawMap) (name : GoString) (text : List UInt8) (other : GoString) :
    (m.set name text).get? other = if other = name then some text else m.get? other := by
  apply Option.ext
  intro x
  rw [get?_eq_some_iff, set, mem_cons, mem_filter, Prod.mk.injEq, ← get?_eq_some_iff]
  by_cases h : other = name
  · simp [h, eq_comm]
  · simp [h]

/-- Of several entries of one name the last one stays. -/
theorem get?_ofList (es : List (GoString × List UInt8)) (name : GoString) :
    (ofList es).get? name = es.reverse.lookup name := by
  have hfold : ∀ m : RawMap, (es.foldl (fun m e => m.set e.1 e.2) m).get? name =
      (es.reverse.lookup name).or (m.get? name) := by
    induction es with
    | nil => exact fun _ => rfl
    | cons e es ih =>
      intro m
      have hlast : List.lookup name [e] = if name = e.1 then some e.2 else none := by
        show List.lookup name [(e.1, e.2)] = _
        rw [lookup_cons]
        by_cases h : name = e.1
        · rw [if_pos h, h, beq_self_eq_true]
        · rw [if_neg h, beq_eq_false_iff_ne.mpr h]
          rfl
      rw [foldl_cons, ih, get?_set, reverse_cons, lookup_append, hlast, Option.or_assoc]
      split <;> rfl
  rw [ofList, hfold, get?_empty, Option.or_none]

/-- Nothing else is put in. -/
theorem mem_ofList {es : List (GoString × List UInt8)} {e : GoString × List UInt8}
    (h : e ∈ (ofList es).entries) : e ∈ es := by
  have hget := get?_eq_some_iff.mpr h
  rw [get?_ofList, List.lookup_eq_some_iff] at hget
  obtain ⟨l₁, l₂, heq, -⟩ := hget
  rw [← mem_reverse, heq]
  exact mem_append_right _ mem_cons_self

/-- With distinct names everything stays. -/
theorem entries_ofList_of_nodup {es : List (GoString × List UInt8)}
    (h : (es.map Prod.fst).Nodup) : (ofList es).entries.Perm es := by
  have hreverse : (es.reverse.map Prod.fst).Nodup := by
    rw [map_reverse, nodup_reverse]
    exact h
  rw [perm_ext_iff_of_nodup (.of_map _ (ofList es).nodup) (.of_map _ h)]
  intro e
  show (e.1, e.2) ∈ (ofList es).entries ↔ e ∈ es
  rw [← get?_eq_some_iff, get?_ofList, lookup_eq_some_iff_mem hreverse, mem_reverse]

end RawMap

/-! ### Reading an object into a map -/

variable {m : RawMap}

theorem readRaw_element {e : Element} (h : ReadsText e.text e.value)
    (hhead : ∃ c s, e.text = c :: s ∧ isSpace c = false ∧ c ≠ 0x5d)
    (hfuel : e.bytes.length ≤ fuel) {c : UInt8} (hc : isDelimiter c = true) (rest : List UInt8) :
    readRaw fuel (e.bytes ++ c :: rest) = some (e.text, e.after.1 ++ c :: rest) := by
  obtain ⟨b, s, hs, hspace, -⟩ := hhead
  have hlength : e.text.length ≤ fuel := by
    simp only [Element.bytes, length_append] at hfuel
    omega
  have hskip : skipSpace (e.bytes ++ c :: rest) = e.text ++ (e.after.1 ++ c :: rest) := by
    rw [Element.bytes, append_assoc, append_assoc, skipSpace_append, hs, cons_append]
    exact dropWhile_cons_of_neg (by simp [hspace])
  have htake : (e.text ++ (e.after.1 ++ c :: rest)).take
      ((e.text ++ (e.after.1 ++ c :: rest)).length - (e.after.1 ++ c :: rest).length) = e.text := by
    rw [length_append, Nat.add_sub_cancel, take_left]
  rw [readRaw, hskip, h fuel hlength _ (delimited_append hc e.after rest)]
  simp only [Option.map_some, htake]

theorem readRawMembers_member {m : Member} (h : ReadsText m.text m.value)
    (hhead : ∃ c s, m.text = c :: s ∧ isSpace c = false ∧ c ≠ 0x5d)
    (hfuel : m.bytes.length ≤ fuel) {c : UInt8} (hc : isDelimiter c = true) (rest : List UInt8) :
    readRawMembers (fuel + 1) (m.bytes ++ c :: rest) =
      match expect 0x2c (m.after.1 ++ c :: rest) with
      | some s => (readRawMembers fuel s).map fun ms => (m.key, m.text) :: ms
      | none => (expect 0x7d (m.after.1 ++ c :: rest)).map fun _ => [(m.key, m.text)] := by
  have hlength : m.toElement.bytes.length ≤ fuel := by
    simp only [Member.bytes, length_append, length_cons] at hfuel
    omega
  have htext : m.bytes ++ c :: rest = m.beforeName.1 ++ 0x22 :: (m.name ++ 0x22 ::
      (m.afterName.1 ++ 0x3a :: (m.toElement.bytes ++ c :: rest))) := by
    simp only [Member.bytes, append_assoc, cons_append]
  have hkey := m.reads (m.afterName.1 ++ 0x3a :: (m.toElement.bytes ++ c :: rest))
  rw [htext, readRawMembers, expect_after m.beforeName rfl]
  simp only [Option.bind_eq_bind, Option.bind_some, hkey,
    expect_after m.afterName (c := 0x3a) rfl, readRaw_element h hhead hlength hc]

/-- The members of an object up to its brace. -/
theorem readRawMembers_commas (m : Member) (ms : List Member)
    (h : ∀ x ∈ m :: ms, Denotes d x.text x.value)
    (hfuel : (commas ((m :: ms).map Member.bytes)).length < fuel) (rest : List UInt8) :
    readRawMembers fuel (commas ((m :: ms).map Member.bytes) ++ 0x7d :: rest) =
      some ((m :: ms).map fun x => (x.key, x.text)) := by
  refine loop_commas (o := fun ms => ms.map fun x => (x.key, x.text)) ?_ ?_
    (cons_ne_nil m ms) hfuel
  · intro x hx fuel hfuel
    rw [readRawMembers_member (h x hx).readValue (h x hx).head hfuel (c := 0x7d) rfl,
      expect_after_other x.after rfl (by decide), expect_after x.after rfl]
    rfl
  · intro x hx fuel s l hfuel hs
    rw [readRawMembers_member (h x hx).readValue (h x hx).head hfuel (c := 0x2c) rfl,
      expect_after x.after rfl]
    simp only [hs]
    rfl

theorem readRawMembers_append (fuel : Nat) (sp : Spaces) (s : List UInt8) :
    readRawMembers fuel (sp.1 ++ s) = readRawMembers fuel s := by
  cases fuel with
  | zero => rfl
  | succ fuel => rw [readRawMembers, readRawMembers, expect_append]

/-- The map that an object is read into. -/
def rawMap (ms : List Member) : RawMap := .ofList (ms.map fun m => (nameBytes m.key, m.text))

/-- The text of an object is read into the map of its members. -/
theorem unmarshal_object (hd : d < maxNestingDepth) (before after sp : Spaces)
    (h : ∀ m ∈ ms, Denotes d m.text m.value) :
    unmarshal (before.1 ++ 0x7b :: (sp.1 ++ commas (ms.map Member.bytes) ++ [0x7d]) ++ after.1) =
      some (some (rawMap ms)) := by
  have hvalid := (Denotes.object sp ms h).valid hd before after
  have hopen : expect 0x7b
      (before.1 ++ 0x7b :: (sp.1 ++ commas (ms.map Member.bytes) ++ [0x7d]) ++ after.1) =
      some (sp.1 ++ (commas (ms.map Member.bytes) ++ 0x7d :: after.1)) := by
    rw [append_assoc, cons_append, expect_after before rfl]
    simp only [append_assoc, cons_append, nil_append]
  rw [unmarshal, if_pos hvalid, hopen]
  cases ms with
  | nil =>
    show (match expect 0x7d (sp.1 ++ 0x7d :: after.1) with | some _ => _ | none => _) = _
    rw [expect_after sp rfl]
    rfl
  | cons m ms =>
    obtain ⟨tail, htail⟩ := commas_members m ms
    -- there is a member, so the object does not end at once
    have hmore : expect 0x7d (sp.1 ++ (commas ((m :: ms).map Member.bytes) ++ 0x7d :: after.1)) =
        none := by
      rw [htail, expect_append, append_assoc, cons_append,
        expect_after_other m.beforeName rfl (by decide)]
    -- the length of the data is fuel enough for its members
    have hlt : (commas ((m :: ms).map Member.bytes)).length <
        (before.1 ++ 0x7b :: (sp.1 ++ commas ((m :: ms).map Member.bytes) ++ [0x7d]) ++
          after.1).length := by
      simp only [length_append, length_cons]
      omega
    simp only [hmore, readRawMembers_append, readRawMembers_commas m ms h hlt, Option.map_some,
      map_map]
    rfl

/-- What a map holds when it comes from an object. -/
structure Holds (d : Nat) (m : RawMap) : Prop where
  names : ∀ e ∈ m.entries, Utf8.IsValid e.1
  texts : ∀ e ∈ m.entries, ∃ v, Denotes d e.2 v

theorem holds_rawMap (h : ∀ m ∈ ms, Denotes d m.text m.value) : Holds d (rawMap ms) := by
  have hmem : ∀ e ∈ (rawMap ms).entries, ∃ m ∈ ms, (nameBytes m.key, m.text) = e :=
    fun e he => mem_map.mp (RawMap.mem_ofList he)
  constructor
  · intro e he
    obtain ⟨m, -, rfl⟩ := hmem e he
    exact Utf8.isValid_encodeRunes m.key
  · intro e he
    obtain ⟨m, hm, rfl⟩ := hmem e he
    exact ⟨m.value, h m hm⟩

theorem read_of_denotes {t : List UInt8} {v : Value} (h : Denotes d t v) : read t = some v := by
  have hread := h.read .none .none
  rwa [Spaces.val_none, nil_append, append_nil] at hread

/-- The texts in the map are those of the values in the object. -/
theorem lookup_eq_rawMap (h : ∀ m ∈ ms, Denotes d m.text m.value) (name : GoString) :
    lookup (ms.map fun m => (m.key, m.value)) name = ((rawMap ms).get? name).bind read := by
  rw [lookup, rawMap, RawMap.get?_ofList, ← map_reverse, ← map_reverse, map_map]
  show (ms.reverse.map fun m => (nameBytes m.key, m.value)).lookup name = _
  rw [lookup_map_eq_find?, lookup_map_eq_find?]
  cases hfind : ms.reverse.find? fun m => name == nameBytes m.key with
  | none => rfl
  | some m =>
    have hm : m ∈ ms := mem_reverse.mp (mem_of_find?_eq_some hfind)
    exact (read_of_denotes (h m hm)).symm

/-- The text of an object is read into a map with the same contents. -/
theorem unmarshal_of_denotes {t : List UInt8} {row : List (List Nat × Value)}
    (h : Denotes d t (.object row)) (hd : d ≤ maxNestingDepth) (before after : Spaces) :
    ∃ m, unmarshal (before.1 ++ t ++ after.1) = some (some m) ∧ Holds (d - 1) m ∧
      ∀ name, lookup row name = (m.get? name).bind read := by
  obtain ⟨n, sp, ms, rfl, rfl, rfl, hms⟩ := h.members
  exact ⟨rawMap ms, unmarshal_object hd before after sp hms, holds_rawMap hms, lookup_eq_rawMap hms⟩

theorem unmarshal_of_read {data : List UInt8} {row : List (List Nat × Value)}
    (hvalid : valid data = true) (hread : read data = some (.object row)) :
    ∃ m, unmarshal data = some (some m) ∧ Holds (maxNestingDepth - 1) m ∧
      ∀ name, lookup row name = (m.get? name).bind read := by
  obtain ⟨before, after, t, rfl, ht⟩ := denotes_of_read hvalid hread
  exact unmarshal_of_denotes ht (Nat.le_refl _) before after

/-- Any other text is not read into a map; `null` leaves it nil. -/
theorem unmarshal_of_not_object {data : List UInt8}
    (h : ∀ row, valid data = true → read data ≠ some (.object row)) :
    unmarshal data = none ∨ unmarshal data = some none := by
  cases hvalid : valid data with
  | false =>
    rw [unmarshal, hvalid]
    exact .inl rfl
  | true =>
    obtain ⟨before, after, t, v, rfl, ht⟩ := valid_iff.mp hvalid
    have hread := ht.read before after
    -- a text that begins with a brace is an object
    have hbrace : expect 0x7b (before.1 ++ t ++ after.1) = none := by
      obtain ⟨c, s, rfl, hspace, -⟩ := ht.head
      rw [append_assoc, cons_append]
      by_cases hc : c = 0x7b
      · subst hc
        obtain ⟨row, rfl⟩ := ht.eq_object
        exact absurd hread (h row hvalid)
      · exact expect_after_other before hspace hc _
    rw [unmarshal, if_pos hvalid, hbrace]
    dsimp only
    split
    · exact .inr rfl
    · exact .inl rfl

/-! ### Writing a map -/

/-- A member as Marshal writes it. -/
def entryMember (e : GoString × List UInt8) : Member where
  before := .none
  text := compact e.2
  value := (read e.2).getD .null
  after := .none
  beforeName := .none
  name := quote e.1
  key := Utf8.runes e.1
  afterName := .none
  body := (quote_spec e.1).1
  reads := (quote_spec e.1).2.1

/-- Its bytes. -/
theorem bytes_entryMember (e : GoString × List UInt8) : (entryMember e).bytes = entryText e := by
  simp only [Member.bytes, Element.bytes, entryMember, entryText, Spaces.val_none, nil_append,
    append_nil]

/-- What Marshal writes. -/
def marshalText (m : RawMap) : List UInt8 := 0x7b :: (commas (m.sorted.map entryText) ++ [0x7d])

theorem marshalText_eq (m : RawMap) : marshalText m = 0x7b :: (Spaces.none.1 ++
    commas ((m.sorted.map entryMember).map Member.bytes) ++ [0x7d]) := by
  have hbytes : Member.bytes ∘ entryMember = entryText := funext bytes_entryMember
  rw [map_map, hbytes]
  rfl

theorem RawMap.perm_sorted (m : RawMap) : m.sorted.Perm m.entries := perm_insertionSort _ _

/-- The names are in order. -/
theorem RawMap.pairwise_sorted (m : RawMap) : m.sorted.Pairwise fun a b => a.1 ≤ b.1 := by
  have htotal : Std.Total fun a b : GoString × List UInt8 => a.1 ≤ b.1 :=
    ⟨fun a b => List.le_total a.1 b.1⟩
  have htrans : IsTrans (GoString × List UInt8) fun a b => a.1 ≤ b.1 :=
    ⟨fun _ _ _ => List.le_trans⟩
  exact pairwise_insertionSort _ _

theorem mem_sorted {e : GoString × List UInt8} : e ∈ m.sorted ↔ e ∈ m.entries :=
  m.perm_sorted.mem_iff

theorem denotes_entryMember (h : Holds d m) :
    ∀ x ∈ m.sorted.map entryMember, Denotes d x.text x.value := by
  intro x hx
  obtain ⟨e, he, rfl⟩ := mem_map.mp hx
  obtain ⟨v, hv⟩ := h.texts e (mem_sorted.mp he)
  have hvalue : (entryMember e).value = v := by
    show (read e.2).getD .null = v
    rw [read_of_denotes hv, Option.getD_some]
  rw [hvalue]
  exact hv.compact

theorem marshal_eq (h : Holds d m) (hd : d ≤ maxNestingDepth) :
    marshal m = some (marshalText m) := by
  have hall : (m.entries.all fun e => valid e.2) = true := by
    rw [all_eq_true]
    intro e he
    obtain ⟨v, hv⟩ := h.texts e he
    have hvalid := hv.valid hd .none .none
    rwa [Spaces.val_none, nil_append, append_nil] at hvalid
  rw [marshal, if_pos hall]
  rfl

/-- What is written is the text of an object. -/
theorem denotes_marshalText (h : Holds d m) :
    Denotes (d + 1) (marshalText m)
      (.object (m.sorted.map fun e => (Utf8.runes e.1, (read e.2).getD .null))) := by
  have hmembers := Denotes.object .none (m.sorted.map entryMember) (denotes_entryMember h)
  rw [← marshalText_eq, map_map] at hmembers
  exact hmembers

/-- Its members are those of the map. -/
theorem lookup_marshalText (h : Holds d m) (name : GoString) :
    lookup (m.sorted.map fun e => (Utf8.runes e.1, (read e.2).getD .null)) name =
      (m.get? name).bind read := by
  have hentries : (m.sorted.map fun e => (Utf8.runes e.1, (read e.2).getD .null)).reverse.map
      (fun x => (nameBytes x.1, x.2)) =
        m.sorted.reverse.map fun e => (e.1, (read e.2).getD .null) := by
    rw [← map_reverse, map_map]
    apply map_congr_left
    intro e he
    have hname := Utf8.flatMap_encodeRune_runes (h.names e (mem_sorted.mp (mem_reverse.mp he)))
    show (nameBytes (Utf8.runes e.1), _) = _
    rw [nameBytes, hname]
  have hnodup :
      ((m.sorted.reverse.map fun e => (e.1, (read e.2).getD .null)).map Prod.fst).Nodup := by
    rw [map_map]
    show (m.sorted.reverse.map Prod.fst).Nodup
    rw [map_reverse, nodup_reverse]
    exact ((m.perm_sorted.map Prod.fst).nodup_iff).mpr m.nodup
  -- names are distinct, so looking up the last member of a name finds the only one
  apply Option.ext
  intro v
  rw [lookup, hentries, lookup_eq_some_iff_mem hnodup, Option.bind_eq_some_iff]
  constructor
  · intro hmem
    obtain ⟨e, he, heq⟩ := mem_map.mp hmem
    have he := mem_sorted.mp (mem_reverse.mp he)
    obtain ⟨w, hw⟩ := h.texts e he
    injection heq with hname hvalue
    rw [read_of_denotes hw, Option.getD_some] at hvalue
    subst hname hvalue
    exact ⟨e.2, RawMap.get?_eq_some_iff.mpr he, read_of_denotes hw⟩
  · rintro ⟨text, hget, hread⟩
    refine mem_map.mpr ⟨(name, text), mem_reverse.mpr (mem_sorted.mpr
      (RawMap.get?_eq_some_iff.mp hget)), ?_⟩
    rw [hread, Option.getD_some]

/-- What is written needs no compaction. -/
theorem compact_marshalText (h : Holds d m) : compact (marshalText m) = marshalText m := by
  rw [marshalText_eq, Denotes.compact_object .none (denotes_entryMember h)]
  congr 4
  rw [map_map, map_map, map_map]
  apply map_congr_left
  intro e he
  obtain ⟨v, hv⟩ := h.texts e (mem_sorted.mp he)
  show (entryMember e).compacted.bytes = (entryMember e).bytes
  rw [Member.bytes_compacted, bytes_entryMember]
  show 0x22 :: (compactBody (quote e.1) ++ 0x22 :: 0x3a :: compact (compact e.2)) = entryText e
  rw [(quote_spec e.1).2.2, hv.compact_idem]
  rfl

/-- What was written is read back, with the texts compacted. -/
theorem unmarshal_marshalText (hd : d < maxNestingDepth) (h : Holds d m) :
    ∃ m', unmarshal (marshalText m) = some (some m') ∧
      m'.entries.Perm (m.entries.map fun e => (e.1, compact e.2)) := by
  have hread := unmarshal_object hd .none .none .none (denotes_entryMember h)
  rw [← marshalText_eq, Spaces.val_none, nil_append, append_nil] at hread
  refine ⟨_, hread, ?_⟩
  have hentries : (m.sorted.map entryMember).map (fun x => (nameBytes x.key, x.text)) =
      m.sorted.map fun e => (e.1, compact e.2) := by
    rw [map_map]
    apply map_congr_left
    intro e he
    have hname := Utf8.flatMap_encodeRune_runes (h.names e (mem_sorted.mp he))
    show (nameBytes (Utf8.runes e.1), _) = _
    rw [nameBytes, hname]
    rfl
  rw [rawMap, hentries]
  refine (RawMap.entries_ofList_of_nodup ?_).trans (m.perm_sorted.map _)
  rw [map_map]
  exact ((m.perm_sorted.map Prod.fst).nodup_iff).mpr m.nodup

/-- The order of the entries does not matter, and neither does compacting the texts beforehand. -/
theorem marshalText_congr {m' : RawMap} (h : Holds d m)
    (hperm : m'.entries.Perm (m.entries.map fun e => (e.1, compact e.2))) :
    marshalText m' = marshalText m := by
  have hsorted : m'.sorted = m.sorted.map fun e => (e.1, compact e.2) := by
    have hall : m'.sorted.Perm (m.sorted.map fun e => (e.1, compact e.2)) :=
      (m'.perm_sorted.trans hperm).trans (m.perm_sorted.map _).symm
    apply hall.eq_of_pairwise (fun a b ha hb hab hba => ?_) m'.pairwise_sorted
    · exact List.pairwise_map.mpr m.pairwise_sorted
    · have hb := hperm.mem_iff.mpr ((m.perm_sorted.map _).mem_iff.mp hb)
      exact m'.eq_of_name (mem_sorted.mp ha) hb (List.le_antisymm hab hba)
  rw [marshalText, hsorted, List.map_map, marshalText]
  congr 3
  apply map_congr_left
  intro e he
  obtain ⟨v, hv⟩ := h.texts e (mem_sorted.mp he)
  show 0x22 :: (quote e.1 ++ 0x22 :: 0x3a :: compact (compact e.2)) = entryText e
  rw [hv.compact_idem]
  rfl

end Json
