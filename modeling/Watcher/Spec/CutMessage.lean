import Watcher.Spec.CutImage
import Watcher.Spec.RowData

/-!
# Messages that are cut short

A row message of which only the first `n` bytes arrive. What its event says of the
images that the cut leaves alone is true, so the event makes nothing up exactly
when the cut is harmless to every image of the message (`cut_honest_iff`).

An UPDATE has one or two images, and its data could be taken apart in several
ways. No way makes the data honest if one image is not: the data is too long for
that, or starts or ends differently.
-/

namespace Postgres

open Cdc Jsonutil List Option

/-! ## What a cut message carries -/

/-- The image that ends an INSERT or an UPDATE. -/
def newImage (old : Option (ImageKind × List TupleValue)) (new : List TupleValue) : Image :=
  match old with
  | none => ⟨.full, new, 6⟩
  | some (_, t) => ⟨.full, new, 7 + (encodeTuple t).length⟩

/-- The row images of a message, after its type, the relation and the tag of the image. -/
def Message.images : Message → List Image
  | .insert _ new => [newImage none new]
  | .update _ none new => [newImage none new]
  | .update _ (some (kind, t)) new => [⟨kind, t, 6⟩, newImage (some (kind, t)) new]
  | .delete _ kind old => [⟨kind, old, 6⟩]
  | _ => []

/-- The data of an UPDATE event. -/
def updateText (old new : Option GoString) : GoString :=
  Json.object (old.toList.map (Prod.mk (ascii "old")) ++ new.toList.map (Prod.mk (ascii "new")))

/-- Every member of every row image in the data of the event is a column whose value the first `n`
    bytes of the message contain. -/
def Message.Honest (rel : RelationDesc) (n : Nat) (data : GoString) : Message → Prop
  | .insert _ new => (newImage none new).Honest rel n data
  | .update _ old new => ∃ oldText newText : Option GoString,
      (∀ text ∈ oldText, ∃ kind t, old = some (kind, t) ∧
        (Image.mk kind t 6).Honest rel n text) ∧
      (∀ text ∈ newText, (newImage old new).Honest rel n text) ∧
      data = updateText oldText newText
  | .delete _ kind old => (Image.mk kind old 6).Honest rel n data
  | _ => False

/-- INSERT, UPDATE and DELETE events. -/
def isRowEvent : EventType → Bool
  | .insert | .update | .delete => true
  | _ => false

/-! ## The data of an UPDATE -/

theorem updateText_eq (old new : Option GoString) : updateText old new =
    [0x7b] ++ (old.elim [] fun text => ascii "\"old\":" ++ text) ++
      (new.elim [] fun text =>
        (if old.isSome then ascii ", " else []) ++ ascii "\"new\":" ++ text) ++ [0x7d] := by
  cases old <;> cases new <;>
    simp [updateText, Json.object, Json.members, Json.member, ascii, Char.toUInt8]

theorem length_updateText_none : (updateText none none).length = 2 := rfl

/-- With an old image. -/
theorem length_updateText_old (o : GoString) :
    (updateText (some o) none).length = o.length + 8 := by
  have hold : (ascii "\"old\":").length = 6 := rfl
  rw [updateText_eq]
  simp only [elim_none, elim_some, length_append, length_cons, length_nil, hold]
  omega

theorem length_updateText_new (w : GoString) :
    (updateText none (some w)).length = w.length + 8 := by
  have hnew : (ascii "\"new\":").length = 6 := rfl
  rw [updateText_eq]
  simp only [elim_none, elim_some, isSome_none, Bool.false_eq_true, ↓reduceIte,
    length_append, length_cons, length_nil, hnew]
  omega

/-- With both. -/
theorem length_updateText_both (o w : GoString) :
    (updateText (some o) (some w)).length = o.length + w.length + 16 := by
  have hold : (ascii "\"old\":").length = 6 := rfl
  have hnew : (ascii "\"new\":").length = 6 := rfl
  have hsep : (ascii ", ").length = 2 := rfl
  rw [updateText_eq]
  simp only [elim_some, isSome_some, ↓reduceIte, length_append, length_cons,
    length_nil, hold, hnew, hsep]
  omega

/-- A new image that comes first. -/
theorem imagesText_new (rel : RelationInfo) (pre rest : List UInt8) :
    imagesText (Reader.cursor pre (0x4e :: rest)) rel = updateText none
      (some (parseTupleData (Reader.cursor (pre ++ [0x4e]) rest) rel false).1) := by
  simp only [imagesText, parseOldImage_none, parseNewImage_cursor]
  rw [updateText_eq]
  rfl

/-- An old image and what is read as a new one behind it. -/
theorem imagesText_old {rel : RelationInfo} {kind : ImageKind} {pre rest text : List UInt8}
    {r : Reader} (new : Option GoString)
    (hold : parseTupleData (Reader.cursor (pre ++ [kind.encode]) rest) rel (kind = .key) =
      (text, r))
    (hnew : Parser.parseNewImage r rel (ascii "\"old\":" ++ text) =
      new.elim [] fun w => ascii ", " ++ ascii "\"new\":" ++ w) :
    imagesText (Reader.cursor pre (kind.encode :: rest)) rel = updateText (some text) new := by
  simp only [imagesText, parseOldImage_cursor, hold, hnew]
  rw [updateText_eq]
  rfl

/-- The first image tells whether there is an old one. -/
theorem updateText_new_ne_old (w o : GoString) (new : Option GoString) :
    updateText none (some w) ≠ updateText (some o) new := by
  have hold : ascii "\"old\":" = 0x22 :: 0x6f :: ascii "ld\":" := rfl
  have hnew : ascii "\"new\":" = 0x22 :: 0x6e :: ascii "ew\":" := rfl
  rw [updateText_eq, updateText_eq, elim_none, elim_some, elim_some, hold,
    hnew]
  intro h
  simp at h

theorem updateText_new_inj {w w' : GoString}
    (h : updateText none (some w) = updateText none (some w')) : w = w' := by
  rw [updateText_eq, updateText_eq] at h
  simpa using h

theorem updateText_old_inj {o o' : GoString}
    (h : updateText (some o) none = updateText (some o') none) : o = o' := by
  rw [updateText_eq, updateText_eq] at h
  simpa using h

/-- Two images end in a brace where the last value of one image does not. -/
theorem updateText_old_ne {o : GoString} {ms ms' : List (GoString × GoString)} (hne : ms' ≠ [])
    (hlast : ∀ m ∈ ms', m.2.getLast? ≠ some 0x7b) :
    updateText (some o) (some (Json.object [])) ≠
      updateText (some (Json.object (ms ++ ms'))) none := by
  intro h
  rw [updateText_eq, updateText_eq] at h
  -- without the two braces that close both sides
  have hbody : ([0x7b] ++ ascii "\"old\":" ++ o ++ ascii ", " ++ ascii "\"new\":" ++ [0x7b]) ++
        [0x7d, 0x7d] =
      ([0x7b] ++ ascii "\"old\":" ++ [0x7b] ++ Json.members (ms ++ ms')) ++ [0x7d, 0x7d] := by
    simpa [Json.object, Json.members] using h
  have hlast' := congrArg List.getLast? (append_cancel_right hbody)
  obtain ⟨xs, m, rfl⟩ : ∃ xs m, ms' = xs ++ [m] :=
    ⟨ms'.dropLast, ms'.getLast hne, (dropLast_concat_getLast hne).symm⟩
  rw [← append_assoc, getLast?_concat, getLast?_append, Json.getLast?_members]
    at hlast'
  have hm := hlast m (mem_append_right _ mem_cons_self)
  cases hvalue : m.2.getLast? with
  | none =>
    rw [hvalue] at hlast'
    exact absurd hlast' (by simp)
  | some b =>
    rw [hvalue] at hlast' hm
    rw [some_or, some_or] at hlast'
    exact hm hlast'.symm

section Update

variable {rel : RelationDesc} {n : Nat}

/-- An UPDATE without an old image. -/
theorem honest_new_iff (id : UInt32) (new : List TupleValue) (text : GoString) :
    (Message.update id none new).Honest rel n (updateText none (some text)) ↔
      (newImage none new).Honest rel n text := by
  constructor
  · intro h
    obtain ⟨oldText, newText, hold, hnew, heq⟩ := h
    cases oldText with
    | some o =>
      obtain ⟨kind, t, hnone, _⟩ := hold o rfl
      exact nomatch hnone
    | none =>
      cases newText with
      | none =>
        have hlength := congrArg List.length heq
        rw [length_updateText_none, length_updateText_new] at hlength
        omega
      | some w =>
        rw [updateText_new_inj heq]
        exact hnew w rfl
  · intro h
    refine ⟨none, some text, fun _ hmem => (nomatch hmem), fun text' hmem => ?_, rfl⟩
    cases hmem
    exact h

variable {kind : ImageKind} {t new : List TupleValue} {ms : List (GoString × GoString)}

/-- An UPDATE that ends in its old image. -/
theorem honest_old_iff (id : UInt32)
    (hinv : Invents kind (rel.columns.drop ((Image.mk kind t 6).carried n).length) ms)
    (hn : 8 ≤ n) (hcut : n < 6 + (encodeTuple t).length) :
    (Message.update id (some (kind, t)) new).Honest rel n
        (updateText (some (Json.object
          (imageMembers kind rel.columns ((Image.mk kind t 6).carried n) ++ ms))) none) ↔
      (Image.mk kind t 6).Harmless rel n := by
  have himage : (Image.mk kind t 6).Honest rel n _ ↔ (Image.mk kind t 6).Harmless rel n :=
    Image.honest_append_iff hinv hn
  constructor
  · intro h
    by_contra hharmful
    have hne : ms ≠ [] := fun hnil => hharmful (.inr (hinv.nil_iff.mp hnil))
    -- the ways to take the data apart
    obtain ⟨oldText, newText, hold, hnew, heq⟩ := h
    cases oldText with
    | none =>
      cases newText with
      | none =>
        have hlength := congrArg List.length heq
        rw [length_updateText_none, length_updateText_old] at hlength
        omega
      | some w => exact updateText_new_ne_old _ _ _ heq.symm
    | some o =>
      cases newText with
      | none =>
        obtain ⟨kind', t', hsome, ho⟩ := hold o rfl
        cases hsome
        rw [← updateText_old_inj heq] at ho
        exact hharmful (himage.mp ho)
      | some w =>
        -- the new image can only be empty
        have hw : w = Json.object [] := (hnew w rfl).eq_nil (show n ≤ 7 + _ + 2 by omega)
        rw [hw] at heq
        exact updateText_old_ne hne hinv.last heq.symm
  · intro h
    refine ⟨_, none, fun text hmem => ?_, fun _ hmem => (nomatch hmem), rfl⟩
    cases hmem
    exact ⟨kind, t, rfl, himage.mpr h⟩

/-- An UPDATE that ends in its new image. -/
theorem honest_both_iff (id : UInt32)
    (hold : (Image.mk kind t 6).carried n = t) {text : GoString}
    (himage : (newImage (some (kind, t)) new).Honest rel n text ↔
      (newImage (some (kind, t)) new).Harmless rel n)
    (hlength : ¬(newImage (some (kind, t)) new).Harmless rel n →
      (Json.object (imageMembers .full rel.columns
        ((newImage (some (kind, t)) new).carried n))).length < text.length) :
    (Message.update id (some (kind, t)) new).Honest rel n
        (updateText (some (rel.image kind t)) (some text)) ↔
      (newImage (some (kind, t)) new).Harmless rel n := by
  constructor
  · intro h
    by_contra hharmful
    have hlt := hlength hharmful
    obtain ⟨oldText, newText, hOld, hNew, heq⟩ := h
    -- every text an honest event may have is shorter
    have hsize := congrArg List.length heq
    have holdLe : ∀ o ∈ oldText, o.length ≤ (rel.image kind t).length := by
      intro o ho
      obtain ⟨kind', t', hsome, ho⟩ := hOld o ho
      cases hsome
      have hle := ho.length_le
      rw [hold] at hle
      exact hle
    have hnewLe : ∀ w ∈ newText, w.length < text.length :=
      fun w hw => Nat.lt_of_le_of_lt (hNew w hw).length_le hlt
    cases oldText with
    | none =>
      cases newText with
      | none =>
        rw [length_updateText_none, length_updateText_both] at hsize
        omega
      | some w => exact updateText_new_ne_old _ _ _ heq.symm
    | some o =>
      have ho := holdLe o rfl
      cases newText with
      | none =>
        rw [length_updateText_old, length_updateText_both] at hsize
        omega
      | some w =>
        have hw := hnewLe w rfl
        rw [length_updateText_both, length_updateText_both] at hsize
        omega
  · intro h
    refine ⟨some (rel.image kind t), some text, fun o hmem => ?_, fun w hmem => ?_, rfl⟩
    · cases hmem
      refine ⟨kind, t, rfl, imageMembers kind rel.columns t, ?_, rfl⟩
      rw [hold]
    · cases hmem
      exact himage.mpr h

end Update

/-! ## Messages that end before their images -/

/-- Nothing is left, or a read went past the end. -/
def Reader.Exhausted (r : Reader) : Prop := r.err = true ∨ r.remaining = 0

theorem Reader.exhausted_nil (pre : List UInt8) : (Reader.cursor pre []).Exhausted :=
  .inr (Reader.remaining_cursor pre [])

/-- The next byte is read as zero. -/
theorem Reader.readByte_exhausted {r : Reader} (h : r.Exhausted) :
    ∃ r', r.readByte = (0, r') ∧ r'.err = true := by
  cases h with
  | inl h => exact ⟨r, readByte_spoiled h, h⟩
  | inr h =>
    have hread : ¬r.canRead 1 = true := by
      rw [remaining] at h
      simp only [canRead, Bool.and_eq_true, decide_eq_true_eq, not_and]
      omega
    refine ⟨{ r with err := true }, ?_, rfl⟩
    simp only [readByte, readBytes, if_neg hread, headD_nil]

/-- The relation, when the message ends in it or right after it. -/
theorem Reader.readUint32_early (pre : List UInt8) (id : UInt32) (body : List UInt8) {k : Nat}
    (hk : k ≤ 4) : ∃ x r, (Reader.cursor pre ((beBytes 4 id.toNat ++ body).take k)).readUint32 =
      (x, r) ∧ r.Exhausted := by
  by_cases hlt : k < 4
  · have hshort : ((beBytes 4 id.toNat ++ body).take k).length < 4 := by
      rw [length_take]
      omega
    exact ⟨_, _, readUint_short pre _ hshort, .inl rfl⟩
  · have htake : (beBytes 4 id.toNat ++ body).take k = beBytes 4 id.toNat ++ [] := by
      have hfour : k = (beBytes 4 id.toNat).length := by rw [length_beBytes]; omega
      rw [hfour, take_left, append_nil]
    rw [htake]
    exact ⟨_, _, readUint32_cursor pre [] id, exhausted_nil _⟩

section Early

variable {p : Parser} {r r₁ : Reader} {x : Nat} (hread : r.readUint32 = (x, r₁))
  (h : r₁.Exhausted) {lsn : GoString} {e : Event}
include hread h

/-- An INSERT without an image has no columns. -/
theorem parseInsert_early (he : (p.parseInsert r lsn).event = some e) :
    e.data = Json.object [] := by
  obtain ⟨r₂, hbyte, herr⟩ := Reader.readByte_exhausted h
  simp only [Parser.parseInsert, hread, hbyte, parseTupleData_spoiled herr] at he
  split at he
  · cases he
  · split at he
    · cases he
      rfl
    · split at he
      · cases he
      · cases he
        rfl

/-- And neither has a DELETE. -/
theorem parseDelete_early (he : (p.parseDelete r lsn).event = some e) :
    e.data = Json.object [] := by
  obtain ⟨r₂, hbyte, herr⟩ := Reader.readByte_exhausted h
  simp only [Parser.parseDelete, hread, hbyte, parseTupleData_spoiled herr] at he
  split at he
  · cases he
  · split at he
    · cases he
    · split at he
      · cases he
        rfl
      · cases he
        rfl

omit hread in
theorem parseNewImage_exhausted (rel : RelationInfo) (written : GoString) :
    Parser.parseNewImage r₁ rel written = [] := by
  obtain ⟨r₂, hbyte, _⟩ := Reader.readByte_exhausted h
  simp only [Parser.parseNewImage, hbyte]
  split
  · exact if_neg (by decide)
  · rfl

omit hread in
/-- Nor one of an old image. -/
theorem parseOldImage_exhausted (rel : RelationInfo) :
    ∃ r₂, Parser.parseOldImage r₁ rel = ([], r₂) ∧ r₂.Exhausted := by
  obtain ⟨r₂, hbyte, herr⟩ := Reader.readByte_exhausted h
  simp only [Parser.parseOldImage, hbyte]
  split
  · exact ⟨_, if_neg (by decide), .inl herr⟩
  · exact ⟨r₁, rfl, h⟩

/-- An UPDATE without images has no members. -/
theorem parseUpdate_early (he : (p.parseUpdate r lsn).event = some e) :
    e.data = Json.object [] := by
  simp only [Parser.parseUpdate, hread] at he
  split at he
  · cases he
  · next rel _ =>
    obtain ⟨r₂, hold, hex⟩ := parseOldImage_exhausted h rel
    simp only [hold, parseNewImage_exhausted hex] at he
    split at he
    · cases he
    · cases he
      rfl

omit hread h in
/-- A byte that is left after an image without columns is taken for the tag of the new image. -/
theorem parseNewImage_short (rel : RelationInfo) (pre : List UInt8) {rest written : List UInt8}
    (hrest : rest.length < 2) (hwritten : written ≠ []) :
    ∃ new : Option GoString, (∀ text ∈ new, text = Json.object []) ∧
      Parser.parseNewImage (Reader.cursor pre rest) rel written =
        new.elim [] fun text => ascii ", " ++ ascii "\"new\":" ++ text := by
  match rest with
  | [] =>
    exact ⟨none, fun _ hmem => (nomatch hmem),
      parseNewImage_exhausted (Reader.exhausted_nil pre) rel written⟩
  | [b] =>
    by_cases hb : b = 0x4e
    · have hrem : (Reader.cursor (pre ++ [0x4e]) []).remaining < 2 := by simp
      refine ⟨some (Json.object []), fun text hmem => (some.inj hmem).symm, ?_⟩
      rw [hb, parseNewImage_cursor, if_pos hwritten, parseTupleData_short hrem]
      rfl
    · refine ⟨none, fun _ hmem => (nomatch hmem), ?_⟩
      simp only [Parser.parseNewImage, Reader.readByte_cursor, hb, ↓reduceIte, ite_self,
        elim_none]
  | _ :: _ :: _ => exact absurd hrest (by simp)

end Early

/-! ## Row messages -/

/-- The message is read as a DDL statement, not as a row. -/
def Message.isDDL (p : Parser) (rel : RelationDesc) : Message → Bool
  | .insert _ _ => p.captureDDL && decide (rel.name = ddlLogTable)
  | _ => false

/-- What makes the first `n` bytes of a message harmless. -/
def Message.Harmless (p : Parser) (rel : RelationDesc) (n : Nat) (m : Message) : Prop :=
  m.isDDL p rel = true ∨ ∀ image ∈ m.images, image.Harmless rel n

section Cut

variable {p : Parser} {rel : RelationDesc} {n : Nat}

theorem Message.harmless_of_lt (m : Message) (hn : n < 8) : m.Harmless p rel n := by
  refine .inr fun image himage => .inl ?_
  have hstart : 6 ≤ image.start := by
    unfold Message.images at himage
    split at himage
    · rw [mem_singleton.mp himage]
      exact Nat.le_refl 6
    · rw [mem_singleton.mp himage]
      exact Nat.le_refl 6
    · simp only [mem_cons, not_mem_nil, or_false] at himage
      cases himage with
      | inl h => exact h ▸ Nat.le_refl 6
      | inr h =>
        rw [h]
        show 6 ≤ 7 + _
        omega
    · rw [mem_singleton.mp himage]
    · exact absurd himage not_mem_nil
  omega

theorem Message.harmless_iff {m : Message} (h : m.isDDL p rel = false) :
    m.Harmless p rel n ↔ ∀ image ∈ m.images, image.Harmless rel n := by
  rw [Message.Harmless, h]
  exact or_iff_right Bool.false_ne_true

theorem Message.honest_nil {m : Message} {id : UInt32} (hm : m.rowRelation = some id) :
    m.Honest rel n (Json.object []) := by
  cases m with
  | insert id' new => exact Image.honest_nil rel n _
  | update id' old new =>
    refine ⟨none, none, ?_, ?_, rfl⟩
    · exact fun _ h => nomatch h
    · exact fun _ h => nomatch h
  | delete id' kind old => exact Image.honest_nil rel n _
  | _ => exact nomatch hm

/-- Row messages start with their type and their relation. -/
theorem Message.encode_row {m : Message} {id : UInt32} (hm : m.rowRelation = some id) :
    ∃ tag body, m.encode = tag :: (beBytes 4 id.toNat ++ body) ∧
      (tag = 0x49 ∨ tag = 0x55 ∨ tag = 0x44) := by
  cases m with
  | insert id' new =>
    cases hm
    exact ⟨_, _, rfl, .inl rfl⟩
  | update id' old new =>
    cases hm
    cases old with
    | none => exact ⟨_, _, rfl, .inr (.inl rfl)⟩
    | some image => exact ⟨_, _, rfl, .inr (.inl rfl)⟩
  | delete id' kind old =>
    cases hm
    exact ⟨_, _, rfl, .inr (.inr rfl)⟩
  | _ => exact nomatch hm

/-- A message that ends before its first image. -/
theorem parse_early {m : Message} {id : UInt32} (hm : m.rowRelation = some id) (hn : n < 6)
    {lsn : GoString} {e : Event} (he : (p.parse (m.encode.take n) lsn).event = some e) :
    e.data = Json.object [] := by
  obtain ⟨tag, body, henc, htag⟩ := Message.encode_row hm
  rw [henc] at he
  cases n with
  | zero => exact nomatch he
  | succ k =>
    rw [take_succ_cons] at he
    obtain ⟨x, r, hread, hex⟩ := Reader.readUint32_early [tag] id body (show k ≤ 4 by omega)
    rcases htag with rfl | rfl | rfl
    · exact parseInsert_early hread hex he
    · exact parseUpdate_early hread hex he
    · exact parseDelete_early hread hex he

/-- What the event of a cut message has to satisfy. -/
def RowsHonest (p : Parser) (rel : RelationDesc) (n : Nat) (lsn : GoString) (m : Message) : Prop :=
  ∀ e, (p.parse (m.encode.take n) lsn).event = some e → isRowEvent e.type = true →
    m.Honest rel n e.data

/-- There is one event. -/
theorem rowsHonest_iff {m : Message} {lsn : GoString} {e : Event}
    (he : (p.parse (m.encode.take n) lsn).event = some e) (hrow : isRowEvent e.type = true) :
    RowsHonest p rel n lsn m ↔ m.Honest rel n e.data := by
  constructor
  · exact fun h => h e he hrow
  · intro h e' he' _
    rw [he] at he'
    exact some.inj he' ▸ h

theorem take_row (tag : UInt8) (id : UInt32) (marker : UInt8) (tail : List UInt8) (j : Nat) :
    (tag :: (beBytes 4 id.toNat ++ marker :: tail)).take (j + 6) =
      tag :: (beBytes 4 id.toNat ++ marker :: tail.take j) := by
  rw [take_succ_cons, take_append, length_beBytes,
    take_of_length_le (by rw [length_beBytes]; omega)]
  rfl

variable {id : UInt32} (hrel : p.relationMap id.toNat = some rel.info)
  (hpass : p.passesFilter rel.name = true) {lsn : GoString}
include hrel hpass

/-- An INSERT that is cut in its image. -/
theorem insert_cut {new : List TupleValue} (hlen : new.length = rel.columns.length) {j : Nat}
    (hj : j < (encodeTuple new).length) : RowsHonest p rel (j + 6) lsn (.insert id new) ↔
      (Message.insert id new).Harmless p rel (j + 6) := by
  have himage : (newImage none new).Honest rel (j + 6) (parseTupleData (Reader.cursor
      ([0x49] ++ beBytes 4 id.toNat ++ [0x4e]) ((encodeTuple new).take j)) rel.info false).1 ↔
      (newImage none new).Harmless rel (j + 6) :=
    Image.honest_parse_iff hlen hj _
  have hparse : p.parse ((Message.insert id new).encode.take (j + 6)) lsn =
      p.parseInsert (Reader.cursor [0x49]
        (beBytes 4 id.toNat ++ 0x4e :: (encodeTuple new).take j)) lsn := by
    rw [Message.encode, take_row]
    rfl
  have hinsert := hparse
  rw [Parser.parseInsert, Reader.readUint32_cursor] at hinsert
  dsimp only at hinsert
  rw [hrel] at hinsert
  simp only [Reader.readByte_cursor] at hinsert
  cases hddl : (p.captureDDL && decide (rel.info.name = ddlLogTable)) with
  | true =>
    -- a DDL event is no row event
    refine iff_of_true (fun e he hrow => ?_) (.inl hddl)
    rw [hinsert, hddl, if_pos rfl] at he
    cases he
    cases hrow
  | false =>
    rw [hddl, if_neg (by decide), show p.passesFilter rel.info.name = true from hpass,
      if_neg (by decide)] at hinsert
    have hrow : (Message.insert id new).isDDL p rel = false := hddl
    rw [rowsHonest_iff (by rw [hinsert]) rfl, Message.harmless_iff hrow]
    exact himage.trans forall_mem_singleton.symm

/-- A DELETE that is cut in its image. -/
theorem delete_cut {kind : ImageKind} {old : List TupleValue}
    (hlen : old.length = rel.columns.length) {j : Nat} (hj : j < (encodeTuple old).length) :
    RowsHonest p rel (j + 6) lsn (.delete id kind old) ↔
      (Message.delete id kind old).Harmless p rel (j + 6) := by
  have himage : (Image.mk kind old 6).Honest rel (j + 6) (parseTupleData (Reader.cursor
      ([0x44] ++ beBytes 4 id.toNat ++ [kind.encode]) ((encodeTuple old).take j)) rel.info
        (kind = .key)).1 ↔ (Image.mk kind old 6).Harmless rel (j + 6) :=
    Image.honest_parse_iff hlen hj _
  have hdelete : p.parse ((Message.delete id kind old).encode.take (j + 6)) lsn =
      p.parseDelete (Reader.cursor [0x44]
        (beBytes 4 id.toNat ++ kind.encode :: (encodeTuple old).take j)) lsn := by
    rw [Message.encode, take_row]
    rfl
  have hpos : 0 < (Reader.cursor ([0x44] ++ beBytes 4 id.toNat)
      (kind.encode :: (encodeTuple old).take j)).remaining := by simp
  rw [Parser.parseDelete, Reader.readUint32_cursor] at hdelete
  dsimp only at hdelete
  rw [hrel] at hdelete
  simp only [Reader.readByte_cursor, if_pos hpos, (encode_isImage kind).2] at hdelete
  rw [show p.passesFilter rel.info.name = true from hpass, if_neg (by decide)] at hdelete
  rw [rowsHonest_iff (by rw [hdelete]) rfl, Message.harmless_iff rfl]
  exact himage.trans forall_mem_singleton.symm

/-- The data of the event of a cut UPDATE. -/
theorem rowsHonest_update_iff {old : Option (ImageKind × List TupleValue)} {new : List TupleValue}
    {first : UInt8} {tail : List UInt8} {j : Nat}
    (henc : (Message.update id old new).encode = 0x55 :: (beBytes 4 id.toNat ++ first :: tail)) :
    RowsHonest p rel (j + 6) lsn (.update id old new) ↔
      (Message.update id old new).Honest rel (j + 6)
        (imagesText (Reader.cursor ([0x55] ++ beBytes 4 id.toNat) (first :: tail.take j))
          rel.info) := by
  have hupdate : p.parse ((Message.update id old new).encode.take (j + 6)) lsn =
      p.parseUpdate (Reader.cursor [0x55]
        (beBytes 4 id.toNat ++ first :: tail.take j)) lsn := by
    rw [henc, take_row]
    rfl
  rw [parseUpdate_eq (Reader.readUint32_cursor _ _ id) hrel,
    show p.passesFilter rel.info.name = true from hpass, if_pos rfl] at hupdate
  rw [rowsHonest_iff (by rw [hupdate]) rfl]
  rfl

theorem update_cut_new {new : List TupleValue} (hlen : new.length = rel.columns.length) {j : Nat}
    (hj : j < (encodeTuple new).length) : RowsHonest p rel (j + 6) lsn (.update id none new) ↔
      (Message.update id none new).Harmless p rel (j + 6) := by
  rw [rowsHonest_update_iff hrel hpass rfl, imagesText_new, honest_new_iff,
    Message.harmless_iff rfl]
  have himage : (newImage none new).Honest rel (j + 6) (parseTupleData (Reader.cursor
      ([0x55] ++ beBytes 4 id.toNat ++ [0x4e]) ((encodeTuple new).take j)) rel.info false).1 ↔
      (newImage none new).Harmless rel (j + 6) :=
    Image.honest_parse_iff hlen hj _
  exact himage.trans forall_mem_singleton.symm

section Old

variable {kind : ImageKind} {t new : List TupleValue} (hold : t.length = rel.columns.length)
  {j : Nat}
include hold

/-- The cut falls in the old image. -/
theorem update_cut_old (hj : j < (encodeTuple t).length) :
    RowsHonest p rel (j + 6) lsn (.update id (some (kind, t)) new) ↔
      (Message.update id (some (kind, t)) new).Harmless p rel (j + 6) := by
  let pre := [0x55] ++ beBytes 4 id.toNat ++ [kind.encode]
  have htake : (encodeTuple t ++ 0x4e :: encodeTuple new).take j = (encodeTuple t).take j :=
    take_append_of_le_length (Nat.le_of_lt hj)
  rw [rowsHonest_update_iff hrel hpass rfl, htake]
  by_cases htwo : j < 2
  · -- no column of it has started
    have hshort : ((encodeTuple t).take j).length < 2 := by
      rw [length_take]
      omega
    have hrem : (Reader.cursor pre ((encodeTuple t).take j)).remaining < 2 := by
      rw [Reader.remaining_cursor]
      exact hshort
    have hwritten : ascii "\"old\":" ++ Json.object [] ≠ [] := cons_ne_nil _ _
    obtain ⟨newText, hnew, hparse⟩ := parseNewImage_short rel.info pre hshort hwritten
    rw [imagesText_old newText (parseTupleData_short hrem _ _) hparse]
    refine iff_of_true ⟨some (Json.object []), newText, fun o hmem => ?_, fun w hmem => ?_, rfl⟩
      (Message.harmless_of_lt _ (by omega))
    · cases hmem
      exact ⟨kind, t, rfl, Image.honest_nil rel _ _⟩
    · rw [hnew w hmem]
      exact Image.honest_nil rel _ _
  · obtain ⟨ms, r, hparse, herr, hinv⟩ :=
      parseTupleData_cut kind pre hold (Nat.le_of_not_lt htwo) hj
    rw [imagesText_old none hparse (parseNewImage_exhausted (.inl herr) _ _),
      Message.harmless_iff rfl]
    have hcarried : wholeValues (j - 2) t = (Image.mk kind t 6).carried (j + 6) := by
      rw [Image.carried, show j + 6 - (6 + 2) = j - 2 by omega]
    rw [hcarried] at hinv ⊢
    rw [honest_old_iff id hinv (by omega) (by omega)]
    -- the new image has not started
    have hnew : (newImage (some (kind, t)) new).Harmless rel (j + 6) :=
      .inl (show j + 6 < 7 + _ + 2 by omega)
    exact ⟨fun h => forall_mem_cons.mpr ⟨h, forall_mem_singleton.mpr hnew⟩,
      fun h => (forall_mem_cons.mp h).1⟩

omit hrel hpass hold in
/-- The whole old image is there. -/
theorem carried_old (hle : (encodeTuple t).length ≤ j) :
    (Image.mk kind t 6).carried (j + 6) = t := by
  apply wholeValues_of_le
  show (t.flatMap TupleValue.encode).length ≤ j + 6 - (6 + 2)
  rw [encodeTuple, length_append, length_beBytes] at hle
  omega

omit hrel hpass in
theorem harmless_both_iff (hle : (encodeTuple t).length ≤ j) :
    (Message.update id (some (kind, t)) new).Harmless p rel (j + 6) ↔
      (newImage (some (kind, t)) new).Harmless rel (j + 6) := by
  have hharmless : (Image.mk kind t 6).Harmless rel (j + 6) := by
    refine .inr fun c hc => ?_
    rw [carried_old hle, hold, drop_length] at hc
    exact absurd hc not_mem_nil
  rw [Message.harmless_iff rfl]
  constructor
  · exact fun h => h _ (mem_cons_of_mem _ mem_cons_self)
  · exact fun h => forall_mem_cons.mpr ⟨hharmless, forall_mem_singleton.mpr h⟩

/-- The cut falls right behind the old image. -/
theorem update_cut_between (hj : j = (encodeTuple t).length) :
    RowsHonest p rel (j + 6) lsn (.update id (some (kind, t)) new) ↔
      (Message.update id (some (kind, t)) new).Harmless p rel (j + 6) := by
  have htake : (encodeTuple t ++ 0x4e :: encodeTuple new).take j = encodeTuple t ++ [] := by
    rw [hj, take_left, append_nil]
  have hle := Nat.le_of_eq hj.symm
  rw [rowsHonest_update_iff hrel hpass rfl, htake, harmless_both_iff hold hle,
    imagesText_old none (parseTupleData_cursor rel kind t _ [] hold)
      (parseNewImage_exhausted (Reader.exhausted_nil _) _ _)]
  refine iff_of_true ⟨some (rel.image kind t), none, fun o hmem => ?_,
    fun _ hmem => (nomatch hmem), rfl⟩ (.inl (show j + 6 < 7 + _ + 2 by omega))
  cases hmem
  refine ⟨kind, t, rfl, imageMembers kind rel.columns t, ?_, rfl⟩
  rw [carried_old hle]

/-- The cut falls in the new image. -/
theorem update_cut_both (hnew : new.length = rel.columns.length) {i : Nat}
    (hj : j = (encodeTuple t).length + (i + 1)) (hi : i < (encodeTuple new).length) :
    RowsHonest p rel (j + 6) lsn (.update id (some (kind, t)) new) ↔
      (Message.update id (some (kind, t)) new).Harmless p rel (j + 6) := by
  let pre := [0x55] ++ beBytes 4 id.toNat ++ [kind.encode]
  have htake : (encodeTuple t ++ 0x4e :: encodeTuple new).take j =
      encodeTuple t ++ 0x4e :: (encodeTuple new).take i := by
    rw [hj, take_length_add_append, take_succ_cons]
  have hle : (encodeTuple t).length ≤ j := by omega
  have hwritten : ascii "\"old\":" ++ rel.image kind t ≠ [] := cons_ne_nil _ _
  have hparse := parseNewImage_cursor rel.info (pre ++ encodeTuple t) ((encodeTuple new).take i)
    (ascii "\"old\":" ++ rel.image kind t)
  rw [if_pos hwritten] at hparse
  rw [rowsHonest_update_iff hrel hpass rfl, htake, harmless_both_iff hold hle,
    imagesText_old (some _) (parseTupleData_cursor rel kind t pre _ hold) hparse]
  have hstart : j + 6 - (newImage (some (kind, t)) new).start = i := by
    show j + 6 - (7 + (encodeTuple t).length) = i
    omega
  have hcut : j + 6 - (newImage (some (kind, t)) new).start < (encodeTuple new).length := by
    rw [hstart]
    exact hi
  have himage := Image.honest_parse_iff hnew hcut (pre ++ encodeTuple t ++ [0x4e])
  have hlength := Image.length_lt_of_not_harmless hnew hcut (pre ++ encodeTuple t ++ [0x4e])
  rw [hstart] at himage hlength
  exact honest_both_iff id (carried_old hle) himage hlength

end Old

end Cut

/-- A row message of which a strict part arrives: every member of every row image of its event is a
    column whose value arrived exactly when the cut is harmless. -/
theorem cut_honest_iff (p : Parser) (rel : RelationDesc) (m : Message) (id : UInt32) (n : Nat)
    (lsn : GoString) (hm : m.rowRelation = some id)
    (hrel : p.relationMap id.toNat = some rel.info) (hpass : p.passesFilter rel.name = true)
    (hfit : m.FitsCatalog fun _ => some rel) (hcut : n < m.encode.length) :
    (∀ e, (p.parse (m.encode.take n) lsn).event = some e → isRowEvent e.type = true →
      m.Honest rel n e.data) ↔ m.Harmless p rel n := by
  -- six bytes go before the first image
  by_cases hn : n < 6
  · refine iff_of_true (fun e he _ => ?_) (m.harmless_of_lt (by omega))
    rw [parse_early hm hn he]
    exact Message.honest_nil hm
  · obtain ⟨j, rfl⟩ : ∃ j, n = j + 6 := ⟨n - 6, by omega⟩
    have hlength : ∀ (tag marker : UInt8) (tail : List UInt8),
        (tag :: (beBytes 4 id.toNat ++ marker :: tail)).length = tail.length + 6 := by
      intro tag marker tail
      simp only [length_cons, length_append, length_beBytes]
      omega
    cases m with
    | insert id' new =>
      cases hm
      rw [Message.encode, hlength] at hcut
      exact insert_cut hrel hpass (hfit rel rfl) (by omega)
    | update id' old new =>
      cases hm
      obtain ⟨hnew, hold⟩ := hfit rel rfl
      cases old with
      | none =>
        rw [Message.encode, hlength] at hcut
        exact update_cut_new hrel hpass hnew (by omega)
      | some image =>
        obtain ⟨kind, t⟩ := image
        rw [Message.encode, hlength] at hcut
        rw [length_append, length_cons] at hcut
        -- in the old image, right behind it, or in the new one
        rcases Nat.lt_trichotomy j (encodeTuple t).length with hj | hj | hj
        · exact update_cut_old hrel hpass (hold kind t rfl) hj
        · exact update_cut_between hrel hpass (hold kind t rfl) hj
        · obtain ⟨i, rfl⟩ : ∃ i, j = (encodeTuple t).length + (i + 1) := Nat.exists_eq_add_of_lt hj
          exact update_cut_both hrel hpass (hold kind t rfl) hnew rfl (by omega)
    | delete id' kind old =>
      cases hm
      rw [Message.encode, hlength] at hcut
      exact delete_cut hrel hpass (hfit rel rfl) (by omega)
    | _ => cases hm

/-- A DELETE whose key image ends after the key: the column that is missing is not of the key, and
    is left out as it would be if it were there. -/
theorem cut_honest_after_key :
    let p := parserOf ⟨[], false⟩ [(RelationDesc.sample, [])]
    let m := Message.delete 7 .key [.text (ascii "5") (by decide), .null]
    14 < m.encode.length ∧
    ∃ e, (p.parse (m.encode.take 14) []).event = some e ∧ isRowEvent e.type = true ∧
      e.data = ascii "\x7b\"id\":5\x7d" ∧ m.Honest RelationDesc.sample 14 e.data := by
  intro p m
  have hfit : m.FitsCatalog fun _ => some RelationDesc.sample := by
    intro rel hrel
    cases hrel
    rfl
  have hcut : 14 < m.encode.length := by decide
  have hharmless : m.Harmless p RelationDesc.sample 14 := by
    rw [Message.harmless_iff rfl]
    exact forall_mem_singleton.mpr (.inr (by decide))
  have hhonest :=
    (cut_honest_iff p RelationDesc.sample m 7 14 [] rfl rfl rfl hfit hcut).mpr hharmless
  exact ⟨hcut, _, rfl, rfl, by decide, hhonest _ rfl rfl⟩

/-- An INSERT that ends after the count of its columns: both columns are given a value. -/
theorem cut_columns_invented :
    let p := parserOf ⟨[], false⟩ [(RelationDesc.sample, [])]
    let m := Message.insert 7 [.text (ascii "5") (by decide), .text (ascii "a") (by decide)]
    8 < m.encode.length ∧
    ∃ e, (p.parse (m.encode.take 8) []).event = some e ∧ isRowEvent e.type = true ∧
      e.data = ascii "\x7b\"id\":\"unknown\", \"v\":\"unknown\"\x7d" ∧
      ¬m.Honest RelationDesc.sample 8 e.data := by
  refine ⟨by decide, _, rfl, rfl, by decide, fun h => ?_⟩
  -- nothing of a column has arrived
  have hnil := Image.Honest.eq_nil h (Nat.le_refl 8)
  exact absurd hnil (by decide)

end Postgres
