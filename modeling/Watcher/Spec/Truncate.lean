import Watcher.Json.Render
import Watcher.Model.Truncate

/-!
# Reducing an event to its key: correctness

The data of a truncated event is decoded again by whoever refetches the row, so
what counts is what it decodes to: the decoded row restricted to the key columns,
values unchanged. For an UPDATE this holds of each image on its own.

## Key results

- `keyRow_spec`: a row, decoded, restricted and encoded
- `get?_keyImages`, `keyImage_spec`: the images of an UPDATE
- `truncated_correct`: `Truncated` on any data
-/

namespace Cdc

open List Option

open Json (RawMap Value Holds Denotes marshalText)

/-- `kept` is `row` restricted to the columns of `key`. -/
def Restricts (key : List GoString) (row kept : List (List Nat × Value)) : Prop :=
  ∀ name, Json.lookup kept name = if name ∈ key then Json.lookup row name else none

/-- What is left of the decoded data of an event: of an UPDATE the images that are rows, each
    restricted on its own, of any other event the restricted row. -/
def Reduces (eventType : EventType) (key : List GoString) (row kept : List (List Nat × Value)) :
    Prop :=
  if eventType = .update then
    ∀ name, match if name ∈ images then Json.lookup row name else none with
      | some (.object values) => ∃ keptValues,
          Json.lookup kept name = some (.object keptValues) ∧ Restricts key values keptValues
      | _ => Json.lookup kept name = none
  else Restricts key row kept

/-! ### One row -/

theorem perm_keyColumns (row : RawMap) (key : List GoString) :
    (keyColumns row key).entries.Perm (row.entries.filter fun e => key.contains e.1) :=
  RawMap.entries_ofList_of_nodup ((filter_sublist.map Prod.fst).nodup row.nodup)

variable {row m : RawMap} {d : Nat} {data : GoString}

theorem mem_keyColumns {key : List GoString} {e : GoString × List UInt8} :
    e ∈ (keyColumns row key).entries ↔ e ∈ row.entries ∧ e.1 ∈ key := by
  rw [(perm_keyColumns row key).mem_iff, mem_filter, contains_iff_mem]

/-- What is stored for a column. -/
theorem get?_keyColumns (row : RawMap) (key : List GoString) (name : GoString) :
    (keyColumns row key).get? name = if name ∈ key then row.get? name else none := by
  apply Option.ext
  intro text
  rw [RawMap.get?_eq_some_iff, mem_keyColumns, ← RawMap.get?_eq_some_iff]
  by_cases h : name ∈ key
  · rw [if_pos h]
    exact and_iff_left h
  · rw [if_neg h]
    exact ⟨fun hmem => absurd hmem.2 h, fun hnone => nomatch hnone⟩

theorem holds_keyColumns (h : Holds d row) (key : List GoString) : Holds d (keyColumns row key) :=
  ⟨fun e he => h.names e (mem_keyColumns.mp he).1, fun e he => h.texts e (mem_keyColumns.mp he).1⟩

theorem marshalRow_eq (h : Holds d m) (hd : d ≤ Json.maxNestingDepth) :
    marshalRow m = marshalText m := by
  rw [marshalRow, Json.marshal_eq h hd, getD_some]

/-- The key columns of a row as they are encoded. -/
theorem keyRow_spec (h : Holds d row) (hd : d ≤ Json.maxNestingDepth) (key : List GoString) :
    ∃ kept, Denotes (d + 1) (marshalRow (keyColumns row key)) (.object kept) ∧
      ∀ name, Json.lookup kept name =
        if name ∈ key then (row.get? name).bind Json.read else none := by
  have hkey := holds_keyColumns h key
  rw [marshalRow_eq hkey hd]
  refine ⟨_, Json.denotes_marshalText hkey, fun name => ?_⟩
  rw [Json.lookup_marshalText hkey, get?_keyColumns]
  split <;> rfl

/-- Decoding the key columns and reducing them again changes nothing. -/
theorem keyRow_idem (h : Holds d row) (hd : d < Json.maxNestingDepth) (key : List GoString) :
    ∃ m, Json.unmarshal (marshalRow (keyColumns row key)) = some (some m) ∧
      marshalRow (keyColumns m key) = marshalRow (keyColumns row key) := by
  have hkey := holds_keyColumns h key
  rw [marshalRow_eq hkey (Nat.le_of_lt hd)]
  obtain ⟨m, hread, hperm⟩ := Json.unmarshal_marshalText hd hkey
  refine ⟨m, hread, ?_⟩
  have hmem : ∀ e ∈ m.entries, ∃ e' ∈ (keyColumns row key).entries, (e'.1, Json.compact e'.2) = e :=
    fun e he => mem_map.mp (hperm.mem_iff.mp he)
  -- every name is still a key column
  have hall : (keyColumns m key).entries.Perm m.entries := by
    have hfilter : (m.entries.filter fun e => key.contains e.1) = m.entries := by
      rw [filter_eq_self]
      intro e he
      obtain ⟨e', he', rfl⟩ := hmem e he
      exact contains_iff_mem.mpr (mem_keyColumns.mp he').2
    rw [← hfilter]
    exact perm_keyColumns m key
  have hholds : Holds d m := by
    constructor
    · intro e he
      obtain ⟨e', he', rfl⟩ := hmem e he
      exact hkey.names e' he'
    · intro e he
      obtain ⟨e', he', rfl⟩ := hmem e he
      obtain ⟨v, hv⟩ := hkey.texts e' he'
      exact ⟨v, hv.compact⟩
  rw [marshalRow_eq (holds_keyColumns hholds key) (Nat.le_of_lt hd)]
  exact Json.marshalText_congr hkey (hall.trans hperm)

/-! ### The images of an UPDATE -/

/-- The data of an UPDATE, with both images. -/
theorem renders_images {old new : List UInt8} {x y : Value} (hold : Json.Renders d old x)
    (hnew : Json.Renders d new y) :
    Json.Renders (d + 1) (Json.object [(ascii "old", old), (ascii "new", new)])
      (.object [(Utf8.runes (ascii "old"), x), (Utf8.runes (ascii "new"), y)]) := by
  let both : List (GoString × List UInt8 × Value) := [(ascii "old", old, x), (ascii "new", new, y)]
  have hall : ∀ image ∈ both, Json.StringSafe image.1 ∧
      Json.ReadsAs image.1 (Utf8.runes image.1) ∧ Json.Renders d image.2.1 image.2.2 := by
    intro image himage
    simp only [both, mem_cons, not_mem_nil, or_false] at himage
    cases himage with
    | inl h => exact h ▸ ⟨fun _ => rfl, fun _ => rfl, hold⟩
    | inr h => exact h ▸ ⟨fun _ => rfl, fun _ => rfl, hnew⟩
  exact Json.renders_object both (fun image h => (hall image h).1)
    (fun image h => (hall image h).2.1) fun image h => (hall image h).2.2

theorem valid_images {old new : List UInt8} (hold : Json.Completes [.objectValue] old)
    (hnew : Json.Completes [.objectValue] new) :
    Json.valid (Json.object [(ascii "old", old), (ascii "new", new)]) = true := by
  have hall : ∀ m ∈ [(ascii "old", old), (ascii "new", new)],
      Json.StringSafe m.1 ∧ Json.Completes [.objectValue] m.2 := by
    intro m hm
    simp only [mem_cons, not_mem_nil, or_false] at hm
    cases hm with
    | inl h => exact h ▸ ⟨fun _ => rfl, hold⟩
    | inr h => exact h ▸ ⟨fun _ => rfl, hnew⟩
  rw [Json.valid_object_iff (fun m hm => (hall m hm).1) fun m hm => .inl (hall m hm).2]
  exact fun m hm => (hall m hm).2

/-- What is stored for an image whose text is `text`. -/
def keyImage (text : Option (List UInt8)) (key : List GoString) : Option (List UInt8) :=
  match Json.unmarshal (text.getD []) with
  | some (some values) => some (marshalRow (keyColumns values key))
  | _ => none

theorem get?_keepImage (row : RawMap) (key : List GoString) (kept : RawMap)
    (image name : GoString) : (keepImage row key kept image).get? name =
      if name = image then (keyImage (row.get? name) key).or (kept.get? name)
      else kept.get? name := by
  by_cases hname : name = image
  · subst hname
    rw [if_pos rfl, keepImage, keyImage]
    cases Json.unmarshal ((row.get? name).getD []) with
    | none => rfl
    | some values =>
      cases values with
      | none => rfl
      | some values => simp only [RawMap.get?_set, if_pos, some_or]
  · rw [if_neg hname]
    unfold keepImage
    split
    · rw [RawMap.get?_set, if_neg hname]
    · rfl

/-- The images `keyOnly` encodes for an UPDATE. -/
def keyImages (row : RawMap) (key : List GoString) : RawMap :=
  images.foldl (keepImage row key) .empty

/-- What is stored for an image in the end. -/
theorem get?_keyImages (row : RawMap) (key : List GoString) (name : GoString) :
    (keyImages row key).get? name =
      if name ∈ images then keyImage (row.get? name) key else none := by
  simp only [keyImages, images, foldl_cons, foldl_nil, get?_keepImage, RawMap.get?_empty,
    mem_cons, not_mem_nil, or_false, or_none]
  by_cases hnew : name = ascii "new"
  · rw [if_pos hnew, if_pos (Or.inr hnew)]
    split
    · exact or_self
    · exact or_none
  · by_cases hold : name = ascii "old"
    · rw [if_neg hnew, if_pos hold, if_pos (Or.inl hold)]
    · rw [if_neg hnew, if_neg hold, if_neg (not_or.mpr ⟨hold, hnew⟩)]

/-- The names of the images are texts. -/
theorem utf8_images : ∀ image ∈ images, Utf8.IsValid image := by
  intro image himage
  simp only [images, mem_cons, not_mem_nil, or_false] at himage
  cases himage with
  | inl h => exact ⟨['o', 'l', 'd'], by rw [h]; decide⟩
  | inr h => exact ⟨['n', 'e', 'w'], by rw [h]; decide⟩

theorem keyImage_none (key : List GoString) : keyImage none key = none := by
  have h : Json.unmarshal [] = none := by decide
  simp only [keyImage, getD_none, h]

/-- The image stored for the row `values`. -/
structure IsKeyImage (d : Nat) (key : List GoString) (values : List (List Nat × Value))
    (text : List UInt8) : Prop where
  denotes : ∃ keptValues, Denotes d text (.object keptValues) ∧ Restricts key values keptValues
  again : keyImage (some text) key = some text
  compact : Json.compact text = text

theorem keyImage_object {t : List UInt8} {values : List (List Nat × Value)}
    (h : Denotes d t (.object values)) (hd : d ≤ Json.maxNestingDepth) (key : List GoString) :
    ∃ text, keyImage (some t) key = some text ∧ IsKeyImage d key values text := by
  obtain ⟨m, hread, hholds, hlookup⟩ := Json.unmarshal_of_denotes h hd .none .none
  rw [Json.Spaces.val_none, nil_append, append_nil] at hread
  obtain ⟨d, rfl⟩ : ∃ d', d = d' + 1 := by
    obtain ⟨d', _, _, hd', _⟩ := h.members
    exact ⟨d', hd'⟩
  rw [Nat.add_sub_cancel] at hholds
  have himage : keyImage (some t) key = some (marshalRow (keyColumns m key)) := by
    simp only [keyImage, getD_some, hread]
  refine ⟨marshalRow (keyColumns m key), himage, ?_, ?_, ?_⟩
  · obtain ⟨kept, hkept, hrestrict⟩ := keyRow_spec hholds (Nat.le_of_lt hd) key
    refine ⟨kept, hkept, fun name => ?_⟩
    rw [hrestrict, hlookup]
  · -- reducing what is stored gives it back
    obtain ⟨m', hagain, hsame⟩ := keyRow_idem hholds hd key
    simp only [keyImage, getD_some, hagain, hsame]
  · rw [marshalRow_eq (holds_keyColumns hholds key) (Nat.le_of_lt hd)]
    exact Json.compact_marshalText (holds_keyColumns hholds key)

theorem keyImage_of_not_object {t : List UInt8} {v : Value} (h : Denotes d t v)
    (hv : ∀ values, v ≠ .object values) (key : List GoString) : keyImage (some t) key = none := by
  have hnot : ∀ row, Json.valid t = true → Json.read t ≠ some (.object row) := by
    intro row _ hread
    rw [Json.read_of_denotes h] at hread
    exact hv row (some.inj hread)
  cases Json.unmarshal_of_not_object hnot with
  | inl hnone => simp only [keyImage, getD_some, hnone]
  | inr hnull => simp only [keyImage, getD_some, hnull]

/-- What `keyOnly` stores for an image, by what the image is. -/
theorem keyImage_cases (h : Holds d row) (hd : d ≤ Json.maxNestingDepth) (key : List GoString)
    (name : GoString) :
    (∃ values text, (row.get? name).bind Json.read = some (.object values) ∧
      keyImage (row.get? name) key = some text ∧ IsKeyImage d key values text) ∨
    ((∀ values, (row.get? name).bind Json.read ≠ some (.object values)) ∧
      keyImage (row.get? name) key = none) := by
  cases hget : row.get? name with
  | none => exact .inr ⟨fun _ hbind => (nomatch hbind), keyImage_none key⟩
  | some t =>
    obtain ⟨v, hv⟩ := h.texts _ (RawMap.get?_eq_some_iff.mp hget)
    rw [bind_some, Json.read_of_denotes hv]
    by_cases hobject : ∃ values, v = .object values
    · obtain ⟨values, rfl⟩ := hobject
      obtain ⟨text, htext, himage⟩ := keyImage_object hv hd key
      exact .inl ⟨values, text, rfl, htext, himage⟩
    · rw [not_exists] at hobject
      exact .inr ⟨fun values heq => hobject values (some.inj heq),
        keyImage_of_not_object hv hobject key⟩

/-- Everything stored is the key of an image. -/
theorem mem_keyImages (h : Holds d row) (hd : d ≤ Json.maxNestingDepth) {key : List GoString}
    {e : GoString × List UInt8} (he : e ∈ (keyImages row key).entries) :
    e.1 ∈ images ∧ ∃ values, IsKeyImage d key values e.2 := by
  have hget := RawMap.get?_eq_some_iff.mpr he
  rw [get?_keyImages] at hget
  split at hget
  · rename_i himages
    refine ⟨himages, ?_⟩
    cases keyImage_cases h hd key e.1 with
    | inl hobject =>
      obtain ⟨values, text, _, htext, himage⟩ := hobject
      rw [htext] at hget
      obtain rfl := some.inj hget
      exact ⟨values, himage⟩
    | inr hnone => exact nomatch hget.symm.trans hnone.2
  · exact nomatch hget

theorem holds_keyImages (h : Holds d row) (hd : d ≤ Json.maxNestingDepth) (key : List GoString) :
    Holds d (keyImages row key) := by
  constructor
  · intro e he
    exact utf8_images e.1 (mem_keyImages h hd he).1
  · intro e he
    obtain ⟨_, values, himage⟩ := mem_keyImages h hd he
    obtain ⟨kept, hkept, _⟩ := himage.denotes
    exact ⟨_, hkept⟩

/-- The images as they are encoded. -/
theorem keyImages_spec (h : Holds d m) (hd : d ≤ Json.maxNestingDepth) (key : List GoString)
    {row : List (List Nat × Value)}
    (hrow : ∀ name, Json.lookup row name = (m.get? name).bind Json.read) :
    ∃ kept, Denotes (d + 1) (marshalRow (keyImages m key)) (.object kept) ∧
      Reduces .update key row kept := by
  have himages := holds_keyImages h hd key
  rw [marshalRow_eq himages hd]
  refine ⟨_, Json.denotes_marshalText himages, ?_⟩
  rw [Reduces, if_pos rfl]
  intro name
  rw [Json.lookup_marshalText himages, get?_keyImages]
  by_cases hname : name ∈ images
  · rw [if_pos hname, if_pos hname, hrow]
    cases keyImage_cases h hd key name with
    | inl hobject =>
      obtain ⟨values, text, hread, htext, himage⟩ := hobject
      obtain ⟨kept, hkept, hrestrict⟩ := himage.denotes
      rw [hread, htext]
      exact ⟨kept, Json.read_of_denotes hkept, hrestrict⟩
    | inr hnone =>
      rw [hnone.2]
      split
      · rename_i values hread
        exact absurd hread (hnone.1 values)
      · rfl
  · rw [if_neg hname, if_neg hname]
    rfl

/-- Decoding the images and reducing them again changes nothing. -/
theorem keyImages_idem (h : Holds d row) (hd : d < Json.maxNestingDepth) (key : List GoString) :
    ∃ m, Json.unmarshal (marshalRow (keyImages row key)) = some (some m) ∧
      marshalRow (keyImages m key) = marshalRow (keyImages row key) := by
  have hle := Nat.le_of_lt hd
  have himages := holds_keyImages h hle key
  rw [marshalRow_eq himages hle]
  obtain ⟨m, hread, hperm⟩ := Json.unmarshal_marshalText hd himages
  refine ⟨m, hread, ?_⟩
  -- the stored texts are compact already
  have hcompact : ((keyImages row key).entries.map fun e => (e.1, Json.compact e.2)) =
      (keyImages row key).entries := by
    refine (map_congr_left fun e he => ?_).trans (map_id _)
    obtain ⟨_, _, himage⟩ := mem_keyImages h hle he
    rw [himage.compact, id]
  have hget : ∀ name, (keyImages m key).get? name = (keyImages row key).get? name := by
    intro name
    rw [get?_keyImages, RawMap.get?_of_perm (hcompact ▸ hperm) name, get?_keyImages]
    by_cases hname : name ∈ images
    · simp only [if_pos hname]
      cases keyImage_cases h hle key name with
      | inl hobject =>
        obtain ⟨_, text, _, htext, himage⟩ := hobject
        rw [htext, himage.again]
      | inr hnone => rw [hnone.2, keyImage_none]
    · simp only [if_neg hname]
  have hentries := RawMap.perm_of_get? hget
  have hholds : Holds d (keyImages m key) :=
    ⟨fun e he => himages.names e (hentries.mem_iff.mp he),
      fun e he => himages.texts e (hentries.mem_iff.mp he)⟩
  rw [marshalRow_eq hholds hle]
  exact Json.marshalText_congr himages (hentries.trans (.of_eq hcompact.symm))

/-! ### `Truncated` -/

/-- Data that is a row. -/
theorem keyOnly_object (h : Json.unmarshal data = some (some m)) (eventType : EventType)
    (key : List GoString) : keyOnly eventType data key =
      if eventType = .update then marshalRow (keyImages m key)
      else marshalRow (keyColumns m key) := by
  simp only [keyOnly, h, getD_some, ne_eq, ite_not, keyImages]

theorem unmarshal_emptyObject : Json.unmarshal (ascii "\x7b\x7d") = some (some .empty) := rfl

/-- The empty object stays. -/
theorem keyOnly_emptyObject (eventType : EventType) (key : List GoString) :
    keyOnly eventType (ascii "\x7b\x7d") key = ascii "\x7b\x7d" := by
  rw [keyOnly_object unmarshal_emptyObject]
  split <;> rfl

theorem keyOnly_of_not_object
    (h : ∀ row, Json.valid data = true → Json.read data ≠ some (.object row))
    (eventType : EventType) (key : List GoString) :
    keyOnly eventType data key = ascii "\x7b\x7d" := by
  cases Json.unmarshal_of_not_object h with
  | inl hnone => simp only [keyOnly, hnone]
  | inr hnull =>
    -- `null` leaves the map nil, which reads as the empty object does
    rw [← keyOnly_emptyObject eventType key]
    simp only [keyOnly, hnull, unmarshal_emptyObject, getD_none, getD_some]

theorem keyOnly_spec {row : List (List Nat × Value)} (hvalid : Json.valid data = true)
    (hread : Json.read data = some (.object row)) (eventType : EventType) (key : List GoString) :
    (∃ kept, Denotes Json.maxNestingDepth (keyOnly eventType data key) (.object kept) ∧
      Reduces eventType key row kept) ∧
    keyOnly eventType (keyOnly eventType data key) key = keyOnly eventType data key := by
  obtain ⟨m, hm, hholds, hrow⟩ := Json.unmarshal_of_read hvalid hread
  rw [keyOnly_object hm]
  by_cases htype : eventType = .update
  · subst htype
    rw [if_pos rfl]
    refine ⟨keyImages_spec hholds (Nat.sub_le _ _) key hrow, ?_⟩
    obtain ⟨m', hm', hsame⟩ := keyImages_idem hholds (by decide) key
    rw [keyOnly_object hm', if_pos rfl, hsame]
  · rw [if_neg htype]
    constructor
    · obtain ⟨kept, hkept, hrestrict⟩ := keyRow_spec hholds (Nat.sub_le _ _) key
      refine ⟨kept, hkept, ?_⟩
      rw [Reduces, if_neg htype]
      intro name
      rw [hrestrict, hrow]
    · obtain ⟨m', hm', hsame⟩ := keyRow_idem hholds (by decide) key
      rw [keyOnly_object hm', if_neg htype, hsame]

/-- `Truncated` keeps exactly the key. -/
theorem truncated_correct (e : Event) (htype : isTableEvent e.type = true) :
    (∀ row, Json.valid e.data = true → Json.read e.data = some (.object row) →
      Json.valid (e.truncated keyOnly).data = true ∧
      ∃ kept, Json.read (e.truncated keyOnly).data = some (.object kept) ∧
        Reduces e.type e.keyColumns row kept) ∧
    ((∀ row, Json.valid e.data = true → Json.read e.data ≠ some (.object row)) →
      (e.truncated keyOnly).data = ascii "\x7b\x7d") ∧
    e.truncated keyOnly =
      { e with data := (e.truncated keyOnly).data, dataTruncated := true } ∧
    (e.truncated keyOnly).truncated keyOnly = e.truncated keyOnly := by
  have hevent : e.truncated keyOnly =
      { e with data := keyOnly e.type e.data e.keyColumns, dataTruncated := true } := by
    simp only [Event.truncated, Event.stripped, htype, if_pos]
  have hdata : (e.truncated keyOnly).data = keyOnly e.type e.data e.keyColumns := by rw [hevent]
  rw [hdata]
  refine ⟨fun row hvalid hread => ?_, fun h => keyOnly_of_not_object h _ _, hevent, ?_⟩
  · obtain ⟨⟨kept, hkept, hreduces⟩, _⟩ := keyOnly_spec hvalid hread e.type e.keyColumns
    have hvalid := hkept.valid (Nat.le_refl _) .none .none
    rw [Json.Spaces.val_none, nil_append, append_nil] at hvalid
    exact ⟨hvalid, kept, Json.read_of_denotes hkept, hreduces⟩
  · have hidem : keyOnly e.type (keyOnly e.type e.data e.keyColumns) e.keyColumns =
        keyOnly e.type e.data e.keyColumns := by
      by_cases h : ∃ row, Json.valid e.data = true ∧ Json.read e.data = some (.object row)
      · obtain ⟨row, hvalid, hread⟩ := h
        exact (keyOnly_spec hvalid hread e.type e.keyColumns).2
      · have hnot : ∀ row, Json.valid e.data = true → Json.read e.data ≠ some (.object row) :=
          fun row hvalid hread => h ⟨row, hvalid, hread⟩
        rw [keyOnly_of_not_object hnot, keyOnly_emptyObject]
    rw [hevent]
    simp only [Event.truncated, Event.stripped, htype, if_pos, hidem]

theorem truncated_correct_row :
    let e := { newEvent .delete (ascii "public") (ascii "users")
      (ascii "\x7b\"\\u0069d\": 1, \"v\": [ 2 ]\x7d") [] [] with keyColumns := [ascii "id"] }
    isTableEvent e.type = true ∧ (e.truncated keyOnly).data = ascii "\x7b\"id\":1\x7d" ∧
    (e.truncated keyOnly).truncated keyOnly = e.truncated keyOnly :=
  ⟨rfl, by decide +kernel, (truncated_correct _ rfl).2.2.2⟩

end Cdc
