import Watcher.Model.ParserChecked

/-!
# The parser stays inside its message

The checked parser never panics and does what `Parser.parse` does, on messages of
any content (`Parser.parse_safe`). `At low` relates the two readers: the same
bytes, position and error flag, the position between `low` and the length, and
every position before it between 0 and the length. Every read keeps `At low`,
whether it succeeds or fails, so `At 1` holds from the type byte on; only the
put-back of `parseUpdate` takes it to `At 0`.
-/

namespace Postgres.Checked

open Simulation List Option

/-- The position is in range and far enough from the largest `int` that no read overflows. -/
structure At (message : List UInt8) (low : Nat) (r : Reader) (t : Postgres.Reader) : Prop where
  message : t.data = message
  data : r.data = t.data
  pos : r.pos = t.pos
  err : r.err = t.err
  ge : low ≤ t.pos
  le : t.pos ≤ t.data.length
  trace : ∀ x ∈ r.trace, 0 ≤ x ∧ x ≤ t.data.length
  fits : t.data.length < 2 ^ 63 - 2 ^ 32

variable {message : List UInt8} {low : Nat}

theorem int64_eq {x : Int} (hlow : -2 ^ 63 ≤ x) (hhigh : x < 2 ^ 63) : int64 x = x := by
  unfold int64
  omega

variable {r : Reader} {t : Postgres.Reader} {n : Nat} {α : Type}

/-- Any position in range may be assigned. -/
theorem run_setPos (h : At message low r t) (x : Int) (n low' : Nat) (hx : x = n)
    (hlow : low' ≤ n) (hle : n ≤ t.data.length) :
    ∃ r', setPos x r = some ((), r') ∧ At message low' r' { t with pos := n } := by
  have hfits := h.fits
  have heq : int64 x = n := by
    rw [int64_eq (by omega) (by omega), hx]
  refine ⟨_, rfl, h.message, h.data, heq, h.err, hlow, hle, ?_, h.fits⟩
  intro y hy
  rcases mem_cons.mp hy with rfl | hy
  · rw [heq]
    show (0 : Int) ≤ n ∧ (n : Int) ≤ t.data.length
    omega
  · exact h.trace y hy

/-! ### Reads -/

theorem run_remaining (h : At message low r t) : remaining r = some ((t.remaining : Int), r) := by
  have hle := h.le
  have hfits := h.fits
  show some (int64 (r.data.length - r.pos), r) = _
  rw [h.data, h.pos, int64_eq (by omega) (by omega), Postgres.Reader.remaining]
  congr 2
  omega

/-- Asking for it changes nothing. -/
theorem remaining_simulates :
    Simulates (At message low) (At message low) remaining fun t => ((t.remaining : Int), t) :=
  fun r _ h => ⟨r, run_remaining h, h⟩

/-- A read that fits finds the reader as it was; one that does not spoils it. -/
theorem canRead_cases (h : At message low r t) (hn : n < 2 ^ 32) :
    (t.canRead n = true ∧ canRead n r = some (true, r) ∧ t.pos + n ≤ t.data.length) ∨
    (t.canRead n = false ∧ ∃ r', canRead n r = some (false, r') ∧
      At message low r' { t with err := true }) := by
  have hle := h.le
  have hfits := h.fits
  have hsum : int64 (r.pos + n) = t.pos + n := by
    rw [h.pos, int64_eq (by omega) (by omega)]
  -- a reader that has failed before fails again
  cases herr : t.err with
  | true =>
    have hr : r.err = true := by rw [h.err, herr]
    refine .inr ⟨by simp [Postgres.Reader.canRead, herr], r, by simp [canRead, hr], ?_⟩
    exact { h with err := hr }
  | false =>
    have hr : r.err = false := by rw [h.err, herr]
    by_cases hfit : t.pos + n ≤ t.data.length
    · have hroom : ¬int64 (r.pos + n) > r.data.length := by
        rw [hsum, h.data]
        omega
      exact .inl ⟨by simp [Postgres.Reader.canRead, herr, hfit], by simp [canRead, hr, hroom], hfit⟩
    · have hroom : int64 (r.pos + n) > r.data.length := by
        rw [hsum, h.data]
        omega
      refine .inr ⟨by simp [Postgres.Reader.canRead, herr, hfit], { r with err := true },
        by simp only [canRead, run_bind, run_get, run_set, run_pure, bind_some, hr, hroom,
          Bool.false_eq_true, if_false, if_true], ?_⟩
      exact { h with err := rfl }

/-- All reads of a fixed length: one that does not fit returns `zero`, so only the body of one that
    fits has to be looked at. -/
theorem read_simulates {α : Type} {n : Nat} (hn : n < 2 ^ 32) {m : M α} {zero : α}
    {f : List UInt8 → α} (hzero : f [] = zero)
    (hfit : ∀ r t, At message low r t → t.pos + n ≤ t.data.length →
      ∃ r', m r = some (f ((t.data.drop t.pos).take n), r') ∧
        At message low r' { t with pos := t.pos + n }) :
    Simulates (At message low) (At message low)
      (canRead n >>= fun c => if c = true then m else pure zero)
      fun t => (f (t.readBytes n).1, (t.readBytes n).2) := by
  intro r t h
  rcases canRead_cases h hn with ⟨hcan, hrun, hroom⟩ | ⟨hcan, r', hrun, hspoilt⟩
  · obtain ⟨r', hbody, hat⟩ := hfit r t h hroom
    refine ⟨r', ?_, ?_⟩
    · simp only [run_bind, hrun, bind_some, if_true, hbody, Postgres.Reader.readBytes, hcan]
    · simpa only [Postgres.Reader.readBytes, hcan, if_true] using hat
  · refine ⟨r', ?_, ?_⟩
    · simp [hrun, Postgres.Reader.readBytes, hcan, hzero]
    · simpa [Postgres.Reader.readBytes, hcan] using hspoilt

theorem run_index {xs : List α} {i : Nat} {x : α} (h : xs[i]? = some x) (r : Reader) :
    index xs i r = some (x, r) := by
  simp [index, h]

/-- A slice between two positions in range. -/
theorem run_slice (r : Reader) (lo hi : Nat) (hlo : lo ≤ hi) (hhi : hi ≤ r.data.length) :
    slice lo hi r = some ((r.data.drop lo).take (hi - lo), r) := by
  have hrange : (0 : Int) ≤ lo ∧ (lo : Int) ≤ hi ∧ (hi : Int) ≤ r.data.length := by omega
  have hlength : ((hi : Int) - lo).toNat = hi - lo := by omega
  rw [slice, if_pos hrange, hlength, Int.toNat_natCast]

theorem readBytes_simulates (hn : n < 2 ^ 32) :
    Simulates (At message low) (At message low) (readBytes n) fun t => t.readBytes n := by
  refine read_simulates hn (f := id) rfl ?_
  intro r t h hroom
  have hfits := h.fits
  have hge := h.ge
  have hend : int64 ((t.pos : Int) + n) = (t.pos + n : Nat) := by
    rw [int64_eq (by omega) (by omega), Int.natCast_add]
  obtain ⟨r', hset, hat⟩ := run_setPos h (t.pos + n) (t.pos + n) low rfl (by omega) hroom
  refine ⟨r', ?_, hat⟩
  have hslice := run_slice r t.pos (t.pos + n) (by omega) (by rw [h.data]; exact hroom)
  simp only [run_bind, run_get, bind_some, h.pos, hend, hslice, hset, run_pure, h.data, id,
    Nat.add_sub_cancel_left]

theorem readByte_simulates :
    Simulates (At message low) (At message low) readByte fun t => t.readByte := by
  refine read_simulates (by decide) (f := fun bs => bs.headD 0) rfl ?_
  intro r t h hroom
  have hge := h.ge
  obtain ⟨r', hset, hat⟩ := run_setPos h (t.pos + 1) (t.pos + 1) low rfl (by omega) hroom
  have hlt : t.pos < t.data.length := hroom
  have hbyte : t.data[t.pos]? = some (((t.data.drop t.pos).take 1).headD 0) := by
    rw [drop_eq_getElem_cons hlt, getElem?_eq_getElem hlt]
    rfl
  refine ⟨r', ?_, hat⟩
  simp only [run_bind, run_get, bind_some, h.pos, h.data, run_index hbyte, hset, run_pure]

theorem readUint_simulates (hpos : 0 < n) (hn : n < 2 ^ 32) :
    Simulates (At message low) (At message low) (readUint n) fun t => t.readUint n := by
  refine read_simulates hn (f := beNat) rfl ?_
  intro r t h hroom
  have hge := h.ge
  obtain ⟨r', hset, hat⟩ := run_setPos h (t.pos + n) (t.pos + n) low rfl (by omega) hroom
  refine ⟨r', ?_, hat⟩
  have hslice := run_slice r t.pos t.data.length h.le (by rw [h.data])
  have hall : (t.data.drop t.pos).take (t.data.length - t.pos) = t.data.drop t.pos :=
    take_of_length_le (by rw [length_drop])
  -- the last of the bytes is there
  have hlast : (n : Int) - 1 = (n - 1 : Nat) := by omega
  have hindex : n - 1 < (t.data.drop t.pos).length := by
    rw [length_drop]
    omega
  simp only [run_bind, run_get, bind_some, h.pos, h.data] at hslice ⊢
  simp only [hslice, hall, bind_some, bigEndian, run_bind, hlast,
    run_index (getElem?_eq_getElem hindex), run_pure, hset]

theorem readUint32_lt (t : Postgres.Reader) : t.readUint32.1 < 2 ^ 32 := by
  have hlength : (t.readBytes 4).1.length ≤ 4 := by
    rw [Postgres.Reader.readBytes]
    split
    · exact length_take_le _ _
    · exact Nat.zero_le _
  calc beNat (t.readBytes 4).1 < 256 ^ (t.readBytes 4).1.length := beNat_lt _
    _ ≤ 256 ^ 4 := Nat.pow_le_pow_right (by decide) hlength
    _ = 2 ^ 32 := by decide

/-- The loop of `readCString` stops at the next NUL or at the end, before its rounds are over. -/
theorem run_skipToNul (rounds : Nat) : ∀ (r : Reader) (t : Postgres.Reader), At message low r t →
    t.data.length - t.pos < rounds → ∃ r', skipToNul rounds r = some ((), r') ∧
      At message low r' { t with
        pos := t.pos + ((t.data.drop t.pos).takeWhile (· != 0)).length } := by
  -- each round that does not stop moves one byte towards the end of the data
  induction rounds with
  | zero => exact fun _ _ _ hrounds => absurd hrounds (Nat.not_lt_zero _)
  | succ rounds ih =>
    intro r t h hrounds
    have hge := h.ge
    by_cases hlt : t.pos < t.data.length
    · have hcast : (t.pos : Int) < t.data.length := by omega
      have hdrop := drop_eq_getElem_cons hlt
      have hindex := run_index (getElem?_eq_getElem hlt) r
      by_cases hzero : t.data[t.pos] = 0
      · refine ⟨r, ?_, ?_⟩
        · simp only [skipToNul, run_bind, run_get, bind_some, h.pos, h.data, hcast, if_true,
            hindex, hzero, ne_eq, not_true_eq_false, if_false, run_pure]
        · simpa [hdrop, hzero] using h
      · obtain ⟨r₁, hset, h₁⟩ := run_setPos h (t.pos + 1) (t.pos + 1) low rfl (by omega) hlt
        obtain ⟨r₂, hrun, h₂⟩ := ih r₁ _ h₁ (by show t.data.length - (t.pos + 1) < rounds; omega)
        refine ⟨r₂, ?_, ?_⟩
        · simp only [skipToNul, run_bind, run_get, bind_some, h.pos, h.data, hcast, if_true,
            hindex, ne_eq, hzero, not_false_eq_true, hset, hrun]
        · have hlength : t.pos + ((t.data.drop t.pos).takeWhile (· != 0)).length =
              t.pos + 1 + ((t.data.drop (t.pos + 1)).takeWhile (· != 0)).length := by
            rw [hdrop, takeWhile_cons_of_pos (by simpa using hzero), length_cons]
            omega
          rw [hlength]
          exact h₂
    · have hcast : ¬(t.pos : Int) < t.data.length := by omega
      refine ⟨r, ?_, ?_⟩
      · simp only [skipToNul, run_bind, run_get, bind_some, h.pos, h.data, hcast, if_false,
          run_pure]
      · rw [drop_eq_nil_of_le (by omega)]
        exact h

/-- `readCString` ends behind the NUL, or at the end of the data if there is none. -/
theorem readCString_simulates :
    Simulates (At message low) (At message low) readCString fun t => t.readCString := by
  intro r t h
  have hge := h.ge
  obtain ⟨r₁, hskip, h₁⟩ := run_skipToNul (r.data.length + 1) r t h (by rw [h.data]; omega)
  have htake := prefix_iff_eq_take.mp
    (List.takeWhile_prefix (fun b : UInt8 => b != 0) (l := t.data.drop t.pos))
  -- the string that was skipped
  generalize hs : (t.data.drop t.pos).takeWhile (· != 0) = s at h₁ htake
  have hle : t.pos + s.length ≤ t.data.length := h₁.le
  have hslice := run_slice r₁ t.pos (t.pos + s.length) (by omega) (by rw [h₁.data]; exact hle)
  rw [Nat.add_sub_cancel_left, h₁.data, ← htake] at hslice
  have hpos : r₁.pos = (t.pos + s.length : Nat) := h₁.pos
  have hdata : r₁.data = t.data := h₁.data
  simp only [readCString, run_bind, run_get, bind_some, hskip, h.pos, hpos, hdata, hslice,
    Postgres.Reader.readCString, hs]
  -- the NUL is there, or the data ended
  by_cases hlt : t.pos + s.length < t.data.length
  · have hcast : ((t.pos + s.length : Nat) : Int) < t.data.length := by omega
    obtain ⟨r₂, hset, h₂⟩ := run_setPos h₁ ((t.pos + s.length : Nat) + 1)
      (t.pos + s.length + 1) low rfl (by omega) hlt
    refine ⟨r₂, ?_, ?_⟩
    · simp only [hcast, if_true, run_bind, hset, bind_some, run_pure]
    · simp only [hlt, if_true]
      exact h₂
  · have hcast : ¬((t.pos + s.length : Nat) : Int) < t.data.length := by omega
    refine ⟨r₁, ?_, ?_⟩
    · simp only [hcast, if_false, run_pure]
    · simp only [hlt, if_false]
      exact h₁

/-- Two bytes. -/
theorem readUint16_simulates :
    Simulates (At message low) (At message low) readUint16 fun t => t.readUint16 :=
  readUint_simulates (by decide) (by decide)

/-- Four bytes. -/
theorem readUint32_simulates :
    Simulates (At message low) (At message low) readUint32 fun t => t.readUint32 :=
  readUint_simulates (by decide) (by decide)

/-- Eight bytes. -/
theorem readUint64_simulates :
    Simulates (At message low) (At message low) readUint64 fun t => t.readUint64 :=
  readUint_simulates (by decide) (by decide)

/-! ### Row images -/

theorem skipTupleValue_simulates (colType : UInt8) :
    Simulates (At message low) (At message low) (skipTupleValue colType)
      fun t => ((), Postgres.skipTupleValue t colType) := by
  apply simulates_of_returns
  intro t
  unfold skipTupleValue Postgres.skipTupleValue
  by_cases htext : colType = 0x74
  · simp only [if_pos htext]
    exact readUint32_simulates.andThen
      ((readBytes_simulates (readUint32_lt t)).andThen (returns_pure ()))
  · simp only [if_neg htext]
    exact returns_pure ()

theorem writeTextValue_simulates (typeOID : Nat) :
    Simulates (At message low) (At message low) (writeTextValue typeOID)
      fun t => Postgres.writeTextValue t typeOID :=
  simulates_of_returns fun t =>
    readUint32_simulates.andThen
      ((readBytes_simulates (readUint32_lt t)).andThen (returns_pure _))

theorem writeTupleValue_simulates (colType : UInt8) (typeOID : Nat) :
    Simulates (At message low) (At message low) (writeTupleValue colType typeOID)
      fun t => Postgres.writeTupleValue t colType typeOID := by
  apply simulates_of_returns
  intro t
  unfold writeTupleValue Postgres.writeTupleValue
  by_cases hnull : colType = 0x6e
  · simp only [if_pos hnull]
    exact returns_pure _
  simp only [if_neg hnull]
  by_cases htext : colType = 0x74
  · simp only [if_pos htext]
    exact (writeTextValue_simulates typeOID).returns t
  · simp only [if_neg htext]
    exact returns_pure _

theorem indexOr_simulates (xs : List α) (i : Nat) (default : α) :
    Simulates (At message low) (At message low) (indexOr xs i default)
      fun t => (xs.getD i default, t) := by
  intro r t h
  refine ⟨r, ?_, h⟩
  unfold indexOr
  by_cases hi : i < xs.length
  · rw [if_pos hi, run_index (getElem?_eq_getElem hi), getD_eq_getElem?_getD,
      getElem?_eq_getElem hi, getD_some]
  · rw [if_neg hi, run_pure, getD_eq_getElem?_getD, getElem?_eq_none (by omega), getD_none]

/-- The loop over the columns of an image. -/
theorem tupleLoop_simulates (rel : RelationInfo) (keyOnly : Bool) (n : Nat) : ∀ i written : Nat,
    Simulates (At message low) (At message low) (tupleLoop rel keyOnly n i written)
      fun t => Postgres.tupleLoop rel keyOnly n i written t := by
  induction n with
  | zero => exact fun _ _ => simulates_of_returns fun _ => returns_pure []
  | succ n ih =>
    intro i written
    apply simulates_of_returns
    intro t
    unfold tupleLoop Postgres.tupleLoop
    refine readByte_simulates.andThen ((indexOr_simulates rel.columns i _).andThen ?_)
    dsimp only
    -- both sides leave the column out, or both write it
    split
    · exact (skipTupleValue_simulates _).andThen ((ih (i + 1) written).returns _)
    · exact (indexOr_simulates rel.typeOIDs i 0).andThen
        ((writeTupleValue_simulates _ _).andThen
          ((ih (i + 1) (written + 1)).andThen (returns_pure _)))

/-- A row image. -/
theorem parseTupleData_simulates (rel : RelationInfo) (keyOnly : Bool) :
    Simulates (At message low) (At message low) (parseTupleData rel keyOnly)
      fun t => Postgres.parseTupleData t rel keyOnly := by
  apply simulates_of_returns
  intro t
  unfold parseTupleData Postgres.parseTupleData
  refine remaining_simulates.andThen ?_
  dsimp only
  by_cases hshort : t.remaining < 2
  · rw [if_pos (by omega), if_pos hshort]
    exact returns_pure _
  · rw [if_neg (by omega), if_neg hshort]
    exact readUint16_simulates.andThen
      ((tupleLoop_simulates rel keyOnly _ 0 0).andThen (returns_pure _))

/-! ### Messages -/

/-- What is left to say once the reader is dropped: it was always inside the message. -/
def Finished (message : List UInt8) (r : Reader) (_ : Postgres.Reader) : Prop :=
  ∀ x ∈ r.trace, 0 ≤ x ∧ x ≤ message.length

theorem At.finished (h : At message low r t) (t' : Postgres.Reader) : Finished message r t' := by
  intro x hx
  rw [← h.message]
  exact h.trace x hx

theorem At.zero (h : At message low r t) : At message 0 r t :=
  { h with ge := Nat.zero_le _ }

/-- The end of a message. -/
theorem returns_finished (a : α) (t' : Postgres.Reader) :
    Returns (At message low) (Finished message) t (pure a : M α) (a, t') :=
  fun r h => ⟨r, rfl, h.finished t'⟩

/-- BEGIN. -/
theorem parseBegin_returns (p : Parser) (lsn : GoString) (t : Postgres.Reader) :
    Returns (At message low) (Finished message) t (parseBegin p lsn) (p.parseBegin t lsn, t) := by
  unfold parseBegin Parser.parseBegin
  refine remaining_simulates.andThen ?_
  dsimp only
  by_cases hlong : 20 ≤ t.remaining
  · rw [if_pos (by omega), if_pos hlong]
    exact readUint64_simulates.andThen (readUint64_simulates.andThen
      (readUint32_simulates.andThen (returns_finished _ t)))
  · rw [if_neg (by omega), if_neg hlong]
    exact returns_finished _ t

/-- COMMIT. -/
theorem parseCommit_returns (p : Parser) (lsn : GoString) (t : Postgres.Reader) :
    Returns (At message low) (Finished message) t (parseCommit p lsn) (p.parseCommit t lsn, t) := by
  unfold parseCommit Parser.parseCommit
  refine remaining_simulates.andThen ?_
  dsimp only
  by_cases hlong : 25 ≤ t.remaining
  · rw [if_pos (by omega), if_pos hlong]
    exact readByte_simulates.andThen (readUint64_simulates.andThen
      (readUint64_simulates.andThen (readUint64_simulates.andThen (returns_finished _ t))))
  · rw [if_neg (by omega), if_neg hlong]
    exact returns_finished _ t

/-- The columns of a relation. -/
theorem relationLoop_simulates (n : Nat) :
    Simulates (At message low) (At message low) (relationLoop n)
      fun t => Parser.relationLoop n t := by
  induction n with
  | zero => exact simulates_of_returns fun _ => returns_pure _
  | succ n ih =>
    apply simulates_of_returns
    intro t
    unfold relationLoop Parser.relationLoop
    exact readByte_simulates.andThen (readCString_simulates.andThen
      (readUint32_simulates.andThen (readUint32_simulates.andThen
        (ih.andThen (returns_pure _)))))

/-- A column description gives one name and one type. -/
theorem length_relationLoop (n : Nat) : ∀ t : Postgres.Reader,
    (Parser.relationLoop n t).1.1.length = n ∧ (Parser.relationLoop n t).1.2.1.length = n := by
  induction n with
  | zero => exact fun _ => ⟨rfl, rfl⟩
  | succ n ih =>
    intro t
    exact ⟨congrArg (· + 1) (ih _).1, congrArg (· + 1) (ih _).2⟩

theorem colDefs_returns {columns : List GoString} {typeOIDs : List Nat} (n : Nat) :
    ∀ i, i + n ≤ columns.length → i + n ≤ typeOIDs.length → ∀ t : Postgres.Reader,
      ∃ defs, Returns (At message low) (At message low) t (colDefs columns typeOIDs n i)
        (defs, t) := by
  induction n with
  | zero => exact fun _ _ _ t => ⟨[], returns_pure []⟩
  | succ n ih =>
    intro i hcolumns htypes t
    obtain ⟨defs, hrest⟩ := ih (i + 1) (by omega) (by omega) t
    have hcolumn : i < columns.length := by omega
    have htype : i < typeOIDs.length := by omega
    refine ⟨(columns[i], typeOIDs[i]) :: defs, ?_⟩
    intro r h
    obtain ⟨r', hrun, h'⟩ := hrest r h
    refine ⟨r', ?_, h'⟩
    simp only [colDefs, run_bind, run_index (getElem?_eq_getElem hcolumn),
      run_index (getElem?_eq_getElem htype), bind_some, hrun, run_pure]

/-- RELATION. -/
theorem parseRelation_returns (p : Parser) (schemaStore : Bool) (t : Postgres.Reader) :
    Returns (At message low) (Finished message) t (parseRelation p schemaStore)
      (p.parseRelation t, t) := by
  unfold parseRelation Parser.parseRelation
  refine readUint32_simulates.andThen (readCString_simulates.andThen
    (readCString_simulates.andThen (readByte_simulates.andThen
      (readUint16_simulates.andThen ((relationLoop_simulates _).andThen ?_)))))
  -- the schema history indexes names and types by the same numbers
  cases schemaStore with
  | false => exact (returns_pure []).bind (returns_finished _ t)
  | true =>
    obtain ⟨hcolumns, htypes⟩ := length_relationLoop _ _
    obtain ⟨defs, hdefs⟩ := colDefs_returns _ 0 (Nat.le_of_eq (Nat.zero_add _))
      (by rw [Nat.zero_add, hcolumns, htypes]) _
    exact hdefs.bind (returns_finished _ t)

/-- INSERT, into the DDL log or into a table. -/
theorem parseInsert_returns (p : Parser) (lsn : GoString) (t : Postgres.Reader) :
    Returns (At message low) (Finished message) t (parseInsert p lsn) (p.parseInsert t lsn, t) := by
  unfold parseInsert Parser.parseInsert
  refine readUint32_simulates.andThen ?_
  dsimp only
  cases p.relationMap t.readUint32.1 with
  | none => exact returns_finished _ t
  | some rel =>
    dsimp only
    split
    · exact readByte_simulates.andThen
        ((parseTupleData_simulates rel false).andThen (returns_finished _ t))
    split
    · exact returns_finished _ t
    · exact readByte_simulates.andThen
        ((parseTupleData_simulates rel false).andThen (returns_finished _ t))

/-- The put-back goes to the byte before, which is there: the position is past the type byte even
    when the read before failed. -/
theorem parseOldImage_returns (rel : RelationInfo) (t : Postgres.Reader) :
    Returns (At message 1) (At message 0) t (parseOldImage rel) (Parser.parseOldImage t rel) := by
  unfold parseOldImage Parser.parseOldImage
  refine remaining_simulates.andThen ?_
  dsimp only
  by_cases hleft : 0 < t.remaining
  · rw [if_pos (by omega), if_pos hleft]
    refine readByte_simulates.andThen ?_
    split
    · exact (parseTupleData_simulates rel _).andThen fun r h => ⟨r, rfl, h.zero⟩
    · intro r h
      have hge := h.ge
      have hle := h.le
      obtain ⟨r', hset, h'⟩ := run_setPos h (r.pos - 1) (t.readByte.2.pos - 1) 0
        (by rw [h.pos]; omega) (Nat.zero_le _) (by omega)
      refine ⟨r', ?_, h'⟩
      simp only [run_bind, run_get, bind_some, hset, run_pure]
  · rw [if_neg (by omega), if_neg hleft]
    exact fun r h => ⟨r, rfl, h.zero⟩

theorem parseNewImage_returns (rel : RelationInfo) (written : GoString) (t t' : Postgres.Reader) :
    Returns (At message low) (Finished message) t (parseNewImage rel written)
      (Parser.parseNewImage t rel written, t') := by
  unfold parseNewImage Parser.parseNewImage
  refine remaining_simulates.andThen ?_
  dsimp only
  by_cases hleft : 0 < t.remaining
  · rw [if_pos (by omega), if_pos hleft]
    refine readByte_simulates.andThen ?_
    split
    · exact (parseTupleData_simulates rel false).andThen (returns_finished _ t')
    · exact returns_finished _ t'
  · rw [if_neg (by omega), if_neg hleft]
    exact returns_finished _ t'

theorem parseUpdate_returns (p : Parser) (lsn : GoString) (t : Postgres.Reader) :
    Returns (At message 1) (Finished message) t (parseUpdate p lsn) (p.parseUpdate t lsn, t) := by
  unfold parseUpdate Parser.parseUpdate
  refine readUint32_simulates.andThen ?_
  dsimp only
  cases p.relationMap t.readUint32.1 with
  | none => exact returns_finished _ t
  | some rel =>
    dsimp only
    split
    · exact returns_finished _ t
    · exact (parseOldImage_returns rel _).bind
        ((parseNewImage_returns rel _ _ t).bind (returns_pure _))

/-- DELETE. -/
theorem parseDelete_returns (p : Parser) (lsn : GoString) (t : Postgres.Reader) :
    Returns (At message low) (Finished message) t (parseDelete p lsn) (p.parseDelete t lsn, t) := by
  unfold parseDelete Parser.parseDelete
  refine readUint32_simulates.andThen ?_
  dsimp only
  cases p.relationMap t.readUint32.1 with
  | none => exact returns_finished _ t
  | some rel =>
    dsimp only
    split
    · exact returns_finished _ t
    refine remaining_simulates.andThen ?_
    dsimp only
    by_cases hleft : 0 < t.readUint32.2.remaining
    · rw [if_pos (by omega), if_pos hleft]
      exact readByte_simulates.andThen
        ((parseTupleData_simulates rel _).andThen (returns_finished _ t))
    · rw [if_neg (by omega), if_neg hleft]
      exact returns_finished _ t

/-- The relations of a TRUNCATE. -/
theorem truncateLoop_returns (p : Parser) (options : UInt8) (lsn : GoString) (n : Nat) :
    ∀ (first : Option Cdc.Event) (handled : List Cdc.Event) (t t' : Postgres.Reader),
      Returns (At message low) (Finished message) t (truncateLoop p options lsn n first handled)
        (p.truncateLoop options lsn n t first handled, t') := by
  induction n with
  | zero => exact fun _ _ _ t' => returns_finished _ t'
  | succ n ih =>
    intro first handled t t'
    unfold truncateLoop Parser.truncateLoop
    refine readUint32_simulates.andThen ?_
    dsimp only
    cases p.relationMap t.readUint32.1 with
    | none => exact ih first handled _ t'
    | some rel =>
      dsimp only
      split
      · exact ih first handled _ t'
      · cases first with
        | none => exact ih _ handled _ t'
        | some e => exact ih (some e) _ _ t'

/-- TRUNCATE. -/
theorem parseTruncate_returns (p : Parser) (lsn : GoString) (t : Postgres.Reader) :
    Returns (At message low) (Finished message) t (parseTruncate p lsn)
      (p.parseTruncate t lsn, t) := by
  unfold parseTruncate Parser.parseTruncate
  exact readUint32_simulates.andThen (readByte_simulates.andThen
    ((truncateLoop_returns p _ lsn _ none [] _ t).bind (returns_pure _)))

theorem parseMessage_returns (p : Parser) (schemaStore : Bool) (msgType : UInt8)
    (rest : List UInt8) (lsn : GoString) :
    Returns (At (msgType :: rest) 1) (Finished (msgType :: rest)) ⟨msgType :: rest, 1, false⟩
      (parseMessage p schemaStore msgType lsn)
      (p.parse (msgType :: rest) lsn, ⟨msgType :: rest, 1, false⟩) := by
  unfold parseMessage Parser.parse
  dsimp only
  split
  · exact parseBegin_returns p lsn _
  split
  · exact parseCommit_returns p lsn _
  split
  · exact parseRelation_returns p schemaStore _
  split
  · exact parseInsert_returns p lsn _
  split
  · exact parseUpdate_returns p lsn _
  split
  · exact parseDelete_returns p lsn _
  split
  · exact parseTruncate_returns p lsn _
  · exact returns_finished _ _

theorem parse_eq (p : Parser) (schemaStore : Bool) (data : List UInt8) (lsn : GoString)
    (hfits : data.length < 2 ^ 63 - 2 ^ 32) :
    ∃ positions, parse p schemaStore data lsn = some (p.parse data lsn, positions) ∧
      ∀ x ∈ positions, 0 ≤ x ∧ x ≤ data.length := by
  cases data with
  | nil => exact ⟨[], rfl, fun _ hx => nomatch hx⟩
  | cons msgType rest =>
    have hstart : At (msgType :: rest) 1 ⟨msgType :: rest, 1, false, [1]⟩
        ⟨msgType :: rest, 1, false⟩ := by
      refine ⟨rfl, rfl, rfl, rfl, Nat.le_refl 1, Nat.le_add_left 1 rest.length, ?_, hfits⟩
      intro x hx
      rw [mem_singleton.mp hx]
      show (0 : Int) ≤ 1 ∧ (1 : Int) ≤ (rest.length + 1 : Nat)
      omega
    obtain ⟨r, hrun, hfinished⟩ := parseMessage_returns p schemaStore msgType rest lsn _ hstart
    refine ⟨r.trace, ?_, hfinished⟩
    show Option.map _ (parseMessage p schemaStore msgType lsn _) = _
    rw [hrun]
    rfl

end Postgres.Checked

namespace Postgres.Parser

open List

/-! ### What a message may change -/

/-- The messages that carry rows leave the parser as it is. -/
theorem parser_parseInsert (p : Parser) (r : Reader) (lsn : GoString) :
    (p.parseInsert r lsn).parser = p := by
  unfold parseInsert
  dsimp only
  repeat' split
  all_goals rfl

/-- And so does an UPDATE. -/
theorem parser_parseUpdate (p : Parser) (r : Reader) (lsn : GoString) :
    (p.parseUpdate r lsn).parser = p := by
  unfold parseUpdate
  dsimp only
  repeat' split
  all_goals rfl

/-- And a DELETE. -/
theorem parser_parseDelete (p : Parser) (r : Reader) (lsn : GoString) :
    (p.parseDelete r lsn).parser = p := by
  unfold parseDelete
  dsimp only
  repeat' split
  all_goals rfl

/-- `q` is `p` but for what a message of type `msgType` may change. -/
structure ChangedBy (msgType : Option UInt8) (p q : Parser) : Prop where
  tableFilter : q.tableFilter = p.tableFilter
  captureDDL : q.captureDDL = p.captureDDL
  relationMap : q.relationMap = p.relationMap ∨
    msgType = some 0x52 ∧ ∃ relID, ∀ id, id ≠ relID → q.relationMap id = p.relationMap id
  txnFinalLSN : q.txnFinalLSN = p.txnFinalLSN ∨ msgType = some 0x42
  txnEndLSN : q.txnEndLSN = p.txnEndLSN ∨ msgType = some 0x43

theorem ChangedBy.refl (msgType : Option UInt8) (p : Parser) : ChangedBy msgType p p :=
  ⟨rfl, rfl, .inl rfl, .inl rfl, .inl rfl⟩

/-- A message only changes what its type is about. -/
theorem changedBy_parse (p : Parser) (data : List UInt8) (lsn : GoString) :
    ChangedBy data.head? p (p.parse data lsn).parser := by
  cases data with
  | nil => exact .refl _ p
  | cons msgType rest =>
    unfold parse
    dsimp only [head?_cons]
    split
    · rename_i hB
      unfold parseBegin
      split
      · exact ⟨rfl, rfl, .inl rfl, .inr (congrArg some hB), .inl rfl⟩
      · exact .refl _ p
    split
    · rename_i hC
      unfold parseCommit
      split
      · exact ⟨rfl, rfl, .inl rfl, .inl rfl, .inr (congrArg some hC)⟩
      · exact ⟨rfl, rfl, .inl rfl, .inl rfl, .inr (congrArg some hC)⟩
    split
    · -- the relation is stored under the id that was read first
      rename_i hR
      refine ⟨rfl, rfl, .inr ⟨congrArg some hR, ?_⟩, .inl rfl, .inl rfl⟩
      refine ⟨(⟨msgType :: rest, 1, false⟩ : Reader).readUint32.1, ?_⟩
      intro id hid
      exact if_neg hid
    -- rows, truncations and unknown messages
    split
    · rw [parser_parseInsert]
      exact .refl _ p
    split
    · rw [parser_parseUpdate]
      exact .refl _ p
    split
    · rw [parser_parseDelete]
      exact .refl _ p
    split <;> exact .refl _ p

/-- Whatever the state and the bytes are, `Parse` takes no index or slice out of range and the
    reader is inside the message all the time; besides its event it only changes the relation, the
    commit position or the end position that its type of message is about. No byte slice is as
    long as the bound: it is more than memory can hold. -/
theorem parse_safe (p : Parser) (schemaStore : Bool) (data : List UInt8) (lsn : GoString)
    (hfits : data.length < 2 ^ 63 - 2 ^ 32) :
    ∃ parsed positions, Checked.parse p schemaStore data lsn = some (parsed, positions) ∧
      (∀ x ∈ positions, 0 ≤ x ∧ x ≤ data.length) ∧
      ChangedBy data.head? p parsed.parser := by
  obtain ⟨positions, hrun, hrange⟩ := Checked.parse_eq p schemaStore data lsn hfits
  exact ⟨_, positions, hrun, hrange, changedBy_parse p data lsn⟩

/-- A cut-off UPDATE: the type byte and two bytes of the relation's number. -/
theorem parse_safe_cutUpdate :
    ([0x55, 0x00, 0x00] : List UInt8).length < 2 ^ 63 - 2 ^ 32 ∧
    ∃ parsed positions,
      Checked.parse (newParser [] false) true [0x55, 0x00, 0x00] [] = some (parsed, positions) ∧
      (∀ x ∈ positions, 0 ≤ x ∧ x ≤ ([0x55, 0x00, 0x00] : List UInt8).length) ∧
      ChangedBy (some 0x55) (newParser [] false) parsed.parser :=
  ⟨by decide, parse_safe (newParser [] false) true [0x55, 0x00, 0x00] [] (by decide)⟩

end Postgres.Parser
