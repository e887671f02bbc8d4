import Watcher.Lib.Run
import Watcher.Spec.Binlog

/-!
# No binlog position is persisted past an undelivered event

The canal goroutine performs the effects of its callbacks; acks of the events the
bus took and calls of `Confirmable` come in between at any time, also between an
event's acceptance and its being counted.

`Binlog.effects_ordered` is the static half: whatever precedes a boundary in the
binlog is emitted before the boundary is recorded. The gate does the rest, as
`Pending` has it.

## Key results

- `Binlog.committed_boundary`: only boundaries are recorded
- `Binlog.effects_ordered`: after what precedes them
- `System.Inv.step`: one step of the system keeps the invariant
- `System.confirmable_delivered`: in every run, every position confirmed or persisted is safe
-/

namespace Mysql

open Cdc Pending Run List Option

/-! ## Boundaries -/

namespace Binlog

variable (b : Binlog)

/-- The index of the file with this name. -/
def fileIndex (name : GoString) : Option Nat := b.files.findIdx? fun f => f.name = name

/-- What happens at `loc` precedes the position: it is in an earlier file, or in a transaction
    that starts before it. -/
def before (loc : Loc) (pos : BinlogPosition) : Bool :=
  match b.fileIndex pos.file with
  | none => false
  | some i => loc.1 < i || (loc.1 = i && loc.2 < pos.position)

/-- The start of a file, or the start or the end of one of its transactions. -/
def IsBoundary (pos : BinlogPosition) : Prop :=
  ∃ f ∈ b.files, pos.file = f.name ∧ (pos.position = minBinlogPosition ∨
    ∃ t ∈ f.txns, pos.position = t.start ∨ pos.position = t.endPos)

/-- Strictly inside a transaction. -/
def IsInside (pos : BinlogPosition) : Prop :=
  ∃ f ∈ b.files, pos.file = f.name ∧ ∃ t ∈ f.txns, t.start < pos.position ∧ pos.position < t.endPos

variable {b}

theorem fileIndex_name {i : Nat} {f : BinlogFile} (h : b.files[i]? = some f) :
    b.fileIndex f.name = some i := by
  rw [fileIndex, List.findIdx?_eq_some_iff_getElem]
  obtain ⟨hi, rfl⟩ := List.getElem?_eq_some_iff.mp h
  refine ⟨hi, by simp, fun j hj => ?_⟩
  -- names are distinct, so no earlier file has this one
  have hnodup : (b.files.map BinlogFile.name).Nodup := b.names_nodup
  have hne := pairwise_iff_getElem.mp hnodup j i (by simpa using Nat.lt_trans hj hi)
    (by simpa using hi) hj
  simpa using hne

theorem file_eq_of_name {f g : BinlogFile} (hf : f ∈ b.files) (hg : g ∈ b.files)
    (h : f.name = g.name) : f = g :=
  inj_on_of_nodup_map b.names_nodup hf hg h

/-- A boundary is never inside a transaction. -/
theorem IsBoundary.not_inside {pos : BinlogPosition} (h : b.IsBoundary pos) : ¬b.IsInside pos := by
  rintro ⟨g, hg, hname', t, ht, hlt, hgt⟩
  obtain ⟨f, hf, hname, hpos⟩ := h
  obtain rfl := file_eq_of_name hf hg (hname.symm.trans hname')
  have hwf := b.txns_wf f hf
  rcases hpos with hpos | ⟨u, hu, hpos⟩
  · have := (hwf t ht).start_ge
    omega
  · -- two transactions of one file do not overlap
    have hsep : u = t ∨ u.endPos ≤ t.start ∨ t.endPos ≤ u.start := by
      have hord := b.txns_ordered f hf
      obtain ⟨i, hi, rfl⟩ := getElem_of_mem hu
      obtain ⟨j, hj, rfl⟩ := getElem_of_mem ht
      rcases Nat.lt_trichotomy i j with hij | hij | hij
      · exact Or.inr (Or.inl (pairwise_iff_getElem.mp hord i j hi hj hij))
      · exact Or.inl (by subst hij; rfl)
      · exact Or.inr (Or.inr (pairwise_iff_getElem.mp hord j i hj hi hij))
    have h₁ := (hwf u hu).start_lt
    have h₂ := (hwf u hu).gtidEnd_lt
    rcases hsep with rfl | hsep | hsep <;> omega

end Binlog

/-! ## What is emitted when -/

/-- The rows of a transaction are emitted, under ids that carry the listener's mark. -/
theorem mem_rowsEffects {txn : BinlogPosition} {n : Nat} {rs : List RowsRecord} {eff : Effect}
    (h : eff ∈ rowsEffects txn n rs) : ∃ e, eff = .emit e ∧ ownEvent e = true := by
  have hown : ∀ {lsn : GoString} {id : Nat → GoString} {r : RowsRecord},
      (∀ row, sourcePrefix.isPrefixOf (id row) = true) → eff ∈ rowEffects lsn id r →
      ∃ e, eff = .emit e ∧ ownEvent e = true := by
    intro lsn id r hid heff
    simp only [rowEffects] at heff
    split at heff
    -- an insert, an update and a delete; each row gets its event and its id
    · obtain ⟨data, row, rfl⟩ := EventHandler.mem_singleRows heff
      exact ⟨_, rfl, by simp [EventHandler.nameRow, ownEvent, hid, newEvent, isPublishable]⟩
    · obtain ⟨data, row, rfl⟩ := EventHandler.mem_pairedRows heff
      exact ⟨_, rfl, by simp [EventHandler.nameRow, ownEvent, hid, newEvent, isPublishable]⟩
    · obtain ⟨data, row, rfl⟩ := EventHandler.mem_singleRows heff
      exact ⟨_, rfl, by simp [EventHandler.nameRow, ownEvent, hid, newEvent, isPublishable]⟩
  induction rs generalizing n with
  | nil => cases h
  | cons r rs ih =>
    rw [rowsEffects, mem_append] at h
    rcases h with h | h
    · split at h
      · exact hown (fun row => by simp [positionID, append_assoc]) h
      · exact hown (fun row => by simp [transactionID, append_assoc]) h
    · exact ih h

/-- Whatever a transaction records, after the rows it emits, is its end. -/
theorem bodyEffects_cases (file : GoString) (t : BinlogTxn) :
    ∃ emits tail, bodyEffects file t = emits ++ tail ∧
      (∀ eff ∈ emits, ∃ e, eff = .emit e ∧ ownEvent e = true) ∧
      (∀ eff ∈ tail, (∃ e, eff = .handle e) ∨ ∃ p, eff = .committed ⟨file, p⟩ ∧
        (p = t.endPos ∨ p = 0)) := by
  cases hb : t.body with
  | rows events xidReported =>
    refine ⟨rowsEffects ⟨file, t.gtidEnd⟩ 0 events, _, by simp only [bodyEffects, hb]; rfl,
      fun eff => mem_rowsEffects, ?_⟩
    intro eff heff
    simp only [mem_cons, not_mem_nil, or_false] at heff
    rcases heff with rfl | rfl
    · exact Or.inl ⟨_, rfl⟩
    · refine Or.inr ⟨_, rfl, ?_⟩
      split
      · exact Or.inl rfl
      · exact Or.inr rfl
  | ddl schema query =>
    refine ⟨[.emit _], [.committed ⟨file, t.endPos⟩], by simp only [bodyEffects, hb]; rfl, ?_, ?_⟩
    · intro eff heff
      rw [mem_singleton.mp heff]
      refine ⟨_, rfl, ?_⟩
      simp [ownEvent, ddlID, newEvent, isPublishable, append_assoc]
    · intro eff heff
      rw [mem_singleton.mp heff]
      exact Or.inr ⟨_, rfl, Or.inl rfl⟩

namespace Binlog

variable {b : Binlog}

/-- If `x` records a boundary, what `y` emits does not precede it. -/
def InOrder (b : Binlog) (x y : Loc × Effect) : Prop :=
  ∀ pos, x.2 = .committed pos → minBinlogPosition ≤ pos.position →
    ∀ e, y.2 = .emit e → b.before y.1 pos = false

variable {i : Nat} {f : BinlogFile} {x : Loc × Effect} {pos : BinlogPosition}

/-- What `x` records, in the file with index `i`, no emission at or after position `p` of that
    file, or in a later file, precedes. -/
private theorem inOrder_of_le {i : Nat} {f : BinlogFile} (hf : b.files[i]? = some f)
    {x y : Loc × Effect}
    (hx : ∀ pos, x.2 = .committed pos → minBinlogPosition ≤ pos.position →
      pos.file = f.name ∧ (y.1.1 = i → pos.position ≤ y.1.2))
    (hy : i ≤ y.1.1) : b.InOrder x y := by
  intro pos hpos hmin e _
  obtain ⟨hfile, hle⟩ := hx pos hpos hmin
  rw [before, hfile, fileIndex_name hf]
  simp only [Bool.or_eq_false_iff, decide_eq_false_iff_not, Bool.and_eq_false_imp,
    decide_eq_true_eq, Nat.not_lt]
  exact ⟨hy, hle⟩

/-- Only the boundaries of a transaction are recorded while it is read. -/
private theorem committed_txn {file : GoString} {t : BinlogTxn}
    (h : .committed pos ∈ txnEffects file t) (hmin : minBinlogPosition ≤ pos.position) :
    pos.file = file ∧ (pos.position = t.start ∨ pos.position = t.endPos) := by
  rcases mem_cons.mp h with h | h
  · cases h
    exact ⟨rfl, Or.inl rfl⟩
  · obtain ⟨emits, tail, hbody, hemits, htail⟩ := bodyEffects_cases file t
    rw [hbody, mem_append] at h
    rcases h with h | h
    · obtain ⟨e, he, -⟩ := hemits _ h
      exact nomatch he
    · rcases htail _ h with ⟨e, he⟩ | ⟨p, hp, hcases⟩
      · exact nomatch he
      · cases hp
        rcases hcases with rfl | rfl
        · exact ⟨rfl, Or.inr rfl⟩
        · -- an XID inside a compressed payload reports 0, which is no position
          exact absurd hmin (Nat.not_succ_le_zero 3)

/-- Within a transaction: its start is recorded first and its end last. -/
private theorem inOrder_txn (hf : b.files[i]? = some f) (t : BinlogTxn) :
    ((txnEffects f.name t).map ((i, t.start), ·)).Pairwise b.InOrder := by
  obtain ⟨emits, tail, hbody, hemits, htail⟩ := bodyEffects_cases f.name t
  rw [pairwise_map, txnEffects, hbody, pairwise_cons, pairwise_append]
  refine ⟨fun y _ => inOrder_of_le hf (fun pos hpos _ => ?_) (Nat.le_refl i), ?_, ?_, ?_⟩
  · cases hpos
    exact ⟨rfl, fun _ => Nat.le_refl _⟩
  · -- what is only emitted records nothing
    refine pairwise_of_forall_mem_list fun x hx y _ pos hpos => ?_
    obtain ⟨e, he, -⟩ := hemits x hx
    exact nomatch he.symm.trans hpos
  · -- and the rest emits nothing
    refine pairwise_of_forall_mem_list fun x _ y hy pos _ _ e he => ?_
    rcases htail y hy with ⟨e', he'⟩ | ⟨p, hp, -⟩
    · exact nomatch he'.symm.trans he
    · exact nomatch hp.symm.trans he
  · intro x hx y _ pos hpos
    obtain ⟨e, he, -⟩ := hemits _ hx
    exact nomatch he.symm.trans hpos

theorem mem_txnsEffects {file : GoString} {txns : List BinlogTxn}
    (h : x ∈ txnsEffects i file txns) :
    ∃ t ∈ txns, x.1 = (i, t.start) ∧ x.2 ∈ txnEffects file t := by
  obtain ⟨t, ht, hx⟩ := mem_flatMap.mp h
  obtain ⟨eff, heff, rfl⟩ := mem_map.mp hx
  exact ⟨t, ht, rfl, heff⟩

/-- Within a file. -/
private theorem inOrder_file (hf : b.files[i]? = some f) :
    (fileEffects i f).Pairwise b.InOrder := by
  have hmem : f ∈ b.files := mem_of_getElem? hf
  rw [fileEffects, pairwise_append]
  refine ⟨?_, ?_, ?_⟩
  · -- switching to a file emits nothing
    refine pairwise_replicate.mpr (Or.inr fun pos _ _ e he => ?_)
    cases he
  · -- a transaction ends before the next one starts
    rw [txnsEffects, pairwise_flatMap]
    refine ⟨fun t _ => inOrder_txn hf t, ?_⟩
    refine (b.txns_ordered f hmem).imp_of_mem fun {t u} ht hu hle x hx y hy => ?_
    obtain ⟨eff, heff, rfl⟩ := mem_map.mp hx
    obtain ⟨eff', -, rfl⟩ := mem_map.mp hy
    refine inOrder_of_le hf (fun pos hpos hmin => ?_) (Nat.le_refl i)
    have hpos : eff = .committed pos := hpos
    obtain ⟨hfile, hcases⟩ := committed_txn (hpos ▸ heff) hmin
    have h₁ := (b.txns_wf f hmem t ht).start_lt
    have h₂ := (b.txns_wf f hmem t ht).gtidEnd_lt
    exact ⟨hfile, fun _ => by rcases hcases with h | h <;> simp only <;> omega⟩
  · -- and all of them start after the header of the file
    intro x hx y hy
    rw [eq_of_mem_replicate hx]
    obtain ⟨t, ht, hloc, -⟩ := mem_txnsEffects hy
    refine inOrder_of_le hf (fun pos hpos _ => ?_) (by rw [hloc])
    cases hpos
    exact ⟨rfl, fun _ => by rw [hloc]; exact (b.txns_wf f hmem t ht).start_ge⟩

/-- What is recorded in a file is a boundary of that file. -/
private theorem committed_file (hx : x ∈ fileEffects i f) (hpos : x.2 = .committed pos)
    (hmin : minBinlogPosition ≤ pos.position) :
    pos.file = f.name ∧ (pos.position = minBinlogPosition ∨
      ∃ t ∈ f.txns, pos.position = t.start ∨ pos.position = t.endPos) := by
  rw [fileEffects, mem_append] at hx
  rcases hx with hx | hx
  · rw [eq_of_mem_replicate hx] at hpos
    cases hpos
    exact ⟨rfl, Or.inl rfl⟩
  · obtain ⟨t, ht, -, heff⟩ := mem_txnsEffects hx
    obtain ⟨hfile, hcases⟩ := committed_txn (hpos ▸ heff) hmin
    exact ⟨hfile, Or.inr ⟨t, ht, hcases⟩⟩

theorem mem_fileEffects_index (hx : x ∈ fileEffects i f) : x.1.1 = i := by
  rw [fileEffects, mem_append] at hx
  rcases hx with hx | hx
  · rw [eq_of_mem_replicate hx]
  · obtain ⟨t, -, hloc, -⟩ := mem_txnsEffects hx
    rw [hloc]

theorem mem_filesEffects {fs : List BinlogFile} (hx : x ∈ filesEffects i fs) :
    ∃ j f, fs[j]? = some f ∧ x ∈ fileEffects (i + j) f := by
  induction fs generalizing i with
  | nil => exact nomatch hx
  | cons f fs ih =>
    rcases mem_append.mp hx with hx | hx
    · exact ⟨0, f, rfl, hx⟩
    · obtain ⟨j, g, hg, hx⟩ := ih hx
      exact ⟨j + 1, g, hg, by rwa [show i + (j + 1) = i + 1 + j by omega]⟩

/-- Everything that precedes a boundary is emitted before the boundary is recorded. -/
theorem effects_ordered (b : Binlog) : b.effects.Pairwise b.InOrder := by
  have hfiles : ∀ i fs, (∀ j f, fs[j]? = some f → b.files[i + j]? = some f) →
      (filesEffects i fs).Pairwise b.InOrder := by
    intro i fs
    induction fs generalizing i with
    | nil => exact fun _ => List.Pairwise.nil
    | cons f fs ih =>
      -- a later file is emitted later, whatever its positions are
      intro hfs
      have hf : b.files[i]? = some f := hfs 0 f rfl
      rw [filesEffects, pairwise_append]
      refine ⟨inOrder_file hf, ih (i + 1) fun j g hg => ?_, fun x hx y hy => ?_⟩
      · rw [show i + 1 + j = i + (j + 1) by omega]
        exact hfs (j + 1) g hg
      · obtain ⟨j, g, -, hy⟩ := mem_filesEffects hy
        have hindex := mem_fileEffects_index hy
        refine inOrder_of_le hf (fun pos hpos hmin => ?_) (by omega)
        exact ⟨(committed_file hx hpos hmin).1, fun h => by omega⟩
  exact hfiles 0 b.files fun j f h => by rwa [Nat.zero_add]

/-- Only boundaries are recorded. -/
theorem committed_boundary (hx : x ∈ b.effects) (hpos : x.2 = .committed pos)
    (hmin : minBinlogPosition ≤ pos.position) : b.IsBoundary pos := by
  obtain ⟨j, f, hf, hx⟩ := mem_filesEffects hx
  obtain ⟨hfile, hcases⟩ := committed_file hx hpos hmin
  exact ⟨f, mem_of_getElem? hf, hfile, hcases⟩

end Binlog

/-! ## The system -/

/-- The bus takes the event, and the gate counts it. -/
def Accepted (e : Event) : Prop := Service.opened.handleEvent e = true ∧ ownEvent e = true

instance (e : Event) : Decidable (Accepted e) := inferInstanceAs (Decidable (_ ∧ _))

/-- What canal's goroutine does, in order, when it reads the binlog with a new handler. -/
def Binlog.program (b : Binlog) : List (Loc × Effect) :=
  ((EventHandler.new b.first.name).perform b.callbacks).1

/-- The events, by their place in the program, that must be acked before the position may be
    confirmed. -/
def Binlog.owes (b : Binlog) (pos : BinlogPosition) : Set Nat :=
  { n | ∃ loc e, b.program[n]? = some (loc, .emit e) ∧ Accepted e ∧ b.before loc pos = true }

/-- Canal's goroutine, the gate, the publisher and the offset store. -/
structure System where
  saver : OffsetSaver
  /-- What canal's goroutine does next. -/
  pc : Nat
  /-- The bus took an event that the gate has not counted yet. -/
  handing : Bool
  /-- Events the bus took and the publisher did not ack yet, oldest first. -/
  bus : List (Nat × Event)
  /-- Events acked, oldest first. -/
  delivered : List Nat
  /-- Positions that `Confirmable` returned. -/
  returned : List BinlogPosition
  /-- Positions that were passed to the offset store. -/
  persisted : List BinlogPosition

/-- What can happen next. -/
inductive Action where
  /-- The next effect of a callback, up to `HandleEvent` for an event that is emitted. -/
  | perform
  /-- `Hand`, after the bus took an event. -/
  | hand
  | ack
  | confirmable
  /-- `saveConfirmedOffset`; whether the store could write the position. -/
  | save (saved : Bool)
  deriving DecidableEq, Repr

namespace System

/-- A gated listener that was started with this offset. -/
def start (savedOffset : BinlogPosition) : System where
  saver := ⟨newCommitGate.enable, savedOffset⟩
  pc := 0
  handing := false
  bus := []
  delivered := []
  returned := []
  persisted := []

/-- What an action does, or nothing if it cannot happen now. -/
def step (b : Binlog) (s : System) : Action → Option System
  | .perform =>
    if s.handing then none
    else
      match b.program[s.pc]? with
      | none => none
      | some (_, .emit e) =>
        if Accepted e then
          -- the gate counts it in a step of its own
          some { s with pc := s.pc + 1, handing := true, bus := s.bus ++ [(s.pc, e)] }
        else some { s with pc := s.pc + 1 }
      | some (_, .handle _) => some { s with pc := s.pc + 1 }
      | some (_, .committed pos) =>
        some { s with
          pc := s.pc + 1
          saver := { s.saver with gate := s.saver.gate.committed pos } }
  | .hand =>
    if s.handing then
      some { s with handing := false, saver := { s.saver with gate := s.saver.gate.hand } }
    else none
  | .ack =>
    match s.bus with
    | [] => none
    | (n, e) :: bus =>
      some { s with
        saver := { s.saver with gate := s.saver.gate.observePublished e }
        bus := bus
        delivered := s.delivered ++ [n] }
  | .confirmable =>
    -- asked without saving
    let ((pos, ok), gate) := s.saver.gate.confirmable
    some { s with
      saver := { s.saver with gate := gate }
      returned := if ok then pos :: s.returned else s.returned }
  | .save saved =>
    let (pos, saver) := s.saver.saveConfirmedOffset saved
    some { s with saver := saver, persisted := pos.toList ++ s.persisted }

/-! ## The invariant -/

/-- Everything the bus took. -/
def log (s : System) : List Nat := s.delivered ++ s.bus.map Prod.fst

/-- The gate's zero position, or a boundary of the binlog. -/
def Resumable (b : Binlog) (pos : BinlogPosition) : Prop := pos.file = [] ∨ b.IsBoundary pos

/-- Resuming at this position loses nothing. -/
def Safe (b : Binlog) (s : System) (pos : BinlogPosition) : Prop :=
  b.IsBoundary pos ∧ ∀ n ∈ b.owes pos, n ∈ s.delivered

/-- What holds in every state of every run. -/
structure Inv (b : Binlog) (s : System) : Prop where
  gated : s.saver.gate.gated = true
  acked : s.saver.gate.acked = s.delivered.length
  handed : s.saver.gate.handed + s.handing.toNat = s.log.length
  own : ∀ x ∈ s.bus, ownEvent x.2 = true
  performed : ∀ n < s.pc, ∀ loc e, b.program[n]? = some (loc, .emit e) → Accepted e → n ∈ s.log
  commits : ∀ c ∈ s.saver.gate.commits,
    Resumable b c.value ∧ Covered b.owes s.log c.count c.value
  confirmed : Resumable b s.saver.gate.confirmed ∧
    Covered b.owes s.log s.saver.gate.acked s.saver.gate.confirmed
  returned : ∀ pos ∈ s.returned, Safe b s pos
  persisted : ∀ pos ∈ s.persisted, Safe b s pos

variable {b : Binlog} {s : System}

theorem Inv.start (b : Binlog) (savedOffset : BinlogPosition) :
    Inv b (System.start savedOffset) where
  gated := rfl
  acked := rfl
  handed := rfl
  own := forall_mem_nil _
  performed := fun n h => absurd h (Nat.not_lt_zero n)
  commits := forall_mem_nil _
  confirmed := by
    refine ⟨Or.inl rfl, ?_⟩
    -- no file has the empty name, so nothing precedes the zero position
    rintro n ⟨loc, e, -, -, hbefore⟩
    have hnone : b.fileIndex BinlogPosition.none.file = none := by
      rw [Binlog.fileIndex, findIdx?_eq_none_iff]
      exact fun f hf => decide_eq_false (b.names_ne f hf)
    have hfalse : b.before loc BinlogPosition.none = false := by rw [Binlog.before, hnone]
    exact nomatch hfalse.symm.trans hbefore
  returned := forall_mem_nil _
  persisted := forall_mem_nil _

variable {s' : System} {pos : BinlogPosition}

theorem Safe.mono (h : Safe b s pos) (hdelivered : s.delivered ⊆ s'.delivered) : Safe b s' pos :=
  ⟨h.1, fun n hn => hdelivered (h.2 n hn)⟩

/-- What a boundary owes is emitted before the boundary is recorded. -/
theorem lt_of_owes {k n : Nat} {loc : Loc} (hk : b.program[k]? = some (loc, .committed pos))
    (hmin : minBinlogPosition ≤ pos.position) (hn : n ∈ b.owes pos) : n < k := by
  obtain ⟨loc', e, hemit, -, hbefore⟩ := hn
  rw [Binlog.program, perform_callbacks] at hk hemit
  obtain ⟨hklt, hkeq⟩ := List.getElem?_eq_some_iff.mp hk
  obtain ⟨hnlt, hneq⟩ := List.getElem?_eq_some_iff.mp hemit
  rcases Nat.lt_trichotomy n k with hlt | rfl | hlt
  · exact hlt
  · exact nomatch hk.symm.trans hemit
  · -- an emission after `k` does not precede what `k` records
    have hord := pairwise_iff_getElem.mp b.effects_ordered k n hklt hnlt hlt
    rw [hkeq, hneq] at hord
    exact nomatch (hord pos rfl hmin e rfl).symm.trans hbefore

/-- The gate after it recorded a position that canal reported. -/
theorem Inv.committed (h : Inv b s) (hhanding : s.handing = false) {loc : Loc}
    (hpc : b.program[s.pc]? = some (loc, .committed pos)) :
    ∀ c ∈ (s.saver.gate.committed pos).commits,
      Resumable b c.value ∧ Covered b.owes s.log c.count c.value := by
  rw [CommitGate.committed]
  split
  · -- a position below the first one of a file is ignored
    exact h.commits
  · rename_i hpos
    have hmin : minBinlogPosition ≤ pos.position := by
      simp only [Bool.or_eq_true, decide_eq_true_eq, not_or] at hpos
      omega
    have hboundary : Resumable b pos := by
      rw [Binlog.program, perform_callbacks] at hpc
      exact Or.inr (Binlog.committed_boundary (mem_of_getElem? hpc) rfl hmin)
    -- nothing is in flight, so the gate has counted all that the boundary owes
    have hcovered : Covered b.owes s.log s.saver.gate.handed pos := by
      intro n hn
      have hlen := h.handed
      rw [hhanding, Bool.toNat_false, Nat.add_zero] at hlen
      rw [hlen, take_length]
      have hlt := lt_of_owes hpc hmin hn
      obtain ⟨loc', e, hemit, haccepted, -⟩ := hn
      exact h.performed n hlt loc' e hemit haccepted
    exact record_forall h.commits ⟨hboundary, hcovered⟩ fun _ _ => ⟨hboundary, hcovered⟩

/-- What is performed at `s.pc`, unless the bus takes it, is accounted for. -/
private theorem Inv.performed_succ (h : Inv b s)
    (hpc : ∀ loc e, b.program[s.pc]? = some (loc, .emit e) → ¬Accepted e) :
    ∀ n < s.pc + 1, ∀ loc e, b.program[n]? = some (loc, .emit e) → Accepted e → n ∈ s.log := by
  intro n hn loc e hemit haccepted
  by_cases hlt : n < s.pc
  · exact h.performed n hlt loc e hemit haccepted
  · obtain rfl : n = s.pc := by omega
    exact absurd haccepted (hpc loc e hemit)

/-- The bus takes the event at `s.pc`; `Hand` follows as a step of its own. -/
private theorem Inv.taken (h : Inv b s) (hhanding : s.handing = false) {e : Event}
    (haccepted : Accepted e) :
    Inv b { s with pc := s.pc + 1, handing := true, bus := s.bus ++ [(s.pc, e)] } := by
  have hlog : ({ s with pc := s.pc + 1, handing := true, bus := s.bus ++ [(s.pc, e)] } :
      System).log = s.log ++ [s.pc] := by simp [log]
  refine ⟨h.gated, h.acked, ?_, ?_, ?_, ?_, ?_, h.returned, h.persisted⟩
  · -- the log is one longer, and the event in flight makes up for it
    have := h.handed
    simp only [hlog, length_append, length_singleton, hhanding, Bool.toNat_false,
      Bool.toNat_true] at this ⊢
    omega
  · intro x hx
    cases mem_append.mp hx with
    | inl hx => exact h.own x hx
    | inr hx =>
      rw [mem_singleton.mp hx]
      exact haccepted.2
  · intro n hn loc' e' hemit haccepted'
    rw [hlog, mem_append, mem_singleton]
    by_cases hlt : n < s.pc
    · exact Or.inl (h.performed n hlt loc' e' hemit haccepted')
    · exact Or.inr (by simp only at hn; omega)
  · intro c hc
    rw [hlog]
    exact ⟨(h.commits c hc).1, (h.commits c hc).2.append _⟩
  · rw [hlog]
    exact ⟨h.confirmed.1, h.confirmed.2.append _⟩

/-- `Committed` touches the waiting positions only. -/
private theorem committed_eq (g : CommitGate) (pos : BinlogPosition) :
    g.committed pos = { g with commits := (g.committed pos).commits } := by
  rw [CommitGate.committed]
  split
  · rfl
  · rfl

/-- Canal's goroutine performs the next effect. -/
theorem Inv.perform (h : Inv b s) (hstep : step b s .perform = some s') : Inv b s' := by
  simp only [step] at hstep
  split at hstep
  · exact nomatch hstep
  rename_i hhanding
  rw [Bool.not_eq_true] at hhanding
  split at hstep
  · exact nomatch hstep
  · rename_i loc e hpc
    split at hstep
    · rename_i haccepted
      simp only [some.injEq] at hstep
      subst hstep
      exact h.taken hhanding haccepted
    · -- refused, or not counted: no position waits for it
      rename_i hrefused
      simp only [some.injEq] at hstep
      subst hstep
      refine { h with performed := h.performed_succ fun loc' e' hemit => ?_ }
      rw [hpc, some.injEq, Prod.mk.injEq, Effect.emit.injEq] at hemit
      exact hemit.2 ▸ hrefused
  · rename_i loc e hpc
    simp only [some.injEq] at hstep
    subst hstep
    exact { h with performed := h.performed_succ fun _ _ hemit => nomatch hpc.symm.trans hemit }
  · -- a position is recorded
    rename_i loc pos hpc
    simp only [some.injEq] at hstep
    subst hstep
    rw [committed_eq]
    exact { h with
      commits := h.committed hhanding hpc
      performed := h.performed_succ fun _ _ hemit => nomatch hpc.symm.trans hemit }

theorem Inv.hand (h : Inv b s) (hstep : step b s .hand = some s') : Inv b s' := by
  simp only [step] at hstep
  split at hstep
  · rename_i hhanding
    simp only [some.injEq] at hstep
    subst hstep
    have hhanded := h.handed
    rw [hhanding, Bool.toNat_true] at hhanded
    exact { h with handed := hhanded }
  · exact nomatch hstep

/-- The publisher acks the oldest event. -/
theorem Inv.ack (h : Inv b s) (hstep : step b s .ack = some s') : Inv b s' := by
  simp only [step] at hstep
  split at hstep
  · exact nomatch hstep
  rename_i n e bus hbus
  simp only [some.injEq] at hstep
  subst hstep
  have hown : ownEvent e = true := h.own (n, e) (by rw [hbus]; exact mem_cons_self)
  have hlog : (s.delivered ++ [n]) ++ bus.map Prod.fst = s.log := by simp [log, hbus]
  have hdelivered : s.delivered ⊆ s.delivered ++ [n] := subset_append_left _ _
  simp only [CommitGate.observePublished, if_pos hown]
  -- an ack moves the oldest event of the bus over, so the log stays as it is
  refine ⟨h.gated, ?_, ?_, ?_, ?_, ?_, ?_, ?_, ?_⟩
  · simp [h.acked]
  · rw [log, hlog]
    exact h.handed
  · exact fun x hx => h.own x (by rw [hbus]; exact mem_cons_of_mem _ hx)
  · rw [log, hlog]
    exact h.performed
  · rw [log, hlog]
    exact h.commits
  · rw [log, hlog]
    exact ⟨h.confirmed.1, h.confirmed.2.mono (Nat.le_succ _)⟩
  · exact fun pos hpos => (h.returned pos hpos).mono hdelivered
  · exact fun pos hpos => (h.persisted pos hpos).mono hdelivered

/-- What the gate releases is a boundary that everything before it was acked for. -/
theorem Inv.settled (h : Inv b s) (savedOffset : BinlogPosition) :
    Inv b { s with saver := ⟨s.saver.gate.confirmable.2, savedOffset⟩ } := by
  have hreached : (if s.saver.gate.gated then s.saver.gate.acked else s.saver.gate.handed) =
      s.saver.gate.acked := if_pos h.gated
  refine { h with commits := ?_, confirmed := ?_ }
  · exact settle_forall h.commits _ _
  · -- the last boundary released replaces those before it
    simp only [CommitGate.confirmable, hreached]
    refine settle_released (Q := fun pos => Resumable b pos ∧
      Covered b.owes s.log s.saver.gate.acked pos) h.commits h.confirmed ?_
    exact fun _ c _ hc hle => ⟨hc.1, hc.2.mono hle⟩

theorem Inv.safe_confirmed (h : Inv b s) (hok : s.saver.gate.confirmed.file ≠ []) :
    Safe b s s.saver.gate.confirmed := by
  refine ⟨h.confirmed.1.resolve_left hok, fun n hn => ?_⟩
  have hmem := h.confirmed.2 n hn
  rwa [h.acked, log, take_left] at hmem

/-- `Confirmable` is called. -/
theorem Inv.confirmable (h : Inv b s) (hstep : step b s .confirmable = some s') : Inv b s' := by
  simp only [step, some.injEq, confirmable_fst] at hstep
  subst hstep
  have hsettled := h.settled s.saver.savedOffset
  by_cases hok : s.saver.gate.confirmable.2.confirmed.file = []
  · simp only [hok, ne_eq, not_true_eq_false, decide_false, Bool.false_eq_true, ↓reduceIte]
    exact { hsettled with }
  · simp only [hok, ne_eq, not_false_eq_true, decide_true, ↓reduceIte]
    exact { hsettled with
      returned := forall_mem_cons.mpr ⟨hsettled.safe_confirmed hok, h.returned⟩ }

/-- `saveConfirmedOffset` is called. -/
theorem Inv.save {saved : Bool} (h : Inv b s) (hstep : step b s (.save saved) = some s') :
    Inv b s' := by
  simp only [step, some.injEq] at hstep
  subst hstep
  obtain ⟨pos, savedOffset, hsave, hpos⟩ := saveConfirmedOffset_cases s.saver saved
  have hsettled := h.settled savedOffset
  rw [hsave]
  refine { hsettled with persisted := ?_ }
  rcases hpos with rfl | ⟨rfl, hfile⟩
  · exact h.persisted
  · exact forall_mem_cons.mpr ⟨hsettled.safe_confirmed hfile, h.persisted⟩

/-- One step of the system. -/
theorem Inv.step {a : Action} (h : Inv b s) (hstep : System.step b s a = some s') : Inv b s' := by
  cases a with
  | perform => exact h.perform hstep
  | hand => exact h.hand hstep
  | ack => exact h.ack hstep
  | confirmable => exact h.confirmable hstep
  | save saved => exact h.save hstep

/-- In every run, every position that `Confirmable` returned or that was persisted is a boundary,
    never inside a transaction, and every event before it that the bus took has been acked. -/
theorem confirmable_delivered (b : Binlog) (savedOffset : BinlogPosition) (actions : List Action)
    (s : System) (hrun : runSteps (step b) (start savedOffset) actions = some s)
    (pos : BinlogPosition) (hpos : pos ∈ s.returned ∨ pos ∈ s.persisted) :
    b.IsBoundary pos ∧ ¬b.IsInside pos ∧
      ∀ n loc e, b.program[n]? = some (loc, .emit e) → Service.opened.handleEvent e = true →
        ownEvent e = true → b.before loc pos = true → n ∈ s.delivered := by
  have hinv : Inv b s := runSteps_invariant (fun h => h.step) (Inv.start b savedOffset) hrun
  have hsafe : Safe b s pos := hpos.elim (hinv.returned pos) (hinv.persisted pos)
  refine ⟨hsafe.1, hsafe.1.not_inside, fun n loc e hemit haccepted hown hbefore => ?_⟩
  exact hsafe.2 n ⟨loc, e, hemit, ⟨haccepted, hown⟩, hbefore⟩

/-- A compressed transaction of two rows, then a file with a statement. -/
def sampleBinlog : Binlog where
  first := ⟨ascii "a.1", 0,
    [⟨4, 80, .rows [⟨⟨ascii "s", ascii "t", []⟩, .insert, [[], []], none⟩] false, 200⟩]⟩
  others := [⟨ascii "a.2", 2, [⟨126, 200, .ddl (ascii "s") (ascii "DROP TABLE t"), 300⟩]⟩]
  names_nodup := by decide
  names_ne := by decide
  rotated := by decide
  txns_wf := by decide
  txns_ordered := by decide

/-- The first row is acked before it is counted; the statement is still unacked at the end. -/
def sampleRun : List Action :=
  [.perform, .perform, .ack, .hand, .confirmable, .perform, .hand, .perform, .perform, .perform,
    .perform, .confirmable, .ack, .perform, .confirmable, .save true, .perform, .hand, .perform,
    .confirmable]

theorem confirmable_delivered_sample :
    ∃ s, runSteps (step sampleBinlog) (start BinlogPosition.none) sampleRun = some s ∧
      s.returned = [⟨ascii "a.2", 126⟩, ⟨ascii "a.2", 126⟩, ⟨ascii "a.1", 4⟩, ⟨ascii "a.1", 4⟩] ∧
      s.persisted = [⟨ascii "a.2", 126⟩] ∧
      sampleBinlog.IsBoundary ⟨ascii "a.2", 126⟩ ∧ ¬sampleBinlog.IsInside ⟨ascii "a.2", 126⟩ ∧
      ∀ n loc e, sampleBinlog.program[n]? = some (loc, .emit e) →
        Service.opened.handleEvent e = true → ownEvent e = true →
        sampleBinlog.before loc ⟨ascii "a.2", 126⟩ = true → n ∈ s.delivered :=
  ⟨_, rfl, rfl, rfl, confirmable_delivered sampleBinlog BinlogPosition.none sampleRun _ rfl
    ⟨ascii "a.2", 126⟩ (Or.inr mem_cons_self)⟩

end System

end Mysql
