import Watcher.Model.GoString

/-!
# Replication slot ownership and cleanup (`internal/postgres`)

The owner registry (`slotregistry.go`) and the decision which slots a cleanup
pass drops (`slotcleanup.go`). The registry is a table of the source database;
`register`, `heartbeat` and `release` are its SQL statements as functions on
that table.

A time is a number of nanoseconds. Slot patterns are regular expressions from
the configuration and stand here as predicates on names.
-/

namespace Postgres

/-! ### Times -/

/-- `time.Duration`, 64 bits. -/
def Duration := { d : Int // -2 ^ 63 ≤ d ∧ d < 2 ^ 63 }

/-- `Time.Sub`: a difference beyond 64 bits is clamped. -/
def timeSub (t u : Int) : Int :=
  if 2 ^ 63 ≤ t - u then 2 ^ 63 - 1 else if t - u < -2 ^ 63 then -2 ^ 63 else t - u

/-- Clamping does not change how a difference compares with a positive duration. -/
theorem timeSub_lt_iff (t u : Int) (d : Duration) (hpos : 0 < d.val) :
    timeSub t u < d.val ↔ t - u < d.val := by
  have hd := d.property
  unfold timeSub
  split
  · omega
  · split <;> omega

/-! ### The owner registry -/

structure SlotOwner where
  ownerID : GoString
  heartbeatAt : Int
  releasedAt : Option Int
  deriving DecidableEq, Repr

/-- The rows of the owner table, by slot name. -/
abbrev SlotOwners := GoString → Option SlotOwner

/-- `registerSQL`: insert the row, or take it over. -/
def SlotOwners.register (owners : SlotOwners) (slot owner : GoString) (now : Int) : SlotOwners :=
  fun name => if name = slot then some ⟨owner, now, none⟩ else owners name

/-- `UPDATE … WHERE slot_name = $1 AND owner_id = $2` -/
def SlotOwners.update (owners : SlotOwners) (slot owner : GoString) (f : SlotOwner → SlotOwner) :
    SlotOwners :=
  fun name => (owners name).map fun row =>
    if name = slot ∧ row.ownerID = owner then f row else row

/-- `heartbeatSQL` -/
def SlotOwners.heartbeat (owners : SlotOwners) (slot owner : GoString) (now : Int) : SlotOwners :=
  owners.update slot owner fun row => { row with heartbeatAt := now }

/-- `releaseSQL` -/
def SlotOwners.release (owners : SlotOwners) (slot owner : GoString) (now : Int) : SlotOwners :=
  owners.update slot owner fun row => { row with releasedAt := some now }

/-! ### The orphan rules -/

structure SlotCandidate where
  name : GoString
  active : Bool
  retainedWALBytes : UInt64
  /-- Absent when no registry row exists. -/
  owner : Option SlotOwner
  deriving DecidableEq, Repr

structure OrphanRules where
  ownSlot : GoString
  /-- `pattern.MatchString` -/
  pattern : GoString → Bool
  staleAfter : Duration
  /-- 0: any amount of retained WAL qualifies. -/
  retainedThreshold : UInt64

structure OrphanDecision where
  drop : Bool
  reason : GoString
  deriving DecidableEq, Repr

def keep (reason : String) : OrphanDecision := ⟨false, ascii reason⟩

def drop (reason : String) : OrphanDecision := ⟨true, ascii reason⟩

/-- `decide` at the time `now`. -/
def OrphanRules.decide (r : OrphanRules) (now : Int) (c : SlotCandidate)
    (firstSeenInactive : Int) : OrphanDecision :=
  if c.name = r.ownSlot then keep "own slot"
  else if !r.pattern c.name then keep "name does not match pattern"
  else if c.active then keep "active"
  else if r.retainedThreshold > 0 && c.retainedWALBytes ≤ r.retainedThreshold then
    keep "retained wal below threshold"
  else if (c.owner.bind SlotOwner.releasedAt).isSome then drop "released by owner"
  else
    let lastAlive :=
      match c.owner with
      | some owner => owner.heartbeatAt
      | none => firstSeenInactive
    if timeSub now lastAlive < r.staleAfter.val then keep "recent heartbeat"
    else drop "heartbeat stale"

/-! ### The cleaner -/

structure SlotCleaner where
  rules : OrphanRules
  dryRun : Bool
  /-- When a slot without a registry row was first seen inactive. -/
  inactiveSince : GoString → Option Int

def newSlotCleaner (rules : OrphanRules) (dryRun : Bool) : SlotCleaner :=
  ⟨rules, dryRun, fun _ => none⟩

/-- `c.inactiveSince[name] = mark`, or `delete(c.inactiveSince, name)`. -/
def SlotCleaner.mark (c : SlotCleaner) (name : GoString) (mark : Option Int) : SlotCleaner :=
  { c with inactiveSince := fun n => if n = name then mark else c.inactiveSince n }

/-- `observeInactive`: the mark to use for this candidate. -/
def SlotCleaner.observeInactive (c : SlotCleaner) (now : Int) (candidate : SlotCandidate) :
    Int × SlotCleaner :=
  -- the mark of an active or registered slot is never read, here it is the zero time
  if candidate.active || candidate.owner.isSome then (0, c.mark candidate.name none)
  else
    match c.inactiveSince candidate.name with
    | some firstSeen => (firstSeen, c)
    | none => (now, c.mark candidate.name (some now))

/-- What a pass has done so far: the names `drop` was called with and, of these, the ones for which
    it returned an error. -/
structure PassLog where
  calls : List GoString
  failed : List GoString
  deriving DecidableEq, Repr

/-- `dropSlot`, where `fails` is whether the database refuses. -/
def SlotCleaner.dropSlot (c : SlotCleaner) (candidate : SlotCandidate) (fails : Bool)
    (log : PassLog) : SlotCleaner × PassLog :=
  if c.dryRun then (c, log)
  else if fails then (c, ⟨log.calls ++ [candidate.name], log.failed ++ [candidate.name]⟩)
  else (c.mark candidate.name none, ⟨log.calls ++ [candidate.name], log.failed⟩)

/-- The loop body of `cleanupOnce`. -/
def SlotCleaner.cleanupCandidate (c : SlotCleaner) (now : Int) (fails : GoString → Bool)
    (log : PassLog) (candidate : SlotCandidate) : SlotCleaner × PassLog :=
  let (firstSeen, c) := c.observeInactive now candidate
  if (c.rules.decide now candidate firstSeen).drop then
    c.dropSlot candidate (fails candidate.name) log
  else (c, log)

/-- `for _, candidate := range candidates` -/
def SlotCleaner.cleanupLoop (now : Int) (fails : GoString → Bool) :
    SlotCleaner → PassLog → List SlotCandidate → SlotCleaner × PassLog
  | c, log, [] => (c, log)
  | c, log, candidate :: rest =>
    let (c, log) := c.cleanupCandidate now fails log candidate
    SlotCleaner.cleanupLoop now fails c log rest

/-- One pass as the cleaner meets it: the clock, what `fetch` returns (`none` when it fails) and
    the slots that the database refuses to drop. -/
structure Pass where
  now : Int
  fetched : Option (List SlotCandidate)
  fails : GoString → Bool

/-- `cleanupOnce` -/
def SlotCleaner.cleanupOnce (c : SlotCleaner) (p : Pass) : SlotCleaner × PassLog :=
  match p.fetched with
  | none => (c, ⟨[], []⟩)
  | some candidates => SlotCleaner.cleanupLoop p.now p.fails c ⟨[], []⟩ candidates

/-! ### Lemmas -/

/-- When `decide` says drop. -/
theorem OrphanRules.decide_drop_iff (r : OrphanRules) (now : Int) (c : SlotCandidate)
    (firstSeen : Int) (hstale : 0 < r.staleAfter.val) :
    (r.decide now c firstSeen).drop = true ↔
      c.name ≠ r.ownSlot ∧ r.pattern c.name = true ∧ c.active = false ∧
        (0 < r.retainedThreshold → r.retainedThreshold < c.retainedWALBytes) ∧
        ((∃ owner, c.owner = some owner ∧ owner.releasedAt ≠ none) ∨
          (∃ owner, c.owner = some owner ∧ r.staleAfter.val ≤ now - owner.heartbeatAt) ∨
          (c.owner = none ∧ r.staleAfter.val ≤ now - firstSeen)) := by
  unfold OrphanRules.decide
  by_cases hown : c.name = r.ownSlot
  · simp [hown, keep]
  by_cases hpattern : r.pattern c.name = true
  swap
  · simp [hown, hpattern, keep]
  by_cases hactive : c.active = true
  · simp [hown, hpattern, hactive, keep]
  by_cases hretained : 0 < r.retainedThreshold ∧ c.retainedWALBytes ≤ r.retainedThreshold
  · have hnot : ¬r.retainedThreshold < c.retainedWALBytes := UInt64.not_lt.mpr hretained.2
    simp [hown, hpattern, hactive, hretained, hnot, keep]
  have hwal : 0 < r.retainedThreshold → r.retainedThreshold < c.retainedWALBytes :=
    fun h => UInt64.not_le.mp fun hle => hretained ⟨h, hle⟩
  rw [if_neg hown, if_neg (by simp [hpattern]), if_neg hactive, if_neg (by simpa using hwal)]
  have hinactive : c.active = false := by simpa using hactive
  have hrest : ∀ Q : Prop, (c.name ≠ r.ownSlot ∧ r.pattern c.name = true ∧ c.active = false ∧
      (0 < r.retainedThreshold → r.retainedThreshold < c.retainedWALBytes) ∧ Q) ↔ Q :=
    fun Q => ⟨fun h => h.2.2.2.2, fun q => ⟨hown, hpattern, hinactive, hwal, q⟩⟩
  rw [hrest]
  -- what is left depends on the registry row
  cases c.owner with
  | none => simp [apply_ite OrphanDecision.drop, keep, drop, timeSub_lt_iff _ _ _ hstale]
  | some owner =>
    cases hreleased : owner.releasedAt with
    | some released => simp [hreleased, drop]
    | none => simp [hreleased, apply_ite OrphanDecision.drop, keep, drop,
        timeSub_lt_iff _ _ _ hstale]

@[simp] theorem SlotCleaner.mark_inactiveSince (c : SlotCleaner) (name n : GoString)
    (m : Option Int) :
    (c.mark name m).inactiveSince n = if n = name then m else c.inactiveSince n := rfl

end Postgres
