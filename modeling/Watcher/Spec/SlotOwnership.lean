import Watcher.ForStd.List
import Watcher.Lib.Run
import Watcher.Model.SlotCleanup

/-!
# Several watchers on one database

Every watcher registers its slot, creates it, streams from it, heartbeats the
registry row, releases it when it stops and, while it runs, cleans up the slots
of the others. A cleanup pass decides on the rows its fetch read; the drop that
follows acts on the database as it is then.

Between the two a stopped watcher may start again: its slot is inactive until
streaming begins and the database lets it be dropped. `fresh_drop_spares_running`
says that this is the only danger: a drop that the registry row as it is now
still supports never takes the slot of a running watcher.
-/

namespace Postgres

open Run Option

/-! ### Watchers and their database -/

/-- The watchers on one database: slot and owner id of each, and the settings of its cleanup. -/
structure Fleet (n : Nat) where
  slot : Fin n → GoString
  ownerID : Fin n → GoString
  pattern : Fin n → GoString → Bool
  staleAfter : Fin n → Duration
  retainedThreshold : Fin n → UInt64
  dryRun : Fin n → Bool
  slot_inj : ∀ w v, slot w = slot v → w = v
  staleAfter_pos : ∀ w, 0 < (staleAfter w).val

/-- The orphan rules of a watcher (`newSlotCleaner` of the listener). -/
def Fleet.rules {n : Nat} (f : Fleet n) (w : Fin n) : OrphanRules :=
  ⟨f.slot w, f.pattern w, f.staleAfter w, f.retainedThreshold w⟩

/-- A row of `pg_replication_slots`. -/
structure Slot where
  name : GoString
  active : Bool
  deriving DecidableEq, Repr

/-- One watcher. -/
structure WatcherState where
  /-- Registered since its last start and neither stopped nor crashed since. -/
  running : Bool
  /-- When it last registered or sent a heartbeat. -/
  lastBeat : Int
  cleaner : SlotCleaner
  /-- The candidates of the present pass that are still to be decided. -/
  todo : List SlotCandidate
  /-- A candidate for which `pg_drop_replication_slot` has been called but not executed. -/
  dropping : Option SlotCandidate

structure FleetState (n : Nat) where
  now : Int
  slots : List Slot
  owners : SlotOwners
  watchers : Fin n → WatcherState

inductive FleetAction (n : Nat) where
  /-- Time passes. -/
  | tick (d : Nat)
  /-- A start or restart as far as `setupSlotOwnership`. -/
  | register (w : Fin n)
  /-- `createReplicationSlotIfNotExists` -/
  | createSlot (w : Fin n)
  | startStreaming (w : Fin n)
  | loseStreaming (w : Fin n)
  | heartbeat (w : Fin n)
  /-- A graceful stop. -/
  | release (w : Fin n)
  | crash (w : Fin n)
  /-- `fetchSlotCandidates`; how much WAL each slot retains is up to the database. -/
  | fetch (w : Fin n) (retained : GoString → UInt64)
  /-- `decide` on the next candidate of the pass. -/
  | decide (w : Fin n)
  /-- The database executes the drop that was called last. -/
  | drop (w : Fin n)
  /-- That drop fails for some reason of its own. -/
  | dropFails (w : Fin n)

namespace FleetState

variable {n : Nat}

def setWatcher (s : FleetState n) (w : Fin n) (ws : WatcherState) : FleetState n :=
  { s with watchers := fun v => if v = w then ws else s.watchers v }

def hasSlot (s : FleetState n) (name : GoString) : Bool := s.slots.any fun x => x.name == name

/-- The slot exists and nobody streams from it, so that the database lets it be dropped. -/
def droppable (s : FleetState n) (name : GoString) : Bool :=
  s.slots.any fun x => x.name == name && !x.active

def setActive (s : FleetState n) (name : GoString) (active : Bool) : FleetState n :=
  { s with slots := s.slots.map fun x => if x.name = name then { x with active := active } else x }

/-- The rows of `slotCandidatesSQL`. -/
def candidates (s : FleetState n) (retained : GoString → UInt64) : List SlotCandidate :=
  s.slots.map fun x => ⟨x.name, x.active, retained x.name, s.owners x.name⟩

/-- A running watcher sends its next heartbeat before the last one is stale for anyone. -/
def beatsInTime (f : Fleet n) (s : FleetState n) (now : Int) : Prop :=
  ∀ w, (s.watchers w).running = true → ∀ v, now - (s.watchers w).lastBeat < (f.staleAfter v).val

instance (f : Fleet n) (s : FleetState n) (now : Int) : Decidable (beatsInTime f s now) :=
  inferInstanceAs (Decidable (∀ w, (s.watchers w).running = true → ∀ v,
    now - (s.watchers w).lastBeat < (f.staleAfter v).val))

/-- One step. A watcher cleans up only while it runs, but a drop it has called may still be
    executed later. -/
def step (f : Fleet n) (s : FleetState n) : FleetAction n → Option (FleetState n)
  | .tick d => if beatsInTime f s (s.now + d) then some { s with now := s.now + d } else none
  | .register w =>
    if (s.watchers w).running then none
    else
      let s := { s with owners := s.owners.register (f.slot w) (f.ownerID w) s.now }
      some (s.setWatcher w ⟨true, s.now, newSlotCleaner (f.rules w) (f.dryRun w), [],
        (s.watchers w).dropping⟩)
  | .createSlot w =>
    if !(s.watchers w).running then none
    else if s.hasSlot (f.slot w) then some s
    else some { s with slots := s.slots ++ [⟨f.slot w, false⟩] }
  | .startStreaming w =>
    if (s.watchers w).running && s.hasSlot (f.slot w) then some (s.setActive (f.slot w) true)
    else none
  -- the walsender notices that its client is gone
  | .loseStreaming w => some (s.setActive (f.slot w) false)
  | .heartbeat w =>
    if (s.watchers w).running then
      let s := { s with owners := s.owners.heartbeat (f.slot w) (f.ownerID w) s.now }
      some (s.setWatcher w { s.watchers w with lastBeat := s.now })
    else none
  | .release w =>
    if (s.watchers w).running then
      let s := { s with owners := s.owners.release (f.slot w) (f.ownerID w) s.now }
      some (s.setWatcher w { s.watchers w with running := false, todo := [] })
    else none
  | .crash w => some (s.setWatcher w { s.watchers w with running := false, todo := [] })
  | .fetch w retained =>
    match (s.watchers w).running, (s.watchers w).todo, (s.watchers w).dropping with
    | true, [], none => some (s.setWatcher w { s.watchers w with todo := s.candidates retained })
    | _, _, _ => none
  | .decide w =>
    match (s.watchers w).todo, (s.watchers w).dropping with
    | c :: todo, none =>
      -- the decision is made on the row as it was fetched
      let (firstSeen, cleaner) := (s.watchers w).cleaner.observeInactive s.now c
      let dropping :=
        if ((f.rules w).decide s.now c firstSeen).drop && !f.dryRun w then some c else none
      some (s.setWatcher w
        { s.watchers w with cleaner := cleaner, todo := todo, dropping := dropping })
    | _, _ => none
  | .drop w =>
    match (s.watchers w).dropping with
    | some c =>
      let ws := { s.watchers w with dropping := none }
      -- the database has the last word on a slot that is active again
      if s.droppable c.name then
        let s := { s with slots := s.slots.filter fun x => x.name != c.name }
        some (s.setWatcher w { ws with cleaner := ws.cleaner.mark c.name none })
      else some (s.setWatcher w ws)
    | none => none
  | .dropFails w =>
    match (s.watchers w).dropping with
    | some _ => some (s.setWatcher w { s.watchers w with dropping := none })
    | none => none

/-- A database with arbitrary slots and registry rows, before any of the watchers has started. -/
def init (f : Fleet n) (now : Int) (slots : List Slot) (owners : SlotOwners) : FleetState n :=
  ⟨now, slots, owners, fun w =>
    ⟨false, now, newSlotCleaner (f.rules w) (f.dryRun w), [], none⟩⟩

/-! ### Drops -/

/-- The drop that `w` has called takes the slot of `v`. -/
def Takes (f : Fleet n) (s : FleetState n) (w v : Fin n) : Prop :=
  ∃ c, (s.watchers w).dropping = some c ∧ c.name = f.slot v ∧ s.droppable c.name = true

/-- If the database lets the drop take a slot, `decide` would still say drop with the registry row
    as it is now. -/
def Fresh (f : Fleet n) (s : FleetState n) (w : Fin n) : Prop :=
  ∀ c, (s.watchers w).dropping = some c → s.droppable c.name = true →
    ((f.rules w).decide s.now { c with owner := s.owners c.name }
      (((s.watchers w).cleaner.inactiveSince c.name).getD s.now)).drop = true

/-! ### Registry rows of running watchers -/

/-- The row of a running watcher is its own, as old as its last heartbeat and not released. -/
structure Inv (f : Fleet n) (s : FleetState n) : Prop where
  row : ∀ w, (s.watchers w).running = true →
    s.owners (f.slot w) = some ⟨f.ownerID w, (s.watchers w).lastBeat, none⟩
  beat : beatsInTime f s s.now

variable {f : Fleet n} {s s' : FleetState n}

theorem Inv.init (f : Fleet n) (now : Int) (slots : List Slot) (owners : SlotOwners) :
    Inv f (init f now slots owners) where
  row w h := absurd h (by simp [FleetState.init])
  beat w h := absurd h (by simp [FleetState.init])

/-- Slots do not matter. -/
theorem Inv.withSlots (h : Inv f s) (slots : List Slot) : Inv f { s with slots := slots } :=
  ⟨h.row, h.beat⟩

/-- A step on one watcher and its row. If the watcher runs after the step, the row and the last
    heartbeat have to agree again. -/
theorem Inv.update (h : Inv f s) {w : Fin n} {owners : SlotOwners} {ws : WatcherState}
    (hother : ∀ v, v ≠ w → owners (f.slot v) = s.owners (f.slot v))
    (hown : ws.running = true → owners (f.slot w) = some ⟨f.ownerID w, ws.lastBeat, none⟩ ∧
      ∀ u, s.now - ws.lastBeat < (f.staleAfter u).val) :
    Inv f (({ s with owners := owners } : FleetState n).setWatcher w ws) := by
  constructor
  · intro v hv
    by_cases hvw : v = w
    · subst hvw
      simp only [FleetState.setWatcher, ↓reduceIte] at hv ⊢
      exact (hown hv).1
    · simp only [FleetState.setWatcher, if_neg hvw] at hv ⊢
      rw [hother v hvw]
      exact h.row v hv
  · intro v hv u
    by_cases hvw : v = w
    · subst hvw
      simp only [FleetState.setWatcher, ↓reduceIte] at hv ⊢
      exact (hown hv).2 u
    · simp only [FleetState.setWatcher, if_neg hvw] at hv ⊢
      exact h.beat v hv u

/-- A step that leaves the registry and a watcher's heartbeats alone; it may stop the watcher. -/
theorem Inv.setWatcher (h : Inv f s) {w : Fin n} {ws : WatcherState}
    (hws : ws.running = true → (s.watchers w).running = true ∧
      ws.lastBeat = (s.watchers w).lastBeat) : Inv f (s.setWatcher w ws) := by
  show Inv f (({ s with owners := s.owners } : FleetState n).setWatcher w ws)
  apply h.update fun _ _ => rfl
  intro hr
  rw [(hws hr).2]
  exact ⟨h.row w (hws hr).1, h.beat w (hws hr).1⟩

/-- A step that gives `w` the row `⟨ownerID, now, none⟩` and leaves the rows of the others alone. -/
theorem Inv.beats (h : Inv f s) {w : Fin n} {owners : SlotOwners} {ws : WatcherState}
    (hrow : owners (f.slot w) = some ⟨f.ownerID w, s.now, none⟩)
    (hother : ∀ v, v ≠ w → owners (f.slot v) = s.owners (f.slot v)) (hbeat : ws.lastBeat = s.now) :
    Inv f (({ s with owners := owners } : FleetState n).setWatcher w ws) := by
  apply h.update hother
  intro _
  rw [hbeat]
  refine ⟨hrow, fun u => ?_⟩
  have := f.staleAfter_pos u
  omega

theorem owners_update_other (owners : SlotOwners) (slot owner name : GoString)
    (g : SlotOwner → SlotOwner) (h : name ≠ slot) :
    owners.update slot owner g name = owners name := by
  simp [SlotOwners.update, h]

/-- Every step keeps the invariant. -/
theorem Inv.step {a : FleetAction n} (h : Inv f s) (hstep : step f s a = some s') : Inv f s' := by
  have hslot : ∀ {w v}, v ≠ w → f.slot v ≠ f.slot w := fun hne heq => hne (f.slot_inj _ _ heq)
  cases a with
  | tick d =>
    simp only [FleetState.step] at hstep
    split at hstep
    · rename_i hbeat
      obtain rfl := some.inj hstep
      exact ⟨h.row, hbeat⟩
    · exact nomatch hstep
  | register w =>
    simp only [FleetState.step] at hstep
    split at hstep
    · exact nomatch hstep
    · obtain rfl := some.inj hstep
      apply h.beats
      · simp [SlotOwners.register]
      · intro v hv
        simp [SlotOwners.register, hslot hv]
      · rfl
  | createSlot w =>
    simp only [FleetState.step] at hstep
    split at hstep
    · exact nomatch hstep
    · split at hstep
      · exact some.inj hstep ▸ h
      · obtain rfl := some.inj hstep
        exact h.withSlots _
  | startStreaming w =>
    simp only [FleetState.step] at hstep
    split at hstep
    · obtain rfl := some.inj hstep
      exact h.withSlots _
    · exact nomatch hstep
  | loseStreaming w =>
    simp only [FleetState.step] at hstep
    obtain rfl := some.inj hstep
    exact h.withSlots _
  | heartbeat w =>
    simp only [FleetState.step] at hstep
    split at hstep
    · rename_i hrunning
      obtain rfl := some.inj hstep
      apply h.beats
      · simp [SlotOwners.heartbeat, SlotOwners.update, h.row w hrunning]
      · exact fun v hv => owners_update_other _ _ _ _ _ (hslot hv)
      · rfl
    · exact nomatch hstep
  | release w =>
    simp only [FleetState.step] at hstep
    split at hstep
    · obtain rfl := some.inj hstep
      -- the row is marked released, but then the watcher runs no more
      apply h.update
      · exact fun v hv => owners_update_other _ _ _ _ _ (hslot hv)
      · exact fun hr => absurd hr (by simp)
    · exact nomatch hstep
  | crash w =>
    simp only [FleetState.step] at hstep
    obtain rfl := some.inj hstep
    exact h.setWatcher fun hr => absurd hr (by simp)
  | fetch w retained =>
    simp only [FleetState.step] at hstep
    split at hstep
    · obtain rfl := some.inj hstep
      exact h.setWatcher fun hr => ⟨hr, rfl⟩
    · exact nomatch hstep
  | decide w =>
    simp only [FleetState.step] at hstep
    split at hstep
    · obtain rfl := some.inj hstep
      exact h.setWatcher fun hr => ⟨hr, rfl⟩
    · exact nomatch hstep
  | drop w =>
    simp only [FleetState.step] at hstep
    split at hstep
    · split at hstep
      · obtain rfl := some.inj hstep
        exact (h.withSlots _).setWatcher fun hr => ⟨hr, rfl⟩
      · obtain rfl := some.inj hstep
        exact h.setWatcher fun hr => ⟨hr, rfl⟩
    · exact nomatch hstep
  | dropFails w =>
    simp only [FleetState.step] at hstep
    split at hstep
    · obtain rfl := some.inj hstep
      exact h.setWatcher fun hr => ⟨hr, rfl⟩
    · exact nomatch hstep

/-- The rules keep a slot whose row is that of a running watcher. -/
theorem Inv.decide_keeps (h : Inv f s) {v : Fin n} (hv : (s.watchers v).running = true) (w : Fin n)
    (c : SlotCandidate) (hname : c.name = f.slot v) (firstSeen : Int) :
    ((f.rules w).decide s.now { c with owner := s.owners c.name } firstSeen).drop = false := by
  rw [← Bool.not_eq_true, OrphanRules.decide_drop_iff _ _ _ _ (f.staleAfter_pos w), hname,
    h.row v hv]
  rintro ⟨-, -, -, -, hcase⟩
  rcases hcase with ⟨owner, howner, hreleased⟩ | ⟨owner, howner, hstale⟩ | ⟨hnone, -⟩
  · obtain rfl := some.inj howner
    exact hreleased rfl
  · obtain rfl := some.inj howner
    have hbeat : s.now - (s.watchers v).lastBeat < (f.staleAfter w).val := h.beat v hv w
    have hle : (f.staleAfter w).val ≤ s.now - (s.watchers v).lastBeat := hstale
    omega
  · exact absurd hnone (by simp)

/-- **Main theorem**: in every run of any number of watchers in which each drop that takes a slot is
    one that `decide` would still make on the registry row of that moment, no drop takes the slot of
    a running watcher. -/
theorem fresh_drop_spares_running (f : Fleet n) (now : Int) (slots : List Slot)
    (owners : SlotOwners) (actions : List (FleetAction n))
    (hfresh : ∀ before w after s, actions = before ++ .drop w :: after →
      runSteps (FleetState.step f) (FleetState.init f now slots owners) before = some s →
      Fresh f s w) (before : List (FleetAction n)) (w : Fin n) (after : List (FleetAction n))
    (s : FleetState n) (hactions : actions = before ++ .drop w :: after)
    (hrun : runSteps (FleetState.step f) (FleetState.init f now slots owners) before = some s)
    (v : Fin n) (htakes : Takes f s w v) : (s.watchers v).running = false := by
  have hinv : Inv f s :=
    runSteps_invariant (fun h hs => h.step hs) (Inv.init f now slots owners) hrun
  obtain ⟨c, hdropping, hname, hdroppable⟩ := htakes
  by_contra hrunning
  rw [Bool.not_eq_false] at hrunning
  have hkeeps := hinv.decide_keeps hrunning w c hname
    (((s.watchers w).cleaner.inactiveSince c.name).getD s.now)
  have hdrops := hfresh before w after s hactions hrun c hdropping hdroppable
  exact absurd (hkeeps.symm.trans hdrops) (by simp)

/-! ### Two watchers -/

private theorem thirty_fits : -2 ^ 63 ≤ (30 : Int) ∧ (30 : Int) < 2 ^ 63 := by decide

/-- Two watchers with the slots `cdc_a` and `cdc_b`. -/
def twoWatchers : Fleet 2 where
  slot w := if w = 0 then ascii "cdc_a" else ascii "cdc_b"
  ownerID w := if w = 0 then ascii "a" else ascii "b"
  pattern _ _ := true
  staleAfter _ := ⟨30, thirty_fits⟩
  retainedThreshold _ := 0
  dryRun _ := false
  slot_inj := by decide
  staleAfter_pos _ := by decide

/-- The first watcher starts and stops; the second starts and decides to drop its slot. -/
def stopAndClean : List (FleetAction 2) :=
  [.register 0, .createSlot 0, .release 0, .register 1, .fetch 1 fun _ => 0, .decide 1]

/-- Dropped while its owner is stopped, the slot is no running watcher's. -/
theorem fresh_drop_stopped :
    ∃ s, runSteps (FleetState.step twoWatchers) (FleetState.init twoWatchers 0 [] fun _ => none)
        stopAndClean = some s ∧ Takes twoWatchers s 1 0 ∧ (s.watchers 0).running = false := by
  have htakes : ∃ s, runSteps (FleetState.step twoWatchers)
      (FleetState.init twoWatchers 0 [] fun _ => none) stopAndClean = some s ∧
      Takes twoWatchers s 1 0 ∧ Fresh twoWatchers s 1 := by
    refine ⟨_, rfl, ⟨_, rfl, by decide, by decide⟩, ?_⟩
    intro c hc _
    rw [← some.inj hc]
    decide
  obtain ⟨s, hrun, htakes, hfresh⟩ := htakes
  refine ⟨s, hrun, htakes, ?_⟩
  refine fresh_drop_spares_running twoWatchers 0 [] (fun _ => none) (stopAndClean ++ [.drop 1]) ?_
    stopAndClean 1 [] s rfl hrun 0 htakes
  intro before w after t heq ht
  -- the last action is the only drop
  have hbefore : before = stopAndClean ∧ w = 1 := by
    rcases List.concat_eq_append_cons heq with ⟨rfl, hw, -⟩ | ⟨after', hactions, -⟩
    · exact ⟨rfl, (FleetAction.drop.inj hw).symm⟩
    · have hmem : FleetAction.drop w ∈ stopAndClean := by
        rw [hactions]
        simp
      simp [stopAndClean] at hmem
  obtain ⟨rfl, rfl⟩ := hbefore
  obtain rfl := some.inj (hrun.symm.trans ht)
  exact hfresh

/-- Started again between the decision and the drop, the first watcher loses its slot while it is
    running. -/
theorem restarted_watcher_loses_slot :
    ∃ s, runSteps (FleetState.step twoWatchers) (FleetState.init twoWatchers 0 [] fun _ => none)
        (stopAndClean ++ [.register 0, .createSlot 0]) = some s ∧ Takes twoWatchers s 1 0 ∧
      (s.watchers 0).running = true ∧
      ∃ s', FleetState.step twoWatchers s (.drop 1) = some s' ∧
        s'.hasSlot (ascii "cdc_a") = false ∧ (s'.watchers 0).running = true :=
  ⟨_, rfl, ⟨_, rfl, by decide, by decide⟩, rfl, _, rfl, by decide, rfl⟩

end FleetState

end Postgres
