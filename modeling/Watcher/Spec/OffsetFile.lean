import Watcher.Model.OffsetFile

/-!
# When the persisted offset moves back

Within a lifetime it does not: boundaries come in binlog order from the start
position on, which is the persisted offset if there is one, and the gate
releases them in the order they were recorded (`Streaming`).

The snapshot is different. In mode `backup_file` every start saves the position
of the dump before the persisted offset is looked at. So the offset never moves
back in a history exactly when no snapshot finds a position in the file that is
after the dump's (`OffsetState.neverBack_iff`).
-/

namespace Mysql

open Cdc Run

namespace BinlogOrder

variable {order : BinlogOrder} {p q r : BinlogPosition}

theorem le_refl (order : BinlogOrder) (p : BinlogPosition) : order.le p p :=
  .inr ⟨rfl, Nat.le_refl _⟩

theorem le_trans (h : order.le p q) (h' : order.le q r) : order.le p r := by
  unfold le at *
  omega

/-- What the store makes of a name does not change its place. -/
theorem le_reread_left :
    order.le { p with file := Utf8.reread p.file } q ↔ order.le p q := by
  simp only [le, order.text]

/-- Nor on the other side. -/
theorem le_reread_right :
    order.le p { q with file := Utf8.reread q.file } ↔ order.le p q := by
  simp only [le, order.text]

/-- What `Load` returned has not moved back. -/
def Forward (order : BinlogOrder) (before after : OffsetFile) : Prop :=
  ∀ p, before = some p → ∃ q, after = some q ∧ order.le p q

theorem Forward.refl (order : BinlogOrder) (file : OffsetFile) : order.Forward file file :=
  fun p hp => ⟨p, hp, le_refl order p⟩

theorem Forward.trans {f g h : OffsetFile} (hfg : order.Forward f g) (hgh : order.Forward g h) :
    order.Forward f h := by
  intro p hp
  obtain ⟨q, hq, hpq⟩ := hfg p hp
  obtain ⟨r, hr, hqr⟩ := hgh q hq
  exact ⟨r, hr, le_trans hpq hqr⟩

theorem forward_save {file : OffsetFile} {pos : BinlogPosition} :
    order.Forward file (OffsetFile.save pos) ↔ ∀ p, file = some p → order.le p pos := by
  constructor
  · intro h p hp
    obtain ⟨q, hq, hle⟩ := h p hp
    obtain rfl := Option.some.inj hq
    exact le_reread_right.mp hle
  · intro h p hp
    exact ⟨_, rfl, le_reread_right.mpr (h p hp)⟩

end BinlogOrder

/-! ### Streaming -/

/-- The boundaries a running process knows of are in order, and none is before the persisted
    offset. -/
structure Streaming (order : BinlogOrder) (file : OffsetFile) (gate : CommitGate)
    (last : BinlogPosition) : Prop where
  file_le_last : ∀ p, file = some p → order.le p last
  file_le_commits : ∀ p, file = some p → ∀ e ∈ gate.commits, order.le p e.value
  commits_le_last : ∀ e ∈ gate.commits, order.le e.value last
  commits_sorted : gate.commits.Pairwise fun a b => order.le a.value b.value
  file_le_confirmed : gate.confirmed.file ≠ [] → ∀ p, file = some p → order.le p gate.confirmed
  confirmed_le_commits : gate.confirmed.file ≠ [] → ∀ e ∈ gate.commits,
    order.le gate.confirmed e.value
  confirmed_le_last : gate.confirmed.file ≠ [] → order.le gate.confirmed last

namespace Streaming

variable {order : BinlogOrder} {file : OffsetFile} {gate : CommitGate} {last : BinlogPosition}

/-- A gate that knows of no boundary yet. -/
theorem init (hcommits : gate.commits = []) (hconfirmed : gate.confirmed.file = [])
    (hlast : ∀ p, file = some p → order.le p last) : Streaming order file gate last where
  file_le_last := hlast
  file_le_commits := by simp [hcommits]
  commits_le_last := by simp [hcommits]
  commits_sorted := by simp [hcommits]
  file_le_confirmed h := absurd hconfirmed h
  confirmed_le_commits h := absurd hconfirmed h
  confirmed_le_last h := absurd hconfirmed h

theorem hand (h : Streaming order file gate last) : Streaming order file gate.hand last :=
  { h with }

/-- Neither does an ack. -/
theorem observePublished (h : Streaming order file gate last) (event : Event) :
    Streaming order file (gate.observePublished event) last := by
  unfold CommitGate.observePublished
  split
  · exact { h with }
  · exact h

/-- A boundary in binlog order. -/
theorem committed (h : Streaming order file gate last) {pos : BinlogPosition}
    (hpos : order.le last pos) : Streaming order file (gate.committed pos) pos := by
  have hlater : ∀ {p}, order.le p last → order.le p pos := fun hp => order.le_trans hp hpos
  unfold CommitGate.committed
  split
  · -- no place to resume from: not recorded
    exact { h with
      file_le_last := fun p hp => hlater (h.file_le_last p hp)
      commits_le_last := fun e he => hlater (h.commits_le_last e he)
      confirmed_le_last := fun hc => hlater (h.confirmed_le_last hc) }
  · constructor
    · exact fun p hp => hlater (h.file_le_last p hp)
    · intro p hp
      exact Pending.record_forall (P := fun e => order.le p e.value) (h.file_le_commits p hp)
        (hlater (h.file_le_last p hp)) fun _ _ => hlater (h.file_le_last p hp)
    · exact Pending.record_forall (P := fun e => order.le e.value pos)
        (fun e he => hlater (h.commits_le_last e he)) (order.le_refl pos)
        fun _ _ => order.le_refl pos
    · exact Pending.record_pairwise h.commits_sorted fun e he => hlater (h.commits_le_last e he)
    · exact h.file_le_confirmed
    · intro hc
      exact Pending.record_forall (P := fun e => order.le gate.confirmed e.value)
        (h.confirmed_le_commits hc) (hlater (h.confirmed_le_last hc))
        fun _ _ => hlater (h.confirmed_le_last hc)
    · exact fun hc => hlater (h.confirmed_le_last hc)

/-- `Confirmable` releases boundaries from the front. -/
theorem confirmable (h : Streaming order file gate last) :
    Streaming order file gate.confirmable.2 last := by
  have hsub : gate.confirmable.2.commits.Sublist gate.commits := Pending.settle_sublist _ _ _
  constructor
  · exact h.file_le_last
  · exact fun p hp e he => h.file_le_commits p hp e (hsub.subset he)
  · exact fun e he => h.commits_le_last e (hsub.subset he)
  · exact h.commits_sorted.sublist hsub
  · intro hc p hp
    revert hc
    exact Pending.settle_released (P := fun e => order.le p e.value)
      (Q := fun c => c.file ≠ [] → order.le p c) (h.file_le_commits p hp)
      (fun hc => h.file_le_confirmed hc p hp) fun _ e _ he _ _ => he
  · -- what is released comes before what is left, since the boundaries are in order
    intro hc e he
    have hsorted : gate.commits.Pairwise fun a b =>
        a.value.file ≠ [] → order.le a.value b.value := by
      apply h.commits_sorted.imp
      intro a b hle _
      exact hle
    exact Pending.settle_pairwise (R := fun p q => p.file ≠ [] → order.le p q) _ hsorted
      (fun e he hne => h.confirmed_le_commits hne e he) e he hc
  · exact Pending.settle_released (P := fun e => order.le e.value last)
      (Q := fun c => c.file ≠ [] → order.le c last) h.commits_le_last h.confirmed_le_last
      fun _ e _ he _ _ => he

/-- The confirmed boundary is saved. -/
theorem save (h : Streaming order file gate last) (hc : gate.confirmed.file ≠ []) :
    Streaming order (OffsetFile.save gate.confirmed) gate last := by
  have hfile : ∀ {q p}, order.le gate.confirmed q → OffsetFile.save gate.confirmed = some p →
      order.le p q := by
    intro q p hle hp
    obtain rfl := Option.some.inj hp
    exact BinlogOrder.le_reread_left.mpr hle
  exact { h with
    file_le_last := fun p hp => hfile (h.confirmed_le_last hc) hp
    file_le_commits := fun p hp e he => hfile (h.confirmed_le_commits hc e he) hp
    file_le_confirmed := fun _ p hp => hfile (order.le_refl _) hp }

/-- `saveConfirmedOffset` does not move the offset back. -/
theorem saveTo {saver : OffsetSaver} (h : Streaming order file saver.gate last) (saved : Bool) :
    Streaming order (saver.saveTo saved file).1 (saver.saveTo saved file).2.gate last ∧
      order.Forward file (saver.saveTo saved file).1 := by
  obtain ⟨pos, savedOffset, hsave, hpos⟩ := saveConfirmedOffset_cases saver saved
  have hsettled := h.confirmable
  unfold OffsetSaver.saveTo
  rw [hsave]
  rcases hpos with rfl | ⟨rfl, hfile⟩
  · exact ⟨hsettled, .refl order file⟩
  · cases saved with
    | true =>
      exact ⟨hsettled.save hfile, BinlogOrder.forward_save.mpr (hsettled.file_le_confirmed hfile)⟩
    | false => exact ⟨hsettled, .refl order file⟩

end Streaming

/-! ### Histories -/

namespace OffsetState

variable {order : BinlogOrder} {cfg : OffsetConfig} {s t : OffsetState} {a : OffsetAction}

/-- The gate of a process that is not streaming yet has seen nothing. -/
def Inv (order : BinlogOrder) (s : OffsetState) : Prop :=
  match s.phase with
  | .down => True
  | .starting gate | .snapshotted gate => gate.commits = [] ∧ gate.confirmed.file = []
  | .running saver last => Streaming order s.file saver.gate last

/-- A snapshot finds no position in the file that is after the one it saves. -/
def SnapshotForward (order : BinlogOrder) (cfg : OffsetConfig) (s : OffsetState)
    (a : OffsetAction) : Prop :=
  a = .snapshot true → ∀ pos, cfg.snapshotPosition = .ok (some pos) →
    ∀ p, s.file = some p → order.le p pos

theorem snapshotForward_of_ne (h : ∀ saved, a ≠ .snapshot saved) :
    SnapshotForward order cfg s a :=
  fun ha => absurd ha (h true)

theorem runSnapshot_forward_iff (order : BinlogOrder) {file file' : OffsetFile} {saved ok : Bool}
    (h : cfg.runSnapshot saved file = (file', ok)) :
    order.Forward file file' ↔
      (saved = true → ∀ pos, cfg.snapshotPosition = .ok (some pos) →
        ∀ p, file = some p → order.le p pos) := by
  have hkept : order.Forward file file := .refl order file
  unfold OffsetConfig.runSnapshot at h
  split at h
  case h_1 hpos =>
    cases h
    simp [hkept, hpos]
  case h_2 hpos =>
    cases h
    simp [hkept, hpos]
  case h_3 pos hpos =>
    cases saved with
    | false =>
      cases h
      simp [hkept]
    | true =>
      cases h
      simp [BinlogOrder.forward_save, hpos]

/-- The start position is not before the persisted offset, which stays if there is one. -/
theorem resolveStartPosition_forward (order : BinlogOrder) {file file' : OffsetFile}
    {master : Option BinlogPosition} {saved : Bool}
    {start : Option (BinlogPosition × BinlogPosition)}
    (h : resolveStartPosition master saved file = (file', start)) :
    order.Forward file file' ∧ ∀ r, start = some r → ∀ p, file' = some p → order.le p r.1 := by
  unfold resolveStartPosition at h
  split at h
  · cases h
    refine ⟨.refl order _, ?_⟩
    intro r hr p hp
    cases hr
    cases hp
    exact order.le_refl _
  · cases h
    refine ⟨.refl order _, ?_⟩
    intro r hr
    cases hr
  · refine ⟨by simp [BinlogOrder.Forward], ?_⟩
    intro r hr p hp
    split at h
    · cases h
      cases hr
      cases hp
      exact BinlogOrder.le_reread_left.mpr (order.le_refl _)
    · cases h
      cases hp

/-- A process that streams does not move the offset back. -/
theorem running_forward {file : OffsetFile} {saver : OffsetSaver} {last : BinlogPosition}
    (h : Streaming order file saver.gate last)
    (hstep : step order cfg ⟨file, .running saver last⟩ a = some t) :
    Inv order t ∧ order.Forward file t.file := by
  have hkept : order.Forward file file := .refl order file
  cases a with
  | committed pos =>
    dsimp only [step] at hstep
    split at hstep
    · next hle =>
      cases hstep
      exact ⟨h.committed hle, hkept⟩
    · cases hstep
  | hand =>
    cases hstep
    exact ⟨h.hand, hkept⟩
  | ack event =>
    cases hstep
    exact ⟨h.observePublished event, hkept⟩
  | save saved =>
    cases hstep
    exact h.saveTo saved
  | stop saved =>
    -- the last save of a graceful stop; the gate is gone with the process
    cases hstep
    exact ⟨trivial, (h.saveTo saved).2⟩
  | crash =>
    cases hstep
    exact ⟨trivial, hkept⟩
  | start _ | snapshot _ | resolve _ _ => cases hstep

/-- Only a snapshot can move the offset back. -/
theorem step_forward (h : Inv order s) (hstep : s.step order cfg a = some t) :
    Inv order t ∧ (order.Forward s.file t.file ↔ SnapshotForward order cfg s a) := by
  obtain ⟨file, phase⟩ := s
  have hother : (∀ saved, a ≠ .snapshot saved) → order.Forward file t.file →
      (order.Forward file t.file ↔ SnapshotForward order cfg ⟨file, phase⟩ a) :=
    fun ha hf => iff_of_true hf (snapshotForward_of_ne ha)
  by_cases hcrash : a = .crash
  · subst hcrash
    cases hstep
    exact ⟨trivial, hother (by simp) (.refl order file)⟩
  -- apart from a crash, each phase of the start allows one action
  cases phase with
  | down =>
    cases a with
    | start gated =>
      cases hstep
      refine ⟨?_, hother (by simp) (.refl order file)⟩
      cases gated <;> exact ⟨rfl, rfl⟩
    | crash => exact absurd rfl hcrash
    | snapshot _ | resolve _ _ | committed _ | hand | ack _ | save _ | stop _ => cases hstep
  | starting gate =>
    cases a with
    | snapshot saved =>
      dsimp only [step] at hstep
      generalize hsnap : cfg.runSnapshot saved file = r at hstep
      obtain ⟨file', ok⟩ := r
      have hforward := runSnapshot_forward_iff order hsnap
      cases hstep
      refine ⟨?_, hforward.trans (by simp [SnapshotForward])⟩
      cases ok with
      | true => exact h
      | false => exact trivial
    | crash => exact absurd rfl hcrash
    | start _ | resolve _ _ | committed _ | hand | ack _ | save _ | stop _ => cases hstep
  | snapshotted gate =>
    cases a with
    | resolve master saved =>
      dsimp only [step] at hstep
      split at hstep
      next file' start savedOffset hres =>
        obtain ⟨hforward, hle⟩ := resolveStartPosition_forward order hres
        cases hstep
        exact ⟨.init h.1 h.2 (hle _ rfl), hother (by simp) hforward⟩
      next file' hres =>
        obtain ⟨hforward, _⟩ := resolveStartPosition_forward order hres
        cases hstep
        exact ⟨trivial, hother (by simp) hforward⟩
    | crash => exact absurd rfl hcrash
    | start _ | snapshot _ | committed _ | hand | ack _ | save _ | stop _ => cases hstep
  | running saver last =>
    obtain ⟨hinv, hforward⟩ := running_forward h hstep
    refine ⟨hinv, hother ?_ hforward⟩
    rintro saved rfl
    cases hstep

/-- The offset does not move back anywhere in the history. -/
def NeverBack (order : BinlogOrder) (cfg : OffsetConfig) (s : OffsetState)
    (actions : List OffsetAction) : Prop :=
  ∀ before between after s₁ s₂, actions = before ++ between ++ after →
    runSteps (step order cfg) s before = some s₁ →
    runSteps (step order cfg) s₁ between = some s₂ → order.Forward s₁.file s₂.file

/-- No snapshot of the history finds an offset after the position it saves. -/
def SnapshotsForward (order : BinlogOrder) (cfg : OffsetConfig) (s : OffsetState)
    (actions : List OffsetAction) : Prop :=
  ∀ before a after s₁, actions = before ++ a :: after →
    runSteps (step order cfg) s before = some s₁ → (s₁.step order cfg a).isSome →
    SnapshotForward order cfg s₁ a

theorem run_inv {actions : List OffsetAction} (h : Inv order s)
    (hrun : runSteps (step order cfg) s actions = some t) : Inv order t :=
  runSteps_invariant (fun hinv hstep => (step_forward hinv hstep).1) h hrun

theorem SnapshotsForward.forward {actions : List OffsetAction} (h : Inv order s)
    (hsnapshots : SnapshotsForward order cfg s actions)
    (hrun : runSteps (step order cfg) s actions = some t) : order.Forward s.file t.file := by
  induction actions generalizing s with
  | nil =>
    obtain rfl := Option.some.inj hrun
    exact .refl order s.file
  | cons a actions ih =>
    rw [runSteps_cons, Option.bind_eq_some_iff] at hrun
    obtain ⟨s₁, hstep, hrest⟩ := hrun
    obtain ⟨hinv, hforward⟩ := step_forward h hstep
    have hfirst : SnapshotForward order cfg s a :=
      hsnapshots [] a actions s rfl rfl (by rw [hstep]; rfl)
    have hlater : SnapshotsForward order cfg s₁ actions := by
      intro before b after s₂ hactions hbefore hb
      apply hsnapshots (a :: before) b after s₂ (by rw [hactions]; rfl) _ hb
      rw [runSteps_cons, hstep]
      exact hbefore
    exact (hforward.mpr hfirst).trans (ih hinv hlater hrest)

/-- Over all lifetimes on one offset file, the offset never moves back exactly when no snapshot
    saves a dump position that the persisted offset is already past. -/
theorem neverBack_iff (order : BinlogOrder) (cfg : OffsetConfig) (file : OffsetFile)
    (actions : List OffsetAction) :
    NeverBack order cfg ⟨file, .down⟩ actions ↔
      SnapshotsForward order cfg ⟨file, .down⟩ actions := by
  have hinit : Inv order ⟨file, .down⟩ := trivial
  constructor
  · intro h before a after s₁ hactions hbefore hstep
    obtain ⟨s₂, hstep⟩ := Option.isSome_iff_exists.mp hstep
    have hforward : order.Forward s₁.file s₂.file := by
      apply h before [a] after s₁ s₂ (by simp [hactions]) hbefore
      rw [runSteps_cons, hstep]
      rfl
    exact (step_forward (run_inv hinit hbefore) hstep).2.mp hforward
  · intro h before between after s₁ s₂ hactions hbefore hbetween
    apply SnapshotsForward.forward (run_inv hinit hbefore) _ hbetween
    intro before' a after' s₃ hbetween' hbefore' hstep
    apply h (before ++ before') a (after' ++ after) s₃ _ _ hstep
    · simp [hactions, hbetween']
    · rw [runSteps_append, hbefore]
      exact hbefore'

/-- A dump taken at position 4 of the only binlog file. -/
def dumpAtFour : OffsetConfig where
  schema := ascii "shop"
  snapshotMode := .backupFile
    (some (ascii "-- CHANGE MASTER TO MASTER_LOG_FILE='bin.1', MASTER_LOG_POS=4;"))

/-- The first lifetime saves position 500, the second puts the dump's position back. -/
theorem restart_moves_back :
    ¬ NeverBack ⟨fun _ => 0, fun _ => rfl⟩ dumpAtFour ⟨none, .down⟩
      [.start true, .snapshot true, .resolve none true, .committed ⟨ascii "bin.1", 500⟩,
        .save true, .crash, .start true, .snapshot true] := by
  intro h
  let gate : CommitGate := ⟨true, 0, 0, [], BinlogPosition.none⟩
  have hforward := h
    [.start true, .snapshot true, .resolve none true, .committed ⟨ascii "bin.1", 500⟩, .save true]
    [.crash, .start true, .snapshot true] []
    ⟨some ⟨ascii "bin.1", 500⟩, .running ⟨{ gate with confirmed := ⟨ascii "bin.1", 500⟩ },
      ⟨ascii "bin.1", 500⟩⟩ ⟨ascii "bin.1", 500⟩⟩
    ⟨some ⟨ascii "bin.1", 4⟩, .snapshotted gate⟩ rfl (by decide) (by decide)
  obtain ⟨q, hq, hle⟩ := hforward _ rfl
  obtain rfl := Option.some.inj hq
  exact absurd hle (by decide)

end OffsetState

end Mysql
