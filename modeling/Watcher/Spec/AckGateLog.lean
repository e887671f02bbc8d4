import Watcher.Lib.Run
import Watcher.Model.AckGate

/-!
# The gate for LSNs against a log of all commits

`AckGate` shares entries between commits, drops entries whenever it settles and
lets a sequence number be taken back. `NaiveGate` does nothing of this: it keeps
every commit and every accepted keepalive position, and computes what may be
confirmed from the whole log each time it is asked.

Both give the same answers in every run (`answers_eq_naive`). The queue of the
gate and the position it has confirmed so far follow the log from the sequence
that cannot be taken back any more (`Twins`).
-/

namespace Postgres

open Cdc Run

/-! ## Calls -/

/-- What the listener and the publisher ask of the gate. -/
inductive GateCall where
  | begin
  | hand (event : Event)
  | unhand
  | committed (endLSN : LSN)
  | newSession
  | idle (position : LSN)
  | observePublished (event : Event)
  | flush
  | pending
  deriving DecidableEq, Repr

/-- What they get back. -/
inductive GateAnswer where
  | done
  | event (event : Event)
  | position (position : LSN)
  | pending (pending : Bool)
  deriving DecidableEq, Repr

/-- Whether the listener may take back an event: only the one it has just handed. Acks come from
    another goroutine, at any time. -/
def refusable : Bool → GateCall → Option Bool
  | _, .hand _ => some true
  | fresh, .observePublished _ => some fresh
  | fresh, .unhand => if fresh then some false else none
  | _, _ => some false

/-- A call of the gate. -/
def AckGate.call (g : AckGate) : GateCall → AckGate × GateAnswer
  | .begin => (g.begin, .done)
  | .hand event => ((g.hand event).1, .event (g.hand event).2)
  | .unhand => (g.unhand, .done)
  | .committed endLSN => (g.committed endLSN, .done)
  | .newSession => (g.newSession, .done)
  | .idle position => (g.idle position, .done)
  | .observePublished event => (g.observePublished event, .done)
  | .flush => (g.flush.2, .position g.flush.1)
  | .pending => (g, .pending g.pending)

/-- A gate before its first call, enabled or not. -/
def AckGate.initial (gated : Bool) : AckGate := if gated then newAckGate.enable else newAckGate

/-! ## A gate that keeps everything -/

/-- A gate that forgets nothing. -/
structure NaiveGate where
  gated : Bool
  acked : Nat
  handed : Nat
  inTxn : Bool
  /-- Every commit, with the last sequence handed before it. -/
  entries : List (Pending.Entry LSN)
  /-- The keepalive positions that were accepted. -/
  idles : List LSN

namespace NaiveGate

/-- A naive gate before its first call. -/
def initial (gated : Bool) : NaiveGate := ⟨gated, 0, 0, false, [], []⟩

/-- The highest sequence acked; without a publisher everything handed counts as acked. -/
def ackedSequence (g : NaiveGate) : Nat := if g.gated then g.acked else g.handed

/-- Something was handed and not acked. -/
def pending (g : NaiveGate) : Bool := g.ackedSequence < g.handed

/-- The greatest accepted position and end of a commit whose changes are all acked. -/
def confirmable (g : NaiveGate) : LSN :=
  (g.idles ++ (g.entries.filter (·.count ≤ g.ackedSequence)).map (·.value)).foldl max 0

/-- Some commit has changes that are not acked. -/
def waiting (g : NaiveGate) : Bool := g.entries.any (g.ackedSequence < ·.count)

/-- The same call of the naive gate. -/
def call (g : NaiveGate) : GateCall → NaiveGate × GateAnswer
  | .begin => ({ g with inTxn := true }, .done)
  | .hand event =>
    ({ g with handed := g.handed + 1 }, .event { event with sequence := g.handed + 1 })
  | .unhand => ({ g with handed := g.handed - 1 }, .done)
  | .committed endLSN =>
    ({ g with inTxn := false, entries := g.entries ++ [⟨g.handed, endLSN⟩] }, .done)
  | .newSession => ({ g with inTxn := false }, .done)
  | .idle position =>
    (if g.inTxn || g.waiting || g.pending then g else { g with idles := g.idles ++ [position] },
      .done)
  | .observePublished event =>
    (if event.sequence = 0 then g else { g with acked := max g.acked event.sequence }, .done)
  | .flush => (g, .position g.confirmable)
  | .pending => (g, .pending g.pending)

/-- What is confirmed, as the log releases it. -/
theorem confirmable_eq (g : NaiveGate) :
    g.confirmable = Pending.releasedBy max g.ackedSequence (g.idles.foldl max 0) g.entries := by
  rw [confirmable, List.foldl_append, List.foldl_map]
  rfl

end NaiveGate

/-! ## Both gates side by side -/

/-- The sequence up to which nothing is taken back any more. -/
def AckGate.floor (g : AckGate) (fresh : Bool) : Nat :=
  if g.gated then g.acked else g.handed - fresh.toNat

/-- The gate stands for the naive one; `fresh` tells that an event was just handed. -/
structure Twins (fresh : Bool) (g : AckGate) (n : NaiveGate) : Prop where
  gated : g.gated = n.gated
  acked : g.acked = n.acked
  handed : g.handed = n.handed
  inTxn : g.inTxn = n.inTxn
  fresh_le : fresh.toNat ≤ g.handed
  increasing : g.commits.Pairwise (·.count < ·.count)
  /-- An event that may be taken back is in no commit. -/
  commits_le : ∀ e ∈ g.commits, e.count + fresh.toNat ≤ g.handed
  follows : Pending.Follows max (g.floor fresh) (n.idles.foldl max 0) n.entries g.confirmable
    g.commits

/-- Both know of nothing. -/
theorem twins_initial (gated : Bool) :
    Twins false (AckGate.initial gated) (NaiveGate.initial gated) := by
  have hnone : ∀ e ∈ ([] : List (Pending.Entry LSN)), e.count + false.toNat ≤ 0 :=
    fun e he => absurd he List.not_mem_nil
  cases gated with
  | true => exact ⟨rfl, rfl, rfl, rfl, Nat.zero_le _, .nil, hnone, .nil _ _⟩
  | false => exact ⟨rfl, rfl, rfl, rfl, Nat.zero_le _, .nil, hnone, .nil _ _⟩

variable {fresh : Bool} {g : AckGate} {n : NaiveGate}

theorem AckGate.floor_le_ackedSequence (g : AckGate) (fresh : Bool) :
    g.floor fresh ≤ g.ackedSequence := by
  unfold AckGate.floor ackedSequence
  split
  · exact Nat.le_refl _
  · exact Nat.sub_le _ _

theorem Twins.ackedSequence (h : Twins fresh g n) : g.ackedSequence = n.ackedSequence := by
  rw [AckGate.ackedSequence, NaiveGate.ackedSequence, h.gated, h.acked, h.handed]

theorem Twins.pending (h : Twins fresh g n) : g.pending = n.pending := by
  rw [AckGate.pending, NaiveGate.pending, h.ackedSequence, h.handed]

/-- A call that is neither `hand` nor `unhand` nor an ack leaves nothing to take back. -/
theorem Twins.keep (h : Twins fresh g n) : Twins false g n where
  gated := h.gated
  acked := h.acked
  handed := h.handed
  inTxn := h.inTxn
  fresh_le := Nat.zero_le _
  increasing := h.increasing
  commits_le e he := Nat.le_trans (Nat.le_add_right _ _) (h.commits_le e he)
  follows := h.follows.mono (g.floor_le_ackedSequence fresh)

theorem Twins.begin (h : Twins fresh g n) (inTxn : Bool) :
    Twins false { g with inTxn := inTxn } { n with inTxn := inTxn } :=
  { h.keep with inTxn := rfl }

theorem Twins.hand (h : Twins fresh g n) :
    Twins true { g with handed := g.handed + 1 } { n with handed := n.handed + 1 } where
  gated := h.gated
  acked := h.acked
  handed := congrArg (· + 1) h.handed
  inTxn := h.inTxn
  fresh_le := Nat.le_add_left _ _
  increasing := h.increasing
  commits_le e he := Nat.add_le_add_right (h.keep.commits_le e he) 1
  follows := h.keep.follows

theorem Twins.unhand (h : Twins true g n) :
    Twins false g.unhand { n with handed := n.handed - 1 } where
  gated := h.gated
  acked := h.acked
  handed := congrArg (· - 1) h.handed
  inTxn := h.inTxn
  fresh_le := Nat.zero_le _
  increasing := h.increasing
  commits_le e he := Nat.le_sub_of_add_le (h.commits_le e he)
  follows := h.follows

theorem Twins.committed (h : Twins fresh g n) (endLSN : LSN) :
    Twins false (g.committed endLSN)
      { n with inTxn := false, entries := n.entries ++ [⟨n.handed, endLSN⟩] } where
  gated := h.gated
  acked := h.acked
  handed := h.handed
  inTxn := rfl
  fresh_le := Nat.zero_le _
  increasing := Pending.record_increasing h.increasing h.keep.commits_le
  commits_le := Pending.record_forall h.keep.commits_le (Nat.le_refl _) fun _ hle => hle
  follows := by
    rw [← h.handed]
    exact h.keep.follows.record max_assoc g.handed endLSN

theorem Twins.observePublished (h : Twins fresh g n) (sequence : Nat) :
    Twins fresh { g with acked := max g.acked sequence }
      { n with acked := max n.acked sequence } where
  gated := h.gated
  acked := congrArg (max · sequence) h.acked
  handed := h.handed
  inTxn := h.inTxn
  fresh_le := h.fresh_le
  increasing := h.increasing
  commits_le := h.commits_le
  follows := by
    apply h.follows.mono
    unfold AckGate.floor
    split
    · exact Nat.le_max_left _ _
    · exact Nat.le_refl _

/-- Settling changes nothing that the naive gate has. -/
theorem Twins.settle (h : Twins fresh g n) : Twins false g.settle n where
  gated := h.gated
  acked := h.acked
  handed := h.handed
  inTxn := h.inTxn
  fresh_le := Nat.zero_le _
  increasing := h.increasing.sublist (Pending.settle_sublist _ _ _)
  commits_le := Pending.settle_forall h.keep.commits_le _ _
  follows := h.keep.follows.settle (Nat.le_refl _)

/-- After settling the confirmed position is that of the log. -/
theorem Twins.settle_confirmable (h : Twins fresh g n) :
    g.settle.confirmable = n.confirmable := by
  show (Pending.settle max g.ackedSequence g.confirmable g.commits).1 = _
  rw [Pending.settle_fst h.increasing, h.follows.released _ (g.floor_le_ackedSequence fresh),
    n.confirmable_eq, h.ackedSequence]

/-- After settling an entry is left exactly when some commit waits. -/
theorem Twins.settle_waiting (h : Twins fresh g n) :
    decide (0 < g.settle.commits.length) = n.waiting := by
  have hsettled : ∀ e ∈ g.settle.commits, g.ackedSequence < e.count :=
    Pending.settle_waiting h.increasing _ _
  have hleft : (∃ e ∈ g.settle.commits, g.ackedSequence < e.count) ↔
      ∃ e ∈ n.entries, g.ackedSequence < e.count :=
    h.settle.follows.waiting g.ackedSequence (Nat.le_refl _)
  rw [Bool.eq_iff_iff, decide_eq_true_eq, List.length_pos_iff_exists_mem, NaiveGate.waiting,
    List.any_eq_true, ← h.ackedSequence]
  simp only [decide_eq_true_eq]
  rw [← hleft]
  exact ⟨fun ⟨e, he⟩ => ⟨e, he, hsettled e he⟩, fun ⟨e, he, _⟩ => ⟨e, he⟩⟩

/-- An accepted position counts for whatever is confirmed later. -/
theorem releasedBy_max (reached : Nat) (position acc : LSN) (log : List (Pending.Entry LSN)) :
    Pending.releasedBy max reached (max acc position) log =
      max (Pending.releasedBy max reached acc log) position := by
  induction log generalizing acc with
  | nil => rfl
  | cons e log ih =>
    rw [Pending.releasedBy_cons, Pending.releasedBy_cons, ← ih]
    split
    · rw [sup_right_comm]
    · rfl

/-- A keepalive position is accepted. -/
theorem Twins.accept (h : Twins false g n) (position : LSN) :
    Twins false { g with confirmable := max g.confirmable position }
      { n with idles := n.idles ++ [position] } :=
  { h with
    follows := {
      released := by
        intro reached hr
        rw [List.foldl_append, List.foldl_cons, List.foldl_nil, releasedBy_max, releasedBy_max,
          h.follows.released reached hr]
      waiting := h.follows.waiting } }

/-- One call keeps the gates alike and is answered alike. -/
theorem Twins.call {fresh' : Bool} {c : GateCall} (h : Twins fresh g n)
    (hc : refusable fresh c = some fresh') :
    Twins fresh' (g.call c).1 (n.call c).1 ∧ (g.call c).2 = (n.call c).2 := by
  cases c with
  | begin =>
    cases hc
    exact ⟨h.begin true, rfl⟩
  | hand event =>
    cases hc
    refine ⟨h.hand, ?_⟩
    show GateAnswer.event { event with sequence := g.handed + 1 } = _
    rw [h.handed]
    rfl
  | unhand =>
    cases fresh with
    | false => exact nomatch hc
    | true =>
      cases hc
      exact ⟨h.unhand, rfl⟩
  | committed endLSN =>
    cases hc
    exact ⟨h.committed endLSN, rfl⟩
  | newSession =>
    cases hc
    exact ⟨h.begin false, rfl⟩
  | idle position =>
    cases hc
    refine ⟨?_, rfl⟩
    -- both settle first; then they agree on whether anything is unconfirmed
    have hset := h.settle
    show Twins false (if g.settle.inTxn || decide (0 < g.settle.commits.length) || g.settle.pending
      then g.settle else { g.settle with confirmable := max g.settle.confirmable position }) _
    rw [hset.inTxn, h.settle_waiting, hset.pending]
    simp only [NaiveGate.call]
    split
    · exact hset
    · exact hset.accept position
  | observePublished event =>
    cases hc
    refine ⟨?_, rfl⟩
    simp only [AckGate.call, AckGate.observePublished, NaiveGate.call]
    split
    · exact h
    · exact h.observePublished event.sequence
  | flush =>
    cases hc
    exact ⟨h.settle, congrArg GateAnswer.position h.settle_confirmable⟩
  | pending =>
    cases hc
    exact ⟨h.keep, congrArg GateAnswer.pending h.pending⟩

/-- In every run the gate answers as the naive gate does, and its entries have increasing sequences
    that were handed. -/
theorem answers_eq_naive (gated : Bool) (calls : List GateCall)
    (hcalls : (runSteps refusable false calls).isSome) :
    let r := runCalls AckGate.call (AckGate.initial gated) calls
    r.2 = (runCalls NaiveGate.call (NaiveGate.initial gated) calls).2 ∧
      r.1.commits.Pairwise (·.count < ·.count) ∧ ∀ e ∈ r.1.commits, e.count ≤ r.1.handed := by
  obtain ⟨fresh, hfresh⟩ := Option.isSome_iff_exists.mp hcalls
  have hstep : ∀ fresh fresh' g n c, Twins fresh g n → refusable fresh c = some fresh' →
      Twins fresh' (g.call c).1 (n.call c).1 ∧ (g.call c).2 = (n.call c).2 :=
    fun _ _ _ _ _ h hc => h.call hc
  obtain ⟨htwins, hanswers⟩ := runCalls_simulates hstep (twins_initial gated) hfresh
  exact ⟨hanswers, htwins.increasing, htwins.keep.commits_le⟩

/-- Two commits share an entry, an event is refused, and its number is used again. -/
theorem answers_eq_naive_refused :
    let event :=
      newEvent .insert (ascii "public") (ascii "t") (ascii "\x7b\x7d") (ascii "INSERT") []
    let calls := [.begin, .hand event, .committed 16, .begin, .committed 8, .hand event, .unhand,
      .hand event, .pending, .observePublished { event with sequence := 1 }, .flush]
    (runSteps refusable false calls).isSome ∧
      (runCalls AckGate.call (AckGate.initial true) calls).2 =
        (runCalls NaiveGate.call (NaiveGate.initial true) calls).2 :=
  ⟨by decide, (answers_eq_naive true _ (by decide)).1⟩

end Postgres
