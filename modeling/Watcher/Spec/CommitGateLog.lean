import Watcher.ForStd.List
import Watcher.Lib.Run
import Watcher.Model.CommitGate

/-!
# The gate for binlog positions against a log of all boundaries

`CommitGate` lets a newer boundary replace an older one that waits for the same
events, and drops entries whenever it is asked. `NaiveCommitGate` keeps every
boundary and looks for the last one whose events are all acked each time it is
asked, and it never answers with an earlier one than before.

Both give the same answers in every run (`confirmable_eq_naive`), whichever
events are acked when.
-/

namespace Mysql

open Cdc Run List

/-! ## Calls -/

inductive CommitGateCall where
  | hand
  | committed (pos : BinlogPosition)
  | observePublished (event : Event)
  | confirmable
  deriving DecidableEq, Repr

/-- What `Confirmable` returned; the other calls return nothing. -/
abbrev CommitGateAnswer := Option (BinlogPosition × Bool)

def CommitGate.call (g : CommitGate) : CommitGateCall → CommitGate × CommitGateAnswer
  | .hand => (g.hand, none)
  | .committed pos => (g.committed pos, none)
  | .observePublished event => (g.observePublished event, none)
  | .confirmable => (g.confirmable.2, some g.confirmable.1)

/-- A gate before its first call, enabled or not. -/
def CommitGate.initial (gated : Bool) : CommitGate :=
  if gated then newCommitGate.enable else newCommitGate

/-! ## A gate that keeps everything -/

/-- A position that replication can resume from. -/
def BinlogPosition.IsBoundary (pos : BinlogPosition) : Prop :=
  pos.file ≠ [] ∧ minBinlogPosition ≤ pos.position

instance (pos : BinlogPosition) : Decidable pos.IsBoundary := inferInstanceAs (Decidable (_ ∧ _))

/-- How many entries there are up to the last one whose count is reached. -/
def upToReached (reached : Nat) : List (Pending.Entry BinlogPosition) → Nat
  | [] => 0
  | e :: log =>
    if 0 < upToReached reached log ∨ e.count ≤ reached then upToReached reached log + 1 else 0

structure NaiveCommitGate where
  gated : Bool
  /-- Own events acked. -/
  acked : Nat
  handed : Nat
  /-- Every boundary, with the events handed before it. -/
  boundaries : List (Pending.Entry BinlogPosition)
  /-- How many boundaries there are up to the one last answered with. -/
  answered : Nat

namespace NaiveCommitGate

def initial (gated : Bool) : NaiveCommitGate := ⟨gated, 0, 0, [], 0⟩

def reached (g : NaiveCommitGate) : Nat := if g.gated then g.acked else g.handed

def call (g : NaiveCommitGate) : CommitGateCall → NaiveCommitGate × CommitGateAnswer
  | .hand => ({ g with handed := g.handed + 1 }, none)
  | .committed pos =>
    (if pos.IsBoundary then { g with boundaries := g.boundaries ++ [⟨g.handed, pos⟩] } else g, none)
  | .observePublished event =>
    (if ownEvent event then { g with acked := g.acked + 1 } else g, none)
  | .confirmable =>
    let answered := max g.answered (upToReached g.reached g.boundaries)
    ({ g with answered := answered },
      match (g.boundaries.take answered).getLast? with
      | none => some (BinlogPosition.none, false)
      | some e => some (e.value, true))

end NaiveCommitGate

/-! ## The last reached boundary -/

section Log

variable {reached : Nat} {log : List (Pending.Entry BinlogPosition)}

theorem upToReached_of_waiting (h : ∀ e ∈ log, reached < e.count) :
    upToReached reached log = 0 := by
  induction log with
  | nil => rfl
  | cons e log ih =>
    have he := h e mem_cons_self
    have hlog := ih fun e' he' => h e' (mem_cons_of_mem e he')
    rw [upToReached, hlog, if_neg (by omega)]

/-- Where counts do not decrease, what comes before the last reached entry is reached too. -/
theorem take_upToReached (hlog : log.Pairwise (·.count ≤ ·.count)) :
    log.take (upToReached reached log) = log.filter (·.count ≤ reached) := by
  induction log with
  | nil => rfl
  | cons e log ih =>
    rw [pairwise_cons] at hlog
    by_cases he : e.count ≤ reached
    · rw [upToReached, if_pos (.inr he), take_succ_cons, ih hlog.2,
        filter_cons_of_pos (by simpa using he)]
    · have hwait : ∀ e' ∈ e :: log, reached < e'.count := by
        intro e' he'
        rcases mem_cons.mp he' with rfl | he'
        · exact Nat.lt_of_not_le he
        · exact Nat.lt_of_lt_of_le (Nat.lt_of_not_le he) (hlog.1 e' he')
      have hnone : (e :: log).filter (·.count ≤ reached) = [] := by
        rw [filter_eq_nil_iff]
        intro e' he'
        simpa using hwait e' he'
      rw [upToReached_of_waiting hwait, hnone, take_zero]

theorem upToReached_le_length : upToReached reached log ≤ log.length := by
  induction log with
  | nil => exact Nat.le_refl _
  | cons e log ih =>
    rw [upToReached, length_cons]
    split <;> omega

theorem upToReached_eq_countP (hlog : log.Pairwise (·.count ≤ ·.count)) :
    upToReached reached log = log.countP (·.count ≤ reached) := by
  rw [countP_eq_length_filter, ← take_upToReached hlog, length_take,
    Nat.min_eq_left upToReached_le_length]

/-- What a log releases, when the newer value replaces the older, is its last reached value. -/
theorem releasedBy_newer (acc : BinlogPosition) :
    Pending.releasedBy (fun _ newer => newer) reached acc log =
      (((log.filter (·.count ≤ reached)).getLast?).map (·.value)).getD acc := by
  unfold Pending.releasedBy
  generalize log.filter (·.count ≤ reached) = entries
  induction entries generalizing acc with
  | nil => rfl
  | cons e entries ih =>
    rw [foldl_cons, ih, getLast?_cons]
    cases entries.getLast? with
    | none => rfl
    | some last => rfl

end Log

/-! ## Both gates side by side -/

/-- The count whose boundaries may be persisted. -/
def CommitGate.reached (g : CommitGate) : Nat := if g.gated then g.acked else g.handed

/-- The gate stands for the naive one. -/
structure Twins (g : CommitGate) (n : NaiveCommitGate) : Prop where
  gated : g.gated = n.gated
  acked : g.acked = n.acked
  handed : g.handed = n.handed
  increasing : g.commits.Pairwise (·.count < ·.count)
  commits_le : ∀ e ∈ g.commits, e.count ≤ g.handed
  sorted : n.boundaries.Pairwise (·.count ≤ ·.count)
  boundaries_le : ∀ e ∈ n.boundaries, e.count ≤ n.handed
  named : ∀ e ∈ n.boundaries, e.value.file ≠ []
  answered_le : n.answered ≤ n.boundaries.countP (·.count ≤ n.reached)
  follows : Pending.Follows (fun _ newer => newer) n.reached BinlogPosition.none n.boundaries
    g.confirmed g.commits

theorem twins_initial (gated : Bool) :
    Twins (CommitGate.initial gated) (NaiveCommitGate.initial gated) := by
  have hnone : ∀ {P : Pending.Entry BinlogPosition → Prop}, ∀ e ∈ [], P e :=
    fun e he => absurd he not_mem_nil
  cases gated with
  | true => exact ⟨rfl, rfl, rfl, .nil, hnone, .nil, hnone, hnone, Nat.le_refl _, .nil _ _⟩
  | false => exact ⟨rfl, rfl, rfl, .nil, hnone, .nil, hnone, hnone, Nat.le_refl _, .nil _ _⟩

variable {g : CommitGate} {n : NaiveCommitGate}

theorem Twins.reached (h : Twins g n) : g.reached = n.reached := by
  rw [CommitGate.reached, NaiveCommitGate.reached, h.gated, h.acked, h.handed]

/-- More may be reached at any time; what was answered stays reached. -/
theorem Twins.advance (h : Twins g n) (acks hands : Nat) :
    Twins { g with acked := g.acked + acks, handed := g.handed + hands }
      { n with acked := n.acked + acks, handed := n.handed + hands } := by
  -- both counters only grow
  have hreached : n.reached ≤
      NaiveCommitGate.reached { n with acked := n.acked + acks, handed := n.handed + hands } := by
    unfold NaiveCommitGate.reached
    split
    · exact Nat.le_add_right _ _
    · exact Nat.le_add_right _ _
  exact {
    gated := h.gated
    acked := congrArg (· + acks) h.acked
    handed := congrArg (· + hands) h.handed
    increasing := h.increasing
    commits_le := fun e he => Nat.le_add_right_of_le (h.commits_le e he)
    sorted := h.sorted
    boundaries_le := fun e he => Nat.le_add_right_of_le (h.boundaries_le e he)
    named := h.named
    answered_le := by
      refine Nat.le_trans h.answered_le (countP_mono_left ?_)
      intro e _ he
      simp only [decide_eq_true_eq] at he ⊢
      exact Nat.le_trans he hreached
    follows := h.follows.mono hreached }

theorem Twins.committed (h : Twins g n) {pos : BinlogPosition} (hpos : pos.IsBoundary) :
    Twins { g with commits := Pending.record (fun _ newer => newer) g.handed pos g.commits }
      { n with boundaries := n.boundaries ++ [⟨n.handed, pos⟩] } where
  gated := h.gated
  acked := h.acked
  handed := h.handed
  increasing := Pending.record_increasing h.increasing h.commits_le
  commits_le := Pending.record_forall h.commits_le (Nat.le_refl _) fun _ hle => hle
  sorted := by
    rw [pairwise_append]
    refine ⟨h.sorted, pairwise_singleton _ _, ?_⟩
    intro e he e' he'
    rw [mem_singleton.mp he']
    exact h.boundaries_le e he
  boundaries_le := forall_mem_concat h.boundaries_le (Nat.le_refl _)
  named := forall_mem_concat h.named hpos.1
  answered_le := by
    rw [countP_append]
    exact Nat.le_trans h.answered_le (Nat.le_add_right _ _)
  follows := by
    show Pending.Follows _ n.reached _ (n.boundaries ++ [⟨n.handed, pos⟩]) _ _
    rw [← h.handed]
    exact h.follows.record (fun _ _ _ => rfl) g.handed pos

/-- What the gate answers is the last reached boundary of the log. -/
theorem Twins.confirmed (h : Twins g n) :
    g.confirmable.1.1 = (((n.boundaries.filter (·.count ≤ n.reached)).getLast?).map (·.value)).getD
      BinlogPosition.none := by
  show (Pending.settle (fun _ newer => newer) g.reached g.confirmed g.commits).1 = _
  rw [Pending.settle_fst h.increasing, h.reached, h.follows.released _ (Nat.le_refl _),
    releasedBy_newer]

theorem Twins.confirmable (h : Twins g n) :
    Twins (g.call .confirmable).1 (n.call .confirmable).1 ∧
      (g.call .confirmable).2 = (n.call .confirmable).2 := by
  -- the last reached boundary never comes before the one answered last
  have hcount : upToReached n.reached n.boundaries =
      n.boundaries.countP (·.count ≤ n.reached) := upToReached_eq_countP h.sorted
  have hanswered : max n.answered (upToReached n.reached n.boundaries) =
      upToReached n.reached n.boundaries := by
    have := h.answered_le
    omega
  constructor
  · have hsettled := h.follows.settle (Nat.le_refl n.reached)
    exact {
      gated := h.gated
      acked := h.acked
      handed := h.handed
      increasing := h.increasing.sublist (Pending.settle_sublist _ _ _)
      commits_le := Pending.settle_forall h.commits_le _ _
      sorted := h.sorted
      boundaries_le := h.boundaries_le
      named := h.named
      answered_le := by
        show max n.answered (upToReached n.reached n.boundaries) ≤ _
        rw [hanswered, hcount]
        exact Nat.le_refl _
      follows := by
        show Pending.Follows _ n.reached _ _
          (Pending.settle _ g.reached g.confirmed g.commits).1
          (Pending.settle _ g.reached g.confirmed g.commits).2
        rw [h.reached]
        exact hsettled }
  · have hfile : g.confirmable.1.2 = decide (g.confirmable.1.1.file ≠ []) := rfl
    have hpair : g.confirmable.1 = (g.confirmable.1.1, g.confirmable.1.2) := rfl
    simp only [CommitGate.call, NaiveCommitGate.call]
    rw [hanswered, take_upToReached h.sorted, hpair, hfile, h.confirmed]
    cases hlast : (n.boundaries.filter (·.count ≤ n.reached)).getLast? with
    | none => rfl
    | some e =>
      have he : e ∈ n.boundaries := mem_of_mem_filter (mem_of_getLast? hlast)
      simp only [Option.map_some, Option.getD_some, decide_eq_true (h.named e he)]

/-- One call keeps the gates alike and is answered alike. -/
theorem Twins.call (h : Twins g n) (c : CommitGateCall) :
    Twins (g.call c).1 (n.call c).1 ∧ (g.call c).2 = (n.call c).2 := by
  cases c with
  | hand => exact ⟨h.advance 0 1, rfl⟩
  | committed pos =>
    refine ⟨?_, rfl⟩
    have hiff : (pos.file = [] || pos.position < minBinlogPosition) = true ↔ ¬pos.IsBoundary := by
      rw [Bool.or_eq_true, decide_eq_true_eq, decide_eq_true_eq, BinlogPosition.IsBoundary,
        not_and_or, not_not, Nat.not_le]
    simp only [CommitGate.call, CommitGate.committed, NaiveCommitGate.call, hiff]
    by_cases hpos : pos.IsBoundary
    · rw [if_neg (not_not_intro hpos), if_pos hpos]
      exact h.committed hpos
    · rw [if_pos hpos, if_neg hpos]
      exact h
  | observePublished event =>
    refine ⟨?_, rfl⟩
    simp only [CommitGate.call, CommitGate.observePublished, NaiveCommitGate.call]
    split
    · exact h.advance 1 0
    · exact h
  | confirmable => exact h.confirmable

/-- In every run `Confirmable` answers as the naive gate does, and the entries have increasing
    counts of handed events. -/
theorem confirmable_eq_naive (gated : Bool) (calls : List CommitGateCall) :
    let r := runCalls CommitGate.call (CommitGate.initial gated) calls
    r.2 = (runCalls NaiveCommitGate.call (NaiveCommitGate.initial gated) calls).2 ∧
      r.1.commits.Pairwise (·.count < ·.count) ∧ ∀ e ∈ r.1.commits, e.count ≤ r.1.handed := by
  -- calls come in any order, so there is nothing to know about the caller
  have hstep : ∀ (_ _ : Unit) g n c, Twins g n → some () = some () →
      Twins (g.call c).1 (n.call c).1 ∧ (g.call c).2 = (n.call c).2 :=
    fun _ _ _ _ c h _ => h.call c
  obtain ⟨htwins, hanswers⟩ := runCalls_simulates (R := fun _ => Twins) hstep
    (twins_initial gated) (runSteps_const () calls)
  exact ⟨hanswers, htwins.increasing, htwins.commits_le⟩

end Mysql
