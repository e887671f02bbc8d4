import Watcher.Lib.Run
import Watcher.Model.PostgresListener

/-!
# No position is confirmed past an undelivered change

A primary, the listener that streams from it and the publisher that acks what
the bus took, as one system: messages are received, connections drop, the
process is restarted, acks arrive and positions are sent in any order.

`AckGate.Sound` relates the gate to the log of everything the bus took from this
process: a position is confirmable when all it owes is among the acked part of
that log. Each gate operation keeps it, and `System.Inv` adds what has been
streamed.

## Key results

- `AckGate.Sound.settle`, `AckGate.Sound.idle`: what the gate confirms is delivered
- `Inv.step`: one step of the system
- `sent_delivered`: in every run, every position sent is safe
-/

namespace Postgres

open Cdc Pending Run List

/-! ## The gate -/

namespace AckGate

/-- `log` is what the bus took from this process, in hand-off order; each position the gate
    holds owes only items of the log. -/
structure Sound {ι : Type _} (owes : LSN → Set ι) (log : List ι) (g : AckGate) : Prop where
  gated : g.gated = true
  handed : g.handed = log.length
  acked : g.acked ≤ log.length
  commits : ∀ e ∈ g.commits, Covered owes log e.count e.value
  confirmable : Covered owes log g.acked g.confirmable

variable {ι : Type _} {owes : LSN → Set ι} {log : List ι} {g : AckGate}

private theorem owes_max (a b : LSN) : owes (max a b) ⊆ owes a ∪ owes b := by
  cases max_choice a b with
  | inl h => rw [h]; exact Set.subset_union_left
  | inr h => rw [h]; exact Set.subset_union_right

theorem Sound.begin (h : g.Sound owes log) : g.begin.Sound owes log :=
  ⟨h.gated, h.handed, h.acked, h.commits, h.confirmable⟩

theorem Sound.newSession (h : g.Sound owes log) : g.newSession.Sound owes log :=
  ⟨h.gated, h.handed, h.acked, h.commits, h.confirmable⟩

/-- An event the bus takes is the next item of the log. -/
theorem Sound.hand (h : g.Sound owes log) (event : Event) (c : ι) :
    (g.hand event).1.Sound owes (log ++ [c]) := by
  -- a longer log covers what the shorter one did
  refine ⟨h.gated, ?_, ?_, fun e he => (h.commits e he).append [c], h.confirmable.append [c]⟩
  · simp [AckGate.hand, h.handed]
  · have := h.acked
    simp only [AckGate.hand, length_append]
    omega

/-- A commit may wait for everything handed so far when that covers what it owes. -/
theorem Sound.committed (h : g.Sound owes log) {endLSN : LSN}
    (hend : ∀ c ∈ owes endLSN, c ∈ log) : (g.committed endLSN).Sound owes log := by
  refine ⟨h.gated, h.handed, h.acked, record_covered owes_max h.commits ?_, h.confirmable⟩
  intro c hc
  rw [h.handed, take_length]
  exact hend c hc

theorem Sound.ackedSequence (h : g.Sound owes log) : g.ackedSequence = g.acked := by
  simp [AckGate.ackedSequence, h.gated]

theorem Sound.settle (h : g.Sound owes log) : g.settle.Sound owes log := by
  refine ⟨h.gated, h.handed, h.acked, settle_forall h.commits _ _, ?_⟩
  have hcov := settle_covered owes_max h.commits h.confirmable
  simp only [AckGate.settle, h.ackedSequence]
  exact hcov

/-- A keepalive position is confirmable at once when the whole log is acked and holds what the
    position owes. -/
theorem Sound.idle (h : g.Sound owes log) {position : LSN}
    (hpos : g.inTxn = false → ∀ c ∈ owes position, c ∈ log) :
    (g.idle position).Sound owes log := by
  have hs := h.settle
  rw [AckGate.idle]
  split
  · exact hs
  · next hidle =>
    simp only [Bool.or_eq_true, decide_eq_true_eq, not_or, AckGate.pending, hs.ackedSequence,
      Nat.not_lt, Bool.not_eq_true] at hidle
    obtain ⟨⟨hinTxn, -⟩, hall⟩ := hidle
    -- nothing is pending: the acked part of the log is the whole log
    have hacked : g.settle.acked = log.length := Nat.le_antisymm hs.acked (hs.handed ▸ hall)
    refine ⟨hs.gated, hs.handed, hs.acked, hs.commits, ?_⟩
    refine Covered.combine owes_max hs.confirmable fun c hc => ?_
    rw [hacked, take_length]
    exact hpos hinTxn c hc

/-- The ack of the oldest event that is not acked yet. -/
theorem Sound.observePublished (h : g.Sound owes log) {event : Event}
    (hseq : event.sequence = g.acked + 1) (hlog : g.acked < log.length) :
    (g.observePublished event).Sound owes log ∧
      (g.observePublished event).acked = g.acked + 1 := by
  have hne : event.sequence ≠ 0 := by omega
  have hacked : max g.acked event.sequence = g.acked + 1 := by omega
  simp only [AckGate.observePublished, if_neg hne, hacked, and_true]
  exact ⟨h.gated, h.handed, hlog, h.commits, h.confirmable.mono (Nat.le_succ _)⟩

theorem le_settle_confirmable (g : AckGate) : g.confirmable ≤ g.settle.confirmable :=
  Pending.le_settle le_max_left _ _ _

/-- Nor does a keepalive. -/
theorem le_idle_confirmable (g : AckGate) (position : LSN) :
    g.confirmable ≤ (g.idle position).confirmable := by
  rw [AckGate.idle]
  split
  · exact g.le_settle_confirmable
  · exact le_trans g.le_settle_confirmable (le_max_left _ _)

end AckGate

/-! ## Emitting -/

namespace Listener

variable {e : Event}

theorem emit_publishable (l : Listener) (hpub : isPublishable e.type = true) :
    l.emit Service.opened e =
      ({ l with
          txnIndex := l.txnIndex + 1
          ack := if Service.opened.handleEvent e then (l.ack.hand (l.named e)).1 else l.ack },
        if Service.opened.handleEvent e then some (l.ack.hand (l.named e)).2 else none) := by
  rw [emit]
  split
  · next h => rw [h] at hpub; exact nomatch hpub
  · next h => rw [h] at hpub; exact nomatch hpub
  · -- neither numbering nor naming an event matters to the bus
    rw [if_pos hpub]
    rfl

/-- A publishable event the bus takes is named and numbered. -/
theorem emit_taken (l : Listener) (hpub : isPublishable e.type = true)
    (htake : Service.opened.handleEvent e = true) :
    l.emit Service.opened e =
      ({ l with txnIndex := l.txnIndex + 1, ack := (l.ack.hand (l.named e)).1 },
        some (l.ack.hand (l.named e)).2) := by
  rw [emit_publishable l hpub, if_pos htake, if_pos htake]

/-- A publishable event the bus refuses only uses up an index. -/
theorem emit_refused (l : Listener) (hpub : isPublishable e.type = true)
    (hrefuse : Service.opened.handleEvent e = false) :
    l.emit Service.opened e = ({ l with txnIndex := l.txnIndex + 1 }, none) := by
  rw [emit_publishable l hpub, hrefuse]
  rfl

end Listener

/-! ## The system -/

/-- A committed transaction: its publishable changes in order, and its positions. -/
structure Txn where
  finalLSN : LSN
  changes : List Event
  commitEnd : LSN

/-- The transactions of a primary in commit order. Position 0 is the invalid one. -/
structure Primary where
  txns : List Txn
  publishable : ∀ t ∈ txns, ∀ e ∈ t.changes, isPublishable e.type = true
  ends_pos : ∀ t ∈ txns, 0 < t.commitEnd
  ends_increasing : txns.Pairwise fun t u => t.commitEnd < u.commitEnd

/-- A change: the index of its transaction and its index therein. -/
abbrev ChangeId := Nat × Nat

/-- The change is one the bus takes. -/
def Primary.Acceptable (p : Primary) (c : ChangeId) : Prop :=
  ∃ t e, p.txns[c.1]? = some t ∧ t.changes[c.2]? = some e ∧ Service.opened.handleEvent e = true

/-- What must be delivered before `position` may be confirmed: every change the bus takes of
    every transaction whose commit ends at or before it. -/
def Primary.owes (p : Primary) (position : LSN) : Set ChangeId :=
  { c | p.Acceptable c ∧ ∃ t, p.txns[c.1]? = some t ∧ t.commitEnd ≤ position }

/-- The primary's view of the stream, the listener and the publisher. -/
structure System where
  listener : Listener
  /-- The transaction the session streams next, or is streaming. -/
  next : Nat
  /-- Inside a transaction: how many of its changes were streamed. -/
  inside : Option Nat
  /-- Events the bus took and the publisher did not ack yet, oldest first. -/
  bus : List (ChangeId × Event)
  /-- Changes acked since the process started, oldest first. -/
  delivered : List ChangeId
  /-- Changes acked in earlier processes. -/
  earlier : List ChangeId
  /-- Positions sent to the primary by any process. -/
  sent : List LSN
  /-- Positions that `Flush` returned to this process, newest first. -/
  flushed : List LSN

/-- What can happen next. -/
inductive Action where
  | begin
  | change
  | commit
  /-- A keepalive at this position. -/
  | idle (position : LSN)
  /-- `Flush` whose status could not be sent. -/
  | flush
  | status
  /-- The connection dropped; the new session streams from this transaction on. -/
  | reconnect (resume : Nat)
  /-- The process died; a new one streams from this transaction on. -/
  | restart (resume : Nat)
  | ack
  deriving DecidableEq, Repr

namespace System

/-- A new process. -/
def start (tables : List GoString) (captureDDL : Bool) : System where
  listener := newGatedListener tables captureDDL
  next := 0
  inside := none
  bus := []
  delivered := []
  earlier := []
  sent := []
  flushed := []

/-- The change was acked at least once. -/
def Acked (s : System) (c : ChangeId) : Prop := c ∈ s.delivered ∨ c ∈ s.earlier

/-- BEGIN: the parser notes the transaction, then its event is emitted. -/
def receiveBegin (l : Listener) (t : Txn) : Listener :=
  (Listener.emit Service.opened { l with parser := { l.parser with txnFinalLSN := t.finalLSN } }
    (newEvent .begin [] [] [] (ascii "BEGIN") [])).1

/-- COMMIT: the parser notes where the commit ends, then its event is emitted. -/
def receiveCommit (l : Listener) (t : Txn) : Listener :=
  (Listener.emit Service.opened { l with parser := { l.parser with txnEndLSN := t.commitEnd } }
    (newEvent .commit [] [] [] (ascii "COMMIT") [])).1

/-- The walsender sends a keepalive position only when each transaction committed before it has
    at least begun to be streamed in this session, or was skipped. -/
def mayIdle (p : Primary) (s : System) (position : LSN) : Bool :=
  (p.txns.drop (if s.inside.isSome then s.next + 1 else s.next)).all fun t =>
    position < t.commitEnd

/-- A session skips only transactions that end at or before a position that was sent. -/
def mayResume (p : Primary) (s : System) (resume : Nat) : Bool :=
  (p.txns.take resume).all fun t => s.sent.any fun position => t.commitEnd ≤ position

/-- What an action does, or nothing if it cannot happen now. -/
def step (p : Primary) (s : System) : Action → Option System
  | .begin =>
    match p.txns[s.next]?, s.inside with
    | some t, none => some { s with listener := receiveBegin s.listener t, inside := some 0 }
    | _, _ => none
  | .change =>
    match p.txns[s.next]?, s.inside with
    | some t, some k =>
      match t.changes[k]? with
      | some e =>
        -- the event is on the bus if the bus takes it
        let (l, taken) := s.listener.emit Service.opened e
        some { s with
          listener := l
          inside := some (k + 1)
          bus := s.bus ++ taken.toList.map fun e => ((s.next, k), e) }
      | none => none
    | _, _ => none
  | .commit =>
    match p.txns[s.next]?, s.inside with
    | some t, some k =>
      if k = t.changes.length then
        some { s with
          listener := receiveCommit s.listener t
          next := s.next + 1
          inside := none }
      else none
    | _, _ => none
  | .idle position =>
    if mayIdle p s position then
      some { s with listener := { s.listener with ack := s.listener.ack.idle position } }
    else none
  | .flush =>
    let (position, l) := s.listener.sendStatus
    some { s with listener := l, flushed := position :: s.flushed }
  | .status =>
    let (position, l) := s.listener.sendStatus
    some { s with
      listener := l
      flushed := position :: s.flushed
      sent := position :: s.sent }
  | .reconnect resume =>
    if mayResume p s resume then
      some { s with listener := s.listener.newSession, next := resume, inside := none }
    else none
  | .restart resume =>
    if mayResume p s resume then
      some { s with
        listener := newGatedListener s.listener.parser.tableFilter s.listener.parser.captureDDL
        next := resume
        inside := none
        bus := []
        delivered := []
        -- what was published stays published; the bus is lost with the process
        earlier := s.delivered ++ s.earlier
        flushed := [] }
    else none
  | .ack =>
    match s.bus with
    | [] => none
    | (c, e) :: bus =>
      some { s with
        listener := { s.listener with ack := s.listener.ack.observePublished e }
        bus := bus
        delivered := s.delivered ++ [c] }

/-- What `handleKeepalive` does is a keepalive followed by `Flush` and, when it sends one, a
    status. -/
theorem handleKeepalive_runs (p : Primary) (s : System) (position lastFlushSent : LSN)
    (replyRequested : Bool) (hmay : mayIdle p s position = true) :
    let out := s.listener.handleKeepalive position replyRequested lastFlushSent
    ∃ actions s', runSteps (step p) s (.idle position :: actions) = some s' ∧
      s'.listener = out.2 ∧ s'.sent = out.1.toList ++ s.sent := by
  simp only [Listener.handleKeepalive, runSteps_cons, step, if_pos hmay, Option.bind_some]
  cases replyRequested with
  | true => exact ⟨[.status], _, rfl, rfl, rfl⟩
  | false =>
    simp only [Bool.false_eq_true, ↓reduceIte]
    split
    · exact ⟨[.flush], _, rfl, rfl, rfl⟩
    · exact ⟨[.flush, .status], _, rfl, rfl, rfl⟩

/-! ## The invariant -/

/-- Everything the bus took from this process. -/
def log (s : System) : List ChangeId := s.delivered ++ s.bus.map Prod.fst

/-- What `position` owes of this process. -/
def owed (p : Primary) (s : System) (position : LSN) : Set ChangeId :=
  { c | c ∈ p.owes position ∧ c ∉ s.earlier }

/-- The session has streamed the change, or skipped it. -/
def Streamed (s : System) (c : ChangeId) : Prop :=
  c.1 < s.next ∨ c.1 = s.next ∧ ∃ k, s.inside = some k ∧ c.2 < k

/-- What holds in every state of every run. -/
structure Inv (p : Primary) (s : System) : Prop where
  sound : s.listener.ack.Sound (owed p s) s.log
  acked : s.listener.ack.acked = s.delivered.length
  numbered : ∀ n c e, s.bus[n]? = some (c, e) → e.sequence = s.delivered.length + n + 1
  inTxn : s.listener.ack.inTxn = s.inside.isSome
  streamed : ∀ c, p.Acceptable c → s.Streamed c → c ∈ s.log ∨ c ∈ s.earlier
  sent : ∀ position ∈ s.sent, ∀ c ∈ p.owes position, s.Acked c
  flushed : s.flushed.Pairwise (· ≥ ·)
  flushed_le : ∀ position ∈ s.flushed, position ≤ s.listener.ack.confirmable

variable {p : Primary} {s : System}

theorem Inv.start (p : Primary) (tables : List GoString) (captureDDL : Bool) :
    Inv p (System.start tables captureDDL) where
  sound := by
    refine ⟨rfl, rfl, Nat.le_refl 0, forall_mem_nil _, ?_⟩
    -- the new gate confirms position 0, before which nothing is committed
    rintro c ⟨⟨-, t, ht, hle⟩, -⟩
    exact absurd hle (not_le_of_gt (p.ends_pos t (mem_of_getElem? ht)))
  acked := rfl
  numbered := fun n c e h => nomatch h
  inTxn := rfl
  streamed := by
    rintro c - (h | ⟨-, k, h, -⟩)
    · exact absurd h (Nat.not_lt_zero _)
    · exact nomatch h
  sent := fun position h => nomatch h
  flushed := List.Pairwise.nil
  flushed_le := fun position h => nomatch h

/-- What the gate confirms has been acked. -/
theorem Inv.acked_of_confirmable (h : Inv p s) : ∀ c ∈ p.owes s.listener.ack.confirmable,
    s.Acked c := by
  intro c hc
  by_cases hearlier : c ∈ s.earlier
  · exact Or.inr hearlier
  · have hmem := h.sound.confirmable c ⟨hc, hearlier⟩
    rw [h.acked, log, take_left] at hmem
    exact Or.inl hmem

/-- A step that only moves the gate forward. -/
private theorem Inv.withGate (h : Inv p s) {ack : AckGate} (hsound : ack.Sound (owed p s) s.log)
    (hacked : ack.acked = s.listener.ack.acked) (hinTxn : ack.inTxn = s.listener.ack.inTxn)
    (hle : s.listener.ack.confirmable ≤ ack.confirmable) :
    Inv p { s with listener := { s.listener with ack := ack } } where
  sound := hsound
  acked := hacked.trans h.acked
  numbered := h.numbered
  inTxn := hinTxn.trans h.inTxn
  streamed := h.streamed
  sent := h.sent
  flushed := h.flushed
  flushed_le := fun position hp => le_trans (h.flushed_le position hp) hle

variable {s' : System} {k resume : Nat}

/-- BEGIN. -/
private theorem Inv.begin (h : Inv p s) (hstep : step p s .begin = some s') : Inv p s' := by
  simp only [step] at hstep
  split at hstep
  · next t ht hinside =>
    cases hstep
    have hack : (receiveBegin s.listener t).ack = s.listener.ack.begin := rfl
    refine ⟨hack ▸ h.sound.begin, hack ▸ h.acked, h.numbered, by rw [hack]; rfl, ?_, h.sent,
      h.flushed, hack ▸ h.flushed_le⟩
    -- a transaction that has only begun adds nothing to what was streamed
    rintro c hc (hlt | ⟨-, k, hk, hlt⟩)
    · exact h.streamed c hc (Or.inl hlt)
    · cases hk
      exact absurd hlt (Nat.not_lt_zero _)
  · exact nomatch hstep

/-- One more change of the open transaction is streamed. -/
private theorem streamed_succ {c : ChangeId} (hinside : s.inside = some k)
    (h : { s with inside := some (k + 1) }.Streamed c) : s.Streamed c ∨ c = (s.next, k) := by
  obtain hlt | ⟨heq, j, hj, hlt⟩ := h
  · exact Or.inl (Or.inl hlt)
  · cases hj
    by_cases hk : c.2 = k
    · exact Or.inr (Prod.ext heq hk)
    · exact Or.inl (Or.inr ⟨heq, k, hinside, by omega⟩)

/-- The bus takes the next change: it is the next item of the log. -/
private theorem Inv.changeTaken (h : Inv p s) (hinside : s.inside = some k) (e : Event) :
    Inv p { s with
      listener := { s.listener with
        txnIndex := s.listener.txnIndex + 1
        ack := (s.listener.ack.hand (s.listener.named e)).1 }
      inside := some (k + 1)
      bus := s.bus ++ [((s.next, k), (s.listener.ack.hand (s.listener.named e)).2)] } := by
  have hlog : s.delivered ++ (s.bus ++ [((s.next, k), (s.listener.ack.hand
      (s.listener.named e)).2)]).map Prod.fst = s.log ++ [(s.next, k)] := by
    simp [log]
  refine ⟨?_, h.acked, ?_, h.inTxn.trans (by rw [hinside]; rfl), ?_, h.sent, h.flushed,
    h.flushed_le⟩
  · rw [log, hlog]
    exact h.sound.hand (s.listener.named e) (s.next, k)
  · -- an event that was on the bus before, or the new one
    intro n c e' hn
    rw [getElem?_append] at hn
    split at hn
    · exact h.numbered n c e' hn
    · next hlen =>
      rw [getElem?_singleton] at hn
      split at hn
      · next hzero =>
        -- its number is the number of events handed so far
        cases hn
        have hhanded := h.sound.handed
        simp only [log, length_append, length_map] at hhanded
        show s.listener.ack.handed + 1 = s.delivered.length + n + 1
        omega
      · exact nomatch hn
  · intro c hc hstr
    rw [log, hlog, mem_append]
    cases streamed_succ hinside hstr with
    | inl hold => exact (h.streamed c hc hold).imp_left Or.inl
    | inr heq => exact Or.inl (Or.inr (mem_singleton.mpr heq))

/-- The bus refuses the next change, which therefore nothing owes. -/
private theorem Inv.changeRefused (h : Inv p s) (hinside : s.inside = some k)
    (hrefused : ¬p.Acceptable (s.next, k)) :
    Inv p { s with
      listener := { s.listener with txnIndex := s.listener.txnIndex + 1 }
      inside := some (k + 1) } := by
  refine ⟨h.sound, h.acked, h.numbered, h.inTxn.trans (by rw [hinside]; rfl), ?_, h.sent,
    h.flushed, h.flushed_le⟩
  intro c hc hstr
  cases streamed_succ hinside hstr with
  | inl hold => exact h.streamed c hc hold
  | inr heq => exact absurd (heq ▸ hc) hrefused

/-- A change, whether the bus takes it or not. -/
private theorem Inv.change (h : Inv p s) (hstep : step p s .change = some s') : Inv p s' := by
  simp only [step] at hstep
  split at hstep
  · next t k ht hinside =>
    split at hstep
    · next e he =>
      have hpub : isPublishable e.type = true :=
        p.publishable t (mem_of_getElem? ht) e (mem_of_getElem? he)
      cases htake : Service.opened.handleEvent e with
      | true =>
        rw [Listener.emit_taken _ hpub htake] at hstep
        cases hstep
        exact h.changeTaken hinside e
      | false =>
        rw [Listener.emit_refused _ hpub htake] at hstep
        cases hstep
        simp only [Option.toList_none, map_nil, append_nil]
        apply h.changeRefused hinside
        -- the change at this place is `e`, which was refused
        rintro ⟨t', e', ht', he', htake'⟩
        rw [ht, Option.some.injEq] at ht'
        rw [← ht', he, Option.some.injEq] at he'
        rw [← he', htake] at htake'
        exact nomatch htake'
    · exact nomatch hstep
  · exact nomatch hstep

/-- A transaction that ends no later than the `i`-th is the `i`-th or an earlier one. -/
private theorem index_le {i j : Nat} {t u : Txn} (ht : p.txns[i]? = some t)
    (hu : p.txns[j]? = some u) (hle : u.commitEnd ≤ t.commitEnd) : j ≤ i := by
  by_contra hlt
  obtain ⟨hi, rfl⟩ := List.getElem?_eq_some_iff.mp ht
  obtain ⟨hj, rfl⟩ := List.getElem?_eq_some_iff.mp hu
  have hend := List.pairwise_iff_getElem.mp p.ends_increasing i j hi hj (by omega)
  exact absurd hle (not_le_of_gt hend)

/-- When a transaction is committed, all of its changes and all earlier transactions have been
    streamed: its end owes nothing outside the log. -/
private theorem Inv.commit (h : Inv p s) (hstep : step p s .commit = some s') : Inv p s' := by
  simp only [step] at hstep
  split at hstep
  · next t k ht hinside =>
    split at hstep
    · next hk =>
      cases hstep
      have hack : (receiveCommit s.listener t).ack = s.listener.ack.committed t.commitEnd := rfl
      -- COMMIT comes after the last change, so the whole transaction has been streamed
      have hall : ∀ c, p.Acceptable c → c.1 ≤ s.next → s.Streamed c := by
        rintro c ⟨t', e, ht', he, -⟩ hle
        by_cases heq : c.1 = s.next
        · rw [heq, ht, Option.some.injEq] at ht'
          obtain ⟨hlt, -⟩ := List.getElem?_eq_some_iff.mp he
          exact Or.inr ⟨heq, k, hinside, by rw [hk, ht']; exact hlt⟩
        · exact Or.inl (by omega)
      have hsound : (s.listener.ack.committed t.commitEnd).Sound (owed p s) s.log := by
        apply h.sound.committed
        -- ends increase, so what the end owes belongs to this transaction or an earlier one
        rintro c ⟨⟨hacc, u, hu, hle⟩, hearlier⟩
        exact (h.streamed c hacc (hall c hacc (index_le ht hu hle))).resolve_right hearlier
      refine ⟨hack ▸ hsound, hack ▸ h.acked, h.numbered, by rw [hack]; rfl, ?_, h.sent,
        h.flushed, hack ▸ h.flushed_le⟩
      rintro c hc (hlt | ⟨-, j, hj, -⟩)
      · exact h.streamed c hc (hall c hc (by simp only at hlt; omega))
      · exact nomatch hj
    · exact nomatch hstep
  · exact nomatch hstep

/-- Outside a transaction, a keepalive position owes only what has been streamed. -/
private theorem Inv.idle (h : Inv p s) {position : LSN}
    (hstep : step p s (.idle position) = some s') : Inv p s' := by
  simp only [step] at hstep
  split at hstep
  · next hmay =>
    cases hstep
    refine h.withGate (h.sound.idle ?_) ?_ ?_ (AckGate.le_idle_confirmable _ _)
    · rintro hinTxn c ⟨⟨hacc, t, ht, hle⟩, hearlier⟩
      rw [h.inTxn] at hinTxn
      simp only [mayIdle, hinTxn, Bool.false_eq_true, ↓reduceIte, all_eq_true,
        decide_eq_true_eq] at hmay
      -- what is still to be streamed ends after the position
      have hlt : c.1 < s.next := by
        by_contra hge
        have hmem : t ∈ p.txns.drop s.next := by
          refine mem_of_getElem? (i := c.1 - s.next) ?_
          rw [getElem?_drop, Nat.add_sub_of_le (Nat.not_lt.mp hge)]
          exact ht
        exact absurd hle (not_le_of_gt (hmay t hmem))
      exact (h.streamed c hacc (Or.inl hlt)).resolve_right hearlier
    · rw [AckGate.idle]; split <;> rfl
    · rw [AckGate.idle]; split <;> rfl
  · exact nomatch hstep

/-- The gate settles. -/
private theorem Inv.settle (h : Inv p s) :
    Inv p { s with listener := { s.listener with ack := s.listener.ack.settle } } :=
  h.withGate h.sound.settle rfl rfl (AckGate.le_settle_confirmable _)

/-- The position `Flush` returns is the confirmable one, and no smaller than any before. -/
private theorem Inv.flush (h : Inv p s) (hstep : step p s .flush = some s') : Inv p s' := by
  cases hstep
  have hs := h.settle
  exact ⟨hs.sound, hs.acked, hs.numbered, hs.inTxn, hs.streamed, hs.sent,
    pairwise_cons.mpr ⟨hs.flushed_le, hs.flushed⟩,
    forall_mem_cons.mpr ⟨le_rfl, hs.flushed_le⟩⟩

private theorem Inv.status (h : Inv p s) (hstep : step p s .status = some s') : Inv p s' := by
  cases hstep
  have hs := h.settle
  exact ⟨hs.sound, hs.acked, hs.numbered, hs.inTxn, hs.streamed,
    forall_mem_cons.mpr ⟨hs.acked_of_confirmable, hs.sent⟩,
    pairwise_cons.mpr ⟨hs.flushed_le, hs.flushed⟩,
    forall_mem_cons.mpr ⟨le_rfl, hs.flushed_le⟩⟩

/-- What a new session skips has been acked. -/
theorem Inv.acked_of_mayResume (h : Inv p s) (hmay : mayResume p s resume = true) {c : ChangeId}
    (hacc : p.Acceptable c) (hlt : c.1 < resume) : s.Acked c := by
  obtain ⟨t, e, ht, he, htake⟩ := hacc
  simp only [mayResume, all_eq_true, any_eq_true, decide_eq_true_eq] at hmay
  have hmem : t ∈ p.txns.take resume := by
    refine mem_of_getElem? (i := c.1) ?_
    rw [getElem?_take_of_lt hlt]
    exact ht
  obtain ⟨position, hposition, hle⟩ := hmay t hmem
  exact h.sent position hposition c ⟨⟨t, e, ht, he, htake⟩, t, ht, hle⟩

/-- A new session of the same process. -/
private theorem Inv.reconnect (h : Inv p s) (hstep : step p s (.reconnect resume) = some s') :
    Inv p s' := by
  simp only [step] at hstep
  split at hstep
  · next hmay =>
    cases hstep
    refine ⟨h.sound.newSession, h.acked, h.numbered, rfl, ?_, h.sent, h.flushed, h.flushed_le⟩
    -- the session counts as streamed what it skips, and that was acked
    rintro c hacc (hlt | ⟨-, k, hk, -⟩)
    · exact (h.acked_of_mayResume hmay hacc hlt).imp_left (mem_append_left _)
    · exact nomatch hk
  · exact nomatch hstep

/-- A new process starts with an empty log; what was acked before stays acked. -/
private theorem Inv.restart (h : Inv p s) (hstep : step p s (.restart resume) = some s') :
    Inv p s' := by
  simp only [step] at hstep
  split at hstep
  · next hmay =>
    cases hstep
    have hearlier : ∀ c, s.Acked c → c ∈ s.delivered ++ s.earlier := fun c hc =>
      mem_append.mpr hc
    refine ⟨?_, rfl, fun n c e hn => absurd hn (by simp), rfl, ?_, ?_, List.Pairwise.nil,
      forall_mem_nil _⟩
    · -- the new gate confirms only position 0
      refine ⟨rfl, rfl, Nat.le_refl 0, forall_mem_nil _, ?_⟩
      rintro c ⟨⟨-, t, ht, hle⟩, -⟩
      exact absurd hle (not_le_of_gt (p.ends_pos t (mem_of_getElem? ht)))
    · rintro c hacc (hlt | ⟨-, k, hk, -⟩)
      · exact Or.inr (hearlier c (h.acked_of_mayResume hmay hacc hlt))
      · exact nomatch hk
    · exact fun position hp c hc => Or.inr (hearlier c (h.sent position hp c hc))
  · exact nomatch hstep

/-- The oldest event of the bus carries the number after the last acked one. -/
private theorem Inv.ack (h : Inv p s) (hstep : step p s .ack = some s') : Inv p s' := by
  simp only [step] at hstep
  split at hstep
  · exact nomatch hstep
  · next c e bus hbus =>
    cases hstep
    -- the log stays, only its acked part grows by one
    have hlog : s.delivered ++ [c] ++ bus.map Prod.fst = s.log := by
      simp [log, hbus]
    have hseq : e.sequence = s.listener.ack.acked + 1 := by
      rw [h.acked]
      exact h.numbered 0 c e (by rw [hbus]; rfl)
    have hlt : s.listener.ack.acked < s.log.length := by
      rw [h.acked, ← hlog]
      simp only [length_append, length_singleton]
      omega
    obtain ⟨hsound, hacked⟩ := h.sound.observePublished hseq hlt
    have hgate : s.listener.ack.observePublished e =
        { s.listener.ack with acked := max s.listener.ack.acked e.sequence } :=
      if_neg (by omega)
    refine ⟨?_, ?_, ?_, ?_, ?_, ?_, h.flushed, ?_⟩
    · rw [log, hlog]
      exact hsound
    · rw [hacked, h.acked, length_append]
      rfl
    · intro n c' e' hn
      have hnum := h.numbered (n + 1) c' e' (by rw [hbus]; exact hn)
      rw [length_append, length_singleton]
      omega
    · rw [hgate]
      exact h.inTxn
    · rw [log, hlog]
      exact h.streamed
    · exact fun position hp c' hc' =>
        (h.sent position hp c' hc').imp_left (mem_append_left _)
    · rw [hgate]
      exact h.flushed_le

/-- Every step keeps the invariant. -/
theorem Inv.step (h : Inv p s) {a : Action} (hstep : step p s a = some s') : Inv p s' := by
  cases a with
  | begin => exact h.begin hstep
  | change => exact h.change hstep
  | commit => exact h.commit hstep
  | idle position => exact h.idle hstep
  | flush => exact h.flush hstep
  | status => exact h.status hstep
  | reconnect resume => exact h.reconnect hstep
  | restart resume => exact h.restart hstep
  | ack => exact h.ack hstep

/-- In every run, whenever a position has been sent, every change the bus takes of every
    transaction that ends at or before it has been acked, and the positions `Flush` returns
    within a process never decrease. -/
theorem sent_delivered (p : Primary) (tables : List GoString) (captureDDL : Bool)
    (actions : List Action) (s : System)
    (hrun : runSteps (System.step p) (System.start tables captureDDL) actions = some s) :
    (∀ position ∈ s.sent, ∀ c ∈ p.owes position, s.Acked c) ∧ s.flushed.Pairwise (· ≥ ·) := by
  have h : Inv p s :=
    runSteps_invariant (fun h hstep => h.step hstep) (Inv.start p tables captureDDL) hrun
  exact ⟨h.sent, h.flushed⟩

/-- A primary with one transaction, of one row. -/
def oneRow : Primary where
  txns := [⟨10, [newEvent .insert (ascii "public") (ascii "t") (ascii "\x7b\"id\":1\x7d")
    (ascii "INSERT") []], 20⟩]
  publishable := by simp [newEvent, isPublishable]
  ends_pos := by decide
  ends_increasing := by simp

/-- The connection drops inside the transaction, which is then streamed again. -/
def interrupted : List Action :=
  [.begin, .change, .status, .reconnect 0, .begin, .change, .commit, .ack, .status, .ack, .status]

/-- The end of the interrupted transaction is sent once both copies of its row are acked. -/
theorem sent_delivered_interrupted :
    ∃ s, runSteps (System.step oneRow) (System.start [] true) interrupted = some s ∧
      s.sent = [20, 0, 0] ∧ ∀ c ∈ oneRow.owes 20, s.Acked c := by
  refine ⟨_, rfl, rfl, ?_⟩
  exact (sent_delivered oneRow [] true interrupted _ rfl).1 20 mem_cons_self

end System

end Postgres
