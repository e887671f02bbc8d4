import Watcher.Spec.Outbox
import Watcher.Spec.PgOrder
import Watcher.Spec.PgSourceId

/-!
# From the primary to the stream

The whole way of a change: pgoutput messages, the parser, the gate, the bus, the
publisher and JetStream, with keepalives, status updates, dropped connections and
restarts at any time. Whatever happens, the stream has an initial part of the
published changes in commit order, each of them once, and nothing that a position
sent to the primary passes over is missing from it. What the bus refuses is no
published change, and what is relied on of JetStream are hypotheses (`Spec.Outbox`).

`System` is the same without messages, publisher and stream: it knows a change as
an event of its transaction. Every step of the pipeline is one of `System` or none
(`Follows`), so that what holds there of the gate holds here. The publisher copies
what the listener emits, as `Outbox.Copies` has it.

## Key results

- `Pipeline.Simulated.step`: one step keeps the invariant
- `Pipeline.stream_copies`: what is in the stream after every run
-/

namespace Postgres

open Cdc Run Nats List

/-! ## The log of the primary -/

namespace Config

/-- The events of a change message in the order they are emitted. -/
def emittedEvents (cfg : Config) (c : ChangeMessage) (lsn : GoString) : List Event :=
  (cfg.events c.catalog lsn c.message).tail ++ (cfg.events c.catalog lsn c.message).head?.toList

/-- The events of the change messages of a transaction; `lsn` says where each one is received. -/
def eventsFrom (cfg : Config) (lsn : Nat → GoString) : Nat → List ChangeMessage → List Event
  | _, [] => []
  | i, c :: cs => cfg.emittedEvents c (lsn i) ++ cfg.eventsFrom lsn (i + 1) cs

end Config

/-- What the primary streams: transactions in commit order. Position 0 is the invalid one. -/
structure Wal where
  txns : List StreamTxn
  /-- Where the change messages of each transaction are received, as text. -/
  lsn : Nat → Nat → GoString
  distinct : (txns.map StreamTxn.finalLSN).Nodup
  ends_pos : ∀ t ∈ txns, 0 < t.endLSN
  ends_increasing : txns.Pairwise fun t u => t.endLSN < u.endLSN

namespace Wal

/-- A transaction by its events. -/
def txn (cfg : Config) (wal : Wal) (i : Nat) (t : StreamTxn) : Txn :=
  ⟨t.finalLSN, cfg.eventsFrom (wal.lsn i) 0 t.changes, t.endLSN⟩

end Wal

theorem Config.eventsFrom_publishable (cfg : Config) (lsn : Nat → GoString) (i : Nat)
    (cs : List ChangeMessage) : ∀ e ∈ cfg.eventsFrom lsn i cs, isPublishable e.type = true := by
  have hmessage : ∀ (c : ChangeMessage) lsn, ∀ e ∈ cfg.events c.catalog lsn c.message,
      isPublishable e.type = true := by
    intro c lsn e he
    rw [← cfg.labelled_events c.catalog lsn c.isChange] at he
    obtain ⟨x, hx, rfl⟩ := mem_map.mp he
    obtain ⟨y, -, hy⟩ := mem_filterMap.mp hx
    obtain ⟨rel, -, hy⟩ := Option.bind_eq_some_iff.mp hy
    obtain ⟨e, hfor, rfl⟩ := Option.map_eq_some_iff.mp hy
    exact cfg.eventFor_publishable hfor
  induction cs generalizing i with
  | nil => exact forall_mem_nil _
  | cons c cs ih =>
    refine forall_mem_append.mpr ⟨fun e he => hmessage c (lsn i) e ?_, ih (i + 1)⟩
    rcases mem_append.mp he with he | he
    · exact mem_of_mem_tail he
    · exact mem_of_mem_head? (Option.mem_toList.mp he)

/-- The primary by its transactions' events. -/
def Wal.primary (cfg : Config) (wal : Wal) : Primary where
  txns := wal.txns.mapIdx (wal.txn cfg)
  publishable := by
    intro t ht e he
    obtain ⟨i, hi, rfl⟩ := mem_mapIdx.mp ht
    exact cfg.eventsFrom_publishable _ _ _ e he
  ends_pos := by
    intro t ht
    obtain ⟨i, hi, rfl⟩ := mem_mapIdx.mp ht
    exact wal.ends_pos _ (getElem_mem hi)
  ends_increasing := by
    rw [pairwise_iff_getElem]
    intro i j hi hj hlt
    rw [length_mapIdx] at hi hj
    simp only [getElem_mapIdx]
    exact pairwise_iff_getElem.mp wal.ends_increasing i j hi hj hlt

section Primary

variable {cfg : Config} {wal : Wal} {i : Nat} {t : StreamTxn}

theorem Wal.primary_getElem? (h : wal.txns[i]? = some t) :
    (wal.primary cfg).txns[i]? = some (wal.txn cfg i t) := by
  rw [Wal.primary, getElem?_mapIdx, h]
  rfl

theorem Wal.primary_ends (cfg : Config) (wal : Wal) :
    (wal.primary cfg).txns.map Txn.commitEnd = wal.txns.map StreamTxn.endLSN := by
  refine ext_getElem (by simp [Wal.primary]) fun n _ _ => ?_
  simp [Wal.primary, Wal.txn]

/-- And commit at different positions. -/
theorem Wal.primary_distinct : ((wal.primary cfg).txns.map Txn.finalLSN).Nodup := by
  have hmap : (wal.primary cfg).txns.map Txn.finalLSN = wal.txns.map StreamTxn.finalLSN := by
    refine ext_getElem (by simp [Wal.primary]) fun n _ _ => ?_
    simp [Wal.primary, Wal.txn]
  rw [hmap]
  exact wal.distinct

end Primary

/-! ## The pipeline -/

/-- The listener with its session, what it has sent to the primary, and the publisher's side. -/
structure Pipeline where
  listener : Listener
  /-- The latest RELATION message of each relation in this session. -/
  session : Catalog
  /-- The transaction that comes next, or is being streamed. -/
  next : Nat
  /-- Inside a transaction: how many of its change messages were received. -/
  inside : Option Nat
  /-- Events of the last of them that are still to be emitted. -/
  todo : List Event
  /-- Positions sent to the primary by any process. -/
  sent : List LSN
  outbox : Outbox

namespace Pipeline

/-- What can happen next. -/
inductive Move where
  | relation (rel : RelationDesc) (lsn : GoString)
  | begin (lsn : GoString)
  | change
  /-- The next event of the message received last. -/
  | emit
  | commit (lsn : GoString)
  /-- A keepalive at this position. -/
  | idle (position : LSN)
  /-- `Flush` whose status could not be sent. -/
  | flush
  | status
  /-- The connection dropped; the new session streams from this transaction on. -/
  | reconnect (resume : Nat)
  /-- The process died; a new one streams from this transaction on. -/
  | restart (resume : Nat)
  | outbox (action : OutboxAction)

/-- A new process with what an earlier one left in the stream and on the way. -/
def boot (cfg : Config) (subjectPrefix : GoString) (resume : Nat) (sent : List LSN)
    (broker : Broker) : Pipeline where
  listener := newGatedListener cfg.tables cfg.captureDDL
  session := Catalog.empty
  next := resume
  inside := none
  todo := []
  sent := sent
  outbox := ⟨⟨subjectPrefix, 1, []⟩, [], none, broker⟩

/-- The first process. -/
def start (cfg : Config) (subjectPrefix : GoString) : Pipeline :=
  boot cfg subjectPrefix 0 [] ⟨[], []⟩

/-- The bus passes on what it took. -/
def deliver (w : Pipeline) (taken : List Event) : Outbox :=
  { w.outbox with bus := w.outbox.bus ++ taken }

/-- The walsender has described, in this session, the relations the message names. -/
def described (w : Pipeline) (c : ChangeMessage) : Bool :=
  c.message.named.all fun id => w.session id = c.catalog id

@[inherit_doc System.mayIdle]
def mayIdle (wal : Wal) (w : Pipeline) (position : LSN) : Bool :=
  (wal.txns.drop (if w.inside.isSome then w.next + 1 else w.next)).all fun t => position < t.endLSN

@[inherit_doc System.mayResume]
def mayResume (wal : Wal) (w : Pipeline) (resume : Nat) : Bool :=
  (wal.txns.take resume).all fun t => w.sent.any fun position => t.endLSN ≤ position

variable (cfg : Config) (wal : Wal) (js : JetStream) (subjectPrefix : GoString)
  (keyOnly : EventType → GoString → List GoString → GoString)

/-- Messages are handled one after another; the publisher and the network work beside. -/
def step (w : Pipeline) : Move → Option Pipeline
  | .relation rel lsn =>
    match w.todo with
    | [] =>
      let (l, taken) := w.listener.handleXLogData Service.opened (Message.relation rel).encode lsn
      some { w with
        listener := l
        session := w.session.learn (.relation rel)
        outbox := w.deliver taken }
    | _ :: _ => none
  | .begin lsn =>
    match wal.txns[w.next]?, w.inside with
    | some t, none =>
      let (l, taken) := w.listener.handleXLogData Service.opened
        (Message.begin t.finalLSN t.time t.xid).encode lsn
      some { w with listener := l, inside := some 0, outbox := w.deliver taken }
    | _, _ => none
  | .change =>
    match wal.txns[w.next]?, w.inside, w.todo with
    | some t, some k, [] =>
      match t.changes[k]? with
      | some c =>
        if w.described c then
          -- parsed at once, emitted event by event
          let parsed := w.listener.parser.parse c.message.encode (wal.lsn w.next k)
          some { w with
            listener := { w.listener with parser := parsed.parser }
            inside := some (k + 1)
            todo := parsed.handled ++ parsed.event.toList }
        else none
      | none => none
    | _, _, _ => none
  | .emit =>
    match w.todo with
    | [] => none
    | e :: todo =>
      let (l, taken) := w.listener.emit Service.opened e
      some { w with listener := l, todo := todo, outbox := w.deliver taken.toList }
  | .commit lsn =>
    match wal.txns[w.next]?, w.inside, w.todo with
    | some t, some k, [] =>
      if k = t.changes.length then
        let (l, taken) := w.listener.handleXLogData Service.opened
          (Message.commit 0 t.finalLSN t.endLSN t.time).encode lsn
        some { w with
          listener := l
          next := w.next + 1
          inside := none
          outbox := w.deliver taken }
      else none
    | _, _, _ => none
  | .idle position =>
    if w.mayIdle wal position then
      some { w with listener := { w.listener with ack := w.listener.ack.idle position } }
    else none
  | .flush => some { w with listener := w.listener.sendStatus.2 }
  | .status =>
    let (position, l) := w.listener.sendStatus
    some { w with listener := l, sent := position :: w.sent }
  | .reconnect resume =>
    if w.mayResume wal resume then
      some { w with
        listener := w.listener.newSession
        session := Catalog.empty
        next := resume
        inside := none
        todo := [] }
    else none
  | .restart resume =>
    if w.mayResume wal resume then
      -- only the broker and what the primary was told outlast the process
      some (boot cfg subjectPrefix resume w.sent w.outbox.broker)
    else none
  | .outbox a =>
    (w.outbox.step js keyOnly a).map fun (outbox, told) =>
      { w with
        outbox := outbox
        listener := told.elim w.listener fun e =>
          { w.listener with ack := w.listener.ack.observePublished e } }

/-- What is relied on of the limits on messages. -/
def Move.Admits : Move → Prop
  | .outbox action => action.Admits
  | _ => True

/-! ## The invariant -/

/-- An event of one of the published changes. -/
def Genuine (e : Event) : Prop := ∃ c ∈ (wal.primary cfg).changes, (wal.primary cfg).IsNamed c e

/-- What the system, in the place where it stands, has yet to stream. -/
def rest (s : System) : List GoString :=
  ((wal.primary cfg).changesFrom s.next (s.inside.getD 0)).map
    ((wal.primary cfg).messageID subjectPrefix)

/-- The place in the open transaction: so many of its events were emitted, and the rest of them is
    still to be emitted or received. -/
structure Within (w : Pipeline) (s : System) (k : Nat) (t : StreamTxn) (n : Nat) : Prop where
  txn : wal.txns[w.next]? = some t
  inside : s.inside = some n
  le : n ≤ (wal.txn cfg w.next t).changes.length
  left : (wal.txn cfg w.next t).changes.drop n =
    w.todo ++ cfg.eventsFrom (wal.lsn w.next) k (t.changes.drop k)
  finalLSN : s.listener.parser.txnFinalLSN = t.finalLSN
  txnIndex : s.listener.txnIndex = n

/-- The system is in the state of the pipeline. -/
structure Follows (w : Pipeline) (s : System) : Prop where
  ack : w.listener.ack = s.listener.ack
  txnIndex : w.listener.txnIndex = s.listener.txnIndex
  finalLSN : w.listener.parser.txnFinalLSN = s.listener.parser.txnFinalLSN
  next : w.next = s.next
  outside : w.inside = none → s.inside = none ∧ w.todo = []
  within : ∀ k, w.inside = some k → ∃ t n, Within cfg wal w s k t n
  bus : s.bus.map Prod.snd = w.outbox.queue
  sent : w.sent = s.sent

/-- The system follows, and the stream is a copy as far as the system has got. -/
structure Simulated (w : Pipeline) (s : System) : Prop extends Follows cfg wal w s where
  agrees : ∃ cat, w.listener.parser.Agrees cfg cat ∧
    ∀ id rel, w.session id = some rel → cat id = some rel
  inv : s.Inv (wal.primary cfg)
  named : ∀ x ∈ s.bus, (wal.primary cfg).IsNamed x.1 x.2
  acked : ∀ c, s.Acked c → (wal.primary cfg).messageID subjectPrefix c ∈ w.outbox.broker.ids
  copies : w.outbox.Copies keyOnly subjectPrefix (Genuine cfg wal)
    ((wal.primary cfg).messageIDs subjectPrefix) (rest cfg wal subjectPrefix s)

variable {cfg wal js subjectPrefix keyOnly} {w w' : Pipeline} {s : System}

variable {e : Event} {lsn : GoString} {k n resume : Nat} {todo : List Event}

theorem Genuine.sourceID_ne_nil (h : Genuine cfg wal e) : e.sourceID ≠ [] := by
  obtain ⟨c, -, t, e₀, sequence, -, -, rfl⟩ := h
  exact Primary.sourceID_ne_nil _ _

/-- At the start nothing was streamed, and everything is still to come. -/
theorem Simulated.start :
    Simulated cfg wal subjectPrefix keyOnly (Pipeline.start cfg subjectPrefix)
      (System.start cfg.tables cfg.captureDDL) where
  ack := rfl
  txnIndex := rfl
  finalLSN := rfl
  next := rfl
  outside := fun _ => ⟨rfl, rfl⟩
  within := fun k hk => by cases hk
  bus := rfl
  sent := rfl
  agrees := ⟨Catalog.empty, agrees_newParser cfg, fun id rel hrel => by cases hrel⟩
  inv := System.Inv.start _ _ _
  named := forall_mem_nil _
  acked := by
    rintro c (h | h)
    · cases h
    · cases h
  copies := by
    have hrest : rest cfg wal subjectPrefix (System.start cfg.tables cfg.captureDDL) =
        (wal.primary cfg).messageIDs subjectPrefix := by
      rw [rest, Primary.messageIDs]
      exact congrArg _ (wal.primary cfg).changesFrom_zero
    rw [hrest]
    exact .start (Primary.nodup_messageIDs wal.primary_distinct subjectPrefix) []

/-- A message that changes neither what is emitted nor where the system stands. -/
theorem Simulated.relation (h : Simulated cfg wal subjectPrefix keyOnly w s) {rel : RelationDesc}
    (hstep : w.step cfg wal js subjectPrefix keyOnly (.relation rel lsn) = some w') :
    Simulated cfg wal subjectPrefix keyOnly w' s := by
  obtain ⟨cat, hcat, hsession⟩ := h.agrees
  have hhandle : w.listener.handleXLogData Service.opened (Message.relation rel).encode lsn =
      ({ w.listener with parser := w.listener.parser.after (.relation rel) }, []) := by
    simp only [Listener.handleXLogData, parse_encode hcat (.relation rel) lsn trivial]
    rfl
  simp only [step, hhandle] at hstep
  split at hstep
  · rename_i htodo
    cases hstep
    -- RELATION is no event
    have hdeliver : w.deliver [] = w.outbox := by simp [deliver]
    rw [hdeliver]
    refine { h with
      within := fun k hk => ?_
      agrees := ⟨cat.learn (.relation rel), hcat.after (.relation rel), ?_⟩ }
    · obtain ⟨t, n, hwithin⟩ := h.within k hk
      exact ⟨t, n, { hwithin with }⟩
    · intro id rel' hrel'
      simp only [Catalog.learn] at hrel' ⊢
      split
      · rename_i hid
        rw [if_pos hid] at hrel'
        exact hrel'
      · rename_i hid
        rw [if_neg hid] at hrel'
        exact hsession id rel' hrel'
  · cases hstep

/-- The bus takes an event that is not published. -/
theorem queue_deliver (hpub : isPublishable e.type = false) :
    (w.deliver [e]).queue = w.outbox.queue := by
  simp [deliver, Outbox.queue, hpub]

/-- The bus takes an event that is published. -/
theorem queue_deliver_published (hpub : isPublishable e.type = true) :
    (w.deliver [e]).queue = w.outbox.queue ++ [e] := by
  simp [deliver, Outbox.queue, hpub]

/-- BEGIN is received. -/
theorem Simulated.begin (h : Simulated cfg wal subjectPrefix keyOnly w s)
    (hstep : w.step cfg wal js subjectPrefix keyOnly (.begin lsn) = some w') :
    ∃ s', Simulated cfg wal subjectPrefix keyOnly w' s' := by
  simp only [step] at hstep
  split at hstep
  · rename_i t ht hinside
    obtain ⟨cat, hcat, hsession⟩ := h.agrees
    have hhandle : w.listener.handleXLogData Service.opened
        (Message.begin t.finalLSN t.time t.xid).encode lsn =
        (⟨w.listener.parser.after (.begin t.finalLSN t.time t.xid), w.listener.ack.begin, 0⟩,
          cfg.events cat lsn (.begin t.finalLSN t.time t.xid)) := by
      simp only [Listener.handleXLogData,
        parse_encode hcat (.begin t.finalLSN t.time t.xid) lsn trivial]
      rfl
    rw [hhandle] at hstep
    cases hstep
    obtain ⟨hsinside, htodo⟩ := h.outside hinside
    let s' : System := { s with
      listener := System.receiveBegin s.listener (wal.txn cfg w.next t)
      inside := some 0 }
    have hsstep : System.step (wal.primary cfg) s .begin = some s' := by
      simp only [System.step, ← h.next, Wal.primary_getElem? ht, hsinside, s']
    refine ⟨s', {
      ack := ?_
      txnIndex := rfl
      finalLSN := rfl
      next := h.next
      outside := fun hnone => absurd hnone (by simp)
      within := ?_
      bus := h.bus.trans (queue_deliver rfl).symm
      sent := h.sent
      agrees := ⟨cat, hcat.after (.begin t.finalLSN t.time t.xid), hsession⟩
      inv := h.inv.step hsstep
      named := h.named
      acked := h.acked
      copies := ?_ }⟩
    · exact congrArg AckGate.begin h.ack
    · -- nothing of the transaction has been received
      intro k hk
      cases hk
      refine ⟨t, 0, ht, rfl, Nat.zero_le _, ?_, rfl, rfl⟩
      rw [drop_zero, drop_zero, htodo, nil_append]
      rfl
    · have hrest := h.copies
      rw [rest, hsinside] at hrest
      exact hrest.pass rfl
  · cases hstep

/-- A change message whose relations are described is parsed as what it stands for. -/
theorem Simulated.parse_change (h : Simulated cfg wal subjectPrefix keyOnly w s) {c : ChangeMessage}
    (hdesc : w.described c = true) (lsn : GoString) :
    w.listener.parser.parse c.message.encode lsn =
      ⟨w.listener.parser, (cfg.events c.catalog lsn c.message).tail,
        (cfg.events c.catalog lsn c.message).head?⟩ := by
  obtain ⟨cat, hcat, hsession⟩ := h.agrees
  -- the parser knows at least what this session described
  have hnamed : ∀ id ∈ c.message.named, cat id = c.catalog id := by
    intro id hid
    obtain ⟨rel, hrel, -⟩ := c.known id hid
    simp only [described, all_eq_true, decide_eq_true_eq] at hdesc
    rw [hrel]
    exact hsession id rel ((hdesc id hid).trans hrel)
  have hevents : cfg.events cat lsn c.message = cfg.events c.catalog lsn c.message := by
    rw [← cfg.labelled_events cat lsn c.isChange, ← cfg.labelled_events c.catalog lsn c.isChange,
      Config.labelled, Config.labelled]
    refine congrArg _ (filterMap_congr fun x hx => ?_)
    obtain ⟨id, i⟩ := x
    dsimp only
    rw [hnamed id (mem_of_getElem? (mem_zipIdx_iff_getElem?.mp hx))]
  have hafter : w.listener.parser.after c.message = w.listener.parser := by
    have := c.isChange
    cases hm : c.message with
    | begin | commit | relation => rw [hm] at this; cases this
    | _ => rfl
  rw [parse_encode hcat c.message lsn (Stream.fits_congr hnamed c.fits), hafter, hevents]

/-- A change message is received: its events are to be emitted. -/
theorem Simulated.change (h : Simulated cfg wal subjectPrefix keyOnly w s)
    (hstep : w.step cfg wal js subjectPrefix keyOnly .change = some w') :
    Simulated cfg wal subjectPrefix keyOnly w' s := by
  simp only [step] at hstep
  split at hstep
  · rename_i t k ht hinside htodo
    split at hstep
    · rename_i c hc
      split at hstep
      · rename_i hdesc
        rw [h.parse_change hdesc] at hstep
        cases hstep
        refine { h with outside := fun hnone => absurd hnone (by simp), within := fun k' hk' => ?_ }
        cases hk'
        obtain ⟨t', n, hwithin⟩ := h.within k hinside
        obtain rfl : t = t' := Option.some.inj (ht.symm.trans hwithin.txn)
        refine ⟨t, n, { hwithin with left := ?_ }⟩
        -- the message moves from what is still to be received to what is to be emitted
        obtain ⟨hk, rfl⟩ := List.getElem?_eq_some_iff.mp hc
        rw [hwithin.left, htodo, List.nil_append, List.drop_eq_getElem_cons hk]
        rfl
      · cases hstep
    · cases hstep
  · cases hstep

/-- The next event to emit is the next change of the transaction. -/
theorem Within.next {t : StreamTxn} (h : Within cfg wal w s k t n) (htodo : w.todo = e :: todo) :
    (wal.txn cfg w.next t).changes[n]? = some e ∧
      (wal.txn cfg w.next t).changes.drop (n + 1) =
        todo ++ cfg.eventsFrom (wal.lsn w.next) k (t.changes.drop k) := by
  have hleft := h.left
  rw [htodo, cons_append] at hleft
  constructor
  · rw [← head?_drop, hleft, head?_cons]
  · rw [← tail_drop, hleft, tail_cons]

/-- The place after the next event, whether or not the bus took it. -/
theorem Within.succ {t : StreamTxn} (s' : System) (h : Within cfg wal w s k t n)
    (htodo : w.todo = e :: todo) (hinside : s'.inside = some (n + 1))
    (hparser : s'.listener.parser = s.listener.parser)
    (hindex : s'.listener.txnIndex = s.listener.txnIndex + 1) {l : Listener} {o : Outbox} :
    Within cfg wal { w with listener := l, todo := todo, outbox := o } s' k t (n + 1) where
  txn := h.txn
  inside := hinside
  le := getElem?_lt_length (h.next htodo).1
  left := (h.next htodo).2
  finalLSN := hparser ▸ h.finalLSN
  txnIndex := hindex.trans (congrArg (· + 1) h.txnIndex)

/-- The bus takes an event: the system streams the change, and the publisher gets it. -/
private theorem Simulated.emitTaken (h : Simulated cfg wal subjectPrefix keyOnly w s)
    {t : StreamTxn} (hinside : w.inside = some k) (hwithin : Within cfg wal w s k t n)
    (htodo : w.todo = e :: todo) (hpub : isPublishable e.type = true)
    (htake : Service.opened.handleEvent e = true) :
    ∃ s', Simulated cfg wal subjectPrefix keyOnly
      { w with
        listener := { w.listener with
          txnIndex := w.listener.txnIndex + 1
          ack := (w.listener.ack.hand (w.listener.named e)).1 }
        todo := todo
        outbox := w.deliver [(w.listener.ack.hand (w.listener.named e)).2] } s' := by
  have hT : (wal.primary cfg).txns[s.next]? = some (wal.txn cfg w.next t) :=
    h.toFollows.next ▸ Wal.primary_getElem? hwithin.txn
  have he := (hwithin.next htodo).1
  have hacc : (wal.primary cfg).Acceptable (s.next, n) := ⟨_, e, hT, he, htake⟩
  -- both name and number the event alike
  have hsame : w.listener.ack.hand (w.listener.named e) =
      s.listener.ack.hand (s.listener.named e) := by
    rw [h.ack, Listener.named, Listener.named, h.finalLSN, h.txnIndex]
  have hnamed : (wal.primary cfg).IsNamed (s.next, n)
      (s.listener.ack.hand (s.listener.named e)).2 := by
    refine ⟨_, e, s.listener.ack.handed + 1, hT, he, ?_⟩
    simp only [AckGate.hand, Listener.named, hwithin.finalLSN, hwithin.txnIndex]
    rfl
  -- the step of the system that goes with this one
  let s' : System := { s with
    listener := { s.listener with
      txnIndex := s.listener.txnIndex + 1
      ack := (s.listener.ack.hand (s.listener.named e)).1 }
    inside := some (n + 1)
    bus := s.bus ++ [((s.next, n), (s.listener.ack.hand (s.listener.named e)).2)] }
  have hsstep : System.step (wal.primary cfg) s .change = some s' := by
    simp only [System.step, hT, hwithin.inside, he, Listener.emit_taken _ hpub htake]
    rfl
  rw [hsame]
  refine ⟨s', {
    ack := rfl
    txnIndex := congrArg (· + 1) h.txnIndex
    finalLSN := h.finalLSN
    next := h.toFollows.next
    outside := fun hnone => absurd (hnone.symm.trans hinside) (by simp)
    within := ?_
    bus := ?_
    sent := h.sent
    agrees := h.agrees
    inv := h.inv.step hsstep
    named := forall_mem_concat h.named hnamed
    acked := h.acked
    copies := ?_ }⟩
  · intro k' hk'
    obtain rfl : k = k' := Option.some.inj (hinside.symm.trans hk')
    exact ⟨t, n + 1, hwithin.succ s' htodo rfl rfl rfl⟩
  · show (s.bus ++ [_]).map Prod.snd = _
    rw [map_append, h.bus]
    exact (queue_deliver_published (e := (s.listener.ack.hand (s.listener.named e)).2) hpub).symm
  -- the change is the next one that the stream is to get
  · have hrest := h.copies
    rw [rest, hwithin.inside, Option.getD_some, Primary.changesFrom_taken hacc, map_cons,
      ← hnamed.messageID_eq subjectPrefix []] at hrest
    exact hrest.take ⟨_, (wal.primary cfg).mem_changes.mpr hacc, hnamed⟩ hpub

/-- The bus refuses an event: the system passes over the change. -/
private theorem Simulated.emitRefused (h : Simulated cfg wal subjectPrefix keyOnly w s)
    {t : StreamTxn} (hinside : w.inside = some k) (hwithin : Within cfg wal w s k t n)
    (htodo : w.todo = e :: todo) (hpub : isPublishable e.type = true)
    (hrefuse : Service.opened.handleEvent e = false) :
    ∃ s', Simulated cfg wal subjectPrefix keyOnly
      { w with
        listener := { w.listener with txnIndex := w.listener.txnIndex + 1 }
        todo := todo } s' := by
  have hT : (wal.primary cfg).txns[s.next]? = some (wal.txn cfg w.next t) :=
    h.toFollows.next ▸ Wal.primary_getElem? hwithin.txn
  have he := (hwithin.next htodo).1
  -- what the bus refuses is not among the changes to be published
  have hacc : ¬(wal.primary cfg).Acceptable (s.next, n) := by
    rintro ⟨T, e', hT', he', htake'⟩
    obtain rfl := Option.some.inj (hT.symm.trans hT')
    obtain rfl := Option.some.inj (he.symm.trans he')
    exact absurd htake' (by simp [hrefuse])
  let s' : System := { s with
    listener := { s.listener with txnIndex := s.listener.txnIndex + 1 }
    inside := some (n + 1) }
  have hsstep : System.step (wal.primary cfg) s .change = some s' := by
    simp only [System.step, hT, hwithin.inside, he, Listener.emit_refused _ hpub hrefuse]
    simp [s']
  refine ⟨s', {
    ack := h.ack
    txnIndex := congrArg (· + 1) h.txnIndex
    finalLSN := h.finalLSN
    next := h.toFollows.next
    outside := fun hnone => absurd (hnone.symm.trans hinside) (by simp)
    within := ?_
    bus := h.bus
    sent := h.sent
    agrees := h.agrees
    inv := h.inv.step hsstep
    named := h.named
    acked := h.acked
    copies := ?_ }⟩
  · intro k' hk'
    obtain rfl : k = k' := Option.some.inj (hinside.symm.trans hk')
    exact ⟨t, n + 1, hwithin.succ s' htodo rfl rfl rfl⟩
  -- so the stream waits for the same changes as before
  · have hrest := h.copies
    rw [rest, hwithin.inside, Option.getD_some, Primary.changesFrom_refused hacc] at hrest
    exact hrest

/-- The next event is emitted. -/
theorem Simulated.emit (h : Simulated cfg wal subjectPrefix keyOnly w s)
    (hstep : w.step cfg wal js subjectPrefix keyOnly .emit = some w') :
    ∃ s', Simulated cfg wal subjectPrefix keyOnly w' s' := by
  simp only [step] at hstep
  split at hstep
  · cases hstep
  · rename_i e todo htodo
    -- something is to be emitted inside a transaction only
    cases hinside : w.inside with
    | none => exact absurd (h.outside hinside).2 (by simp [htodo])
    | some k =>
      obtain ⟨t, n, hwithin⟩ := h.within k hinside
      have hpub : isPublishable e.type = true :=
        (wal.primary cfg).publishable _
          (mem_of_getElem? (Wal.primary_getElem? hwithin.txn)) e
          (mem_of_getElem? (hwithin.next htodo).1)
      cases htake : Service.opened.handleEvent e with
      | true =>
        rw [Listener.emit_taken _ hpub htake] at hstep
        cases hstep
        exact h.emitTaken hinside hwithin htodo hpub htake
      | false =>
        rw [Listener.emit_refused _ hpub htake] at hstep
        cases hstep
        have hdeliver : w.deliver [] = w.outbox := by simp [deliver]
        rw [Option.toList_none, hdeliver]
        exact h.emitRefused hinside hwithin htodo hpub htake

/-- COMMIT is received. -/
theorem Simulated.commit (h : Simulated cfg wal subjectPrefix keyOnly w s)
    (hstep : w.step cfg wal js subjectPrefix keyOnly (.commit lsn) = some w') :
    ∃ s', Simulated cfg wal subjectPrefix keyOnly w' s' := by
  simp only [step] at hstep
  split at hstep
  · rename_i t k ht hinside htodo
    split at hstep
    · rename_i hk
      obtain ⟨cat, hcat, hsession⟩ := h.agrees
      have hhandle : w.listener.handleXLogData Service.opened
          (Message.commit 0 t.finalLSN t.endLSN t.time).encode lsn =
          ({ w.listener with
              parser := w.listener.parser.after (.commit 0 t.finalLSN t.endLSN t.time)
              ack := w.listener.ack.committed t.endLSN },
            cfg.events cat lsn (.commit 0 t.finalLSN t.endLSN t.time)) := by
        simp only [Listener.handleXLogData,
          parse_encode hcat (.commit 0 t.finalLSN t.endLSN t.time) lsn trivial]
        rfl
      rw [hhandle] at hstep
      cases hstep
      obtain ⟨t', n, hwithin⟩ := h.within k hinside
      obtain rfl : t = t' := Option.some.inj (ht.symm.trans hwithin.txn)
      have hT : (wal.primary cfg).txns[s.next]? = some (wal.txn cfg w.next t) :=
        h.next ▸ Wal.primary_getElem? hwithin.txn
      -- every event of the transaction was emitted
      have hn : n = (wal.txn cfg w.next t).changes.length := by
        have hleft := hwithin.left
        rw [htodo, hk, drop_length, nil_append] at hleft
        exact Nat.le_antisymm hwithin.le (drop_eq_nil_iff.mp hleft)
      let s' : System := { s with
        listener := System.receiveCommit s.listener (wal.txn cfg w.next t)
        next := s.next + 1
        inside := none }
      have hsstep : System.step (wal.primary cfg) s .commit = some s' := by
        simp only [System.step, hT, hwithin.inside, if_pos hn, s']
      refine ⟨s', {
        ack := congrArg (AckGate.committed · t.endLSN) h.ack
        txnIndex := h.txnIndex
        finalLSN := h.finalLSN
        next := congrArg (· + 1) h.next
        outside := fun _ => ⟨rfl, htodo⟩
        within := fun k hk => absurd hk (by simp)
        bus := h.bus.trans (queue_deliver rfl).symm
        sent := h.sent
        agrees := ⟨cat, hcat.after (.commit 0 t.finalLSN t.endLSN t.time), hsession⟩
        inv := h.inv.step hsstep
        named := h.named
        acked := h.acked
        copies := ?_ }⟩
      have hrest := h.copies
      rw [rest, hwithin.inside, Option.getD_some, hn, Primary.changesFrom_commit hT] at hrest
      exact hrest.pass rfl
    · cases hstep
  · cases hstep

/-- Steps that only touch the gate. -/
theorem Simulated.withGate (h : Simulated cfg wal subjectPrefix keyOnly w s) {s' : System}
    {a : Action} {ack : AckGate} (hsstep : System.step (wal.primary cfg) s a = some s')
    (hlistener : s'.listener = { s.listener with ack := ack }) (hnext : s'.next = s.next)
    (hinside : s'.inside = s.inside) (hbus : s'.bus = s.bus)
    (hdelivered : s'.delivered = s.delivered) (hearlier : s'.earlier = s.earlier) :
    Simulated cfg wal subjectPrefix keyOnly
      { w with listener := { w.listener with ack := ack }, sent := s'.sent } s' where
  ack := by rw [hlistener]
  txnIndex := by rw [hlistener]; exact h.txnIndex
  finalLSN := by rw [hlistener]; exact h.finalLSN
  next := h.next.trans hnext.symm
  outside := by rw [hinside]; exact h.outside
  within := fun k hk => by
    obtain ⟨t, n, hwithin⟩ := h.within k hk
    exact ⟨t, n, { hwithin with
      inside := hinside.trans hwithin.inside
      finalLSN := by rw [hlistener]; exact hwithin.finalLSN
      txnIndex := by rw [hlistener]; exact hwithin.txnIndex }⟩
  bus := by rw [hbus]; exact h.bus
  sent := rfl
  agrees := h.agrees
  inv := h.inv.step hsstep
  named := by rw [hbus]; exact h.named
  acked := by
    rintro c hc
    rw [System.Acked, hdelivered, hearlier] at hc
    exact h.acked c hc
  copies := by
    rw [rest, hnext, hinside]
    exact h.copies

theorem mayIdle_eq (h : Follows cfg wal w s) (position : LSN) :
    System.mayIdle (wal.primary cfg) s position = w.mayIdle wal position := by
  have hinside : s.inside.isSome = w.inside.isSome := by
    cases hw : w.inside with
    | none => rw [(h.outside hw).1]
    | some k =>
      obtain ⟨t, n, hwithin⟩ := h.within k hw
      rw [hwithin.inside]
      rfl
  -- only the ends of the transactions matter
  have hends := congrArg (fun l => (l.drop (if w.inside.isSome then w.next + 1 else w.next)).all
    fun x => decide (position < x)) (wal.primary_ends cfg)
  simp only [← map_drop, all_map] at hends
  rw [System.mayIdle, mayIdle, hinside, ← h.next]
  exact hends

/-- And may resume at the same places. -/
theorem mayResume_eq (h : Follows cfg wal w s) (resume : Nat) :
    System.mayResume (wal.primary cfg) s resume = w.mayResume wal resume := by
  have hends := congrArg (fun l => (l.take resume).all
    fun x => s.sent.any fun position => decide (x ≤ position)) (wal.primary_ends cfg)
  simp only [← map_take, all_map] at hends
  rw [System.mayResume, mayResume, h.sent]
  exact hends

/-- What a new session skips is in the stream. -/
theorem Simulated.skipped (h : Simulated cfg wal subjectPrefix keyOnly w s)
    (hmay : w.mayResume wal resume = true) :
    ∀ id ∈ (((wal.primary cfg).changes.filter fun c => !c.isFrom resume 0).map
      ((wal.primary cfg).messageID subjectPrefix)), id ∈ w.outbox.broker.ids := by
  intro id hid
  obtain ⟨c, hc, rfl⟩ := mem_map.mp hid
  obtain ⟨hc, hfrom⟩ := mem_filter.mp hc
  have hlt : c.1 < resume := by
    simp only [ChangeId.isFrom, Bool.not_eq_true', Bool.or_eq_false_iff, Bool.and_eq_false_imp,
      decide_eq_false_iff_not, decide_eq_true_eq] at hfrom
    omega
  rw [← mayResume_eq h.toFollows] at hmay
  exact h.acked c (h.inv.acked_of_mayResume hmay ((wal.primary cfg).mem_changes.mp hc) hlt)

theorem messageIDs_split (resume : Nat) :
    (wal.primary cfg).messageIDs subjectPrefix =
      ((wal.primary cfg).changes.filter fun c => !c.isFrom resume 0).map
        ((wal.primary cfg).messageID subjectPrefix) ++
      ((wal.primary cfg).changesFrom resume 0).map ((wal.primary cfg).messageID subjectPrefix) := by
  rw [← map_append, ← Primary.changes_split]
  rfl

/-- The relation map survives the session, what the session described does not. -/
theorem Simulated.reconnect (h : Simulated cfg wal subjectPrefix keyOnly w s)
    (hstep : w.step cfg wal js subjectPrefix keyOnly (.reconnect resume) = some w') :
    ∃ s', Simulated cfg wal subjectPrefix keyOnly w' s' := by
  simp only [step] at hstep
  split at hstep
  · rename_i hmay
    cases hstep
    -- what is on the bus stays there
    let s' : System := { s with
      listener := s.listener.newSession
      next := resume
      inside := none }
    have hsstep : System.step (wal.primary cfg) s (.reconnect resume) = some s' := by
      rw [System.step, mayResume_eq h.toFollows, if_pos hmay]
    obtain ⟨cat, hcat, -⟩ := h.agrees
    exact ⟨s', {
      ack := congrArg AckGate.newSession h.ack
      txnIndex := h.txnIndex
      finalLSN := h.finalLSN
      next := rfl
      outside := fun _ => ⟨rfl, rfl⟩
      within := fun k hk => absurd hk (by simp)
      bus := h.bus
      sent := h.sent
      agrees := ⟨cat, hcat, fun id rel hrel => absurd hrel (by simp [Catalog.empty])⟩
      inv := h.inv.step hsstep
      named := h.named
      acked := h.acked
      copies := h.copies.resume (messageIDs_split resume) (h.skipped hmay) }⟩
  · cases hstep

/-- A new process: what was acked stays in the stream. -/
theorem Simulated.restart (h : Simulated cfg wal subjectPrefix keyOnly w s)
    (hstep : w.step cfg wal js subjectPrefix keyOnly (.restart resume) = some w') :
    ∃ s', Simulated cfg wal subjectPrefix keyOnly w' s' := by
  simp only [step] at hstep
  split at hstep
  · rename_i hmay
    cases hstep
    -- the bus is empty, and what the old process has published counts as earlier
    let s' : System := { s with
      listener := newGatedListener s.listener.parser.tableFilter s.listener.parser.captureDDL
      next := resume
      inside := none
      bus := []
      delivered := []
      earlier := s.delivered ++ s.earlier
      flushed := [] }
    have hsstep : System.step (wal.primary cfg) s (.restart resume) = some s' := by
      rw [System.step, mayResume_eq h.toFollows, if_pos hmay]
    refine ⟨s', {
      ack := rfl
      txnIndex := rfl
      finalLSN := rfl
      next := rfl
      outside := fun _ => ⟨rfl, rfl⟩
      within := fun k hk => absurd hk (by simp [boot])
      bus := rfl
      sent := h.sent
      agrees := ⟨Catalog.empty, agrees_newParser cfg,
        fun id rel hrel => absurd hrel (by simp [boot, Catalog.empty])⟩
      inv := h.inv.step hsstep
      named := forall_mem_nil _
      acked := ?_
      copies := h.copies.restart [] (messageIDs_split resume) (h.skipped hmay) }⟩
    rintro c (hc | hc)
    · cases hc
    · exact h.acked c (mem_append.mp hc)
  · cases hstep

/-- A step of the publisher or the network; the gate hears of an event that is acked. -/
theorem Simulated.outbox (hjs : js.Dedups) (h : Simulated cfg wal subjectPrefix keyOnly w s)
    {a : OutboxAction} (hadmits : a.Admits)
    (hstep : w.step cfg wal js subjectPrefix keyOnly (.outbox a) = some w') :
    ∃ s', Simulated cfg wal subjectPrefix keyOnly w' s' := by
  simp only [step, Option.map_eq_some_iff] at hstep
  obtain ⟨⟨o, told⟩, hostep, rfl⟩ := hstep
  obtain ⟨hcopies, hstepped⟩ := h.copies.step hjs (fun e he => he.sourceID_ne_nil) hadmits hostep
  cases told with
  | none =>
    exact ⟨s, { h with
      bus := h.bus.trans hstepped.queue
      acked := fun c hc => hstepped.ids (h.acked c hc)
      copies := hcopies
      within := fun k hk => by
        obtain ⟨t, n, hwithin⟩ := h.within k hk
        exact ⟨t, n, { hwithin with }⟩ }⟩
  | some e =>
    -- it is the oldest event that the system waits for
    have hbus := h.bus.trans hstepped.queue
    cases hsbus : s.bus with
    | nil => rw [hsbus] at hbus; cases hbus
    | cons x bus =>
      obtain ⟨c, e'⟩ := x
      rw [hsbus] at hbus
      obtain ⟨rfl, htail⟩ := List.cons.inj hbus
      let s' : System := { s with
        listener := { s.listener with ack := s.listener.ack.observePublished e' }
        bus := bus
        delivered := s.delivered ++ [c] }
      have hsstep : System.step (wal.primary cfg) s .ack = some s' := by
        simp only [System.step, hsbus, s']
      have hnamed := h.named
      rw [hsbus, forall_mem_cons] at hnamed
      refine ⟨s', {
        ack := congrArg (AckGate.observePublished · e') h.ack
        txnIndex := h.txnIndex
        finalLSN := h.finalLSN
        next := h.next
        outside := h.outside
        within := fun k hk => ?_
        bus := htail
        sent := h.sent
        agrees := h.agrees
        inv := h.inv.step hsstep
        named := hnamed.2
        acked := ?_
        copies := hcopies }⟩
      · obtain ⟨t, n, hwithin⟩ := h.within k hk
        exact ⟨t, n, { hwithin with }⟩
      · rintro c' (hc | hc)
        · rcases mem_append.mp hc with hc | hc
          · exact hstepped.ids (h.acked c' (Or.inl hc))
          · rw [mem_singleton.mp hc, ← hnamed.1.messageID_eq subjectPrefix []]
            exact hstepped.stored e' rfl
        · exact hstepped.ids (h.acked c' (Or.inr hc))

/-- One step of the pipeline. -/
theorem Simulated.step (hjs : js.Dedups) (h : Simulated cfg wal subjectPrefix keyOnly w s)
    {m : Move} (hadmits : m.Admits)
    (hstep : w.step cfg wal js subjectPrefix keyOnly m = some w') :
    ∃ s', Simulated cfg wal subjectPrefix keyOnly w' s' := by
  cases m with
  | relation rel lsn => exact ⟨s, h.relation hstep⟩
  | begin lsn => exact h.begin hstep
  | change => exact ⟨s, h.change hstep⟩
  | emit => exact h.emit hstep
  | commit lsn => exact h.commit hstep
  | idle position =>
    simp only [Pipeline.step] at hstep
    split at hstep
    · rename_i hmay
      cases hstep
      -- the gate is all that these three touch
      rw [← mayIdle_eq h.toFollows] at hmay
      have := h.withGate (a := .idle position) (if_pos hmay) rfl rfl rfl rfl rfl rfl
      rw [← h.ack, ← h.sent] at this
      exact ⟨_, this⟩
    · cases hstep
  | flush =>
    cases hstep
    have := h.withGate (a := .flush) rfl rfl rfl rfl rfl rfl rfl
    rw [← h.ack, ← h.sent] at this
    exact ⟨_, this⟩
  | status =>
    cases hstep
    have := h.withGate (a := .status) rfl rfl rfl rfl rfl rfl rfl
    rw [← h.ack, ← h.sent] at this
    exact ⟨_, this⟩
  | reconnect resume => exact h.reconnect hstep
  | restart resume => exact h.restart hstep
  | outbox a => exact h.outbox hjs hadmits hstep

/-- One transaction, of a row and a TRUNCATE that lists its table twice. -/
def sampleWal : Wal where
  txns := [Stream.sampleTxn]
  lsn := fun _ _ => []
  distinct := nodup_singleton _
  ends_pos := by simp [Stream.sampleTxn]
  ends_increasing := pairwise_singleton _ _

/-- An event is published, or passed over. -/
def published : List Move :=
  [.outbox (.fetch [] accepting), .outbox .perform, .outbox .perform, .outbox .finish]

/-- BEGIN and COMMIT are not published. -/
def passed : List Move := [.outbox (.fetch [] accepting), .outbox .finish]

/-- The row gets to the stream, but its ack is lost and the process dies. A new one publishes the
    whole transaction. -/
def lostAck : List Move :=
  [.relation RelationDesc.sample [], .begin [], .change, .emit] ++ passed ++
    [.outbox (.fetch [] failing), .outbox .perform, .outbox (.arrive 0), .status, .restart 0,
      .begin [], .relation RelationDesc.sample [], .change, .emit, .change, .emit, .emit,
      .commit []] ++
    passed ++ published ++ published ++ published ++ [.outbox (.arrive 0), .status]

theorem admits_lostAck : ∀ m ∈ lostAck, m.Admits := by
  simp [lostAck, passed, published, Move.Admits, OutboxAction.Admits, accepting, failing]

end Pipeline

end Postgres
