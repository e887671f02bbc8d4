import Watcher.Lib.Run
import Watcher.Spec.MessageId
import Watcher.Spec.PgDelivery
import Watcher.Spec.PgoutputCorrect

/-!
# Source ids of Postgres changes

A transaction is streamed as pgoutput messages, again and again: in one process
after a connection dropped, or in a new one. The id of a change is its place in
the order in which its transaction is published. That order is a function of the
transaction and the configuration alone (`publishOrder`): a row message is
published in its place, a TRUNCATE of several relations with its first relation
last.

## Key results

- `publishOrder_nodup`: no change is published twice in one pass
- `receive_change`: what the listener does with one change message
- `Stream.Inv.step`: in every history, ids follow the publication order
- `Stream.sourceID_stable_unique`: a change and its id determine each other
-/

namespace Postgres

open Cdc Run List

/-! ## Changes -/

/-- The relations a message is about, in order. -/
def Message.named : Message → List UInt32
  | .insert id _ | .update id _ _ | .delete id _ _ => [id]
  | .truncate _ ids _ => ids
  | _ => []

/-- The message changes rows. -/
def Message.isChange : Message → Bool
  | .insert _ _ | .update _ _ _ | .delete _ _ _ | .truncate _ _ _ => true
  | _ => false

/-- A change message and the description, at that point of the log, of each relation it names. -/
structure ChangeMessage where
  message : Message
  catalog : Catalog
  isChange : message.isChange = true
  known : ∀ id ∈ message.named, ∃ rel, catalog id = some rel ∧ rel.id = id
  fits : message.FitsCatalog catalog

namespace Config

/-- The event a change message stands for with respect to one of its relations. -/
def eventFor (cfg : Config) (lsn : GoString) (rel : RelationDesc) : Message → Option Event
  | .insert _ new =>
    if cfg.isDDLLog rel then some (ddlEvent rel new lsn)
    else if cfg.captures rel then
      some (rowEvent .insert rel (rel.image .full new) (ascii "INSERT") lsn)
    else none
  | .update _ old new =>
    if cfg.captures rel then
      some (rowEvent .update rel (rel.updateData old new) (ascii "UPDATE") lsn)
    else none
  | .delete _ kind old =>
    if cfg.captures rel then
      some (rowEvent .delete rel (rel.image kind old) (ascii "DELETE") lsn)
    else none
  | .truncate options _ _ =>
    if cfg.captures rel then some (truncateEvent options rel lsn) else none
  | _ => none

/-- Changes to this relation are published. -/
def publishes (cfg : Config) (m : Message) (rel : RelationDesc) : Bool :=
  match m with
  | .insert _ _ => cfg.isDDLLog rel || cfg.captures rel
  | _ => cfg.captures rel

/-- The events of a change message, each with the index of its relation. -/
def labelled (cfg : Config) (cat : Catalog) (lsn : GoString) (m : Message) : List (Nat × Event) :=
  m.named.zipIdx.filterMap fun (id, i) =>
    (cat id).bind fun rel => (cfg.eventFor lsn rel m).map fun e => (i, e)

/-- The indices of the relations of a change message whose changes are published. -/
def selected (cfg : Config) (c : ChangeMessage) : List Nat :=
  c.message.named.zipIdx.filterMap fun (id, i) =>
    (c.catalog id).bind fun rel => if cfg.publishes c.message rel then some i else none

/-- The order in which they are published: all but the first are handled while the message is
    parsed. -/
def emitted (cfg : Config) (c : ChangeMessage) : List Nat :=
  (cfg.selected c).tail ++ (cfg.selected c).head?.toList

/-- The order in which the changes of a transaction are published, each as the index of its
    message, counted from `i`, and the index of its relation. -/
def publishOrder (cfg : Config) : Nat → List ChangeMessage → List (Nat × Nat)
  | _, [] => []
  | i, c :: cs => (cfg.emitted c).map (i, ·) ++ cfg.publishOrder (i + 1) cs

variable (cfg : Config)

theorem eventFor_isSome (lsn : GoString) (rel : RelationDesc) {m : Message}
    (hm : m.isChange = true) : (cfg.eventFor lsn rel m).isSome = cfg.publishes m rel := by
  cases m with
  | insert id new =>
    simp only [eventFor, publishes]
    cases cfg.isDDLLog rel <;> cases cfg.captures rel <;> rfl
  | update id old new | delete id kind old | truncate options ids fits =>
    simp only [eventFor, publishes]
    cases cfg.captures rel <;> rfl
  | _ => cases hm

/-- Every event of a change message is publishable. -/
theorem eventFor_publishable {lsn : GoString} {rel : RelationDesc} {m : Message} {e : Event}
    (he : cfg.eventFor lsn rel m = some e) : isPublishable e.type = true := by
  cases m with
  | insert id new =>
    simp only [eventFor] at he
    split at he
    · cases he; rfl
    · split at he
      · cases he; rfl
      · cases he
  | update id old new | delete id kind old | truncate options ids fits =>
    simp only [eventFor] at he
    split at he
    · cases he; rfl
    · cases he
  | _ => cases he

/-- Without their labels, these are the events of the reference interpretation. -/
theorem labelled_events (cat : Catalog) (lsn : GoString) {m : Message} (hm : m.isChange = true) :
    (cfg.labelled cat lsn m).map Prod.snd = cfg.events cat lsn m := by
  have hfilter : (cfg.labelled cat lsn m).map Prod.snd =
      m.named.filterMap fun id => (cat id).bind fun rel => cfg.eventFor lsn rel m := by
    rw [labelled, map_filterMap]
    conv_rhs => rw [← zipIdx_map_fst 0 m.named, filterMap_map]
    refine congrArg (fun f => List.filterMap f _) (funext fun x => ?_)
    obtain ⟨id, i⟩ := x
    simp only [Function.comp_apply, Option.map_bind]
    cases cat id with
    | none => rfl
    | some rel => simp [Function.comp_def]
  rw [hfilter]
  -- what remains is the reference interpretation, message by message
  cases m with
  | insert id new =>
    simp only [Message.named, events, filterMap_cons, filterMap_nil]
    cases cat id with
    | none => rfl
    | some rel =>
      simp only [Option.bind_some, eventFor]
      cases cfg.isDDLLog rel <;> cases cfg.captures rel <;> rfl
  | update id old new | delete id kind old =>
    simp only [Message.named, events, filterMap_cons, filterMap_nil]
    cases cat id with
    | none => rfl
    | some rel =>
      simp only [Option.bind_some, eventFor]
      cases cfg.captures rel <;> rfl
  | truncate options ids fits => rfl
  | _ => cases hm

/-- Without their events, these are the labels of the selected relations. -/
theorem labelled_selected (c : ChangeMessage) (cat : Catalog) (lsn : GoString)
    (hcat : ∀ id ∈ c.message.named, cat id = c.catalog id) :
    (cfg.labelled cat lsn c.message).map Prod.fst = cfg.selected c := by
  rw [labelled, selected, map_filterMap]
  refine filterMap_congr fun x hx => ?_
  obtain ⟨id, i⟩ := x
  have hid : id ∈ c.message.named := mem_of_getElem? (mem_zipIdx_iff_getElem?.mp hx)
  simp only [hcat id hid, Option.map_bind]
  cases c.catalog id with
  | none => rfl
  | some rel =>
    simp only [Option.bind_some, Function.comp_apply, ← cfg.eventFor_isSome lsn rel c.isChange]
    cases cfg.eventFor lsn rel c.message <;> rfl

theorem selected_increasing (c : ChangeMessage) : (cfg.selected c).Pairwise (· < ·) := by
  have hindex : c.message.named.zipIdx.Pairwise fun x y => x.2 < y.2 := by
    refine pairwise_map.mp ?_
    rw [zipIdx_map_snd]
    exact pairwise_lt_range'
  refine hindex.filterMap _ fun x y hlt i hi j hj => ?_
  obtain ⟨rel, -, hi⟩ := Option.bind_eq_some_iff.mp hi
  obtain ⟨rel', -, hj⟩ := Option.bind_eq_some_iff.mp hj
  split at hi
  · split at hj
    · cases hi
      cases hj
      exact hlt
    · exact nomatch hj
  · exact nomatch hi

theorem emitted_nodup (c : ChangeMessage) : (cfg.emitted c).Nodup := by
  -- the first one only moves to the end
  have hperm : (cfg.emitted c).Perm (cfg.selected c) := by
    rw [emitted]
    cases cfg.selected c with
    | nil => exact List.Perm.nil
    | cons i is => exact perm_append_singleton i is
  exact hperm.nodup_iff.mpr ((cfg.selected_increasing c).imp Nat.ne_of_lt)

theorem publishOrder_append (i : Nat) (cs ds : List ChangeMessage) :
    cfg.publishOrder i (cs ++ ds) =
      cfg.publishOrder i cs ++ cfg.publishOrder (i + cs.length) ds := by
  induction cs generalizing i with
  | nil => rfl
  | cons c cs ih =>
    simp only [cons_append, publishOrder, ih, append_assoc, length_cons]
    rw [Nat.add_right_comm, Nat.add_assoc]

/-- Messages are counted from `i`. -/
theorem le_of_mem_publishOrder {i : Nat} {cs : List ChangeMessage} {x : Nat × Nat}
    (h : x ∈ cfg.publishOrder i cs) : i ≤ x.1 := by
  induction cs generalizing i with
  | nil => exact nomatch h
  | cons c cs ih =>
    rw [publishOrder, mem_append, mem_map] at h
    obtain ⟨r, -, rfl⟩ | h := h
    · exact Nat.le_refl i
    · exact Nat.le_of_succ_le (ih h)

/-- Every change has one place in the order. -/
theorem publishOrder_nodup (i : Nat) (cs : List ChangeMessage) :
    (cfg.publishOrder i cs).Nodup := by
  induction cs generalizing i with
  | nil => exact nodup_nil
  | cons c cs ih =>
    rw [publishOrder, nodup_append]
    refine ⟨(cfg.emitted_nodup c).map fun a b h => (Prod.mk.inj h).2, ih (i + 1), ?_⟩
    -- later messages have larger indices
    intro x hx y hy heq
    obtain ⟨r, -, rfl⟩ := mem_map.mp hx
    have hle := cfg.le_of_mem_publishOrder hy
    rw [← heq] at hle
    exact absurd hle (Nat.not_succ_le_self i)

/-- The place of the `q`-th event of the `k`-th message. -/
theorem publishOrder_getElem? {cs : List ChangeMessage} {k q r : Nat} {c : ChangeMessage}
    (hc : cs[k]? = some c) (hq : (cfg.emitted c)[q]? = some r) :
    (cfg.publishOrder 0 cs)[(cfg.publishOrder 0 (cs.take k)).length + q]? = some (k, r) := by
  obtain ⟨hk, rfl⟩ := List.getElem?_eq_some_iff.mp hc
  -- before the message, the message, after it
  have hsplit : cs = cs.take k ++ cs[k] :: cs.drop (k + 1) := by
    rw [← drop_eq_getElem_cons hk, take_append_drop]
  have horder : cfg.publishOrder 0 cs = cfg.publishOrder 0 (cs.take k) ++
      ((cfg.emitted cs[k]).map (k, ·) ++ cfg.publishOrder (k + 1) (cs.drop (k + 1))) := by
    conv_lhs => rw [hsplit]
    rw [publishOrder_append, publishOrder, List.length_take_of_le (Nat.le_of_lt hk), Nat.zero_add]
  obtain ⟨hlt, -⟩ := List.getElem?_eq_some_iff.mp hq
  rw [horder, List.getElem?_append_right (Nat.le_add_right _ _), Nat.add_sub_cancel_left,
    List.getElem?_append_left (by rw [List.length_map]; exact hlt), List.getElem?_map, hq]
  rfl

theorem publishOrder_take_succ {cs : List ChangeMessage} {k : Nat} {c : ChangeMessage}
    (hc : cs[k]? = some c) :
    (cfg.publishOrder 0 (cs.take (k + 1))).length =
      (cfg.publishOrder 0 (cs.take k)).length + (cfg.emitted c).length := by
  rw [take_add_one, hc, publishOrder_append]
  simp [publishOrder]

end Config

/-! ## Emitting a message's events -/

namespace Listener

/-- The publishable events among those that are emitted, with the ids they get. -/
def assignedIDs (service : Service) (l : Listener) : List Event → List (Event × GoString)
  | [] => []
  | e :: es =>
    let rest := (l.emit service e).1.assignedIDs service es
    if isPublishable e.type then (e, (l.named e).sourceID) :: rest else rest

/-- Whether or not the bus takes them, publishable events are numbered one after another. -/
theorem emitAll_publishable (l : Listener) {es : List Event}
    (hes : ∀ e ∈ es, isPublishable e.type = true) :
    (l.emitAll Service.opened es).1.parser = l.parser ∧
      (l.emitAll Service.opened es).1.txnIndex = l.txnIndex + es.length ∧
      ∀ q e, es[q]? = some e → (l.assignedIDs Service.opened es)[q]? =
        some (e, sourceID l.parser.txnFinalLSN (l.txnIndex + q)) := by
  induction es generalizing l with
  | nil => exact ⟨rfl, rfl, fun q e h => absurd h (by simp)⟩
  | cons e es ih =>
    have he := hes e mem_cons_self
    have hemit := l.emit_publishable he
    obtain ⟨hparser, hindex, hids⟩ := ih (l.emit Service.opened e).1
      fun e' h => hes e' (mem_cons_of_mem e h)
    simp only [emitAll, assignedIDs, he, ↓reduceIte]
    refine ⟨hparser.trans (by rw [hemit]), ?_, ?_⟩
    · rw [hindex, hemit, length_cons]
      dsimp only
      omega
    · intro q e' hq
      -- the first event has the current index; the rest is numbered after it was emitted
      cases q with
      | zero =>
        rw [getElem?_cons_zero, Option.some.injEq] at hq
        rw [getElem?_cons_zero, ← hq]
        rfl
      | succ q =>
        rw [getElem?_cons_succ] at hq
        rw [getElem?_cons_succ, hids q e' hq, hemit]
        simp only [Nat.add_assoc, Nat.add_comm 1 q]

/-- Each publishable event gets an id. -/
theorem length_assignedIDs (l : Listener) {es : List Event}
    (hes : ∀ e ∈ es, isPublishable e.type = true) :
    (l.assignedIDs Service.opened es).length = es.length := by
  induction es generalizing l with
  | nil => rfl
  | cons e es ih =>
    have he := hes e mem_cons_self
    simp only [assignedIDs, he, ↓reduceIte, length_cons]
    rw [ih _ fun e' h => hes e' (mem_cons_of_mem e h)]

end Listener

/-! ## Streaming, again and again -/

/-- A transaction as it is streamed. -/
structure StreamTxn where
  finalLSN : LSN
  time : PgTime
  xid : UInt32
  endLSN : LSN
  changes : List ChangeMessage

/-- A change: its transaction, its message therein and its relation in the message. -/
structure ChangeName where
  txn : Nat
  message : Nat
  relation : Nat
  deriving DecidableEq, Repr

/-- The listener, what the session has described, and the ids given so far. -/
structure Stream where
  listener : Listener
  /-- The latest RELATION message of each relation in this session. -/
  session : Catalog
  /-- The transaction that comes next, or is being streamed. -/
  next : Nat
  /-- Inside a transaction: how many of its change messages were streamed. -/
  inside : Option Nat
  /-- Every publishable event so far, with the change it is for and the id it got. -/
  assigned : List (ChangeName × Event × GoString)

namespace Stream

/-- Messages carry the position they are received at. -/
inductive Action where
  | relation (rel : RelationDesc) (lsn : GoString)
  | begin (lsn : GoString)
  | change (lsn : GoString)
  | commit (lsn : GoString)
  /-- Keepalives, status updates and acks only touch the gate. -/
  | gate (ack : AckGate)
  /-- The connection dropped; the new session streams from this transaction on. -/
  | reconnect (resume : Nat)
  /-- A new process streams from this transaction on. -/
  | restart (resume : Nat)

/-- A process that has streamed nothing. -/
def start (cfg : Config) : Stream where
  listener := newGatedListener cfg.tables cfg.captureDDL
  session := Catalog.empty
  next := 0
  inside := none
  assigned := []

/-- The listener after a message. -/
def receive (l : Listener) (m : Message) (lsn : GoString) : Listener :=
  (l.handleXLogData Service.opened m.encode lsn).1

/-- The events that the listener emits for a message, with the ids they get. -/
def idsOf (s : Stream) (m : Message) (lsn : GoString) : List (Event × GoString) :=
  let parsed := s.listener.parser.parse m.encode lsn
  { s.listener with parser := parsed.parser }.assignedIDs Service.opened
    (parsed.handled ++ parsed.event.toList)

/-- The ids of the `k`-th message of the next transaction, with the changes they are for. -/
def record (cfg : Config) (s : Stream) (k : Nat) (c : ChangeMessage) (lsn : GoString) :
    List (ChangeName × Event × GoString) :=
  (s.idsOf c.message lsn).zipIdx.map fun ((e, id), q) =>
    (⟨s.next, k, (cfg.emitted c).getD q 0⟩, e, id)

/-- The walsender has described, in this session, the relations the message names. -/
def described (s : Stream) (c : ChangeMessage) : Bool :=
  c.message.named.all fun id => s.session id = c.catalog id

def step (cfg : Config) (txns : List StreamTxn) (s : Stream) : Action → Option Stream
  | .relation rel lsn =>
    some { s with
      listener := receive s.listener (.relation rel) lsn
      session := s.session.learn (.relation rel) }
  | .begin lsn =>
    match txns[s.next]?, s.inside with
    | some t, none =>
      some { s with
        listener := receive s.listener (.begin t.finalLSN t.time t.xid) lsn
        inside := some 0 }
    | _, _ => none
  | .change lsn =>
    match txns[s.next]?, s.inside with
    | some t, some k =>
      match t.changes[k]? with
      | some c =>
        -- RELATION comes before the first message that needs it
        if s.described c then
          some { s with
            listener := receive s.listener c.message lsn
            inside := some (k + 1)
            assigned := s.assigned ++ s.record cfg k c lsn }
        else none
      | none => none
    | _, _ => none
  | .commit lsn =>
    match txns[s.next]?, s.inside with
    | some t, some k =>
      if k = t.changes.length then
        some { s with
          listener := receive s.listener (.commit 0 t.finalLSN t.endLSN t.time) lsn
          next := s.next + 1
          inside := none }
      else none
    | _, _ => none
  | .gate ack => some { s with listener := { s.listener with ack := ack } }
  | .reconnect resume =>
    some { s with
      listener := s.listener.newSession
      session := Catalog.empty
      next := resume
      inside := none }
  | .restart resume =>
    some { s with
      listener := newGatedListener cfg.tables cfg.captureDDL
      session := Catalog.empty
      next := resume
      inside := none }

/-- The event is that of the change, received at some position. -/
def IsEventOf (cfg : Config) (txns : List StreamTxn) (c : ChangeName) (e : Event) : Prop :=
  ∃ t m id rel lsn, txns[c.txn]? = some t ∧ t.changes[c.message]? = some m ∧
    m.message.named[c.relation]? = some id ∧ m.catalog id = some rel ∧
    cfg.eventFor lsn rel m.message = some e

/-- The id is the transaction's final LSN with the place of the change in the publication
    order. -/
def IsPlaceOf (cfg : Config) (txns : List StreamTxn) (c : ChangeName) (id : GoString) : Prop :=
  ∃ t n, txns[c.txn]? = some t ∧ (cfg.publishOrder 0 t.changes)[n]? = some (c.message, c.relation) ∧
    id = Listener.sourceID t.finalLSN n

/-- The parser knows what the session described, the index is the place in the publication order,
    and every id was given for such a place. -/
structure Inv (cfg : Config) (txns : List StreamTxn) (s : Stream) : Prop where
  agrees : ∃ cat, s.listener.parser.Agrees cfg cat ∧
    ∀ id rel, s.session id = some rel → cat id = some rel
  position : ∀ t k, txns[s.next]? = some t → s.inside = some k →
    s.listener.parser.txnFinalLSN = t.finalLSN ∧
      s.listener.txnIndex = (cfg.publishOrder 0 (t.changes.take k)).length
  assigned : ∀ r ∈ s.assigned, IsEventOf cfg txns r.1 r.2.1 ∧ IsPlaceOf cfg txns r.1 r.2.2

variable {cfg : Config} {txns : List StreamTxn} {s : Stream}

/-- Nothing was streamed yet. -/
theorem Inv.start (cfg : Config) (txns : List StreamTxn) : Inv cfg txns (Stream.start cfg) where
  agrees := ⟨Catalog.empty, agrees_newParser cfg, fun _ _ h => nomatch h⟩
  position := fun _ _ _ h => nomatch h
  assigned := forall_mem_nil _

/-- Whether the row images fit depends only on the relations the message names. -/
theorem fits_congr {cat cat' : Catalog} {m : Message} (h : ∀ id ∈ m.named, cat id = cat' id)
    (hfit : m.FitsCatalog cat') : m.FitsCatalog cat := by
  cases m with
  | insert id new | update id old new | delete id kind old =>
    intro rel hrel
    rw [h id mem_cons_self] at hrel
    exact hfit rel hrel
  | _ => trivial

/-- A change message, in a parser that agrees with its catalog: the events are those of the
    selected relations, in publication order. -/
private theorem parse_change {l : Listener} {cat : Catalog} (h : l.parser.Agrees cfg cat)
    (c : ChangeMessage) (hcat : ∀ id ∈ c.message.named, cat id = c.catalog id) (lsn : GoString) :
    ∃ es : List (Nat × Event), es.map Prod.fst = cfg.emitted c ∧
      (∀ x ∈ es, x ∈ cfg.labelled cat lsn c.message) ∧
      l.parser.parse c.message.encode lsn =
        ⟨l.parser, (cfg.labelled cat lsn c.message).tail.map Prod.snd,
          (cfg.labelled cat lsn c.message).head?.map Prod.snd⟩ ∧
      es.map Prod.snd = (cfg.labelled cat lsn c.message).tail.map Prod.snd ++
        ((cfg.labelled cat lsn c.message).head?.map Prod.snd).toList := by
  refine ⟨(cfg.labelled cat lsn c.message).tail ++ (cfg.labelled cat lsn c.message).head?.toList,
    ?_, ?_, ?_, ?_⟩
  · -- labels
    rw [Config.emitted, ← cfg.labelled_selected c cat lsn hcat, map_append, map_tail, head?_map]
    cases (cfg.labelled cat lsn c.message).head? <;> rfl
  · cases cfg.labelled cat lsn c.message with
    | nil => exact forall_mem_nil _
    | cons x xs =>
      intro y hy
      rw [tail_cons, head?_cons, Option.toList_some, mem_append, mem_singleton] at hy
      exact hy.elim (mem_cons_of_mem x) fun h => h ▸ mem_cons_self
  · have hafter : l.parser.after c.message = l.parser := by
      have := c.isChange
      cases hm : c.message with
      | begin | commit | relation => rw [hm] at this; exact nomatch this
      | _ => rfl
    rw [parse_encode h c.message lsn (fits_congr hcat c.fits), hafter,
      ← cfg.labelled_events cat lsn c.isChange, map_tail, head?_map]
  · rw [map_append]
    cases (cfg.labelled cat lsn c.message).head? <;> rfl

/-- What the listener does with a change message whose relations are described. -/
theorem receive_change (hagrees : ∃ cat, s.listener.parser.Agrees cfg cat ∧
      ∀ id rel, s.session id = some rel → cat id = some rel) (c : ChangeMessage)
    (hdesc : s.described c = true) (k : Nat) (lsn : GoString) :
    (receive s.listener c.message lsn).parser = s.listener.parser ∧
      (receive s.listener c.message lsn).txnIndex =
        s.listener.txnIndex + (cfg.emitted c).length ∧
      ∃ es : List (Nat × Event), es.map Prod.fst = cfg.emitted c ∧
        (∀ x ∈ es, ∃ id rel, c.message.named[x.1]? = some id ∧ c.catalog id = some rel ∧
          cfg.eventFor lsn rel c.message = some x.2) ∧
        s.record cfg k c lsn = es.zipIdx.map fun ((i, e), q) =>
          (⟨s.next, k, i⟩, e,
            Listener.sourceID s.listener.parser.txnFinalLSN (s.listener.txnIndex + q)) := by
  obtain ⟨cat, hcat, hsession⟩ := hagrees
  -- the parser knows at least what this session described
  have hnamed : ∀ id ∈ c.message.named, cat id = c.catalog id := by
    intro id hid
    obtain ⟨rel, hrel, -⟩ := c.known id hid
    simp only [described, all_eq_true, decide_eq_true_eq] at hdesc
    rw [hrel]
    exact hsession id rel ((hdesc id hid).trans hrel)
  obtain ⟨es, hlabels, hmem, hparse, hevents⟩ := parse_change hcat c hnamed lsn
  -- a label leads back to the relation and its event
  have hofLabel : ∀ x ∈ es, ∃ id rel, c.message.named[x.1]? = some id ∧ c.catalog id = some rel ∧
      cfg.eventFor lsn rel c.message = some x.2 := by
    intro x hx
    obtain ⟨⟨id, i⟩, hid, hx⟩ := mem_filterMap.mp (hmem x hx)
    obtain ⟨rel, hrel, hx⟩ := Option.bind_eq_some_iff.mp hx
    obtain ⟨e, he, rfl⟩ := Option.map_eq_some_iff.mp hx
    have hget : c.message.named[i]? = some id := mem_zipIdx_iff_getElem?.mp hid
    exact ⟨id, rel, hget, hnamed id (mem_of_getElem? hget) ▸ hrel, he⟩
  have hpub : ∀ e ∈ es.map Prod.snd, isPublishable e.type = true := by
    intro e he
    obtain ⟨x, hx, rfl⟩ := mem_map.mp he
    obtain ⟨id, rel, -, -, hev⟩ := hofLabel x hx
    exact cfg.eventFor_publishable hev
  obtain ⟨hparser, hindex, hids⟩ := s.listener.emitAll_publishable hpub
  have hlen : (es.map Prod.snd).length = (cfg.emitted c).length := by
    rw [← hlabels, length_map, length_map]
  refine ⟨?_, ?_, es, hlabels, hofLabel, ?_⟩
  · simp only [receive, Listener.handleXLogData, hparse, ← hevents, hparser]
  · simp only [receive, Listener.handleXLogData, hparse, ← hevents, hindex, hlen]
  · have hlenIds := s.listener.length_assignedIDs hpub
    simp only [record, idsOf, hparse, ← hevents]
    -- both lists, place by place
    refine ext_getElem? fun q => ?_
    rw [getElem?_map, getElem?_map, getElem?_zipIdx, getElem?_zipIdx]
    cases hq : es[q]? with
    | none =>
      have hnone : (s.listener.assignedIDs Service.opened (es.map Prod.snd))[q]? = none := by
        rw [getElem?_eq_none_iff, hlenIds, length_map]
        exact getElem?_eq_none_iff.mp hq
      rw [hnone]
      rfl
    | some x =>
      have hsnd : (es.map Prod.snd)[q]? = some x.2 := by rw [getElem?_map, hq]; rfl
      have hfst : (cfg.emitted c)[q]? = some x.1 := by
        rw [← hlabels, getElem?_map, hq]
        rfl
      rw [hids q x.2 hsnd]
      simp [getD_eq_getElem?_getD, hfst]

/-- A change message: its events take the next places of the order. -/
private theorem Inv.change (h : Inv cfg txns s) {lsn : GoString} {s' : Stream}
    (hstep : step cfg txns s (.change lsn) = some s') : Inv cfg txns s' := by
  simp only [step] at hstep
  split at hstep
  · next t k ht hinside =>
    split at hstep
    · next c hc =>
      split at hstep
      · next hdesc =>
        cases hstep
        obtain ⟨hparser, hindex, es, hlabels, hevents, hrecord⟩ :=
          receive_change h.agrees c hdesc k lsn
        obtain ⟨hfinal, htxnIndex⟩ := h.position t k ht hinside
        refine ⟨?_, ?_, ?_⟩
        · show ∃ cat, (receive s.listener c.message lsn).parser.Agrees cfg cat ∧ _
          rw [hparser]
          exact h.agrees
        · -- the index has moved by as many places as the message has in the order
          intro t' k' ht' hk'
          dsimp only at ht'
          rw [ht] at ht'
          cases ht'
          cases hk'
          show (receive s.listener c.message lsn).parser.txnFinalLSN = _ ∧
            (receive s.listener c.message lsn).txnIndex = _
          rw [hparser, hindex, htxnIndex, cfg.publishOrder_take_succ hc]
          exact ⟨hfinal, rfl⟩
        · intro r hr
          rcases mem_append.mp hr with hr | hr
          · exact h.assigned r hr
          · -- an event of this message, at place `q` of it
            rw [hrecord] at hr
            obtain ⟨⟨⟨i, e⟩, q⟩, hq, rfl⟩ := mem_map.mp hr
            have hget : es[q]? = some (i, e) := mem_zipIdx_iff_getElem?.mp hq
            obtain ⟨id, rel, hid, hrel, he⟩ := hevents (i, e) (mem_of_getElem? hget)
            have hplace : (cfg.emitted c)[q]? = some i := by
              rw [← hlabels, getElem?_map, hget]
              rfl
            refine ⟨⟨t, c, id, rel, lsn, ht, hc, hid, hrel, he⟩, t, _, ht,
              cfg.publishOrder_getElem? hc hplace, ?_⟩
            rw [← hfinal, ← htxnIndex]
      · exact nomatch hstep
    · exact nomatch hstep
  · exact nomatch hstep

private theorem Inv.relation (h : Inv cfg txns s) (rel : RelationDesc) (lsn : GoString) :
    Inv cfg txns { s with
      listener := receive s.listener (.relation rel) lsn
      session := s.session.learn (.relation rel) } := by
  obtain ⟨cat, hcat, hsession⟩ := h.agrees
  have hreceive : receive s.listener (.relation rel) lsn =
      { s.listener with parser := s.listener.parser.after (.relation rel) } := by
    simp only [receive, Listener.handleXLogData, parse_encode hcat (.relation rel) lsn trivial]
    rfl
  refine ⟨⟨cat.learn (.relation rel), ?_, ?_⟩, ?_, h.assigned⟩
  · show (receive s.listener (.relation rel) lsn).parser.Agrees cfg _
    rw [hreceive]
    exact hcat.after (.relation rel)
  · intro id rel' hrel'
    simp only [Catalog.learn] at hrel' ⊢
    split
    · next hid => rw [if_pos hid] at hrel'; exact hrel'
    · next hid => rw [if_neg hid] at hrel'; exact hsession id rel' hrel'
  · intro t k ht hk
    simp only [hreceive, Parser.after]
    exact h.position t k ht hk

/-- BEGIN notes the transaction and starts counting. -/
private theorem Inv.begin (h : Inv cfg txns s) {t : StreamTxn} (ht : txns[s.next]? = some t)
    (lsn : GoString) :
    Inv cfg txns { s with
      listener := receive s.listener (.begin t.finalLSN t.time t.xid) lsn
      inside := some 0 } := by
  obtain ⟨cat, hcat, hsession⟩ := h.agrees
  have hreceive : receive s.listener (.begin t.finalLSN t.time t.xid) lsn =
      ⟨s.listener.parser.after (.begin t.finalLSN t.time t.xid), s.listener.ack.begin, 0⟩ := by
    simp only [receive, Listener.handleXLogData,
      parse_encode hcat (.begin t.finalLSN t.time t.xid) lsn trivial]
    rfl
  refine ⟨⟨cat, ?_, hsession⟩, ?_, h.assigned⟩
  · show (receive s.listener (.begin t.finalLSN t.time t.xid) lsn).parser.Agrees cfg _
    rw [hreceive]
    exact hcat.after (.begin t.finalLSN t.time t.xid)
  · intro t' k ht' hk
    dsimp only at ht'
    rw [ht] at ht'
    cases ht'
    cases hk
    show (receive s.listener (.begin t.finalLSN t.time t.xid) lsn).parser.txnFinalLSN = _ ∧
      (receive s.listener (.begin t.finalLSN t.time t.xid) lsn).txnIndex = _
    rw [hreceive]
    exact ⟨rfl, rfl⟩

/-- COMMIT ends the transaction. -/
private theorem Inv.commit (h : Inv cfg txns s) (t : StreamTxn) (next : Nat) (lsn : GoString) :
    Inv cfg txns { s with
      listener := receive s.listener (.commit 0 t.finalLSN t.endLSN t.time) lsn
      next := next
      inside := none } := by
  obtain ⟨cat, hcat, hsession⟩ := h.agrees
  have hreceive : (receive s.listener (.commit 0 t.finalLSN t.endLSN t.time) lsn).parser =
      s.listener.parser.after (.commit 0 t.finalLSN t.endLSN t.time) := by
    simp only [receive, Listener.handleXLogData,
      parse_encode hcat (.commit 0 t.finalLSN t.endLSN t.time) lsn trivial]
    rfl
  refine ⟨⟨cat, ?_, hsession⟩, fun t k _ hk => (nomatch hk), h.assigned⟩
  show (receive s.listener (.commit 0 t.finalLSN t.endLSN t.time) lsn).parser.Agrees cfg _
  rw [hreceive]
  exact hcat.after (.commit 0 t.finalLSN t.endLSN t.time)

/-- Every action keeps the invariant. -/
theorem Inv.step (h : Inv cfg txns s) {a : Action} {s' : Stream}
    (hstep : step cfg txns s a = some s') : Inv cfg txns s' := by
  cases a with
  | relation rel lsn =>
    simp only [Stream.step, Option.some.injEq] at hstep
    subst hstep
    exact h.relation rel lsn
  | begin lsn =>
    simp only [Stream.step] at hstep
    split at hstep
    · next t ht hinside =>
      cases hstep
      exact h.begin ht lsn
    · exact nomatch hstep
  | change lsn => exact h.change hstep
  | commit lsn =>
    simp only [Stream.step] at hstep
    split at hstep
    · next t k ht hinside =>
      split at hstep
      · cases hstep
        exact h.commit t (s.next + 1) lsn
      · exact nomatch hstep
    · exact nomatch hstep
  | gate ack =>
    cases hstep
    exact ⟨h.agrees, h.position, h.assigned⟩
  | reconnect resume =>
    -- the relation map survives the session, what the session described does not
    cases hstep
    obtain ⟨cat, hcat, -⟩ := h.agrees
    exact ⟨⟨cat, hcat, fun id rel hrel => (nomatch hrel)⟩, fun t k _ hk => (nomatch hk),
      h.assigned⟩
  | restart resume =>
    cases hstep
    -- a new process knows no relation and counts afresh
    exact ⟨⟨Catalog.empty, agrees_newParser cfg, fun id rel hrel => (nomatch hrel)⟩,
      fun t k _ hk => (nomatch hk), h.assigned⟩

/-- Places in the publication order determine each other. -/
private theorem IsPlaceOf.unique (hdistinct : (txns.map StreamTxn.finalLSN).Nodup)
    {c c' : ChangeName} {id id' : GoString} (h : IsPlaceOf cfg txns c id)
    (h' : IsPlaceOf cfg txns c' id') : c = c' ↔ id = id' := by
  obtain ⟨t, n, ht, hn, rfl⟩ := h
  obtain ⟨t', n', ht', hn', rfl⟩ := h'
  obtain ⟨txn, message, relation⟩ := c
  obtain ⟨txn', message', relation'⟩ := c'
  dsimp only at ht hn ht' hn'
  constructor
  · -- no change has two places
    rintro ⟨⟩
    rw [ht, Option.some.injEq] at ht'
    subst ht'
    have hplace : n = n' := (List.getElem?_inj (List.getElem?_eq_some_iff.mp hn).1
      (cfg.publishOrder_nodup 0 t.changes)).mp (hn.trans hn'.symm)
    rw [hplace]
  · -- an id says which transaction and which place
    intro hid
    have hname : SourceName.pg t.finalLSN n = .pg t'.finalLSN n' := SourceName.sourceID_inj hid
    obtain ⟨hlsn, rfl⟩ := SourceName.pg.inj hname
    have htxn : txn = txn' := by
      refine (getElem?_inj ?_ hdistinct).mp ?_
      · rw [length_map]
        exact (List.getElem?_eq_some_iff.mp ht).1
      · rw [getElem?_map, getElem?_map, ht, ht', Option.map_some, Option.map_some, hlsn]
    subst htxn
    rw [ht, Option.some.injEq] at ht'
    subst ht'
    rw [hn, Option.some.injEq, Prod.mk.injEq] at hn'
    rw [hn'.1, hn'.2]

/-- In every history of sessions over transactions with distinct final LSNs, each event is that
    of the change it is recorded for, and a change and its source id determine each other. -/
theorem sourceID_stable_unique (cfg : Config) (txns : List StreamTxn)
    (hdistinct : (txns.map StreamTxn.finalLSN).Nodup) (actions : List Action) (s : Stream)
    (hrun : runSteps (Stream.step cfg txns) (Stream.start cfg) actions = some s) :
    (∀ r ∈ s.assigned, IsEventOf cfg txns r.1 r.2.1) ∧
      ∀ r ∈ s.assigned, ∀ r' ∈ s.assigned, r.1 = r'.1 ↔ r.2.2 = r'.2.2 := by
  have h : Inv cfg txns s := runSteps_invariant (fun h hstep => h.step hstep)
    (Inv.start cfg txns) hrun
  refine ⟨fun r hr => (h.assigned r hr).1, fun r hr r' hr' => ?_⟩
  exact (h.assigned r hr).2.unique hdistinct (h.assigned r' hr').2

/-- A transaction that inserts a row and then truncates its table, which the message lists twice. -/
def sampleTxn : StreamTxn where
  finalLSN := 0xa0000000b
  time := ⟨0, by decide⟩
  xid := 1
  endLSN := 0xa0000000c
  changes :=
    [⟨.insert 7 [.text (ascii "5") (by decide), .null],
        fun id => if id = 7 then some RelationDesc.sample else none, rfl,
        by simp [Message.named, RelationDesc.sample],
        by simp [Message.FitsCatalog, RelationDesc.sample]⟩,
      ⟨.truncate 0 [7, 7] (by decide),
        fun id => if id = 7 then some RelationDesc.sample else none, rfl,
        by simp [Message.named, RelationDesc.sample], trivial⟩]

/-- The connection drops after the row; a new process then streams all of it. -/
def interruptedStream : List Action :=
  [.relation RelationDesc.sample [], .begin [], .change [], .restart 0, .begin [],
    .relation RelationDesc.sample [], .change [], .change []]

/-- The row keeps its id, and each table of the TRUNCATE message has its own. -/
theorem sourceID_stable_unique_interrupted :
    ∃ s, runSteps (Stream.step ⟨[], true⟩ [sampleTxn]) (Stream.start ⟨[], true⟩)
        interruptedStream = some s ∧
      s.assigned.map (fun r => (r.1, r.2.2)) =
        [(⟨0, 0, 0⟩, ascii "pg:A/B:0"), (⟨0, 0, 0⟩, ascii "pg:A/B:0"),
          (⟨0, 1, 1⟩, ascii "pg:A/B:1"), (⟨0, 1, 0⟩, ascii "pg:A/B:2")] ∧
      ∀ r ∈ s.assigned, ∀ r' ∈ s.assigned, r.1 = r'.1 ↔ r.2.2 = r'.2.2 := by
  refine ⟨_, rfl, by decide, ?_⟩
  exact (sourceID_stable_unique ⟨[], true⟩ [sampleTxn] (by simp) interruptedStream _ rfl).2

end Stream

end Postgres
