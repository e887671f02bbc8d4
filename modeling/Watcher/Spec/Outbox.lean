import Watcher.Lib.Replay
import Watcher.Lib.Run
import Watcher.Spec.PublisherOrder

/-!
# What the publisher leaves in the stream

The publisher takes one event after another from its channel and works on it
until it is acked or publishing ends. Its attempts go over a network: one that
succeeded has reached JetStream, one that failed may still do so at any time, also
when the process that made it is gone.

JetStream is not part of the watcher: it is a parameter, which says whether a
message is stored (`JetStream.stores`). What is relied on is a hypothesis: it drops
a message exactly if it has stored one with the same id (`JetStream.Dedups`), that
is, the duplicate window outlasts the run. That a message without row data is never
refused for its size is another one (`OutboxAction.Admits`).

`deliver` is run against a script for each event, and what it does is performed
one entry at a time, so that everything else can happen in between.

## Key results

- `publish_log`: what publishing an event does, in order
- `Outbox.Copies.step`: the publisher copies its channel, as `Replay` has it
-/

namespace Nats

open Cdc Replay List Option

/-! ## What publishing does -/

section Log

variable {keyOnly : EventType → GoString → List GoString → GoString} {index : Nat}

/-- The log consists of attempts with these messages. One of them succeeded if the call did, and
    each message was refused if the call failed as too large. -/
structure Attempts (index : Nat) (messages : List Attempt) (ms : List Moment) (r : Sending)
    (tries : List (Attempt × PublishResult)) : Prop where
  suffix : r.rest <:+ ms
  log_eq : r.log = tries.map fun x => .attempt index x.1 x.2
  among : ∀ x ∈ tries, x.1 ∈ messages
  acked : r.outcome = .ok → ∃ x ∈ tries, x.2 = .ok
  refused : r.outcome = .error .tooLarge → ∀ a ∈ messages, ∃ m ∈ ms, m.publishFn a = .tooLarge

variable {messages messages' : List Attempt} {ms : List Moment} {r : Sending}
  {tries : List (Attempt × PublishResult)}

private theorem Attempts.nil {o : Outcome} {rest : List Moment} (hsuffix : rest <:+ ms)
    (hok : o ≠ .ok) (htooLarge : o ≠ .error .tooLarge) :
    Attempts index messages ms ⟨o, rest, []⟩ [] :=
  ⟨hsuffix, rfl, forall_mem_nil _, fun h => absurd h hok, fun h => absurd h htooLarge⟩

private theorem Attempts.later {m : Moment} (h : Attempts index messages ms r tries) :
    Attempts index messages (m :: ms) r tries where
  suffix := h.suffix.trans (suffix_cons m ms)
  log_eq := h.log_eq
  among := h.among
  acked := h.acked
  refused htooLarge a ha := by
    obtain ⟨m', hm', hrefused⟩ := h.refused htooLarge a ha
    exact ⟨m', mem_cons_of_mem m hm', hrefused⟩

/-- All attempts of one call are with the same message. -/
private theorem publishWithRetry_attempts (a : Attempt) (phase : Phase) (ms : List Moment) :
    ∃ tries, Attempts index [a] ms (publishWithRetry index a phase ms) tries := by
  have hlater : ∀ {m ms r}, (∃ tries, Attempts index [a] ms r tries) →
      ∃ tries, Attempts index [a] (m :: ms) r tries :=
    fun h => h.imp fun _ => Attempts.later
  fun_induction publishWithRetry index a phase ms with
  | case1 phase => exact ⟨[], .nil suffix_rfl Outcome.noConfusion Outcome.noConfusion⟩
  | case2 m ms hok =>
    exact ⟨[(a, .ok)], suffix_cons m ms, rfl, by simp, fun _ => by simp,
      Outcome.noConfusion⟩
  | case3 m ms htooLarge =>
    exact ⟨[(a, .tooLarge)], suffix_cons m ms, rfl, by simp, Outcome.noConfusion,
      fun _ => by simp [htooLarge]⟩
  -- a failed attempt, and those of the retry after it
  | case4 m ms hfailed r ih =>
    obtain ⟨tries, h⟩ := hlater (m := m) ih
    refine ⟨(a, .failed) :: tries, h.suffix, by rw [h.log_eq]; rfl, ?_, fun hok => ?_, h.refused⟩
    · exact forall_mem_cons.mpr ⟨mem_singleton_self a, h.among⟩
    · obtain ⟨x, hx, hres⟩ := h.acked hok
      exact ⟨x, mem_cons_of_mem _ hx, hres⟩
  | case5 m ms hlost ih => exact hlater ih
  | case6 m ms hlost hdone =>
    exact ⟨[], .nil (suffix_cons m ms) Outcome.noConfusion (by decide)⟩
  | case7 m ms hlost hdone ih => exact hlater ih
  | case8 m ms hconn ih => exact hlater ih
  | case9 m ms hconn =>
    exact ⟨[], .nil (suffix_cons m ms) Outcome.noConfusion (by decide)⟩
  | case10 m ms hconn hdone =>
    exact ⟨[], .nil (suffix_cons m ms) Outcome.noConfusion (by decide)⟩
  | case11 m ms hconn hdone ih => exact hlater ih

private theorem Attempts.orTooLarge {next : List Moment → Sending}
    (h : ∃ tries, Attempts index messages ms r tries)
    (hnext : ∃ tries, Attempts index messages' r.rest (next r.rest) tries) :
    ∃ tries, Attempts index (messages ++ messages') ms (r.orTooLarge next) tries := by
  obtain ⟨tries, h⟩ := h
  rw [Sending.orTooLarge]
  split
  · rename_i htooLarge
    obtain ⟨tries', hnext⟩ := hnext
    refine ⟨tries ++ tries', hnext.suffix.trans h.suffix, ?_, ?_, fun hok => ?_, fun hr => ?_⟩
    · rw [map_append, ← h.log_eq, ← hnext.log_eq]
    · exact forall_mem_append.mpr
        ⟨fun x hx => mem_append_left _ (h.among x hx),
          fun x hx => mem_append_right _ (hnext.among x hx)⟩
    · obtain ⟨x, hx, hres⟩ := hnext.acked hok
      exact ⟨x, mem_append_right _ hx, hres⟩
    · refine forall_mem_append.mpr ⟨h.refused htooLarge, fun a ha => ?_⟩
      obtain ⟨m, hm, hrefused⟩ := hnext.refused hr a ha
      exact ⟨m, h.suffix.mem hm, hrefused⟩
  · rename_i htooLarge
    -- any other outcome stays
    exact ⟨tries, h.suffix, h.log_eq, fun x hx => mem_append_left _ (h.among x hx), h.acked,
      fun hr => absurd hr htooLarge⟩

/-- Publishing an event makes attempts with its forms; when one of them succeeded, the observers
    are notified. -/
theorem publish_log (keyOnly : EventType → GoString → List GoString → GoString) (index : Nat)
    (p : Publisher) (next : GoString) (event : Event) (ms : List Moment) :
    let r := (p.publish keyOnly index next event ms).1
    ∃ tries : List (Attempt × PublishResult),
      r.log = tries.map (fun x => .attempt index x.1 x.2) ++
        (if r.outcome = .ok then (List.range p.observers).map fun i => .notify i index event
          else []) ∧
      (∀ x ∈ tries, x.1 ∈ forms keyOnly p.subjectPrefix next event) ∧
      (r.outcome = .ok → ∃ x ∈ tries, x.2 = .ok) ∧
      (r.outcome = .error .tooLarge → ∀ a ∈ forms keyOnly p.subjectPrefix next event,
        ∃ m ∈ ms, m.publishFn a = .tooLarge) := by
  have hsend : ∀ subject payload msgID ms, ∃ tries, Attempts index [⟨subject, payload, msgID⟩] ms
      (send index subject payload msgID ms) tries :=
    fun subject payload msgID ms => publishWithRetry_attempts _ .attempting ms
  -- the event, then its key columns, then nothing of its data
  have hall : ∃ tries, Attempts index (forms keyOnly p.subjectPrefix next event) ms
      ((send index (buildSubject p.subjectPrefix event.schema event.table) event
          (messageID p.subjectPrefix next event) ms).orTooLarge
        (sendTruncated keyOnly index (buildSubject p.subjectPrefix event.schema event.table) event
          (messageID p.subjectPrefix next event))) tries :=
    Attempts.orTooLarge (hsend _ _ _ _) (Attempts.orTooLarge (hsend _ _ _ _) (hsend _ _ _ _))
  obtain ⟨tries, h⟩ := hall
  refine ⟨tries, ?_⟩
  simp only [Publisher.publish]
  split
  · rename_i hok
    refine ⟨?_, h.among, fun _ => h.acked hok, h.refused⟩
    simp only [h.log_eq]
  · rename_i hok
    refine ⟨?_, h.among, fun hok' => absurd hok' hok, h.refused⟩
    simp only [h.log_eq, append_nil]

/-- Publishing changes the last position acked only. -/
theorem publish_config (keyOnly : EventType → GoString → List GoString → GoString) (index : Nat)
    (p : Publisher) (next : GoString) (event : Event) (ms : List Moment) :
    (p.publish keyOnly index next event ms).2.subjectPrefix = p.subjectPrefix ∧
      (p.publish keyOnly index next event ms).2.observers = p.observers := by
  simp only [Publisher.publish]
  split
  · split <;> exact ⟨rfl, rfl⟩
  · exact ⟨rfl, rfl⟩

/-- The fresh id is for events without a source position. -/
theorem messageID_sourced {subjectPrefix : GoString} {event : Event} (h : event.sourceID ≠ [])
    (next next' : GoString) :
    messageID subjectPrefix next event = messageID subjectPrefix next' event := by
  rw [messageID, messageID, if_neg h, if_neg h]

theorem forms_sourced {subjectPrefix : GoString} {event : Event} (h : event.sourceID ≠ [])
    (next next' : GoString) :
    forms keyOnly subjectPrefix next event = forms keyOnly subjectPrefix next' event := by
  rw [forms, forms, messageID_sourced h next next']

theorem msgID_of_mem_forms {subjectPrefix next : GoString} {event : Event} {a : Attempt}
    (h : a ∈ forms keyOnly subjectPrefix next event) :
    a.msgID = messageID subjectPrefix next event := by
  obtain ⟨payload, -, rfl⟩ := mem_map.mp h
  rfl

end Log

/-! ## The stream -/

/-- JetStream as far as the watcher depends on it: whether it stores a message, by those it has
    stored before. One that it takes for a duplicate it acks without storing it. -/
structure JetStream where
  stores : (stored : List Attempt) → Attempt → Bool

/-- A message is dropped exactly if one with its id was stored before: the duplicate window
    outlasts the run. -/
structure JetStream.Dedups (js : JetStream) : Prop where
  drops : ∀ stored a, a.msgID ∈ stored.map Attempt.msgID → js.stores stored a = false
  keeps : ∀ stored a, a.msgID ∉ stored.map Attempt.msgID → js.stores stored a = true

/-- A stream whose duplicate window holds every message id. -/
def JetStream.remembering : JetStream :=
  ⟨fun stored a => !(stored.map Attempt.msgID).contains a.msgID⟩

theorem JetStream.remembering_dedups : JetStream.remembering.Dedups where
  drops stored a h := by simpa [remembering] using h
  keeps stored a h := by simpa [remembering] using h

/-- What JetStream has stored, and what is on the way to it. -/
structure Broker where
  /-- Everything that was stored, oldest first. -/
  stream : List Attempt
  /-- Messages that were sent and not answered. -/
  flight : List Attempt
  deriving DecidableEq, Repr

namespace Broker

/-- The ids in the stream, oldest first. -/
def ids (b : Broker) : List GoString := b.stream.map Attempt.msgID

/-- A message arrives. -/
def store (js : JetStream) (b : Broker) (a : Attempt) : Broker :=
  if js.stores b.stream a then { b with stream := b.stream ++ [a] } else b

/-- What an entry of the publisher's log does to it. -/
def handle (js : JetStream) (b : Broker) : Entry → Broker
  -- an ack comes after the message has arrived
  | .attempt _ a .ok => b.store js a
  | .attempt _ a .failed => { b with flight := a :: b.flight }
  | .attempt _ _ .tooLarge | .notify _ _ _ => b

section

variable {js : JetStream} (hjs : js.Dedups) (b : Broker) (a : Attempt)
include hjs

/-- With its duplicate window JetStream is a sink that knows what it has. -/
theorem ids_store : (b.store js a).ids = Replay.store b.ids a.msgID := by
  rw [store, Replay.store]
  by_cases h : a.msgID ∈ b.ids
  · rw [if_neg (by simp [hjs.drops b.stream a h]), if_pos h]
  · rw [if_pos (hjs.keeps b.stream a h), if_neg h]
    simp [ids]

/-- What is acked is in the stream, be it from an earlier attempt. -/
theorem mem_ids_attempt_ok : a.msgID ∈ (b.handle js (.attempt 0 a .ok)).ids := by
  rw [handle, ids_store hjs]
  exact mem_store.mpr (Or.inr rfl)

end

variable (js : JetStream) (b : Broker) (a : Attempt)

/-- A message that arrives may arrive again. -/
theorem flight_store : (b.store js a).flight = b.flight := by
  rw [store]
  split <;> rfl

/-- Only the message that arrives is new in the stream. -/
theorem mem_stream_store {x : Attempt} (h : x ∈ (b.store js a).stream) :
    x ∈ b.stream ∨ x = a := by
  rw [store] at h
  split at h
  · simpa using h
  · exact Or.inl h

/-- Nothing that was stored is taken out again. -/
theorem ids_subset_store : b.ids ⊆ (b.store js a).ids := by
  rw [store]
  split
  · simp [ids]
  · exact List.Subset.refl _

variable (result : PublishResult)

/-- The same for an attempt, whatever comes of it. -/
theorem ids_subset_attempt : b.ids ⊆ (b.handle js (.attempt 0 a result)).ids := by
  cases result with
  | ok => exact b.ids_subset_store js a
  | tooLarge | failed => exact List.Subset.refl _

/-- Whatever comes of an attempt, there is nothing in the stream or on its way but what was there
    before and this message. -/
theorem mem_attempt {x : Attempt}
    (h : x ∈ (b.handle js (.attempt 0 a result)).stream ++
      (b.handle js (.attempt 0 a result)).flight) :
    x ∈ b.stream ++ b.flight ∨ x = a := by
  rw [mem_append] at h ⊢
  cases result with
  | ok =>
    rw [handle, flight_store] at h
    rcases h with h | h
    · exact (b.mem_stream_store js a h).imp_left Or.inl
    · exact Or.inl (Or.inr h)
  | tooLarge => exact Or.inl h
  | failed =>
    rw [handle, mem_cons] at h
    rcases h with h | h | h
    · exact Or.inl (Or.inl h)
    · exact Or.inr h
    · exact Or.inl (Or.inr h)

variable {js b a} {order queue rest : List GoString}

/-- An attempt with the first message of the queue. -/
theorem copying_attempt (hjs : js.Dedups)
    (h : Copying order b.ids (a.msgID :: queue) rest (b.flight.map Attempt.msgID)) :
    Copying order (b.handle js (.attempt 0 a result)).ids (a.msgID :: queue) rest
      ((b.handle js (.attempt 0 a result)).flight.map Attempt.msgID) := by
  cases result with
  | ok =>
    -- sent and arrived at once
    rw [handle, ids_store hjs, flight_store]
    exact (h.send.arrive mem_cons_self).lose (subset_cons_self _ _)
  | tooLarge => exact h
  | failed => exact h.send

end Broker

/-! ## The publisher at work -/

/-- The first attempt succeeds. -/
def accepting : List Moment := [⟨false, .connected, fun _ => .ok, false⟩]

/-- The first attempt fails, and the process ends before the next one. -/
def failing : List Moment := [⟨false, .connected, fun _ => .failed, false⟩]

/-- The event the publisher works on, how that will end, and what is left to do. -/
structure Job where
  event : Event
  outcome : Outcome
  entries : List Entry

/-- The publisher, its channel, the event it works on, and the stream. -/
structure Outbox where
  publisher : Publisher
  /-- The publisher's channel, oldest first. -/
  bus : List Event
  job : Option Job
  broker : Broker

/-- What the publisher and the network do. -/
inductive OutboxAction where
  /-- The publisher takes an event; `next` is the fresh id, and the moments are what it meets. -/
  | fetch (next : GoString) (moments : List Moment)
  | perform
  | finish
  /-- A message that was not answered arrives after all, perhaps not for the last time. -/
  | arrive (n : Nat)

/-- A message without row data is not refused for its size, neither by the server nor by the
    stream. -/
def OutboxAction.Admits : OutboxAction → Prop
  | .fetch _ moments => ∀ m ∈ moments, ∀ a, a.payload.data = [] → m.publishFn a ≠ .tooLarge
  | _ => True

/-- An entry that tells the observers. -/
def Entry.told : Entry → Option Event
  | .notify _ _ event => some event
  | .attempt _ _ _ => none

/-- One step, and the event that the observers are told of. After a failure other than for size
    nothing leaves the process any more. -/
def Outbox.step (js : JetStream) (keyOnly : EventType → GoString → List GoString → GoString)
    (o : Outbox) : OutboxAction → Option (Outbox × Option Event)
  | .fetch next moments =>
    match o.job, o.bus with
    | none, event :: bus =>
      let (_, r, p) := o.publisher.deliver keyOnly 0 next event moments
      some ({ o with publisher := p, bus := bus, job := some ⟨event, r.outcome, r.log⟩ }, none)
    | _, _ => none
  | .perform =>
    match o.job with
    | some ⟨event, outcome, entry :: entries⟩ =>
      some ({ o with
        job := some ⟨event, outcome, entries⟩
        broker := o.broker.handle js entry }, entry.told)
    | _ => none
  | .finish =>
    match o.job with
    | some ⟨_, .ok, []⟩ | some ⟨_, .error .tooLarge, []⟩ => some ({ o with job := none }, none)
    | _ => none
  | .arrive n => o.broker.flight[n]?.map fun a => ({ o with broker := o.broker.store js a }, none)

/-- The observers have not been told of the event, and may never be. -/
def Job.waits (j : Job) : Bool :=
  isPublishable j.event.type && (j.outcome != .ok || j.entries.any fun x => x.told.isSome)

/-- The event at work, as long as the observers wait for it. -/
def Job.waiting (j : Job) : List Event := if j.waits then [j.event] else []

/-- The events to publish that the observers have not been told of. -/
def Outbox.queue (o : Outbox) : List Event :=
  o.job.elim [] Job.waiting ++ o.bus.filter fun e => isPublishable e.type

/-! ## The invariant -/

section Copies

variable (js : JetStream) (keyOnly : EventType → GoString → List GoString → GoString)
  (subjectPrefix : GoString) (P : Event → Prop)

/-- Where the publisher is with an event to publish: attempts with forms of it, and a notification
    that comes after a successful one. -/
structure Job.Publishing (ids : List GoString) (j : Job) (tries : List (Attempt × PublishResult))
    (notes : List Entry) : Prop where
  genuine : P j.event
  entries_eq : j.entries = tries.map (fun x => .attempt 0 x.1 x.2) ++ notes
  among : ∀ x ∈ tries, x.1 ∈ forms keyOnly subjectPrefix [] j.event
  admitted : j.outcome ≠ .error .tooLarge
  notes_eq : notes = [] ∧ (j.outcome ≠ .ok ∨ tries = []) ∨
    notes = [.notify 0 0 j.event] ∧ j.outcome = .ok ∧
      (messageID subjectPrefix [] j.event ∈ ids ∨ ∃ x ∈ tries, x.2 = .ok)

/-- An event that is not published is done with at once; any other is on its way. -/
structure Job.Valid (ids : List GoString) (j : Job) : Prop where
  skipped : isPublishable j.event.type = false → j.outcome = .ok ∧ j.entries = []
  published : isPublishable j.event.type = true →
    ∃ tries notes, j.Publishing keyOnly subjectPrefix P ids tries notes

/-- The publisher copies what it gets, of which `rest` is still to come. `P` is what is known of
    every event to publish. -/
structure Outbox.Copies (order rest : List GoString) (o : Outbox) : Prop where
  subjectPrefix_eq : o.publisher.subjectPrefix = subjectPrefix
  observers_eq : o.publisher.observers = 1
  copying : Copying order o.broker.ids (o.queue.map (messageID subjectPrefix [])) rest
    (o.broker.flight.map Attempt.msgID)
  genuine : ∀ e ∈ o.bus, isPublishable e.type = true → P e
  job : ∀ j ∈ o.job, j.Valid keyOnly subjectPrefix P o.broker.ids
  messages : ∀ a ∈ o.broker.stream ++ o.broker.flight,
    ∃ e, P e ∧ a ∈ forms keyOnly subjectPrefix [] e

variable {js keyOnly subjectPrefix P} {order rest : List GoString} {o o' : Outbox}

namespace Outbox

/-- What the publisher takes from its channel it waits for as before. -/
theorem queue_fetch {e : Event} {bus : List Event} {j : Job}
    (hwaiting : j.waiting = [e].filter fun e => isPublishable e.type) (hjob : o.job = none)
    (hbus : o.bus = e :: bus) (p : Publisher) :
    { o with publisher := p, bus := bus, job := some j }.queue = o.queue := by
  simp only [queue, hjob, hbus, elim_some, elim_none, hwaiting, nil_append,
    ← filter_append, singleton_append]

/-- The publisher takes an event. -/
private theorem Copies.fetch (hP : ∀ e, P e → e.sourceID ≠ []) {next : GoString}
    {moments : List Moment} {told : Option Event} (h : o.Copies keyOnly subjectPrefix P order rest)
    (hadmits : (OutboxAction.fetch next moments).Admits)
    (hstep : o.step js keyOnly (.fetch next moments) = some (o', told)) :
    o'.Copies keyOnly subjectPrefix P order rest ∧ told = none ∧ o'.queue = o.queue ∧
      o'.broker = o.broker := by
  simp only [step] at hstep
  split at hstep
  · rename_i event bus hjob hbus
    simp only [some.injEq, Prod.mk.injEq] at hstep
    obtain ⟨rfl, rfl⟩ := hstep
    have hbus' : ∀ e ∈ bus, isPublishable e.type = true → P e := fun e he =>
      h.genuine e (by rw [hbus]; exact mem_cons_of_mem _ he)
    cases hpub : isPublishable event.type with
    | false =>
      -- not one to publish: nothing is done
      have hdeliver : o.publisher.deliver keyOnly 0 next event moments =
          (true, ⟨.ok, moments, []⟩, o.publisher) := by
        simp [Publisher.deliver, shouldPublish, hpub]
      simp only [hdeliver]
      have hqueue := queue_fetch (j := ⟨event, .ok, []⟩) (by simp [Job.waiting, Job.waits, hpub])
        hjob hbus o.publisher
      refine ⟨{ h with copying := ?_, genuine := hbus', job := ?_ }, trivial, hqueue, trivial⟩
      · rw [hqueue]
        exact h.copying
      · intro j hj
        cases hj
        exact ⟨fun _ => ⟨rfl, rfl⟩, fun hpub' => absurd hpub' (by simp [hpub])⟩
    | true =>
      have hPevent : P event := h.genuine event (by rw [hbus]; exact mem_cons_self) hpub
      have hdeliver : o.publisher.deliver keyOnly 0 next event moments =
          ((o.publisher.publish keyOnly 0 next event moments).1.outcome !=
            .error .connectionClosed, o.publisher.publish keyOnly 0 next event moments) := by
        simp [Publisher.deliver, shouldPublish, hpub]
      simp only [hdeliver]
      obtain ⟨tries, hlog, hamong, hacked, hrefused⟩ :=
        publish_log keyOnly 0 o.publisher next event moments
      obtain ⟨hconfig, hobservers⟩ :=
        publish_config keyOnly 0 o.publisher next event moments
      generalize o.publisher.publish keyOnly 0 next event moments = r at *
      rw [h.subjectPrefix_eq, forms_sourced (hP event hPevent) next []] at hamong hrefused
      rw [h.observers_eq] at hlog
      -- the last form has no data, so it is not refused
      have hadmitted : r.1.outcome ≠ .error .tooLarge := by
        intro htooLarge
        obtain ⟨m, hm, hfn⟩ := hrefused htooLarge _
          (mem_map_of_mem (a := event.stripped) (by simp))
        exact hadmits m hm _ rfl hfn
      have hwaiting : Job.waiting ⟨event, r.1.outcome, r.1.log⟩ =
          [event].filter fun e => isPublishable e.type := by
        simp only [Job.waiting, Job.waits, hpub, hlog, Bool.true_and]
        by_cases hok : r.1.outcome = .ok
        · simp [hok, hpub, Entry.told]
        · simp [hok, hpub]
      have hqueue := queue_fetch hwaiting hjob hbus r.2
      refine ⟨{ h with
        subjectPrefix_eq := hconfig.trans h.subjectPrefix_eq
        observers_eq := hobservers.trans h.observers_eq
        copying := ?_, genuine := hbus', job := ?_ }, trivial, hqueue, trivial⟩
      · rw [hqueue]
        exact h.copying
      · intro j hj
        cases hj
        refine ⟨fun hpub' => absurd hpub (by simp [hpub']), fun _ => ⟨tries, _, hPevent, hlog,
          hamong, hadmitted, ?_⟩⟩
        by_cases hok : r.1.outcome = .ok
        · exact Or.inr ⟨if_pos hok, hok, Or.inr (hacked hok)⟩
        · exact Or.inl ⟨if_neg hok, Or.inl hok⟩
  · cases hstep

end Outbox

/-- An event that attempts are left for is still waited for. -/
theorem Job.Publishing.waiting {ids : List GoString} {j : Job} {x : Attempt × PublishResult}
    {tries : List (Attempt × PublishResult)} {notes : List Entry}
    (h : j.Publishing keyOnly subjectPrefix P ids (x :: tries) notes)
    (hpub : isPublishable j.event.type = true) : j.waiting = [j.event] := by
  have hwaits : j.waits = true := by
    rw [Job.waits, hpub, Bool.true_and, h.entries_eq]
    rcases h.notes_eq with ⟨-, hok | hnil⟩ | ⟨hnotes, -⟩
    · simp [hok]
    · cases hnil
    · simp [hnotes, Entry.told]
  rw [Job.waiting, if_pos hwaits]

/-- The job after its next attempt. -/
theorem Job.Publishing.attempt {ids ids' : List GoString} {j : Job} {a : Attempt}
    {result : PublishResult} {tries : List (Attempt × PublishResult)} {notes : List Entry}
    (h : j.Publishing keyOnly subjectPrefix P ids ((a, result) :: tries) notes)
    (hmono : ids ⊆ ids') (hstored : result = .ok → a.msgID ∈ ids') :
    Job.Publishing keyOnly subjectPrefix P ids'
      ⟨j.event, j.outcome, tries.map (fun x => .attempt 0 x.1 x.2) ++ notes⟩ tries notes := by
  have hid := msgID_of_mem_forms (h.among (a, result) mem_cons_self)
  refine ⟨h.genuine, rfl, fun x hx => h.among x (mem_cons_of_mem _ hx), h.admitted, ?_⟩
  rcases h.notes_eq with ⟨hnil, hne | hnil'⟩ | ⟨hnotes, hok, hin | ⟨x, hx, hres⟩⟩
  · exact Or.inl ⟨hnil, Or.inl hne⟩
  · cases hnil'
  · exact Or.inr ⟨hnotes, hok, Or.inl (hmono hin)⟩
  · rcases mem_cons.mp hx with rfl | hx
    · exact Or.inr ⟨hnotes, hok, Or.inl (hid ▸ hstored hres)⟩
    · exact Or.inr ⟨hnotes, hok, Or.inr ⟨x, hx, hres⟩⟩

/-- Only the notification makes a difference to what is waited for. -/
theorem Job.waiting_attempt (event : Event) (outcome : Outcome) (a : Attempt)
    (result : PublishResult) (entries : List Entry) :
    Job.waiting ⟨event, outcome, .attempt 0 a result :: entries⟩ =
      Job.waiting ⟨event, outcome, entries⟩ := by
  simp [Job.waiting, Job.waits, Entry.told]

namespace Outbox

/-- An attempt with the event at work. -/
private theorem Copies.attempt (hjs : js.Dedups) {event : Event} {outcome : Outcome} {a : Attempt}
    {result : PublishResult} {tries : List (Attempt × PublishResult)} {entries notes : List Entry}
    (h : o.Copies keyOnly subjectPrefix P order rest)
    (hjob : o.job = some ⟨event, outcome, .attempt 0 a result :: entries⟩)
    (hpub : isPublishable event.type = true)
    (hj : Job.Publishing keyOnly subjectPrefix P o.broker.ids
      ⟨event, outcome, .attempt 0 a result :: entries⟩ ((a, result) :: tries) notes) :
    { o with
      job := some ⟨event, outcome, entries⟩
      broker := o.broker.handle js (.attempt 0 a result) }.Copies
        keyOnly subjectPrefix P order rest := by
  have hentries : entries = tries.map (fun x => .attempt 0 x.1 x.2) ++ notes :=
    (List.cons.inj hj.entries_eq).2
  have hform := hj.among (a, result) mem_cons_self
  have hwaiting := hj.waiting hpub
  have hcopying := h.copying
  -- the queue starts with the event, before and after
  simp only [queue, hjob, elim_some, hwaiting, singleton_append, map_cons,
    ← msgID_of_mem_forms hform] at hcopying
  rw [Job.waiting_attempt] at hwaiting
  refine { h with copying := ?_, job := ?_, messages := ?_ }
  · simp only [queue, elim_some, hwaiting, singleton_append, map_cons,
      ← msgID_of_mem_forms hform]
    exact Broker.copying_attempt result hjs hcopying
  · intro j hj'
    cases hj'
    refine ⟨fun hpub' => absurd hpub (by simp [hpub']), fun _ => ⟨tries, notes, ?_⟩⟩
    rw [hentries]
    exact hj.attempt (o.broker.ids_subset_attempt js a result)
      fun hok => hok ▸ o.broker.mem_ids_attempt_ok hjs a
  · intro x hx
    rcases o.broker.mem_attempt js a result hx with hx | rfl
    · exact h.messages x hx
    · exact ⟨event, hj.genuine, hform⟩

/-- The observers are told of the event at work. -/
private theorem Copies.notify {event e : Event} {outcome : Outcome} {entries : List Entry}
    {i index : Nat} (h : o.Copies keyOnly subjectPrefix P order rest)
    (hjob : o.job = some ⟨event, outcome, .notify i index e :: entries⟩)
    (hpub : isPublishable event.type = true)
    (hj : Job.Publishing keyOnly subjectPrefix P o.broker.ids
      ⟨event, outcome, .notify i index e :: entries⟩ [] (.notify i index e :: entries)) :
    let o' := { o with job := some ⟨event, outcome, entries⟩ }
    o'.Copies keyOnly subjectPrefix P order rest ∧ o.queue = e :: o'.queue ∧
      messageID subjectPrefix [] e ∈ o.broker.ids := by
  intro o'
  rcases hj.notes_eq with ⟨hnil, -⟩ | ⟨hnotes, hok, hin⟩
  · cases hnil
  obtain ⟨hentry, rfl⟩ := List.cons.inj hnotes
  obtain ⟨rfl, rfl, rfl⟩ := Entry.notify.inj hentry
  have hin : messageID subjectPrefix [] e ∈ o.broker.ids :=
    hin.resolve_right fun hex => by simp at hex
  have hqueue : o.queue = e :: o'.queue := by
    have hok : outcome = .ok := hok
    simp [queue, hjob, o', Job.waiting, Job.waits, hpub, hok, Entry.told]
  have hcopying := h.copying
  rw [hqueue, map_cons] at hcopying
  refine ⟨{ h with copying := hcopying.ack hin, job := ?_ }, hqueue, hin⟩
  intro j hj'
  cases hj'
  exact ⟨fun hpub' => absurd hpub (by simp [hpub']), fun _ => ⟨[], [], hj.genuine, rfl,
    forall_mem_nil _, hj.admitted, Or.inl ⟨rfl, Or.inr rfl⟩⟩⟩

/-- A step of the publisher takes the event it tells of from the queue, and that event is in the
    stream. -/
structure Stepped (subjectPrefix : GoString) (o o' : Outbox) (told : Option Event) : Prop where
  queue : o.queue = told.toList ++ o'.queue
  stored : ∀ e ∈ told, messageID subjectPrefix [] e ∈ o'.broker.ids
  ids : o.broker.ids ⊆ o'.broker.ids

/-- The next entry is performed. -/
private theorem Copies.perform (hjs : js.Dedups) {told : Option Event}
    (h : o.Copies keyOnly subjectPrefix P order rest)
    (hstep : o.step js keyOnly .perform = some (o', told)) :
    o'.Copies keyOnly subjectPrefix P order rest ∧ Stepped subjectPrefix o o' told := by
  simp only [step] at hstep
  split at hstep
  · rename_i event outcome entry entries hjob
    simp only [some.injEq, Prod.mk.injEq] at hstep
    obtain ⟨rfl, rfl⟩ := hstep
    have hvalid := h.job _ hjob
    cases hpub : isPublishable event.type with
    | false =>
      obtain ⟨-, hnil⟩ := hvalid.skipped hpub
      cases hnil
    | true =>
      obtain ⟨tries, notes, hj⟩ := hvalid.published hpub
      cases tries with
      -- attempts come first
      | cons x tries =>
        obtain ⟨a, result⟩ := x
        obtain ⟨rfl, -⟩ := List.cons.inj hj.entries_eq
        refine ⟨h.attempt hjs hjob hpub hj, ?_, fun e he => ?_, ?_⟩
        · simp [queue, hjob, Job.waiting_attempt, Entry.told]
        · cases he
        · exact o.broker.ids_subset_attempt js a result
      -- then the notification
      | nil =>
        obtain rfl : entry :: entries = notes := hj.entries_eq
        rcases hj.notes_eq with ⟨hnil, -⟩ | ⟨hnotes, -⟩
        · cases hnil
        · obtain ⟨rfl, -⟩ : entry = .notify 0 0 event ∧ _ := List.cons.inj hnotes
          obtain ⟨hcopies, hqueue, hin⟩ := h.notify hjob hpub hj
          refine ⟨hcopies, hqueue, fun e he => ?_, List.Subset.refl _⟩
          cases he
          exact hin
  · cases hstep

/-- The publisher is done with an event. -/
private theorem Copies.finish {told : Option Event}
    (h : o.Copies keyOnly subjectPrefix P order rest)
    (hstep : o.step js keyOnly .finish = some (o', told)) :
    o'.Copies keyOnly subjectPrefix P order rest ∧ Stepped subjectPrefix o o' told := by
  have hdone : ∀ event, o.job = some ⟨event, .ok, []⟩ →
      { o with job := none }.Copies keyOnly subjectPrefix P order rest ∧
        Stepped subjectPrefix o { o with job := none } none := by
    intro event hjob
    have hqueue : { o with job := none }.queue = o.queue := by
      simp [queue, hjob, Job.waiting, Job.waits]
    refine ⟨{ h with copying := ?_, job := fun j hj => ?_ }, hqueue.symm, ?_, ?_⟩
    · rw [hqueue]
      exact h.copying
    · cases hj
    · exact fun e he => by cases he
    · exact List.Subset.refl _
  simp only [step] at hstep
  split at hstep
  · rename_i event hjob
    simp only [some.injEq, Prod.mk.injEq] at hstep
    obtain ⟨rfl, rfl⟩ := hstep
    exact hdone event hjob
  · -- an event is not given up for its size
    rename_i event hjob
    have hvalid := h.job _ hjob
    cases hpub : isPublishable event.type with
    | false =>
      obtain ⟨hok, -⟩ := hvalid.skipped hpub
      cases hok
    | true =>
      obtain ⟨tries, notes, hj⟩ := hvalid.published hpub
      exact absurd rfl hj.admitted
  · cases hstep

/-- A message that was not answered arrives. -/
private theorem Copies.arrive (hjs : js.Dedups) {n : Nat} {told : Option Event}
    (h : o.Copies keyOnly subjectPrefix P order rest)
    (hstep : o.step js keyOnly (.arrive n) = some (o', told)) :
    o'.Copies keyOnly subjectPrefix P order rest ∧ Stepped subjectPrefix o o' told := by
  simp only [step, map_eq_some_iff, Prod.mk.injEq] at hstep
  obtain ⟨a, ha, rfl, rfl⟩ := hstep
  have hmem : a ∈ o.broker.flight := mem_of_getElem? ha
  have hids := o.broker.ids_subset_store js a
  refine ⟨{ h with copying := ?_, job := fun j hj => ?_, messages := fun x hx => ?_ }, rfl, ?_,
    hids⟩
  · show Copying order (o.broker.store js a).ids _ rest
      ((o.broker.store js a).flight.map Attempt.msgID)
    rw [Broker.ids_store hjs, Broker.flight_store]
    exact h.copying.arrive (mem_map_of_mem hmem)
  · -- a job asks only that ids are in the stream
    obtain ⟨hskipped, hpublished⟩ := h.job j hj
    refine ⟨hskipped, fun hpub => ?_⟩
    obtain ⟨tries, notes, hj'⟩ := hpublished hpub
    refine ⟨tries, notes, { hj' with notes_eq := ?_ }⟩
    rcases hj'.notes_eq with hnil | ⟨hnotes, hok, hin⟩
    · exact Or.inl hnil
    · exact Or.inr ⟨hnotes, hok, hin.imp_left fun hin => hids hin⟩
  · rw [Broker.flight_store] at hx
    rcases mem_append.mp hx with hx | hx
    · rcases o.broker.mem_stream_store js a hx with hx | rfl
      · exact h.messages x (mem_append_left _ hx)
      · exact h.messages x (mem_append_right _ hmem)
    · exact h.messages x (mem_append_right _ hx)
  · exact fun e he => by cases he

/-- One step of the publisher or of the network. -/
theorem Copies.step (hjs : js.Dedups) (hP : ∀ e, P e → e.sourceID ≠ []) {a : OutboxAction}
    {told : Option Event} (h : o.Copies keyOnly subjectPrefix P order rest) (hadmits : a.Admits)
    (hstep : o.step js keyOnly a = some (o', told)) :
    o'.Copies keyOnly subjectPrefix P order rest ∧ Stepped subjectPrefix o o' told := by
  cases a with
  | fetch next moments =>
    obtain ⟨hcopies, rfl, hqueue, hbroker⟩ := h.fetch hP hadmits hstep
    refine ⟨hcopies, hqueue.symm, fun e he => ?_, ?_⟩
    · cases he
    · rw [hbroker]
      exact List.Subset.refl _
  | perform => exact h.perform hjs hstep
  | finish => exact h.finish hstep
  | arrive n => exact h.arrive hjs hstep

/-! ## What the publisher is given -/

/-- A publisher that has not published anything. -/
theorem Copies.start (hnodup : order.Nodup) (lsn : GoString) :
    Outbox.Copies keyOnly subjectPrefix P order order
      ⟨⟨subjectPrefix, 1, lsn⟩, [], none, ⟨[], []⟩⟩ where
  subjectPrefix_eq := rfl
  observers_eq := rfl
  copying := .start hnodup
  genuine := forall_mem_nil _
  job j hj := by cases hj
  messages := forall_mem_nil _

/-- The bus takes the next event to publish. -/
theorem Copies.take {e : Event}
    (h : o.Copies keyOnly subjectPrefix P order (messageID subjectPrefix [] e :: rest)) (he : P e)
    (hpub : isPublishable e.type = true) :
    { o with bus := o.bus ++ [e] }.Copies keyOnly subjectPrefix P order rest := by
  refine { h with
    copying := ?_, genuine := forall_mem_concat h.genuine fun _ => he, job := h.job }
  have hqueue : { o with bus := o.bus ++ [e] }.queue = o.queue ++ [e] := by
    simp [queue, hpub]
  rw [hqueue, map_append]
  exact h.copying.take

/-- The bus takes an event that is not published. -/
theorem Copies.pass {e : Event} (h : o.Copies keyOnly subjectPrefix P order rest)
    (hpub : isPublishable e.type = false) :
    { o with bus := o.bus ++ [e] }.Copies keyOnly subjectPrefix P order rest := by
  refine { h with
    copying := ?_
    genuine := forall_mem_concat h.genuine fun hpub' => absurd hpub' (by simp [hpub])
    job := h.job }
  have hqueue : { o with bus := o.bus ++ [e] }.queue = o.queue := by
    simp [queue, hpub]
  rw [hqueue]
  exact h.copying

/-- The source is read again from a place that the stream has reached. -/
theorem Copies.resume {done rest' : List GoString}
    (h : o.Copies keyOnly subjectPrefix P order rest) (horder : order = done ++ rest')
    (hdone : ∀ id ∈ done, id ∈ o.broker.ids) :
    o.Copies keyOnly subjectPrefix P order rest' :=
  { h with copying := h.copying.resume horder hdone }

/-- A new process: the channel and the event at work are lost, the stream and what is on the way
    are not. -/
theorem Copies.restart {done rest' : List GoString} (lsn : GoString)
    (h : o.Copies keyOnly subjectPrefix P order rest) (horder : order = done ++ rest')
    (hdone : ∀ id ∈ done, id ∈ o.broker.ids) :
    Outbox.Copies keyOnly subjectPrefix P order rest'
      ⟨⟨subjectPrefix, 1, lsn⟩, [], none, o.broker⟩ where
  subjectPrefix_eq := rfl
  observers_eq := rfl
  copying := h.copying.restart horder hdone
  genuine := forall_mem_nil _
  job j hj := by cases hj
  messages := h.messages

end Outbox

end Copies

end Nats
