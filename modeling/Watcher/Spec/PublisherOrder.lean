import Watcher.Model.Publisher

/-!
# When the publisher skips an event

An event ends in one of four ways: it is acked, all its forms are refused as too
large, the context ends, or the connection is closed for good. The last two end
all publishing. After the second the loop goes on to the next event, so an event
is skipped exactly when each of its forms can be refused and another event to
publish follows.

## Key results

- `publishWithRetry_sent`: the attempts with one form of an event
- `publish_published`: all attempts with an event
- `publishLoop_ordered`: the events of a run
- `publishLoop_skips`: a run that skips an event
- `never_skips_iff`: which events no run skips
-/

namespace Nats

open Cdc List

/-! ## Reading a log -/

/-- The events acked, by index. -/
def acks (log : List Entry) : List Nat :=
  log.filterMap fun
    | .attempt index _ .ok => some index
    | _ => none

/-- The events that an observer was notified of. -/
def notified (observer : Nat) (log : List Entry) : List Nat :=
  log.filterMap fun
    | .notify i index _ => if i = observer then some index else none
    | _ => none

@[simp] theorem acks_append (l l' : List Entry) : acks (l ++ l') = acks l ++ acks l' :=
  filterMap_append

@[simp] theorem notified_append (i : Nat) (l l' : List Entry) :
    notified i (l ++ l') = notified i l ++ notified i l' := filterMap_append

/-- Every observer is notified once. -/
private theorem notified_range (i index n : Nat) (e : Event) :
    notified i ((List.range n).map fun j => .notify j index e) = if i < n then [index] else [] := by
  induction n with
  | zero => rfl
  | succ n ih =>
    have hlast : notified i [.notify n index e] = if n = i then [index] else [] := by
      by_cases h : n = i <;> simp [notified, h]
    rw [range_succ, map_append, notified_append, ih, map_singleton, hlast]
    by_cases h : n = i
    · simp [h]
    · have hiff : i < n + 1 ↔ i < n := by omega
      simp [h, hiff]

/-- Notifying is not acking. -/
private theorem acks_range (index n : Nat) (e : Event) :
    acks ((List.range n).map fun j => .notify j index e) = [] := by
  rw [acks, filterMap_map]
  exact filterMap_eq_nil_iff.mpr fun _ _ => rfl

/-! ## Scripts -/

/-- A context that is done stays done, and from then on `publishFn` does not succeed. -/
structure Consistent (ms : List Moment) : Prop where
  done_stays : ms.Pairwise fun m m' => m.ctxDone = true → m'.ctxDone = true
  done_fails : ∀ m ∈ ms, m.ctxDone = true → ∀ a, m.publishFn a ≠ .ok

/-- What `publishFn` refuses as too large is refusable. -/
def RefusesOnly (refusable : Attempt → Bool) (ms : List Moment) : Prop :=
  ∀ m ∈ ms, ∀ a, m.publishFn a = .tooLarge → refusable a = true

/-- `publishFn` does not succeed any more. -/
def Ended (ms : List Moment) : Prop := ∀ m ∈ ms, ∀ a, m.publishFn a ≠ .ok

variable {refusable : Attempt → Bool} {index : Nat} {ms : List Moment}

variable {ms' : List Moment} {m : Moment}

theorem Consistent.suffix (h : Consistent ms) (hsuffix : ms' <:+ ms) : Consistent ms' :=
  ⟨h.done_stays.sublist hsuffix.sublist, fun m hm => h.done_fails m (hsuffix.mem hm)⟩

/-- And refuses no more. -/
theorem RefusesOnly.suffix (h : RefusesOnly refusable ms) (hsuffix : ms' <:+ ms) :
    RefusesOnly refusable ms' :=
  fun m hm => h m (hsuffix.mem hm)

theorem Ended.suffix (h : Ended ms) (hsuffix : ms' <:+ ms) : Ended ms' :=
  fun m hm => h m (hsuffix.mem hm)

/-- Once the end of the context was seen, nothing succeeds. -/
theorem Consistent.ended (h : Consistent (m :: ms)) (hdone : m.selectsDone = true) : Ended ms := by
  rw [Moment.selectsDone, Bool.and_eq_true] at hdone
  intro m' hm'
  have hstays := (pairwise_cons.mp h.done_stays).1 m' hm' hdone.1
  exact h.done_fails m' (mem_cons_of_mem m hm') hstays

/-! ## One form of an event -/

/-- How attempts with these forms of the event with this index end. -/
structure Sent (refusable : Attempt → Bool) (index : Nat) (forms : List Attempt)
    (ms : List Moment) (r : Sending) : Prop where
  suffix : r.rest <:+ ms
  acks_eq : acks r.log = if r.outcome = .ok then [index] else []
  notified_eq : ∀ i, notified i r.log = []
  refused : r.outcome = .error .tooLarge → ∀ a ∈ forms, refusable a = true
  ended : r.outcome = .blocked ∨ r.outcome = .error .canceled → Ended r.rest
  not_ok : Ended ms → r.outcome ≠ .ok

/-- A call that made no attempt. -/
private theorem Sent.idle {forms : List Attempt} {o : Outcome} (hok : o ≠ .ok)
    (htooLarge : o ≠ .error .tooLarge) (hended : o = .blocked ∨ o = .error .canceled → Ended ms) :
    Sent refusable index forms (m :: ms) ⟨o, ms, []⟩ where
  suffix := suffix_cons m ms
  acks_eq := (if_neg hok).symm
  notified_eq := fun _ => rfl
  refused := fun h => absurd h htooLarge
  ended := hended
  not_ok := fun _ => hok

/-- A moment passes before the attempts. -/
private theorem Sent.cons {forms : List Attempt} {r : Sending}
    (h : Sent refusable index forms ms r) : Sent refusable index forms (m :: ms) r where
  suffix := h.suffix.trans (suffix_cons m ms)
  acks_eq := h.acks_eq
  notified_eq := h.notified_eq
  refused := h.refused
  ended := h.ended
  not_ok := fun hended => h.not_ok (hended.suffix (suffix_cons m ms))

/-- The attempts with one form of an event. -/
theorem publishWithRetry_sent (a : Attempt) (phase : Phase) (hms : Consistent ms)
    (hrefuses : RefusesOnly refusable ms) :
    Sent refusable index [a] ms (publishWithRetry index a phase ms) := by
  fun_induction publishWithRetry index a phase ms with
  | case1 phase =>
    -- the script ended
    exact ⟨suffix_refl _, rfl, fun _ => rfl, Outcome.noConfusion,
      fun _ => forall_mem_nil _, fun _ => Outcome.noConfusion⟩
  | case2 m ms hok =>
    refine ⟨suffix_cons m ms, rfl, fun _ => rfl, Outcome.noConfusion, ?_, ?_⟩
    · exact fun h => absurd h (by simp)
    · exact fun hended => absurd hok (hended m mem_cons_self a)
  | case3 m ms htooLarge =>
    refine ⟨suffix_cons m ms, rfl, fun _ => rfl, ?_, ?_, fun _ => Outcome.noConfusion⟩
    · exact fun _ => forall_mem_singleton.mpr (hrefuses m mem_cons_self a htooLarge)
    · exact fun h => absurd h (by simp)
  | case4 m ms hfailed r ih =>
    -- the attempt failed; the next one is made after a delay
    have hsuffix := suffix_cons m ms
    have hr := (ih (hms.suffix hsuffix) (hrefuses.suffix hsuffix)).cons (m := m)
    exact ⟨hr.suffix, hr.acks_eq, hr.notified_eq, hr.refused, hr.ended, hr.not_ok⟩
  | case5 m ms hlost ih =>
    have hsuffix := suffix_cons m ms
    exact (ih (hms.suffix hsuffix) (hrefuses.suffix hsuffix)).cons
  | case6 m ms hlost hdone =>
    exact Sent.idle Outcome.noConfusion (by decide) fun _ => hms.ended hdone
  | case7 m ms hlost hdone ih =>
    have hsuffix := suffix_cons m ms
    exact (ih (hms.suffix hsuffix) (hrefuses.suffix hsuffix)).cons
  | case8 m ms hconn ih =>
    have hsuffix := suffix_cons m ms
    exact (ih (hms.suffix hsuffix) (hrefuses.suffix hsuffix)).cons
  | case9 m ms hconn =>
    -- a closed connection says nothing about what `publishFn` would return
    exact Sent.idle Outcome.noConfusion (by decide) fun h => absurd h (by simp)
  | case10 m ms hconn hdone =>
    exact Sent.idle Outcome.noConfusion (by decide) fun _ => hms.ended hdone
  | case11 m ms hconn hdone ih =>
    have hsuffix := suffix_cons m ms
    exact (ih (hms.suffix hsuffix) (hrefuses.suffix hsuffix)).cons

/-! ## An event -/

/-- Going on to other forms after those before them were refused as too large. -/
private theorem Sent.orTooLarge {forms forms' : List Attempt} {r : Sending}
    {next : List Moment → Sending} (h : Sent refusable index forms ms r)
    (hnext : Sent refusable index forms' r.rest (next r.rest)) :
    Sent refusable index (forms ++ forms') ms (r.orTooLarge next) := by
  rw [Sending.orTooLarge]
  split
  · rename_i htooLarge
    have hacks : acks r.log = [] := by rw [h.acks_eq, if_neg (by simp [htooLarge])]
    exact
      { suffix := hnext.suffix.trans h.suffix
        acks_eq := by rw [acks_append, hacks, nil_append, hnext.acks_eq]
        notified_eq := fun i => by
          rw [notified_append, h.notified_eq, nil_append, hnext.notified_eq]
        refused := fun h' => forall_mem_append.mpr ⟨h.refused htooLarge, hnext.refused h'⟩
        ended := hnext.ended
        not_ok := fun hended => hnext.not_ok (hended.suffix h.suffix) }
  · rename_i htooLarge
    exact { h with refused := fun h' => absurd h' htooLarge }

section Publish

variable (keyOnly : EventType → GoString → List GoString → GoString)

/-- The calls of `publishFn` that publishing an event may come to: for the event, for its key
    only, and for the event without data. -/
def forms (subjectPrefix next : GoString) (event : Event) : List Attempt :=
  [event, event.truncated keyOnly, event.stripped].map fun payload =>
    ⟨buildSubject subjectPrefix event.schema event.table, payload,
      messageID subjectPrefix next event⟩

/-- How publishing the event with this index ends. -/
structure Published (refusable : Attempt → Bool) (p : Publisher) (index : Nat) (next : GoString)
    (event : Event) (ms : List Moment) (r : Sending) : Prop where
  suffix : r.rest <:+ ms
  acks_eq : acks r.log = if r.outcome = .ok then [index] else []
  notified_eq : ∀ i < p.observers, notified i r.log = acks r.log
  notified_after : ∀ l, l <+: r.log → ∀ i, notified i l <+: acks l
  refused : r.outcome = .error .tooLarge →
    ∀ a ∈ forms keyOnly p.subjectPrefix next event, refusable a = true
  ended : r.outcome = .blocked ∨ r.outcome = .error .canceled → Ended r.rest
  not_ok : Ended ms → r.outcome ≠ .ok

/-- Publishing changes the last position acked only. -/
private theorem publish_fields (p : Publisher) (index : Nat) (next : GoString) (event : Event)
    (ms : List Moment) :
    (p.publish keyOnly index next event ms).2.observers = p.observers ∧
      (p.publish keyOnly index next event ms).2.subjectPrefix = p.subjectPrefix := by
  simp only [Publisher.publish]
  split
  · split <;> exact ⟨rfl, rfl⟩
  · exact ⟨rfl, rfl⟩

/-- All attempts with an event. -/
theorem publish_published (p : Publisher) (index : Nat) (next : GoString) (event : Event)
    (hms : Consistent ms) (hrefuses : RefusesOnly refusable ms) :
    Published keyOnly refusable p index next event ms
      (p.publish keyOnly index next event ms).1 := by
  have hsend : ∀ subject payload msgID {ms}, Consistent ms → RefusesOnly refusable ms →
      Sent refusable index [⟨subject, payload, msgID⟩] ms (send index subject payload msgID ms) :=
    fun subject payload msgID _ hms hrefuses =>
      publishWithRetry_sent ⟨subject, payload, msgID⟩ .attempting hms hrefuses
  -- all three forms together end as the last one of them does
  have hall : ∀ subject msgID,
      Sent refusable index
        ([event, event.truncated keyOnly, event.stripped].map (⟨subject, ·, msgID⟩)) ms
        ((send index subject event msgID ms).orTooLarge
          (sendTruncated keyOnly index subject event msgID)) := by
    intro subject msgID
    have hfull := hsend subject event msgID hms hrefuses
    have hms' := hms.suffix hfull.suffix
    have hrefuses' := hrefuses.suffix hfull.suffix
    have htruncated := hsend subject (event.truncated keyOnly) msgID hms' hrefuses'
    exact hfull.orTooLarge (htruncated.orTooLarge (hsend subject event.stripped msgID
      (hms'.suffix htruncated.suffix) (hrefuses'.suffix htruncated.suffix)))
  have h := hall (buildSubject p.subjectPrefix event.schema event.table)
    (messageID p.subjectPrefix next event)
  simp only [Publisher.publish]
  generalize Sending.orTooLarge _ _ = r at h ⊢
  have hnone : ∀ l, l <+: r.log → ∀ i, notified i l = [] := fun l hl i =>
    prefix_nil.mp (h.notified_eq i ▸ hl.filterMap _)
  split
  · rename_i hok
    refine ⟨h.suffix, ?_, fun i hi => ?_, fun l hl i => ?_, h.refused, h.ended, h.not_ok⟩
    · simp [acks_range, h.acks_eq]
    · simp [notified_range, acks_range, h.notified_eq, h.acks_eq, hok, hi]
    · rcases prefix_or_prefix_of_prefix hl (prefix_append _ _) with hl | ⟨t, rfl⟩
      · rw [hnone l hl i]
        exact nil_prefix
      · -- the ack comes first
        have ht : notified i t <+: notified i ((List.range p.observers).map
            fun i => .notify i index event) :=
          ((prefix_append_right_inj r.log).mp hl).filterMap _
        rw [notified_range] at ht
        rw [notified_append, acks_append, h.notified_eq, h.acks_eq, if_pos hok, nil_append]
        refine (ht.trans ?_).trans (prefix_append _ _)
        split
        · exact prefix_refl _
        · exact nil_prefix
  · rename_i hok
    refine ⟨h.suffix, h.acks_eq, fun i hi => ?_, fun l hl i => ?_, h.refused, h.ended, h.not_ok⟩
    · rw [h.notified_eq, h.acks_eq, if_neg hok]
    · rw [hnone l hl i]
      exact nil_prefix

/-! ## A run -/

/-- The indices of the events to publish. -/
def publishable : Nat → List Event → List Nat
  | _, [] => []
  | index, e :: es =>
    if isPublishable e.type then index :: publishable (index + 1) es
    else publishable (index + 1) es

theorem publishable_append (index : Nat) (es es' : List Event) :
    publishable index (es ++ es') =
      publishable index es ++ publishable (index + es.length) es' := by
  induction es generalizing index with
  | nil => rfl
  | cons e es ih =>
    have hlength : index + (e :: es).length = index + 1 + es.length := by
      rw [length_cons]
      omega
    rw [cons_append, publishable, publishable, ih, hlength]
    split <;> rfl

variable {es events : List Event} {e : Event} {p : Publisher} {log : List Entry} {m : Moment}

/-- No index comes before the first one. -/
theorem le_of_mem_publishable {n : Nat} (h : n ∈ publishable index es) : index ≤ n := by
  induction es generalizing index with
  | nil => exact nomatch h
  | cons e es ih =>
    rw [publishable] at h
    split at h
    · cases mem_cons.mp h with
      | inl h => exact Nat.le_of_eq h.symm
      | inr h => exact Nat.le_of_succ_le (ih h)
    · exact Nat.le_of_succ_le (ih h)

/-- Nothing is to be published. -/
theorem publishable_eq_nil_iff :
    publishable index es = [] ↔ ∀ e ∈ es, isPublishable e.type = false := by
  induction es generalizing index with
  | nil => exact ⟨fun _ => forall_mem_nil _, fun _ => rfl⟩
  | cons e es ih =>
    rw [publishable, forall_mem_cons]
    cases hpub : isPublishable e.type with
    | true => simp
    | false => simp [ih]

/-- Every event to publish that is followed by another one has a form that is not refusable. -/
def Acceptable (refusable : Attempt → Bool) (subjectPrefix : GoString) (next : Nat → GoString)
    (index : Nat) (events : List Event) : Prop :=
  ∀ pre e post, events = pre ++ e :: post → isPublishable e.type = true →
    (∃ e' ∈ post, isPublishable e'.type = true) →
    ∃ a ∈ forms keyOnly subjectPrefix (next (index + pre.length)) e, refusable a = false

variable {keyOnly} {next : Nat → GoString}

theorem Acceptable.tail {subjectPrefix : GoString}
    (h : Acceptable keyOnly refusable subjectPrefix next index (e :: events)) :
    Acceptable keyOnly refusable subjectPrefix next (index + 1) events := by
  intro pre e' post hsplit hpub hpost
  have hform := h (e :: pre) e' post (by rw [hsplit, cons_append]) hpub hpost
  rwa [length_cons, show index + (pre.length + 1) = index + 1 + pre.length by omega] at hform

/-- What a run over events from this index on did. -/
structure Ordered (keyOnly : EventType → GoString → List GoString → GoString)
    (refusable : Attempt → Bool) (next : Nat → GoString) (p : Publisher) (index : Nat)
    (events : List Event) (ms : List Moment) (log : List Entry) : Prop where
  notified_eq : ∀ i < p.observers, notified i log = acks log
  notified_after : ∀ l, l <+: log → ∀ i < p.observers, notified i l <+: acks l
  ended : Ended ms → acks log = []
  no_gap : Acceptable keyOnly refusable p.subjectPrefix next index events →
    acks log <+: publishable index events

/-- A run that ended with the last event it read. -/
private theorem Ordered.of_nil (hnotified : ∀ i, notified i log = []) (hacks : acks log = []) :
    Ordered keyOnly refusable next p index events ms log where
  notified_eq := fun i _ => (hnotified i).trans hacks.symm
  notified_after := fun l hl i _ => by
    have hl : notified i l = [] := prefix_nil.mp (hnotified i ▸ hl.filterMap _)
    rw [hl]
    exact nil_prefix
  ended := fun _ => hacks
  no_gap := fun _ => by
    rw [hacks]
    exact nil_prefix

/-- Two runs, one after the other. -/
private theorem notified_after_append {log' : List Entry}
    (heq : ∀ i < p.observers, notified i log = acks log)
    (h : ∀ l, l <+: log → ∀ i < p.observers, notified i l <+: acks l)
    (h' : ∀ l, l <+: log' → ∀ i < p.observers, notified i l <+: acks l) :
    ∀ l, l <+: log ++ log' → ∀ i < p.observers, notified i l <+: acks l := by
  intro l hl i hi
  rcases prefix_or_prefix_of_prefix hl (prefix_append log log') with hl | ⟨t, rfl⟩
  · exact h l hl i hi
  · rw [notified_append, acks_append, heq i hi, prefix_append_right_inj]
    exact h' t ((prefix_append_right_inj log).mp hl) i hi

/-- The event with this index, and then the run over the other events. -/
private theorem Ordered.publish {p' : Publisher} {r : Sending}
    (hpub : isPublishable e.type = true)
    (hr : Published keyOnly refusable p index (next index) e ms r)
    (hobservers : p'.observers = p.observers) (hsubject : p'.subjectPrefix = p.subjectPrefix)
    (hopen : r.outcome ≠ .error .connectionClosed)
    (h : Ordered keyOnly refusable next p' (index + 1) events r.rest log) :
    Ordered keyOnly refusable next p index (e :: events) ms (r.log ++ log) where
  notified_eq := fun i hi => by
    rw [notified_append, acks_append, hr.notified_eq i hi, h.notified_eq i (hobservers ▸ hi)]
  notified_after := notified_after_append hr.notified_eq (fun l hl i _ => hr.notified_after l hl i)
    (hobservers ▸ h.notified_after)
  ended := fun hended => by
    rw [acks_append, hr.acks_eq, if_neg (hr.not_ok hended), h.ended (hended.suffix hr.suffix)]
    rfl
  no_gap := fun hacceptable => by
    have hrest := h.no_gap (hsubject ▸ hacceptable.tail)
    rw [acks_append, hr.acks_eq, publishable, if_pos hpub]
    cases houtcome : r.outcome with
    | ok => simpa only [↓reduceIte, singleton_append, cons_prefix_cons, true_and]
    | blocked =>
      rw [h.ended (hr.ended (Or.inl houtcome))]
      exact nil_prefix
    | error err =>
      cases err with
      | connectionClosed => exact absurd houtcome hopen
      | canceled =>
        rw [h.ended (hr.ended (Or.inr houtcome))]
        exact nil_prefix
      | tooLarge =>
        -- the run goes on without this event, so it must be the last one to publish
        have hlast : publishable (index + 1) events = [] := by
          rw [publishable_eq_nil_iff]
          intro e' he'
          by_contra hpub'
          rw [Bool.not_eq_false] at hpub'
          obtain ⟨a, ha, hfits⟩ := hacceptable [] e events rfl hpub ⟨e', he', hpub'⟩
          exact nomatch hfits.symm.trans (hr.refused houtcome a ha)
        rw [hlast, prefix_nil] at hrest
        rw [hrest]
        exact nil_prefix

/-- A moment that was spent on the `select`. -/
private theorem Ordered.cons (h : Ordered keyOnly refusable next p index events ms log) :
    Ordered keyOnly refusable next p index events (m :: ms) log :=
  { h with ended := fun hended => h.ended (hended.suffix (suffix_cons m ms)) }

/-- An event that is not published. -/
private theorem Ordered.ignore (hpub : isPublishable e.type = false)
    (h : Ordered keyOnly refusable next p (index + 1) events ms log) :
    Ordered keyOnly refusable next p index (e :: events) ms log :=
  { h with
    no_gap := fun hacceptable => by
      rw [publishable, hpub]
      exact h.no_gap hacceptable.tail }

/-- The run over the events from any index on. -/
theorem publishLoop_ordered (p : Publisher) (index : Nat) (events : List Event)
    (hms : Consistent ms) (hrefuses : RefusesOnly refusable ms) :
    Ordered keyOnly refusable next p index events ms
      (p.publishLoop keyOnly next index events ms).1 := by
  induction events generalizing p index ms with
  | nil => exact Ordered.of_nil (fun _ => rfl) rfl
  | cons e events ih =>
    cases ms with
    | nil => exact Ordered.of_nil (fun _ => rfl) rfl
    | cons m ms =>
      have hms' := hms.suffix (suffix_cons m ms)
      have hrefuses' := hrefuses.suffix (suffix_cons m ms)
      rw [Publisher.publishLoop]
      split
      · exact Ordered.of_nil (fun _ => rfl) rfl
      cases hpub : isPublishable e.type with
      | false =>
        simp only [Publisher.deliver, shouldPublish, hpub, Bool.not_false, ↓reduceIte, nil_append]
        exact ((ih p (index + 1) hms' hrefuses').ignore hpub).cons
      | true =>
        have hr := publish_published keyOnly p index (next index) e hms' hrefuses'
        obtain ⟨hobservers, hsubject⟩ := publish_fields keyOnly p index (next index) e ms
        simp only [Publisher.deliver, shouldPublish, hpub, Bool.not_true, Bool.false_eq_true,
          ↓reduceIte, bne_iff_ne, ne_eq]
        generalize p.publish keyOnly index (next index) e ms = out at hr hobservers hsubject ⊢
        obtain ⟨r, p'⟩ := out
        split
        · rename_i hopen
          exact (Ordered.publish hpub hr hobservers hsubject hopen
            (ih p' (index + 1) (hms'.suffix hr.suffix) (hrefuses'.suffix hr.suffix))).cons
        · -- the connection is closed for good
          rename_i hclosed
          have houtcome : r.outcome = .error .connectionClosed := Decidable.not_not.mp hclosed
          have hacks : acks r.log = [] := by rw [hr.acks_eq, houtcome]; rfl
          refine Ordered.of_nil (fun i => ?_) hacks
          have := hr.notified_after r.log (prefix_refl _) i
          rwa [hacks, prefix_nil] at this

/-! ## A run that skips an event -/

/-- Connected, and the context is not done. -/
def Moment.live (publishFn : Attempt → PublishResult) : Moment :=
  ⟨false, .connected, publishFn, false⟩

/-- `publishFn` succeeds. -/
def Moment.accepting : Moment := .live fun _ => .ok

/-- `publishFn` refuses what is refusable. -/
def Moment.refusing (refusable : Attempt → Bool) : Moment :=
  .live fun a => if refusable a then .tooLarge else .ok

/-- A script in which each of these events is read and acked at the first attempt. -/
def acceptingScript : List Event → List Moment
  | [] => []
  | e :: es =>
    if isPublishable e.type then .accepting :: .accepting :: acceptingScript es
    else .accepting :: acceptingScript es

/-- A script in which the event after `pre` is refused in every form. -/
def skippingScript (refusable : Attempt → Bool) (pre post : List Event) : List Moment :=
  acceptingScript pre ++ .accepting :: .refusing refusable :: .refusing refusable ::
    .refusing refusable :: acceptingScript post

private theorem mem_acceptingScript (h : m ∈ acceptingScript es) : m = .accepting := by
  induction es with
  | nil => exact nomatch h
  | cons e es ih =>
    rw [acceptingScript] at h
    split at h <;> simp only [mem_cons] at h <;> grind

private theorem mem_skippingScript {pre post : List Event}
    (h : m ∈ skippingScript refusable pre post) : m = .accepting ∨ m = .refusing refusable := by
  simp only [skippingScript, mem_append, mem_cons] at h
  have hpre : m ∈ acceptingScript pre → m = .accepting := mem_acceptingScript
  have hpost : m ∈ acceptingScript post → m = .accepting := mem_acceptingScript
  grind

/-- The context is never done. -/
private theorem consistent_skippingScript (refusable : Attempt → Bool) (pre post : List Event) :
    Consistent (skippingScript refusable pre post) := by
  have hlive : ∀ m ∈ skippingScript refusable pre post, m.ctxDone = false := by
    intro m hm
    cases mem_skippingScript hm with
    | inl h => rw [h]; rfl
    | inr h => rw [h]; rfl
  constructor
  · refine pairwise_of_forall_mem_list fun m hm _ _ hdone => ?_
    exact nomatch (hlive m hm).symm.trans hdone
  · exact fun m hm hdone => nomatch (hlive m hm).symm.trans hdone

/-- Nothing else is refused. -/
private theorem refusesOnly_skippingScript (refusable : Attempt → Bool) (pre post : List Event) :
    RefusesOnly refusable (skippingScript refusable pre post) := by
  intro m hm a hrefused
  cases mem_skippingScript hm with
  | inl h =>
    rw [h] at hrefused
    exact nomatch hrefused
  | inr h =>
    rw [h] at hrefused
    by_contra hfits
    simp [Moment.refusing, Moment.live, hfits] at hrefused

variable (keyOnly next)

/-- An event that is acked at the first attempt. -/
private theorem publish_accepting (p : Publisher) (index : Nat) (id : GoString) (e : Event)
    (ms : List Moment) :
    ∃ log, (p.publish keyOnly index id e (.accepting :: ms)).1 = ⟨.ok, ms, log⟩ ∧
      acks log = [index] := by
  refine ⟨_, rfl, ?_⟩
  rw [acks_append, acks_range]
  rfl

/-- An event all of whose forms are refused. -/
private theorem publish_refusing (p : Publisher) (index : Nat) (id : GoString) (e : Event)
    (ms : List Moment) (hforms : ∀ a ∈ forms keyOnly p.subjectPrefix id e, refusable a = true) :
    ∃ log, (p.publish keyOnly index id e (.refusing refusable :: .refusing refusable ::
        .refusing refusable :: ms)).1 = ⟨.error .tooLarge, ms, log⟩ ∧ acks log = [] := by
  simp only [forms, map_cons, map_nil, forall_mem_cons] at hforms
  obtain ⟨hfull, htruncated, hstripped, -⟩ := hforms
  simp only [Publisher.publish, send, sendTruncated, publishWithRetry, Moment.refusing,
    Moment.live, hfull, htruncated, hstripped, Sending.orTooLarge, ↓reduceIte, reduceCtorEq]
  exact ⟨_, rfl, rfl⟩

/-- Whatever is left after an event that does not end all publishing. -/
private theorem acks_publishLoop_cons (p : Publisher) (index : Nat) (events : List Event)
    {ms rest : List Moment} {o : Outcome} (hpub : isPublishable e.type = true)
    (hr : (p.publish keyOnly index (next index) e ms).1 = ⟨o, rest, log⟩)
    (hopen : o ≠ .error .connectionClosed) :
    ∃ p' : Publisher, p'.subjectPrefix = p.subjectPrefix ∧
      acks (p.publishLoop keyOnly next index (e :: events) (.accepting :: ms)).1 =
        acks log ++ acks (p'.publishLoop keyOnly next (index + 1) events rest).1 := by
  have hfields := (publish_fields keyOnly p index (next index) e ms).2
  refine ⟨(p.publish keyOnly index (next index) e ms).2, hfields, ?_⟩
  have hselect : Moment.accepting.selectsDone = false := rfl
  have hcontinues : (o != .error .connectionClosed) = true := by simpa using hopen
  simp only [Publisher.publishLoop, hselect, Publisher.deliver, shouldPublish, hpub,
    Bool.not_true, Bool.false_eq_true, ↓reduceIte, hr, hcontinues, acks_append]

/-- With the accepting script every event is acked, and the run goes on after them. -/
private theorem acks_acceptingScript (p : Publisher) (index : Nat) (pre events : List Event)
    (ms : List Moment) :
    ∃ p' : Publisher, p'.subjectPrefix = p.subjectPrefix ∧
      acks (p.publishLoop keyOnly next index (pre ++ events) (acceptingScript pre ++ ms)).1 =
        publishable index pre ++
          acks (p'.publishLoop keyOnly next (index + pre.length) events ms).1 := by
  induction pre generalizing p index with
  | nil => exact ⟨p, rfl, rfl⟩
  | cons e pre ih =>
    have hlength : index + (e :: pre).length = index + 1 + pre.length := by
      rw [length_cons]
      omega
    rw [hlength, acceptingScript, publishable]
    cases hpub : isPublishable e.type with
    | true =>
      obtain ⟨log, hr, hacks⟩ := publish_accepting keyOnly p index (next index) e
        (acceptingScript pre ++ ms)
      obtain ⟨p₁, hsubject₁, hcons⟩ :=
        acks_publishLoop_cons keyOnly next p index (pre ++ events) hpub hr (by decide)
      obtain ⟨p', hsubject', hrest⟩ := ih p₁ (index + 1)
      refine ⟨p', hsubject'.trans hsubject₁, ?_⟩
      simp only [↓reduceIte, cons_append, hcons, hacks, hrest, nil_append]
    | false =>
      obtain ⟨p', hsubject', hrest⟩ := ih p (index + 1)
      refine ⟨p', hsubject', ?_⟩
      have hselect : Moment.accepting.selectsDone = false := rfl
      simp only [Bool.false_eq_true, ↓reduceIte, cons_append, Publisher.publishLoop, hselect,
        Publisher.deliver, shouldPublish, hpub, Bool.not_false, nil_append, hrest]

/-- Where every form of an event is refusable, there is a run that acks all the others. -/
theorem publishLoop_skips (p : Publisher) (pre post : List Event)
    (hpub : isPublishable e.type = true)
    (hforms : ∀ a ∈ forms keyOnly p.subjectPrefix (next pre.length) e, refusable a = true) :
    acks (p.publishLoop keyOnly next 0 (pre ++ e :: post)
        (skippingScript refusable pre post)).1 =
      publishable 0 pre ++ publishable (pre.length + 1) post := by
  obtain ⟨p₁, hsubject, hpre⟩ := acks_acceptingScript keyOnly next p 0 pre
    (e :: post) (.accepting :: .refusing refusable :: .refusing refusable ::
      .refusing refusable :: acceptingScript post)
  rw [Nat.zero_add] at hpre
  obtain ⟨log, hr, hacks⟩ := publish_refusing keyOnly p₁ pre.length (next pre.length) e
    (acceptingScript post) (hsubject ▸ hforms)
  obtain ⟨p₂, -, hskip⟩ := acks_publishLoop_cons keyOnly next p₁ pre.length post hpub hr (by decide)
  obtain ⟨p₃, -, hpost⟩ := acks_acceptingScript keyOnly next p₂ (pre.length + 1) post [] []
  rw [append_nil, append_nil] at hpost
  rw [skippingScript, hpre, hskip, hacks, nil_append, hpost]
  exact congrArg _ (append_nil _)

/-- Observers are notified of what was acked, once, in order and after the ack, and what was acked
    begins with the first event to publish and leaves none out. -/
def NeverSkips (p : Publisher) (events : List Event) (log : List Entry) : Prop :=
  (∀ i < p.observers, notified i log = acks log) ∧
    (∀ l, l <+: log → ∀ i < p.observers, notified i l <+: acks l) ∧
    acks log <+: publishable 0 events

/-- No run skips one of the events, whatever is refused of what is refusable, if and only if each
    event to publish that is followed by another one has a form that is not refusable. -/
theorem never_skips_iff (keyOnly : EventType → GoString → List GoString → GoString)
    (next : Nat → GoString) (p : Publisher) (events : List Event) (refusable : Attempt → Bool) :
    (∀ ms, Consistent ms → RefusesOnly refusable ms →
      NeverSkips p events (p.publishLoop keyOnly next 0 events ms).1) ↔
    ∀ pre e post, events = pre ++ e :: post → isPublishable e.type = true →
      (∃ e' ∈ post, isPublishable e'.type = true) →
      ∃ a ∈ forms keyOnly p.subjectPrefix (next pre.length) e, refusable a = false := by
  constructor
  · -- otherwise there is a run that skips this event
    rintro h pre e post rfl hpub ⟨e', he', hpub'⟩
    by_contra hnone
    have hforms : ∀ a ∈ forms keyOnly p.subjectPrefix (next pre.length) e, refusable a = true :=
      fun a ha => by_contra fun hfits => hnone ⟨a, ha, Bool.not_eq_true _ ▸ hfits⟩
    obtain ⟨-, -, hgap⟩ := h _ (consistent_skippingScript refusable pre post)
      (refusesOnly_skippingScript refusable pre post)
    rw [publishLoop_skips keyOnly next p pre post hpub hforms, publishable_append, Nat.zero_add,
      publishable, if_pos hpub, prefix_append_right_inj] at hgap
    -- the first event acked after the gap is not the one that was left out
    cases hpost : publishable (pre.length + 1) post with
    | nil => exact nomatch (publishable_eq_nil_iff.mp hpost e' he').symm.trans hpub'
    | cons n rest =>
      rw [hpost, cons_prefix_cons] at hgap
      have hle : pre.length + 1 ≤ n :=
        le_of_mem_publishable (by rw [hpost]; exact mem_cons_self)
      omega
  · intro hacceptable ms hms hrefuses
    have h : Ordered keyOnly refusable next p 0 events ms _ :=
      publishLoop_ordered p 0 events hms hrefuses
    refine ⟨h.notified_eq, h.notified_after, h.no_gap ?_⟩
    intro pre e post hsplit hpub hpost
    rw [Nat.zero_add]
    exact hacceptable pre e post hsplit hpub hpost

/-- Two rows, with the end of a transaction in between. -/
def sampleEvents : List Event :=
  [newEvent .insert (ascii "s") (ascii "t") (ascii "\x7b\x7d") [] (ascii "0/A"),
    newEvent .commit [] [] [] (ascii "COMMIT") [],
    newEvent .insert (ascii "s") (ascii "t") (ascii "\x7b\x7d") [] (ascii "0/B")]

/-- The first row is refused in every form; the observers hear of the second one. -/
theorem oversized_row_skipped :
    Consistent (skippingScript (fun _ => true) [] (sampleEvents.drop 1)) ∧
      notified 0 ((Publisher.mk (ascii "cdc") 1 []).publishLoop (fun _ _ _ => []) (fun _ => []) 0
        sampleEvents (skippingScript (fun _ => true) [] (sampleEvents.drop 1))).1 = [2] ∧
      ¬NeverSkips ⟨ascii "cdc", 1, []⟩ sampleEvents
        ((Publisher.mk (ascii "cdc") 1 []).publishLoop (fun _ _ _ => []) (fun _ => []) 0
          sampleEvents (skippingScript (fun _ => true) [] (sampleEvents.drop 1))).1 := by
  refine ⟨consistent_skippingScript _ _ _, by decide, ?_⟩
  rintro ⟨-, -, hgap⟩
  revert hgap
  decide

end Publish

end Nats
