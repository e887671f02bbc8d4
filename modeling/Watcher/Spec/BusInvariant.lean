import Watcher.ForStd.List
import Watcher.Lib.Run
import Watcher.Model.Bus

/-!
# Invariants of the bus

`Moves` says what a step of the service can do, with its guard; every invariant
is shown by cases on it. The invariants are stated over the parts of the state
they talk about, so that a step that leaves these parts alone keeps them as
they are.

- `LockAt`: a writer that holds the lock is alone
- `BegunAt`: what has been undone was undone by a call that has begun
-/

namespace Cdc

open Run List Option

/-! ### What a step can do -/

/-- The actions and their effects, apart from the passing of time. -/
inductive Moves (cap : Nat) (s : Bus) : BusAction → Bus → Prop where
  | callHandle (producer : Nat) (event : Event)
      (hidle : ∀ c ∈ s.handles, c.producer = producer → c.pc.finished = true) :
      Moves cap s (.callHandle producer event)
        { s with handles := s.handles ++ [⟨producer, event, s.time, .checking⟩] }
  | callSubscribe (kind : Kind) :
      Moves cap s (.callSubscribe kind) { s with writes := s.writes ++ [⟨.subscribe kind, .start⟩] }
  | callUnsubscribe (x : Nat) (hx : x < s.subs.length) :
      Moves cap s (.callUnsubscribe x) (s.beginUnsubscribe x)
  | callShutdown :
      Moves cap s .callShutdown { s with
        writes := s.writes ++ [⟨.shutdown, .start⟩]
        shutdownBegan := s.shutdownBegan.or (some s.time) }
  | stop (x : Nat) (sub : Subscriber) (hsub : s.subs[x]? = some sub)
      (hunsub : sub.unsubBegan ≠ none) :
      Moves cap s (.stop x) (s.setSub x fun sub => { sub with consuming := false })
  | receive (x : Nat) (sub : Subscriber) (hsub : s.subs[x]? = some sub) (hbuf : sub.buffered ≠ []) :
      Moves cap s (.receive x) (s.setSub x fun sub => { sub with received := sub.received + 1 })
  | refuse (i : Nat) (c : HandleCall) (hc : s.handles[i]? = some c) (hpc : c.pc = .checking) :
      Moves cap s (.check i) (s.setHandle i (.returned false s.time))
  | accept (i : Nat) (c : HandleCall) (hc : s.handles[i]? = some c) (hpc : c.pc = .checking) :
      Moves cap s (.check i) (s.setHandle i .locking)
  | rlock (i : Nat) (c : HandleCall) (hc : s.handles[i]? = some c) (hpc : c.pc = .locking)
      (hwriter : s.writer = none) :
      Moves cap s (.rlock i) (s.setHandle i (.delivering (s.targets c.event) false))
  | send (i : Nat) (c : HandleCall) (hc : s.handles[i]? = some c) (x : Nat) (todo : List Nat)
      (blocked : Bool) (hpc : c.pc = .delivering (x :: todo) blocked) (sub : Subscriber)
      (hsub : s.subs[x]? = some sub) :
      Moves cap s (.send i)
        ((s.setSub x fun sub => { sub with sent := sub.sent ++ [⟨i, c.event⟩] }).setHandle i
          (.delivering todo false))
  | block (i : Nat) (c : HandleCall) (hc : s.handles[i]? = some c) (x : Nat) (todo : List Nat)
      (hpc : c.pc = .delivering (x :: todo) false) :
      Moves cap s (.block i) (s.setHandle i (.delivering (x :: todo) true))
  | giveUp (i : Nat) (c : HandleCall) (hc : s.handles[i]? = some c) (x : Nat) (todo : List Nat)
      (hpc : c.pc = .delivering (x :: todo) true) (sub : Subscriber) (hsub : s.subs[x]? = some sub)
      (hgive : sub.done = true ∨ s.closed = true) :
      Moves cap s (.giveUp i) (s.setHandle i (.delivering todo false))
  | poll (i : Nat) : Moves cap s (.poll i) s
  | finish (i : Nat) (c : HandleCall) (hc : s.handles[i]? = some c) (blocked : Bool)
      (hpc : c.pc = .delivering [] blocked) :
      Moves cap s (.finish i) (s.setHandle i (.returned true s.time))
  | prepare (i : Nat) (w : WriteCall) (hw : s.writes[i]? = some w) (hpc : w.pc = .start) :
      Moves cap s (.prepare i) (s.prepareOp i w.op)
  | announce (i : Nat) (w : WriteCall) (hw : s.writes[i]? = some w) (hpc : w.pc = .waiting)
      (hwriter : s.writer = none) :
      Moves cap s (.announce i) { s.setWrite i .announced with writer := some i }
  | acquire (i : Nat) (w : WriteCall) (hw : s.writes[i]? = some w) (hpc : w.pc = .announced)
      (hreaders : ∀ c ∈ s.handles, c.pc.reading = false) :
      Moves cap s (.acquire i) (s.setWrite i .holding)
  | body (i : Nat) (w : WriteCall) (hw : s.writes[i]? = some w) (hpc : w.pc = .holding) :
      Moves cap s (.body i) { (s.perform w.op).setWrite i .returned with writer := none }

variable {cap : Nat} {s s' : Bus} {a : BusAction}

/-- The steps of a call to `HandleEvent`. -/
theorem stepHandle_moves {i : Nat} {c : HandleCall} (hc : s.handles[i]? = some c)
    (h : s.stepHandle cap i c a = some s')
    (ha : a ∈ [.check i, .rlock i, .send i, .block i, .giveUp i, .poll i, .finish i]) :
    Moves cap s a s' := by
  simp only [mem_cons, not_mem_nil, or_false] at ha
  rcases ha with rfl | rfl | rfl | rfl | rfl | rfl | rfl <;> simp only [Bus.stepHandle] at h
  · -- check
    split at h
    · rename_i hpc
      split at h
      · exact some.inj h ▸ .accept i c hc hpc
      · exact some.inj h ▸ .refuse i c hc hpc
    · exact nomatch h
  · -- rlock
    split at h
    · rename_i hpc hwriter
      exact some.inj h ▸ .rlock i c hc hpc hwriter
    · exact nomatch h
  · -- send
    split at h
    · rename_i x todo blocked hpc
      split at h
      · rename_i sub hsub
        split at h
        · exact nomatch h
        · exact some.inj h ▸ .send i c hc x todo blocked hpc sub hsub
      · exact nomatch h
    · exact nomatch h
  · -- block
    split at h
    · rename_i x todo hpc
      split at h
      · split at h
        · exact some.inj h ▸ .block i c hc x todo hpc
        · exact nomatch h
      · exact nomatch h
    · exact nomatch h
  · -- giveUp
    split at h
    · rename_i x todo hpc
      split at h
      · rename_i sub hsub
        split at h
        · rename_i hgive
          exact some.inj h ▸ .giveUp i c hc x todo hpc sub hsub (by simpa using hgive)
        · exact nomatch h
      · exact nomatch h
    · exact nomatch h
  · -- poll
    split at h
    · split at h
      · exact nomatch h
      · exact some.inj h ▸ .poll i
    · exact nomatch h
  · -- finish
    split at h
    · rename_i blocked hpc
      exact some.inj h ▸ .finish i c hc blocked hpc
    · exact nomatch h

/-- The steps of a writing call. -/
theorem stepWrite_moves {i : Nat} {w : WriteCall} (hw : s.writes[i]? = some w)
    (h : s.stepWrite i w a = some s') (ha : a ∈ [.prepare i, .announce i, .acquire i, .body i]) :
    Moves cap s a s' := by
  simp only [mem_cons, not_mem_nil, or_false] at ha
  rcases ha with rfl | rfl | rfl | rfl <;> simp only [Bus.stepWrite] at h <;> split at h
  · rename_i hpc
    exact some.inj h ▸ .prepare i w hw hpc
  · exact nomatch h
  · rename_i hguard
    exact some.inj h ▸ .announce i w hw hguard.1 hguard.2
  · exact nomatch h
  · rename_i hguard
    exact some.inj h ▸ .acquire i w hw hguard.1 (by simpa using hguard.2)
  · exact nomatch h
  · rename_i hpc
    exact some.inj h ▸ .body i w hw hpc
  · exact nomatch h

/-- Every step is one of the moves. -/
theorem act_moves (h : s.act cap a = some s') : Moves cap s a s' := by
  have hhandle : ∀ {i b}, (s.handles[i]?.bind fun c => s.stepHandle cap i c b) = some s' →
      b ∈ [.check i, .rlock i, .send i, .block i, .giveUp i, .poll i, .finish i] →
      Moves cap s b s' := by
    intro i b hb hmem
    obtain ⟨c, hc, hstep⟩ := bind_eq_some_iff.mp hb
    exact stepHandle_moves hc hstep hmem
  have hwrite : ∀ {i b}, (s.writes[i]?.bind fun w => s.stepWrite i w b) = some s' →
      b ∈ [.prepare i, .announce i, .acquire i, .body i] → Moves cap s b s' := by
    intro i b hb hmem
    obtain ⟨w, hw, hstep⟩ := bind_eq_some_iff.mp hb
    exact stepWrite_moves hw hstep hmem
  -- the calls of the clients here, the steps of a call by the two lemmas
  cases a with
  | callHandle producer event =>
    simp only [Bus.act] at h
    split at h
    · rename_i hall
      refine some.inj h ▸ .callHandle producer event ?_
      intro c hc hp
      have := all_eq_true.mp hall c hc
      simpa [hp] using this
    · exact nomatch h
  | callSubscribe kind => exact some.inj h ▸ .callSubscribe kind
  | callUnsubscribe x =>
    simp only [Bus.act] at h
    split at h
    · rename_i hx
      exact some.inj h ▸ .callUnsubscribe x hx
    · exact nomatch h
  | callShutdown => exact some.inj h ▸ .callShutdown
  | stop x =>
    simp only [Bus.act] at h
    split at h
    · rename_i sub hsub
      split at h
      · rename_i hunsub
        exact some.inj h ▸ .stop x sub hsub (isSome_iff_ne_none.mp hunsub)
      · exact nomatch h
    · exact nomatch h
  | receive x =>
    simp only [Bus.act] at h
    split at h
    · rename_i sub hsub
      split at h
      · rename_i hguard
        exact some.inj h ▸ .receive x sub hsub (by simp_all)
      · exact nomatch h
    · exact nomatch h
  | check i => exact hhandle h (by simp)
  | rlock i => exact hhandle h (by simp)
  | send i => exact hhandle h (by simp)
  | block i => exact hhandle h (by simp)
  | giveUp i => exact hhandle h (by simp)
  | poll i => exact hhandle h (by simp)
  | finish i => exact hhandle h (by simp)
  | prepare i => exact hwrite h (by simp)
  | announce i => exact hwrite h (by simp)
  | acquire i => exact hwrite h (by simp)
  | body i => exact hwrite h (by simp)

theorem step_moves (h : s.step cap a = some s') : ∃ t, Moves cap s a t ∧ s' = t.tick := by
  obtain ⟨t, ht, rfl⟩ := map_eq_some_iff.mp h
  exact ⟨t, act_moves ht, rfl⟩

/-! ### What a writer changes -/

namespace Bus

/-- Under the lock a call changes the subscribers and the two collections only. -/
theorem perform_eq (s : Bus) (op : WriteOp) :
    s.perform op = { s with
      globalSubs := (s.perform op).globalSubs
      tableSubs := (s.perform op).tableSubs
      subs := (s.perform op).subs } := by
  cases op with
  | subscribe kind => cases kind <;> rfl
  | unsubscribe x =>
    simp only [perform, removeSubscriber]
    split
    · rfl
    · split <;> rfl
  | shutdown => rfl

@[simp] theorem perform_writes (s : Bus) (op : WriteOp) : (s.perform op).writes = s.writes := by
  rw [perform_eq]

@[simp] theorem perform_handles (s : Bus) (op : WriteOp) : (s.perform op).handles = s.handles := by
  rw [perform_eq]

@[simp] theorem perform_closed (s : Bus) (op : WriteOp) : (s.perform op).closed = s.closed := by
  rw [perform_eq]

/-- Nothing begins. -/
@[simp] theorem perform_shutdownBegan (s : Bus) (op : WriteOp) :
    (s.perform op).shutdownBegan = s.shutdownBegan := by
  rw [perform_eq]

@[simp] theorem perform_time (s : Bus) (op : WriteOp) : (s.perform op).time = s.time := by
  rw [perform_eq]

theorem perform_subscribe_subs (s : Bus) (kind : Kind) :
    (s.perform (.subscribe kind)).subs = s.subs ++ [newSubscriber kind s.time] := by
  cases kind <;> rfl

theorem perform_unsubscribe_subs (s : Bus) (x : Nat) :
    (s.perform (.unsubscribe x)).subs =
      s.subs.modify x fun sub => { sub with live := false } := by
  simp only [perform, removeSubscriber]
  split
  · rename_i hnone
    exact (modify_eq_self (getElem?_eq_none_iff.mp hnone)).symm
  · split <;> rfl

theorem perform_shutdown_subs {s : Bus} {x : Nat} {sub : Subscriber} :
    (s.perform .shutdown).subs[x]? = some sub ↔ ∃ old, s.subs[x]? = some old ∧
      (if x ∈ s.listed then { old with chClosed := true, live := false } else old) = sub := by
  simp only [perform, closeAll, getElem?_mapIdx, map_eq_some_iff]

end Bus

/-! ### The lock -/

/-- The announced writer is the one the lock knows of, and a writer that holds the lock is alone. -/
structure LockAt (writes : List WriteCall) (writer : Option Nat) (handles : List HandleCall) :
    Prop where
  owner : ∀ (i : Nat) (w : WriteCall), writes[i]? = some w →
    ((w.pc = .announced ∨ w.pc = .holding) ↔ writer = some i)
  known : ∀ i, writer = some i → ∃ w, writes[i]? = some w
  exclusive : ∀ (i : Nat) (w : WriteCall), writes[i]? = some w → w.pc = .holding →
    ∀ c ∈ handles, c.pc.reading = false

abbrev Bus.Lock (s : Bus) : Prop := LockAt s.writes s.writer s.handles

namespace LockAt

variable {writes : List WriteCall} {writer : Option Nat} {handles : List HandleCall}

theorem init : LockAt [] none [] := ⟨by simp, by simp, by simp⟩

variable {i : Nat} {w : WriteCall}

/-- While no writer is announced nobody holds the write lock. -/
theorem not_holding (h : LockAt writes none handles) (hw : writes[i]? = some w) : w.pc ≠ .holding :=
  fun hpc => absurd ((h.owner i w hw).mp (.inr hpc)) (by simp)

theorem callHandle (h : LockAt writes writer handles) (c : HandleCall) (hc : c.pc.reading = false) :
    LockAt writes writer (handles ++ [c]) := by
  refine ⟨h.owner, h.known, ?_⟩
  intro i w hw hpc d hd
  rcases mem_append.mp hd with hd | hd
  · exact h.exclusive i w hw hpc d hd
  · rw [mem_singleton.mp hd]
    exact hc

/-- A call to `HandleEvent` that moves on, and starts to read only when there is no writer. -/
theorem setHandle (h : LockAt writes writer handles) {c : HandleCall} (hc : handles[i]? = some c)
    {pc : HandlePc} (hpc : pc.reading = true → c.pc.reading = true ∨ writer = none) :
    LockAt writes writer (handles.modify i fun c => { c with pc := pc }) := by
  refine ⟨h.owner, h.known, ?_⟩
  intro j w hw hhold d hd
  obtain ⟨k, hk⟩ := mem_iff_getElem?.mp hd
  obtain ⟨e, he, rfl⟩ := getElem?_modify_eq_some.mp hk
  split
  · -- the call itself
    rename_i hik
    subst hik
    obtain rfl := some.inj (hc.symm.trans he)
    have hnot := h.exclusive j w hw hhold c (mem_of_getElem? he)
    rw [← Bool.not_eq_true]
    intro hreading
    rcases hpc hreading with hold | hnone
    · exact absurd (hnot.symm.trans hold) (by simp)
    · subst hnone
      exact h.not_holding hw hhold
  · exact h.exclusive j w hw hhold e (mem_of_getElem? he)

/-- A writing call begins, outside the lock. -/
theorem callWrite (h : LockAt writes writer handles) (op : WriteOp) :
    LockAt (writes ++ [⟨op, .start⟩]) writer handles := by
  constructor
  · intro i w hw
    rcases getElem?_concat_eq_some.mp hw with hw | ⟨rfl, rfl⟩
    · exact h.owner i w hw
    · constructor
      · rintro (hpc | hpc) <;> exact absurd hpc (by simp)
      · -- the lock cannot know of a call that was not there
        intro hwriter
        obtain ⟨w, hw⟩ := h.known _ hwriter
        exact absurd (getElem?_lt_length hw) (by omega)
  · intro i hi
    obtain ⟨w, hw⟩ := h.known i hi
    exact ⟨w, getElem?_concat_eq_some.mpr (.inl hw)⟩
  · intro i w hw hpc
    rcases getElem?_concat_eq_some.mp hw with hw | ⟨-, rfl⟩
    · exact h.exclusive i w hw hpc
    · exact absurd hpc (by simp)

/-- A writer that moves on, and with it perhaps the lock. -/
theorem setWrite (h : LockAt writes writer handles) (hw : writes[i]? = some w) {pc : WritePc}
    {writer' : Option Nat} (hself : (pc = .announced ∨ pc = .holding) ↔ writer' = some i)
    (hother : ∀ j, j ≠ i → (writer' = some j ↔ writer = some j))
    (hhold : pc = .holding → ∀ c ∈ handles, c.pc.reading = false) :
    LockAt (writes.modify i fun w => { w with pc := pc }) writer' handles := by
  constructor
  · intro j v hv
    obtain ⟨u, hu, rfl⟩ := getElem?_modify_eq_some.mp hv
    by_cases hij : i = j
    · rw [if_pos hij, ← hij]
      exact hself
    · rw [if_neg hij, hother j (Ne.symm hij)]
      exact h.owner j u hu
  · intro j hj
    by_cases hij : i = j
    · exact ⟨_, getElem?_modify_eq_some.mpr ⟨w, hij ▸ hw, rfl⟩⟩
    · obtain ⟨u, hu⟩ := h.known j ((hother j (Ne.symm hij)).mp hj)
      exact ⟨_, getElem?_modify_eq_some.mpr ⟨u, hu, rfl⟩⟩
  · intro j v hv hpc
    obtain ⟨u, hu, rfl⟩ := getElem?_modify_eq_some.mp hv
    by_cases hij : i = j
    · rw [if_pos hij] at hpc
      exact hhold hpc
    · rw [if_neg hij] at hpc
      exact h.exclusive j u hu hpc

/-- A call that is not in `Lock` and does not hold the lock is not the announced writer. -/
theorem not_writer (h : LockAt writes writer handles) (hw : writes[i]? = some w)
    (hpc : w.pc = .start ∨ w.pc = .waiting ∨ w.pc = .returned) : writer ≠ some i := by
  intro hwriter
  rcases (h.owner i w hw).mpr hwriter with h' | h' <;>
    rcases hpc with hpc | hpc | hpc <;> rw [hpc] at h' <;> exact absurd h' (by simp)

/-- A writer that moves on outside the lock. -/
theorem setWrite_outside (h : LockAt writes writer handles) (hw : writes[i]? = some w)
    (hpc : w.pc = .start) {pc : WritePc} (hpc' : pc = .waiting ∨ pc = .returned) :
    LockAt (writes.modify i fun w => { w with pc := pc }) writer handles := by
  have hnot := h.not_writer hw (.inl hpc)
  apply h.setWrite hw
  · rcases hpc' with rfl | rfl <;> simp [hnot]
  · exact fun j _ => Iff.rfl
  · rcases hpc' with rfl | rfl <;> simp

end LockAt

/-- Every move keeps the account of the lock. -/
theorem Bus.Lock.moves {t : Bus} (h : s.Lock) (hmoves : Moves cap s a t) : t.Lock := by
  cases hmoves with
  | callHandle producer event hidle => exact LockAt.callHandle h _ rfl
  | callSubscribe kind => exact LockAt.callWrite h _
  | callUnsubscribe x hx => exact LockAt.callWrite h _
  | callShutdown => exact LockAt.callWrite h _
  | stop x sub hsub hunsub => exact h
  | receive x sub hsub hbuf => exact h
  | refuse i c hc hpc => exact LockAt.setHandle h hc (by simp [HandlePc.reading])
  | accept i c hc hpc => exact LockAt.setHandle h hc (by simp [HandlePc.reading])
  | rlock i c hc hpc hwriter => exact LockAt.setHandle h hc fun _ => .inr hwriter
  | send i c hc x todo blocked hpc sub hsub =>
    exact LockAt.setHandle h hc fun _ => .inl (by simp [hpc, HandlePc.reading])
  | block i c hc x todo hpc =>
    exact LockAt.setHandle h hc fun _ => .inl (by simp [hpc, HandlePc.reading])
  | giveUp i c hc x todo hpc sub hsub hgive =>
    exact LockAt.setHandle h hc fun _ => .inl (by simp [hpc, HandlePc.reading])
  | poll i => exact h
  | finish i c hc blocked hpc => exact LockAt.setHandle h hc (by simp [HandlePc.reading])
  | prepare i w hw hpc =>
    cases hop : w.op with
    | subscribe kind => exact LockAt.setWrite_outside h hw hpc (.inl rfl)
    | unsubscribe x => exact LockAt.setWrite_outside h hw hpc (.inl rfl)
    | shutdown =>
      simp only [Bus.prepareOp]
      split
      · exact LockAt.setWrite_outside h hw hpc (.inr rfl)
      · exact LockAt.setWrite_outside h hw hpc (.inl rfl)
  | announce i w hw hpc hwriter =>
    apply LockAt.setWrite h hw
    · simp
    · intro j hj
      rw [hwriter]
      simp [Ne.symm hj]
    · simp
  | acquire i w hw hpc hreaders =>
    have hwriter := (h.owner i w hw).mp (.inl hpc)
    apply LockAt.setWrite h hw
    · exact ⟨fun _ => hwriter, fun _ => .inr rfl⟩
    · exact fun j _ => Iff.rfl
    · exact fun _ => hreaders
  | body i w hw hpc =>
    -- the body leaves the calls alone and releases the lock
    have hwriter := (h.owner i w hw).mp (.inr hpc)
    show LockAt ((s.perform w.op).writes.modify i _) none (s.perform w.op).handles
    rw [Bus.perform_writes, Bus.perform_handles]
    apply LockAt.setWrite h hw
    · simp
    · intro j hj
      rw [hwriter]
      simp [Ne.symm hj]
    · simp

/-! ### Calls that have begun -/

/-- What has been undone about a subscriber was undone by a call that has begun, and every moment
    it remembers is past. -/
structure SubBegun (now : Nat) (shutdownBegan : Option Nat) (sub : Subscriber) : Prop where
  done_began : sub.done = true → sub.unsubBegan ≠ none
  gone_began : sub.live = false → sub.unsubBegan ≠ none ∨ shutdownBegan ≠ none
  subscribed_lt : sub.subscribedAt < now
  unsub_lt : ∀ u, sub.unsubBegan = some u → u < now

/-- What has begun stays begun. -/
theorem SubBegun.later {now now' : Nat} {sd sd' : Option Nat} {sub : Subscriber}
    (h : SubBegun now sd sub) (hnow : now ≤ now') (hsd : sd ≠ none → sd' ≠ none) :
    SubBegun now' sd' sub where
  done_began := h.done_began
  gone_began hgone := (h.gone_began hgone).imp_right hsd
  subscribed_lt := Nat.lt_of_lt_of_le h.subscribed_lt hnow
  unsub_lt u hu := Nat.lt_of_lt_of_le (h.unsub_lt u hu) hnow

/-- The beginning of a writing call is on record. -/
def OpBegun (shutdownBegan : Option Nat) (subs : List Subscriber) : WriteOp → Prop
  | .subscribe _ => True
  | .unsubscribe x => ∃ sub, subs[x]? = some sub ∧ sub.unsubBegan ≠ none
  | .shutdown => shutdownBegan ≠ none

/-- The beginnings on record in `subs` are in `subs'` as well. -/
def KeepsBegun (subs subs' : List Subscriber) : Prop :=
  ∀ (x : Nat) (sub : Subscriber), subs[x]? = some sub → sub.unsubBegan ≠ none →
    ∃ sub', subs'[x]? = some sub' ∧ sub'.unsubBegan ≠ none

theorem KeepsBegun.rfl {subs : List Subscriber} : KeepsBegun subs subs :=
  fun _ sub hsub hne => ⟨sub, hsub, hne⟩

theorem KeepsBegun.modify {subs : List Subscriber} (x : Nat) {f : Subscriber → Subscriber}
    (hf : ∀ sub, sub.unsubBegan ≠ none → (f sub).unsubBegan ≠ none) :
    KeepsBegun subs (subs.modify x f) := by
  intro y sub hsub hne
  refine ⟨_, getElem?_modify_eq_some.mpr ⟨sub, hsub, by rfl⟩, ?_⟩
  split
  · exact hf sub hne
  · exact hne

theorem OpBegun.keep {sd sd' : Option Nat} {subs subs' : List Subscriber} {op : WriteOp}
    (h : OpBegun sd subs op) (hsd : sd ≠ none → sd' ≠ none) (hsubs : KeepsBegun subs subs') :
    OpBegun sd' subs' op := by
  cases op with
  | subscribe kind => exact trivial
  | unsubscribe x =>
    obtain ⟨sub, hsub, hne⟩ := h
    exact hsubs x sub hsub hne
  | shutdown => exact hsd h

/-- All of the service: its flag, its subscribers and its calls. -/
structure BegunAt (now : Nat) (closed : Bool) (shutdownBegan : Option Nat)
    (subs : List Subscriber) (writes : List WriteCall) : Prop where
  closed_began : closed = true → shutdownBegan ≠ none
  shutdown_lt : ∀ u, shutdownBegan = some u → u < now
  subs_begun : ∀ sub ∈ subs, SubBegun now shutdownBegan sub
  ops_begun : ∀ w ∈ writes, OpBegun shutdownBegan subs w.op

abbrev Bus.Begun (s : Bus) : Prop := BegunAt s.time s.closed s.shutdownBegan s.subs s.writes

namespace BegunAt

variable {now : Nat} {closed : Bool} {sd : Option Nat} {subs : List Subscriber}
  {writes : List WriteCall}

theorem init : BegunAt 0 false none [] [] := ⟨by simp, by simp, by simp, by simp⟩

/-- A moment passes. -/
theorem later (h : BegunAt now closed sd subs writes) :
    BegunAt (now + 1) closed sd subs writes where
  closed_began := h.closed_began
  shutdown_lt u hu := Nat.lt_succ_of_lt (h.shutdown_lt u hu)
  subs_begun sub hsub := (h.subs_begun sub hsub).later (Nat.le_succ now) id
  ops_begun := h.ops_begun

theorem callWrite (h : BegunAt now closed sd subs writes) {op : WriteOp}
    (hop : OpBegun sd subs op) :
    BegunAt now closed sd subs (writes ++ [⟨op, .start⟩]) :=
  { h with ops_begun := forall_mem_concat h.ops_begun hop }

/-- A writing call moves on. -/
theorem setWrite (h : BegunAt now closed sd subs writes) (i : Nat) (pc : WritePc) :
    BegunAt now closed sd subs (writes.modify i fun w => { w with pc := pc }) :=
  { h with ops_begun := forall_mem_modify h.ops_begun fun _ _ hw => hw }

/-- A subscriber changes. -/
theorem setSub (h : BegunAt now closed sd subs writes) (x : Nat) {f : Subscriber → Subscriber}
    (hf : ∀ sub, subs[x]? = some sub → SubBegun now sd sub → SubBegun now sd (f sub))
    (hkeep : ∀ sub, sub.unsubBegan ≠ none → (f sub).unsubBegan ≠ none) :
    BegunAt now closed sd (subs.modify x f) writes :=
  { h with
    subs_begun := forall_mem_modify h.subs_begun hf
    ops_begun := fun w hw => (h.ops_begun w hw).keep id (.modify x hkeep) }

/-- A change to a subscriber that concerns none of this. -/
theorem setSub_other (h : BegunAt now closed sd subs writes) (x : Nat)
    {f : Subscriber → Subscriber} (hdone : ∀ sub, (f sub).done = sub.done)
    (hlive : ∀ sub, (f sub).live = sub.live)
    (hat : ∀ sub, (f sub).subscribedAt = sub.subscribedAt)
    (hunsub : ∀ sub, (f sub).unsubBegan = sub.unsubBegan) :
    BegunAt now closed sd (subs.modify x f) writes := by
  apply h.setSub x
  · intro sub _ hsub
    refine ⟨?_, ?_, ?_, ?_⟩
    · rw [hdone, hunsub]
      exact hsub.done_began
    · rw [hlive, hunsub]
      exact hsub.gone_began
    · rw [hat]
      exact hsub.subscribed_lt
    · rw [hunsub]
      exact hsub.unsub_lt
  · intro sub hne
    rw [hunsub]
    exact hne

/-- The unsubscribe of `x` begins. -/
theorem beginUnsubscribe (h : BegunAt now closed sd subs writes) {x : Nat} (hx : x < subs.length) :
    BegunAt (now + 1) closed sd
      (subs.modify x fun sub => { sub with unsubBegan := sub.unsubBegan.or (some now) })
      (writes ++ [⟨.unsubscribe x, .start⟩]) := by
  have hsome : ∀ o : Option Nat, o.or (some now) ≠ none := by
    intro o
    cases o <;> simp
  apply callWrite
  · apply h.later.setSub x
    · intro sub _ hsub
      refine ⟨fun _ => hsome _, fun _ => .inl (hsome _), hsub.subscribed_lt, ?_⟩
      -- the first call counts
      intro u hu
      cases hold : sub.unsubBegan with
      | none =>
        simp only [hold, none_or, some.injEq] at hu
        omega
      | some v =>
        simp only [hold, some_or, some.injEq] at hu
        exact hu ▸ hsub.unsub_lt v hold
    · exact fun sub _ => hsome _
  · refine ⟨_, getElem?_modify_eq_some.mpr ⟨subs[x], getElem?_eq_getElem hx, rfl⟩, ?_⟩
    rw [if_pos rfl]
    exact hsome _

/-- A call to `Shutdown` begins. -/
theorem beginShutdown (h : BegunAt now closed sd subs writes) :
    BegunAt (now + 1) closed (sd.or (some now)) subs (writes ++ [⟨.shutdown, .start⟩]) := by
  have hsome : sd.or (some now) ≠ none := by
    cases sd <;> simp
  refine ⟨fun _ => hsome, ?_, ?_, ?_⟩
  · intro u hu
    cases sd with
    | none =>
      simp only [none_or, some.injEq] at hu
      omega
    | some v =>
      simp only [some_or, some.injEq] at hu
      exact hu ▸ Nat.lt_succ_of_lt (h.shutdown_lt v rfl)
  · exact fun sub hsub => (h.subs_begun sub hsub).later (Nat.le_succ now) fun _ => hsome
  · exact forall_mem_concat (fun w hw => (h.ops_begun w hw).keep (fun _ => hsome) .rfl) hsome

/-- `Subscribe` and `SubscribeAll` -/
theorem addSubscriber (h : BegunAt now closed sd subs writes) (kind : Kind) :
    BegunAt (now + 1) closed sd (subs ++ [newSubscriber kind now]) writes := by
  refine ⟨h.closed_began, h.later.shutdown_lt, ?_, ?_⟩
  · apply forall_mem_concat h.later.subs_begun
    exact ⟨by simp [newSubscriber], by simp [newSubscriber], Nat.lt_succ_self now,
      by simp [newSubscriber]⟩
  · intro w hw
    refine (h.ops_begun w hw).keep id ?_
    exact fun x sub hsub hne => ⟨sub, getElem?_concat_eq_some.mpr (.inl hsub), hne⟩

end BegunAt

/-- What a call does under the lock. -/
theorem Bus.Begun.perform (h : s.Begun) {op : WriteOp} (hop : OpBegun s.shutdownBegan s.subs op) :
    BegunAt (s.time + 1) s.closed s.shutdownBegan (s.perform op).subs s.writes := by
  cases op with
  | subscribe kind =>
    rw [Bus.perform_subscribe_subs]
    exact BegunAt.addSubscriber h kind
  | unsubscribe x =>
    obtain ⟨sub, hsub, hne⟩ := hop
    rw [Bus.perform_unsubscribe_subs]
    apply h.later.setSub x
    · intro sub' hsub' hbegun
      obtain rfl := some.inj (hsub.symm.trans hsub')
      exact ⟨hbegun.done_began, fun _ => .inl hne, hbegun.subscribed_lt, hbegun.unsub_lt⟩
    · exact fun _ hne => hne
  | shutdown =>
    refine ⟨h.closed_began, h.later.shutdown_lt, ?_, ?_⟩
    · intro sub hsub
      obtain ⟨x, hx⟩ := mem_iff_getElem?.mp hsub
      obtain ⟨old, hold, rfl⟩ := Bus.perform_shutdown_subs.mp hx
      have hbegun := h.later.subs_begun old (mem_of_getElem? hold)
      split
      · exact ⟨hbegun.done_began, fun _ => .inr hop, hbegun.subscribed_lt, hbegun.unsub_lt⟩
      · exact hbegun
    · intro w hw
      refine (h.ops_begun w hw).keep id ?_
      intro x sub hsub hne
      refine ⟨_, Bus.perform_shutdown_subs.mpr ⟨sub, hsub, rfl⟩, ?_⟩
      split <;> exact hne

/-- Every move keeps it, one moment later. -/
theorem Bus.Begun.moves {t : Bus} (h : s.Begun) (hmoves : Moves cap s a t) : t.tick.Begun := by
  cases hmoves with
  | callHandle producer event hidle => exact h.later
  | callSubscribe kind => exact h.later.callWrite trivial
  | callUnsubscribe x hx => exact BegunAt.beginUnsubscribe h hx
  | callShutdown => exact BegunAt.beginShutdown h
  | stop x sub hsub hunsub =>
    exact h.later.setSub_other x (fun _ => rfl) (fun _ => rfl) (fun _ => rfl) (fun _ => rfl)
  | receive x sub hsub hbuf =>
    exact h.later.setSub_other x (fun _ => rfl) (fun _ => rfl) (fun _ => rfl) (fun _ => rfl)
  | refuse i c hc hpc => exact h.later
  | accept i c hc hpc => exact h.later
  | rlock i c hc hpc hwriter => exact h.later
  | send i c hc x todo blocked hpc sub hsub =>
    exact h.later.setSub_other x (fun _ => rfl) (fun _ => rfl) (fun _ => rfl) (fun _ => rfl)
  | block i c hc x todo hpc => exact h.later
  | giveUp i c hc x todo hpc sub hsub hgive => exact h.later
  | poll i => exact h.later
  | finish i c hc blocked hpc => exact h.later
  | prepare i w hw hpc =>
    have hop := h.ops_begun w (mem_of_getElem? hw)
    cases hw' : w.op with
    | subscribe kind => exact h.later.setWrite i .waiting
    | unsubscribe x =>
      rw [hw'] at hop
      -- `done` is closed by an unsubscribe that has begun
      obtain ⟨sub, hsub, hne⟩ := hop
      apply BegunAt.setWrite
      apply h.later.setSub x
      · intro sub' hsub' hbegun
        obtain rfl := some.inj (hsub.symm.trans hsub')
        exact ⟨fun _ => hne, hbegun.gone_began, hbegun.subscribed_lt, hbegun.unsub_lt⟩
      · exact fun _ hne => hne
    | shutdown =>
      rw [hw'] at hop
      -- only the first `Shutdown` sets `closed`
      simp only [Bus.prepareOp]
      split
      · exact h.later.setWrite i .returned
      · exact { h.later.setWrite i .waiting with closed_began := fun _ => hop }
  | announce i w hw hpc hwriter => exact h.later.setWrite i .announced
  | acquire i w hw hpc hreaders => exact h.later.setWrite i .holding
  | body i w hw hpc =>
    have hop := h.ops_begun w (mem_of_getElem? hw)
    have hperf := (Bus.Begun.perform h hop).setWrite i .returned
    show BegunAt ((s.perform w.op).time + 1) (s.perform w.op).closed (s.perform w.op).shutdownBegan
      (s.perform w.op).subs ((s.perform w.op).writes.modify i _)
    rw [Bus.perform_time, Bus.perform_closed, Bus.perform_shutdownBegan, Bus.perform_writes]
    exact hperf

end Cdc
