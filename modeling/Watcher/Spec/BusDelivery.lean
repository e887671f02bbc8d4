import Watcher.Spec.BusRegistry

/-!
# The bus delivers exactly once, in order

For a call to `HandleEvent` and a subscriber the invariant counts the sends
that were made and those still to be made together (`PairAt`): the sum is at
most one, it is zero where the event is not for the subscriber, and it is one
where the subscriber was there before the call and nobody has begun to take it
away.

The order of a producer's events in a channel is the order of its calls, since
an earlier call of the same producer has returned before a later one begins.

A subscription to the empty table name gets nothing, not even an event without
a table name: `HandleEvent` looks for table subscribers only when the event
names a table (`unnamed_table_unserved`).
-/

namespace Cdc

open Run List Option

/-- How often the call `i` has sent to the subscriber. -/
def Subscriber.sentBy (i : Nat) (sub : Subscriber) : Nat := sub.sent.countP (·.call == i)

/-- How often a call is still going to turn to the subscriber `x`. -/
def HandlePc.pending (x : Nat) : HandlePc → Nat
  | .delivering todo _ => todo.count x
  | _ => 0

/-- The event has been accepted. -/
def HandlePc.accepted : HandlePc → Bool
  | .delivering _ _ | .returned true _ => true
  | _ => false

/-- What began at `began`, if it has begun, was no concern of the call so far. -/
def HandlePc.undisturbed : HandlePc → Option Nat → Prop
  | .returned _ ended, began => ∀ u, began = some u → ended < u
  | _, began => began = none

/-- A call and a subscriber. -/
structure PairAt (shutdownBegan : Option Nat) (i x : Nat) (c : HandleCall) (sub : Subscriber) :
    Prop where
  idle : c.pc.accepted = false → sub.sentBy i = 0
  unwanted : sub.kind.wants c.event = false → sub.sentBy i + c.pc.pending x = 0
  once : sub.sentBy i + c.pc.pending x ≤ 1
  served : c.pc.accepted = true → sub.kind.wants c.event = true → sub.subscribedAt < c.began →
    c.pc.undisturbed sub.unsubBegan → c.pc.undisturbed shutdownBegan →
    sub.sentBy i + c.pc.pending x = 1

namespace PairAt

variable {sd : Option Nat} {i x : Nat} {c : HandleCall} {sub sub' : Subscriber}

/-- A call that has accepted the event moves on and all that was counted still counts. -/
theorem transfer {pc : HandlePc} (h : PairAt sd i x c sub) (hacc : c.pc.accepted = true)
    (hacc' : pc.accepted = true)
    (hcount : sub'.sentBy i + pc.pending x = sub.sentBy i + c.pc.pending x)
    (hkind : sub'.kind = sub.kind) (hat : sub'.subscribedAt = sub.subscribedAt)
    (hquiet : pc.undisturbed sub'.unsubBegan → c.pc.undisturbed sub.unsubBegan)
    (hopen : pc.undisturbed sd → c.pc.undisturbed sd) :
    PairAt sd i x { c with pc := pc } sub' := by
  constructor
  · intro hidle
    exact absurd (hidle.symm.trans hacc') (by simp)
  · intro hwants
    rw [hcount]
    exact h.unwanted (hkind ▸ hwants)
  · rw [hcount]
    exact h.once
  · intro _ hwants hbegan hunsub hsd
    rw [hcount]
    exact h.served hacc (hkind ▸ hwants) (hat ▸ hbegan) (hquiet hunsub) (hopen hsd)

/-- A change to the subscriber that is none of the call's business. -/
theorem setSub (h : PairAt sd i x c sub) (hsent : sub'.sentBy i = sub.sentBy i)
    (hkind : sub'.kind = sub.kind) (hat : sub'.subscribedAt = sub.subscribedAt)
    (hunsub : c.pc.undisturbed sub'.unsubBegan → c.pc.undisturbed sub.unsubBegan) :
    PairAt sd i x c sub' := by
  constructor
  · rw [hsent]
    exact h.idle
  · rw [hsent, hkind]
    exact h.unwanted
  · rw [hsent]
    exact h.once
  · intro hacc hwants hbegan hquiet hsd
    rw [hsent]
    exact h.served hacc (hkind ▸ hwants) (hat ▸ hbegan) (hunsub hquiet) hsd

/-- A call that has not accepted the event moves on. -/
theorem setIdle {pc : HandlePc} (h : PairAt sd i x c sub) (hacc : c.pc.accepted = false)
    (hacc' : pc.accepted = false) (hpending' : pc.pending x = 0) :
    PairAt sd i x { c with pc := pc } sub := by
  have hnone := h.idle hacc
  refine ⟨fun _ => hnone, fun _ => ?_, ?_, ?_⟩
  · show sub.sentBy i + pc.pending x = 0
    omega
  · show sub.sentBy i + pc.pending x ≤ 1
    omega
  · intro hacc''
    exact absurd (hacc'.symm.trans hacc'') (by simp)

end PairAt

/-! ### Every call and every subscriber -/

/-- All pairs, and nobody is turned to who is not there. -/
structure PairsAt (shutdownBegan : Option Nat) (handles : List HandleCall)
    (subs : List Subscriber) : Prop where
  pairs : ∀ (i x : Nat) (c : HandleCall) (sub : Subscriber), handles[i]? = some c →
    subs[x]? = some sub → PairAt shutdownBegan i x c sub
  todo_lt : ∀ (i x : Nat) (c : HandleCall), handles[i]? = some c → c.pc.pending x ≠ 0 →
    x < subs.length

abbrev Bus.Pairs (s : Bus) : Prop := PairsAt s.shutdownBegan s.handles s.subs

/-- Calls are numbered as they begin, and a producer makes one after the other. -/
structure CallsAt (now : Nat) (handles : List HandleCall) : Prop where
  began_lt : ∀ c ∈ handles, c.began < now
  sequential : ∀ (i j : Nat) (c d : HandleCall), i < j → handles[i]? = some c →
    handles[j]? = some d → c.producer = d.producer → c.pc.finished = true

abbrev Bus.Calls (s : Bus) : Prop := CallsAt s.time s.handles

/-- What stays of a call: who made it and with which event. -/
abbrev callers (handles : List HandleCall) : List (Nat × Event) :=
  handles.map fun c => (c.producer, c.event)

/-- What is in the channels was put there by a call, and a producer's events in the order of
    its calls. -/
structure SentAt (callers : List (Nat × Event)) (subs : List Subscriber) : Prop where
  sent_call : ∀ sub ∈ subs, ∀ m ∈ sub.sent, ∃ p, callers[m.call]? = some (p, m.event)
  in_order : ∀ sub ∈ subs, sub.sent.Pairwise fun m m' => ∀ p e e',
    callers[m.call]? = some (p, e) → callers[m'.call]? = some (p, e') → m.call < m'.call

abbrev Bus.SentInOrder (s : Bus) : Prop := SentAt (callers s.handles) s.subs

namespace CallsAt

variable {now : Nat} {handles : List HandleCall}

/-- A moment passes. -/
theorem later (h : CallsAt now handles) : CallsAt (now + 1) handles where
  began_lt c hc := Nat.lt_succ_of_lt (h.began_lt c hc)
  sequential := h.sequential

theorem callHandle (h : CallsAt now handles) {producer : Nat} (event : Event)
    (hidle : ∀ c ∈ handles, c.producer = producer → c.pc.finished = true) :
    CallsAt (now + 1) (handles ++ [⟨producer, event, now, .checking⟩]) := by
  constructor
  · exact forall_mem_concat h.later.began_lt (Nat.lt_succ_self now)
  · intro i j c d hij hc hd hp
    rcases getElem?_concat_eq_some.mp hd with hd | ⟨rfl, rfl⟩
    · rcases getElem?_concat_eq_some.mp hc with hc | ⟨rfl, -⟩
      · exact h.sequential i j c d hij hc hd hp
      · exact absurd (getElem?_lt_length hd) (by omega)
    · rcases getElem?_concat_eq_some.mp hc with hc | ⟨rfl, -⟩
      · exact hidle c (mem_of_getElem? hc) hp
      · exact absurd hij (Nat.lt_irrefl _)

/-- A call that has not returned moves on. -/
theorem setHandle (h : CallsAt now handles) {i : Nat} {c : HandleCall} (hc : handles[i]? = some c)
    (hrunning : c.pc.finished = false) (pc : HandlePc) :
    CallsAt (now + 1) (handles.modify i fun c => { c with pc := pc }) := by
  constructor
  · exact forall_mem_modify h.later.began_lt fun _ _ hb => hb
  · intro j k d e hjk hd he hp
    obtain ⟨d', hd', rfl⟩ := getElem?_modify_eq_some.mp hd
    obtain ⟨e', he', rfl⟩ := getElem?_modify_eq_some.mp he
    have hp' : d'.producer = e'.producer := by
      split at hp <;> split at hp <;> exact hp
    have hfin := h.sequential j k d' e' hjk hd' he' hp'
    split
    · -- a later call of the same producer would have waited for this one
      rename_i hij
      subst hij
      obtain rfl := some.inj (hc.symm.trans hd')
      exact absurd (hrunning.symm.trans hfin) (by simp)
    · exact hfin

end CallsAt

namespace SentAt

variable {calls : List (Nat × Event)} {subs : List Subscriber}

theorem callHandle (h : SentAt calls subs) (call : Nat × Event) :
    SentAt (calls ++ [call]) subs := by
  constructor
  · intro sub hsub m hm
    obtain ⟨p, hp⟩ := h.sent_call sub hsub m hm
    exact ⟨p, getElem?_concat_eq_some.mpr (.inl hp)⟩
  · intro sub hsub
    refine (h.in_order sub hsub).imp_of_mem ?_
    intro m m' hm hm' horder p e e' he he'
    -- both calls were there before
    obtain ⟨q, hq⟩ := h.sent_call sub hsub m hm
    obtain ⟨q', hq'⟩ := h.sent_call sub hsub m' hm'
    rw [getElem?_append_left (getElem?_lt_length hq)] at he
    rw [getElem?_append_left (getElem?_lt_length hq')] at he'
    exact horder p e e' he he'

/-- Subscribers whose channels hold what the channels of others did. -/
theorem of_sent {subs' : List Subscriber} (h : SentAt calls subs)
    (hsent : ∀ sub' ∈ subs', sub'.sent = [] ∨ ∃ sub ∈ subs, sub'.sent = sub.sent) :
    SentAt calls subs' := by
  constructor
  · intro sub' hsub' m hm
    rcases hsent sub' hsub' with hnil | ⟨sub, hsub, heq⟩
    · rw [hnil] at hm
      exact absurd hm (by simp)
    · exact h.sent_call sub hsub m (heq ▸ hm)
  · intro sub' hsub'
    rcases hsent sub' hsub' with hnil | ⟨sub, hsub, heq⟩
    · rw [hnil]
      exact .nil
    · rw [heq]
      exact h.in_order sub hsub

theorem setSub (h : SentAt calls subs) (x : Nat) {f : Subscriber → Subscriber}
    (hf : ∀ sub, (f sub).sent = sub.sent) : SentAt calls (subs.modify x f) := by
  apply h.of_sent
  intro sub' hsub'
  obtain ⟨y, hy⟩ := mem_iff_getElem?.mp hsub'
  obtain ⟨sub, hsub, rfl⟩ := getElem?_modify_eq_some.mp hy
  refine .inr ⟨sub, mem_of_getElem? hsub, ?_⟩
  split
  · exact hf sub
  · rfl

/-- The call `i` sends, and what the subscriber has of the same producer is of earlier calls. -/
theorem send (h : SentAt calls subs) {i x p : Nat} {e : Event} {sub : Subscriber}
    (hcall : calls[i]? = some (p, e)) (hsub : subs[x]? = some sub)
    (hlast : ∀ m ∈ sub.sent, ∀ e', calls[m.call]? = some (p, e') → m.call < i) :
    SentAt calls (subs.modify x fun sub => { sub with sent := sub.sent ++ [⟨i, e⟩] }) := by
  constructor
  · apply forall_mem_modify h.sent_call
    intro sub' _ hold
    exact forall_mem_concat hold ⟨p, hcall⟩
  · apply forall_mem_modify h.in_order
    intro sub' hsub' hold
    obtain rfl := some.inj (hsub.symm.trans hsub')
    rw [pairwise_append]
    refine ⟨hold, pairwise_singleton _ _, ?_⟩
    intro m hm m' hm' q e₁ e₂ he₁ he₂
    rw [mem_singleton.mp hm'] at he₂ ⊢
    obtain ⟨rfl, -⟩ := Prod.mk.inj (some.inj (hcall.symm.trans he₂))
    exact hlast m hm e₁ he₁

end SentAt

/-! ### Sends -/

namespace Subscriber

theorem sentBy_concat (sub : Subscriber) (i j : Nat) (e : Event) :
    ({ sub with sent := sub.sent ++ [⟨i, e⟩] } : Subscriber).sentBy j =
      sub.sentBy j + if i = j then 1 else 0 := by
  simp only [sentBy, countP_append, countP_singleton, beq_iff_eq]

theorem sentBy_eq_zero {sub : Subscriber} {i : Nat} :
    sub.sentBy i = 0 ↔ ∀ m ∈ sub.sent, m.call ≠ i := by
  simp only [sentBy, countP_eq_zero, beq_iff_eq, ne_eq]

end Subscriber

theorem HandlePc.pending_cons (x y : Nat) (todo : List Nat) (blocked blocked' : Bool) :
    (HandlePc.delivering (x :: todo) blocked).pending y =
      (HandlePc.delivering todo blocked').pending y + if x = y then 1 else 0 := by
  simp only [pending, count_cons, beq_iff_eq]

theorem callers_modify (handles : List HandleCall) (i : Nat) (pc : HandlePc) :
    callers (handles.modify i fun c => { c with pc := pc }) = callers handles :=
  map_modify_of_eq fun _ => rfl

namespace PairsAt

variable {sd : Option Nat} {handles : List HandleCall} {subs : List Subscriber}

/-- A call begins. -/
theorem callHandle (h : PairsAt sd handles subs) (hsent : SentAt (callers handles) subs)
    (producer : Nat) (event : Event) (now : Nat) :
    PairsAt sd (handles ++ [⟨producer, event, now, .checking⟩]) subs := by
  constructor
  · intro i x c sub hc hsub
    rcases getElem?_concat_eq_some.mp hc with hc | ⟨rfl, rfl⟩
    · exact h.pairs i x c sub hc hsub
    · -- nobody has got anything from a call that did not exist
      have hnone : sub.sentBy handles.length = 0 := by
        rw [Subscriber.sentBy_eq_zero]
        intro m hm heq
        obtain ⟨p, hp⟩ := hsent.sent_call sub (mem_of_getElem? hsub) m hm
        have := getElem?_lt_length hp
        rw [length_map] at this
        omega
      exact ⟨fun _ => hnone, fun _ => by rw [hnone]; rfl, by rw [hnone]; exact Nat.zero_le 1,
        fun hacc => nomatch hacc⟩
  · intro i x c hc hpending
    rcases getElem?_concat_eq_some.mp hc with hc | ⟨-, rfl⟩
    · exact h.todo_lt i x c hc hpending
    · exact absurd rfl hpending

/-- A call moves on. -/
theorem setHandle (h : PairsAt sd handles subs) {i : Nat} {c : HandleCall}
    (hc : handles[i]? = some c) {pc : HandlePc}
    (hpair : ∀ x sub, subs[x]? = some sub → PairAt sd i x c sub →
      PairAt sd i x { c with pc := pc } sub)
    (htodo : ∀ x, pc.pending x ≠ 0 → x < subs.length) :
    PairsAt sd (handles.modify i fun c => { c with pc := pc }) subs := by
  constructor
  · intro j x d sub hd hsub
    obtain ⟨d', hd', rfl⟩ := getElem?_modify_eq_some.mp hd
    have hold := h.pairs j x d' sub hd' hsub
    split
    · rename_i hij
      subst hij
      obtain rfl := some.inj (hc.symm.trans hd')
      exact hpair x sub hsub hold
    · exact hold
  · intro j x d hd hpending
    obtain ⟨d', hd', rfl⟩ := getElem?_modify_eq_some.mp hd
    split at hpending
    · exact htodo x hpending
    · exact h.todo_lt j x d' hd' hpending

/-- A call that has not accepted its event moves on without accepting it. -/
theorem setIdle (h : PairsAt sd handles subs) {i : Nat} {c : HandleCall} {pc : HandlePc}
    (hc : handles[i]? = some c) (hacc : c.pc.accepted = false) (hacc' : pc.accepted = false)
    (hpending' : ∀ x, pc.pending x = 0) :
    PairsAt sd (handles.modify i fun c => { c with pc := pc }) subs :=
  h.setHandle hc (fun x _ _ hold => hold.setIdle hacc hacc' (hpending' x))
    fun x hne => absurd (hpending' x) hne

/-- A subscriber changes. -/
theorem setSub (h : PairsAt sd handles subs) (x : Nat) {f : Subscriber → Subscriber}
    (hf : ∀ i c sub, handles[i]? = some c → subs[x]? = some sub → PairAt sd i x c sub →
      PairAt sd i x c (f sub)) :
    PairsAt sd handles (subs.modify x f) := by
  constructor
  · intro i y c sub hc hsub
    obtain ⟨old, hold, rfl⟩ := getElem?_modify_eq_some.mp hsub
    have hpair := h.pairs i y c old hc hold
    split
    · rename_i hxy
      subst hxy
      exact hf i c old hc hold hpair
    · exact hpair
  · intro i y c hc hpending
    rw [length_modify]
    exact h.todo_lt i y c hc hpending

/-- A change to a subscriber that concerns none of its deliveries. -/
theorem setSub_other (h : PairsAt sd handles subs) (x : Nat) {f : Subscriber → Subscriber}
    (hsent : ∀ sub, (f sub).sent = sub.sent) (hkind : ∀ sub, (f sub).kind = sub.kind)
    (hat : ∀ sub, (f sub).subscribedAt = sub.subscribedAt)
    (hunsub : ∀ sub, (f sub).unsubBegan = sub.unsubBegan) :
    PairsAt sd handles (subs.modify x f) := by
  apply h.setSub x
  intro i c sub _ _ hold
  apply hold.setSub
  · rw [Subscriber.sentBy, Subscriber.sentBy, hsent]
  · exact hkind sub
  · exact hat sub
  · rw [hunsub]
    exact id

end PairsAt

/-- What has just begun for the first time did not disturb what was before. -/
theorem HandlePc.undisturbed_or {pc : HandlePc} {began : Option Nat} {now : Nat}
    (h : pc.undisturbed (began.or (some now))) : pc.undisturbed began := by
  cases began with
  | some u => exact h
  | none =>
    cases pc with
    | returned accepted ended => exact fun u hu => nomatch hu
    | checking => rfl
    | locking => rfl
    | delivering todo blocked => rfl

namespace PairsAt

variable {sd : Option Nat} {handles : List HandleCall} {subs : List Subscriber}

theorem beginUnsubscribe (h : PairsAt sd handles subs) (x now : Nat) :
    PairsAt sd handles
      (subs.modify x fun sub => { sub with unsubBegan := sub.unsubBegan.or (some now) }) :=
  h.setSub x fun _ _ _ _ _ hold => hold.setSub rfl rfl rfl HandlePc.undisturbed_or

/-- And so when `Shutdown` begins. -/
theorem beginShutdown (h : PairsAt sd handles subs) (now : Nat) :
    PairsAt (sd.or (some now)) handles subs where
  pairs i x c sub hc hsub :=
    have hold := h.pairs i x c sub hc hsub
    { hold with
      served := fun hacc hwants hbegan hunsub hquiet =>
        hold.served hacc hwants hbegan hunsub (HandlePc.undisturbed_or hquiet) }
  todo_lt := h.todo_lt

/-- A subscriber that comes now was not there when the calls began. -/
theorem addSubscriber {now : Nat} (h : PairsAt sd handles subs) (hcalls : CallsAt now handles)
    (kind : Kind) : PairsAt sd handles (subs ++ [newSubscriber kind now]) := by
  constructor
  · intro i x c sub hc hsub
    rcases getElem?_concat_eq_some.mp hsub with hsub | ⟨rfl, rfl⟩
    · exact h.pairs i x c sub hc hsub
    -- no call knows of it
    · have hpending : c.pc.pending subs.length = 0 := by
        by_contra hne
        exact absurd (h.todo_lt i _ c hc hne) (Nat.lt_irrefl _)
      have hzero : (newSubscriber kind now).sentBy i + c.pc.pending subs.length = 0 := by
        rw [hpending]
        rfl
      refine ⟨fun _ => rfl, fun _ => hzero, by omega, ?_⟩
      intro _ _ hbegan
      have := hcalls.began_lt c (mem_of_getElem? hc)
      exact absurd hbegan (Nat.lt_asymm this)
  · intro i x c hc hpending
    rw [length_append]
    exact Nat.lt_add_right _ (h.todo_lt i x c hc hpending)

/-- `deliver` puts the event into the channel of the subscriber whose turn it is. -/
theorem send (h : PairsAt sd handles subs) {i x : Nat} {c : HandleCall} {todo : List Nat}
    {blocked : Bool} (hc : handles[i]? = some c) (hpc : c.pc = .delivering (x :: todo) blocked) :
    PairsAt sd (handles.modify i fun c => { c with pc := .delivering todo false })
      (subs.modify x fun sub => { sub with sent := sub.sent ++ [⟨i, c.event⟩] }) := by
  constructor
  · intro j y d sub hd hsub
    obtain ⟨d', hd', rfl⟩ := getElem?_modify_eq_some.mp hd
    obtain ⟨old, hold, rfl⟩ := getElem?_modify_eq_some.mp hsub
    have hpair := h.pairs j y d' old hd' hold
    by_cases hij : i = j
    · -- for this call, one less is pending at `x` and one more is sent
      subst hij
      obtain rfl := some.inj (hc.symm.trans hd')
      rw [if_pos rfl]
      have hcount := HandlePc.pending_cons x y todo blocked false
      apply hpair.transfer (by rw [hpc]; rfl) rfl
      · rw [hpc, hcount]
        split
        · rw [Subscriber.sentBy_concat, if_pos rfl]
          omega
        · omega
      · split <;> rfl
      · split <;> rfl
      · rw [hpc]
        split <;> exact id
      · rw [hpc]
        exact id
    · -- for the others, `x` has one more message that is not theirs
      rw [if_neg hij]
      split
      · refine hpair.setSub ?_ rfl rfl id
        rw [Subscriber.sentBy_concat, if_neg hij, Nat.add_zero]
      · exact hpair
  · intro j y d hd hpending
    rw [length_modify]
    obtain ⟨d', hd', rfl⟩ := getElem?_modify_eq_some.mp hd
    split at hpending
    · apply h.todo_lt i y c hc
      rw [hpc, HandlePc.pending_cons x y todo blocked false]
      exact Nat.ne_of_gt (Nat.add_pos_left (Nat.pos_of_ne_zero hpending) _)
    · exact h.todo_lt j y d' hd' hpending

end PairsAt

/-! ### Whole runs -/

/-- The invariant of the deliveries. -/
structure Bus.Delivery (s : Bus) : Prop where
  registry : s.Registry
  begun : s.Begun
  calls : s.Calls
  sent : s.SentInOrder
  pairs : s.Pairs

namespace Bus.Delivery

variable {cap : Nat} {s t : Bus} {a : BusAction}

/-- At the start there is nothing. -/
theorem init : newService.Delivery where
  registry := .init
  begun := .init
  calls := ⟨by simp [newService], by simp [newService]⟩
  sent := ⟨by simp [newService], by simp [newService]⟩
  pairs := ⟨by simp [newService], by simp [newService]⟩

/-- Nobody is disturbed by what begins later than now. -/
theorem quiet_of_ended {now : Nat} {accepted : Bool} {began : Option Nat}
    (hlt : ∀ u, began = some u → u < now)
    (h : (HandlePc.returned accepted now).undisturbed began) : began = none := by
  cases began with
  | none => rfl
  | some u => exact absurd (h u rfl) (Nat.lt_asymm (hlt u rfl))

/-- The read lock is taken: exactly the live subscribers that want the event are to be served. -/
theorem pairs_rlock (h : s.Delivery) {i : Nat} {c : HandleCall} (hc : s.handles[i]? = some c)
    (hpc : c.pc = .locking) : (s.setHandle i (.delivering (s.targets c.event) false)).Pairs := by
  apply PairsAt.setHandle h.pairs hc
  · intro x sub hsub hold
    have hzero : sub.sentBy i = 0 := hold.idle (by rw [hpc]; rfl)
    have hle : (s.targets c.event).count x ≤ 1 :=
      nodup_iff_count_le_one.mp (nodup_targets h.registry c.event) x
    constructor
    · intro hidle
      exact nomatch hidle
    · intro hwants
      show sub.sentBy i + (s.targets c.event).count x = 0
      rw [hzero, Nat.zero_add, count_eq_zero]
      intro hx
      obtain ⟨sub', hsub', -, hwants'⟩ := (mem_targets h.registry).mp hx
      obtain rfl := some.inj (hsub.symm.trans hsub')
      exact absurd (hwants.symm.trans hwants') (by simp)
    · show sub.sentBy i + (s.targets c.event).count x ≤ 1
      omega
    · intro _ hwants _ hunsub hopen
      -- the subscriber is live, since nothing has begun that would take it away
      have hlive : sub.live = true := by
        by_contra hgone
        rw [Bool.not_eq_true] at hgone
        rcases (h.begun.subs_begun sub (mem_of_getElem? hsub)).gone_began hgone with hne | hne
        · exact hne hunsub
        · exact hne hopen
      have hx : x ∈ s.targets c.event := (mem_targets h.registry).mpr ⟨sub, hsub, hlive, hwants⟩
      have hpos : 0 < (s.targets c.event).count x := count_pos_iff.mpr hx
      show sub.sentBy i + (s.targets c.event).count x = 1
      omega
  · intro x hne
    have hx : x ∈ s.targets c.event := count_pos_iff.mp (Nat.pos_of_ne_zero hne)
    obtain ⟨sub, hsub, -⟩ := (mem_targets h.registry).mp hx
    exact getElem?_lt_length hsub

/-- `deliver` gives up on a subscriber only after its unsubscribe or Shutdown has begun. -/
theorem pairs_giveUp (h : s.Delivery) {i x : Nat} {c : HandleCall} {todo : List Nat}
    {sub : Subscriber} (hc : s.handles[i]? = some c) (hpc : c.pc = .delivering (x :: todo) true)
    (hsub : s.subs[x]? = some sub) (hgive : sub.done = true ∨ s.closed = true) :
    (s.setHandle i (.delivering todo false)).Pairs := by
  have hcount := fun y => HandlePc.pending_cons x y todo true false
  apply PairsAt.setHandle h.pairs hc
  · intro y sub' hsub' hold
    by_cases hxy : x = y
    · subst hxy
      obtain rfl := some.inj (hsub.symm.trans hsub')
      have hold_once := hold.once
      have hold_unwanted := hold.unwanted
      rw [hpc, hcount, if_pos rfl] at hold_once hold_unwanted
      constructor
      · intro hidle
        exact nomatch hidle
      · intro hwants
        have := hold_unwanted hwants
        omega
      · show sub.sentBy i + (HandlePc.delivering todo false).pending x ≤ 1
        omega
      · -- it gives up for one of two reasons, and each has begun before
        intro _ _ _ hunsub hopen
        rcases hgive with hdone | hclosed
        · exact absurd hunsub
            ((h.begun.subs_begun sub (mem_of_getElem? hsub)).done_began hdone)
        · exact absurd hopen (h.begun.closed_began hclosed)
    · apply hold.transfer (by rw [hpc]; rfl) rfl
      · rw [hpc, hcount, if_neg hxy, Nat.add_zero]
      · rfl
      · rfl
      · rw [hpc]
        exact id
      · rw [hpc]
        exact id
  · intro y hne
    apply h.pairs.todo_lt i y c hc
    rw [hpc, hcount]
    exact Nat.ne_of_gt (Nat.add_pos_left (Nat.pos_of_ne_zero hne) _)

theorem pairs_finish (h : s.Delivery) {i : Nat} {c : HandleCall} {blocked : Bool}
    (hc : s.handles[i]? = some c) (hpc : c.pc = .delivering [] blocked) :
    (s.setHandle i (.returned true s.time)).Pairs := by
  apply PairsAt.setHandle h.pairs hc
  · intro x sub hsub hold
    have hbegun := h.begun.subs_begun sub (mem_of_getElem? hsub)
    apply hold.transfer (by rw [hpc]; rfl) rfl
    · rw [hpc]
      rfl
    · rfl
    · rfl
    · rw [hpc]
      exact quiet_of_ended hbegun.unsub_lt
    · rw [hpc]
      exact quiet_of_ended h.begun.shutdown_lt
  · intro x hne
    exact absurd rfl hne

/-- What a call does under the lock. -/
theorem pairs_perform (h : s.Delivery) (op : WriteOp) :
    PairsAt s.shutdownBegan s.handles (s.perform op).subs := by
  cases op with
  | subscribe kind =>
    rw [Bus.perform_subscribe_subs]
    exact h.pairs.addSubscriber h.calls kind
  | unsubscribe x =>
    rw [Bus.perform_unsubscribe_subs]
    exact h.pairs.setSub_other x (fun _ => rfl) (fun _ => rfl) (fun _ => rfl) (fun _ => rfl)
  | shutdown =>
    constructor
    · intro i x c sub hc hsub
      obtain ⟨old, hold, rfl⟩ := Bus.perform_shutdown_subs.mp hsub
      have hpair := h.pairs.pairs i x c old hc hold
      split
      · exact hpair.setSub rfl rfl rfl id
      · exact hpair
    · intro i x c hc hne
      simp only [Bus.perform, Bus.closeAll, length_mapIdx]
      exact h.pairs.todo_lt i x c hc hne

/-- Every move keeps the pairs. -/
theorem pairs_moves (h : s.Delivery) (hmoves : Moves cap s a t) : t.Pairs := by
  cases hmoves with
  | callHandle producer event hidle => exact h.pairs.callHandle h.sent producer event s.time
  | callSubscribe kind => exact h.pairs
  | callUnsubscribe x hx => exact h.pairs.beginUnsubscribe x s.time
  | callShutdown => exact h.pairs.beginShutdown s.time
  | stop x sub hsub hunsub =>
    exact h.pairs.setSub_other x (fun _ => rfl) (fun _ => rfl) (fun _ => rfl) (fun _ => rfl)
  | receive x sub hsub hbuf =>
    exact h.pairs.setSub_other x (fun _ => rfl) (fun _ => rfl) (fun _ => rfl) (fun _ => rfl)
  | refuse i c hc hpc => exact h.pairs.setIdle hc (by rw [hpc]; rfl) rfl fun _ => rfl
  | accept i c hc hpc => exact h.pairs.setIdle hc (by rw [hpc]; rfl) rfl fun _ => rfl
  | rlock i c hc hpc hwriter => exact h.pairs_rlock hc hpc
  | send i c hc x todo blocked hpc sub hsub => exact h.pairs.send hc hpc
  | block i c hc x todo hpc =>
    -- only where the call waits changes, not what it has to do
    apply PairsAt.setHandle h.pairs hc
    · intro y sub hsub hold
      apply hold.transfer (by rw [hpc]; rfl) rfl
      · rw [hpc]
        rfl
      · rfl
      · rfl
      · rw [hpc]
        exact id
      · rw [hpc]
        exact id
    · intro y hne
      apply h.pairs.todo_lt i y c hc
      rw [hpc]
      exact hne
  | giveUp i c hc x todo hpc sub hsub hgive => exact h.pairs_giveUp hc hpc hsub hgive
  | poll i => exact h.pairs
  | finish i c hc blocked hpc => exact h.pairs_finish hc hpc
  | prepare i w hw hpc =>
    cases hop : w.op with
    | subscribe kind => exact h.pairs
    | unsubscribe x =>
      exact h.pairs.setSub_other x (fun _ => rfl) (fun _ => rfl) (fun _ => rfl) (fun _ => rfl)
    | shutdown =>
      -- a second `Shutdown` returns at once
      simp only [Bus.prepareOp]
      split <;> exact h.pairs
  | announce i w hw hpc hwriter => exact h.pairs
  | acquire i w hw hpc hreaders => exact h.pairs
  | body i w hw hpc =>
    show PairsAt (s.perform w.op).shutdownBegan (s.perform w.op).handles (s.perform w.op).subs
    rw [Bus.perform_shutdownBegan, Bus.perform_handles]
    exact h.pairs_perform w.op

/-- Of the producer whose call sends to `x`, only earlier calls have sent to `x`. -/
theorem sent_earlier (h : s.Delivery) {i x : Nat} {c : HandleCall} {todo : List Nat}
    {blocked : Bool} {sub : Subscriber} (hc : s.handles[i]? = some c)
    (hpc : c.pc = .delivering (x :: todo) blocked) (hsub : s.subs[x]? = some sub) :
    ∀ m ∈ sub.sent, ∀ e, (callers s.handles)[m.call]? = some (c.producer, e) → m.call < i := by
  intro m hm e he
  have hzero : sub.sentBy i = 0 := by
    have := (h.pairs.pairs i x c sub hc hsub).once
    rw [hpc, HandlePc.pending_cons x x todo blocked false, if_pos rfl] at this
    omega
  have hne := Subscriber.sentBy_eq_zero.mp hzero m hm
  by_contra hge
  rw [getElem?_map, map_eq_some_iff] at he
  obtain ⟨d, hd, heq⟩ := he
  -- a later call of the producer would have found this one finished
  have hfin := h.calls.sequential i m.call c d (by omega) hc hd (Prod.mk.inj heq).1.symm
  rw [hpc] at hfin
  exact nomatch hfin

/-- Under the lock nothing is sent. -/
theorem sent_perform (h : s.Delivery) (op : WriteOp) :
    SentAt (callers s.handles) (s.perform op).subs := by
  cases op with
  | subscribe kind =>
    rw [Bus.perform_subscribe_subs]
    apply h.sent.of_sent
    exact forall_mem_concat (fun sub hsub => .inr ⟨sub, hsub, rfl⟩) (.inl rfl)
  | unsubscribe x =>
    rw [Bus.perform_unsubscribe_subs]
    exact h.sent.setSub x fun _ => rfl
  | shutdown =>
    apply h.sent.of_sent
    intro sub' hsub'
    obtain ⟨x, hx⟩ := mem_iff_getElem?.mp hsub'
    obtain ⟨sub, hsub, rfl⟩ := Bus.perform_shutdown_subs.mp hx
    refine .inr ⟨sub, mem_of_getElem? hsub, ?_⟩
    split <;> rfl

/-- Every move keeps the order in the channels. -/
theorem sent_moves (h : s.Delivery) (hmoves : Moves cap s a t) : t.SentInOrder := by
  -- a call that moves on sends nothing
  have hset : ∀ i pc, (s.setHandle i pc).SentInOrder := by
    intro i pc
    show SentAt (callers (s.handles.modify i _)) s.subs
    rw [callers_modify]
    exact h.sent
  cases hmoves with
  | callHandle producer event hidle =>
    show SentAt (callers (s.handles ++ _)) s.subs
    rw [callers, map_append]
    exact h.sent.callHandle (producer, event)
  | callSubscribe kind => exact h.sent
  | callUnsubscribe x hx => exact h.sent.setSub x fun _ => rfl
  | callShutdown => exact h.sent
  | stop x sub hsub hunsub => exact h.sent.setSub x fun _ => rfl
  | receive x sub hsub hbuf => exact h.sent.setSub x fun _ => rfl
  | refuse i c hc hpc => exact hset i _
  | accept i c hc hpc => exact hset i _
  | rlock i c hc hpc hwriter => exact hset i _
  | send i c hc x todo blocked hpc sub hsub =>
    show SentAt (callers (s.handles.modify i _)) _
    rw [callers_modify]
    -- the event goes behind everything that its producer has sent there
    have hcall : (callers s.handles)[i]? = some (c.producer, c.event) := by
      rw [getElem?_map, hc]
      rfl
    exact h.sent.send hcall hsub (h.sent_earlier hc hpc hsub)
  | block i c hc x todo hpc => exact hset i _
  | giveUp i c hc x todo hpc sub hsub hgive => exact hset i _
  | poll i => exact h.sent
  | finish i c hc blocked hpc => exact hset i _
  | prepare i w hw hpc =>
    cases hop : w.op with
    | subscribe kind => exact h.sent
    | unsubscribe x => exact h.sent.setSub x fun _ => rfl
    | shutdown =>
      simp only [Bus.prepareOp]
      split <;> exact h.sent
  | announce i w hw hpc hwriter => exact h.sent
  | acquire i w hw hpc hreaders => exact h.sent
  | body i w hw hpc =>
    show SentAt (callers (s.perform w.op).handles) (s.perform w.op).subs
    rw [Bus.perform_handles]
    exact h.sent_perform w.op

/-- Every move keeps the account of the calls. -/
theorem calls_moves (h : s.Delivery) (hmoves : Moves cap s a t) : t.tick.Calls := by
  cases hmoves with
  | callHandle producer event hidle => exact h.calls.callHandle event hidle
  | callSubscribe kind => exact h.calls.later
  | callUnsubscribe x hx => exact h.calls.later
  | callShutdown => exact h.calls.later
  | stop x sub hsub hunsub => exact h.calls.later
  | receive x sub hsub hbuf => exact h.calls.later
  -- a call that moves on was under way
  | refuse i c hc hpc => exact h.calls.setHandle hc (by rw [hpc]; rfl) _
  | accept i c hc hpc => exact h.calls.setHandle hc (by rw [hpc]; rfl) _
  | rlock i c hc hpc hwriter => exact h.calls.setHandle hc (by rw [hpc]; rfl) _
  | send i c hc x todo blocked hpc sub hsub => exact h.calls.setHandle hc (by rw [hpc]; rfl) _
  | block i c hc x todo hpc => exact h.calls.setHandle hc (by rw [hpc]; rfl) _
  | giveUp i c hc x todo hpc sub hsub hgive => exact h.calls.setHandle hc (by rw [hpc]; rfl) _
  | poll i => exact h.calls.later
  | finish i c hc blocked hpc => exact h.calls.setHandle hc (by rw [hpc]; rfl) _
  | prepare i w hw hpc =>
    cases hop : w.op with
    | subscribe kind => exact h.calls.later
    | unsubscribe x => exact h.calls.later
    | shutdown =>
      simp only [Bus.prepareOp]
      split <;> exact h.calls.later
  | announce i w hw hpc hwriter => exact h.calls.later
  | acquire i w hw hpc hreaders => exact h.calls.later
  | body i w hw hpc =>
    show CallsAt ((s.perform w.op).time + 1) (s.perform w.op).handles
    rw [Bus.perform_time, Bus.perform_handles]
    exact h.calls.later

/-- Every step keeps the invariant. -/
theorem step (h : s.Delivery) (hstep : s.step cap a = some t) : t.Delivery := by
  obtain ⟨u, hmoves, rfl⟩ := step_moves hstep
  have hregistry : u.Registry := h.registry.moves hmoves
  have hsent : u.SentInOrder := h.sent_moves hmoves
  have hpairs : u.Pairs := h.pairs_moves hmoves
  exact ⟨hregistry, h.begun.moves hmoves, h.calls_moves hmoves, hsent, hpairs⟩

theorem of_run {actions : List BusAction}
    (hrun : runSteps (Bus.step cap) newService actions = some s) : s.Delivery :=
  runSteps_invariant (fun h hstep => h.step hstep) init hrun

end Bus.Delivery

/-! ### Exactly once, in order -/

/-- The events a subscription is for. -/
def Kind.covers : Kind → Event → Bool
  | .global, _ => true
  | .table name, e => isTableEvent e.type && e.table == name

theorem Kind.wants_eq_covers {kind : Kind} (h : kind ≠ .table []) (e : Event) :
    kind.wants e = kind.covers e := by
  cases kind with
  | global => rfl
  | table name =>
    show (e.table != [] && isTableEvent e.type && e.table == name) =
      (isTableEvent e.type && e.table == name)
    by_cases htable : e.table = name
    · have hne : e.table ≠ [] := fun hnil => h (by rw [← htable, hnil])
      rw [bne_iff_ne.mpr hne, Bool.true_and]
    · rw [beq_eq_false_iff_ne.mpr htable, Bool.and_false, Bool.and_false]

/-- What a subscriber can rely on. -/
structure Bus.DeliversTo (s : Bus) (sub : Subscriber) : Prop where
  /-- An accepted event of a call within the life of the subscription is in the channel once. -/
  exactly_once : ∀ (i : Nat) (c : HandleCall) (ended : Nat), s.handles[i]? = some c →
    c.pc = .returned true ended → sub.kind.covers c.event = true → sub.subscribedAt < c.began →
    (∀ u, sub.unsubBegan = some u → ended < u) → (∀ u, s.shutdownBegan = some u → ended < u) →
    sub.sentBy i = 1
  /-- No call puts its event into the channel twice. -/
  at_most_once : ∀ i, sub.sentBy i ≤ 1
  /-- Everything in the channel is the event of a call that was not refused, and one that the
      subscription is for. -/
  accepted : ∀ m ∈ sub.sent, ∃ c, s.handles[m.call]? = some c ∧ c.event = m.event ∧
    c.pc.accepted = true ∧ sub.kind.covers m.event = true
  /-- A producer's events are in the order of its calls. -/
  in_order : sub.sent.Pairwise fun m m' => ∀ c c', s.handles[m.call]? = some c →
    s.handles[m'.call]? = some c' → c.producer = c'.producer → m.call < m'.call

theorem Bus.Delivery.sent_accepted {s : Bus} (h : s.Delivery) {x : Nat} {sub : Subscriber}
    (hsub : s.subs[x]? = some sub) :
    ∀ m ∈ sub.sent, ∃ c, s.handles[m.call]? = some c ∧ c.event = m.event ∧
      c.pc.accepted = true ∧ sub.kind.wants m.event = true := by
  intro m hm
  obtain ⟨p, hp⟩ := h.sent.sent_call sub (mem_of_getElem? hsub) m hm
  rw [getElem?_map, map_eq_some_iff] at hp
  obtain ⟨c, hc, heq⟩ := hp
  obtain ⟨-, hevent⟩ := Prod.mk.inj heq
  have hpair := h.pairs.pairs m.call x c sub hc hsub
  -- the message itself counts, so the call is neither idle nor for somebody else
  have hne : sub.sentBy m.call ≠ 0 := fun hzero => Subscriber.sentBy_eq_zero.mp hzero m hm rfl
  refine ⟨c, hc, hevent, ?_, ?_⟩
  · by_contra hidle
    exact hne (hpair.idle (Bool.not_eq_true _ ▸ hidle))
  · rw [← hevent]
    by_contra hwants
    have := hpair.unwanted (Bool.not_eq_true _ ▸ hwants)
    omega

/-- The invariant gives what a subscriber can rely on. -/
theorem Bus.Delivery.deliversTo {s : Bus} (h : s.Delivery) {x : Nat} {sub : Subscriber}
    (hsub : s.subs[x]? = some sub) (hkind : sub.kind ≠ .table []) : s.DeliversTo sub := by
  constructor
  · intro i c ended hc hpc hcovers hbegan hunsub hopen
    have hpair := h.pairs.pairs i x c sub hc hsub
    have hone := hpair.served (by rw [hpc]; rfl) (Kind.wants_eq_covers hkind _ ▸ hcovers) hbegan
      (by rw [hpc]; exact hunsub) (by rw [hpc]; exact hopen)
    rw [hpc] at hone
    exact hone
  · intro i
    by_contra hgt
    -- whatever is in the channel more than once is there
    have hne : sub.sentBy i ≠ 0 := by omega
    obtain ⟨m, hm, hmi⟩ := countP_pos_iff.mp (Nat.pos_of_ne_zero hne)
    obtain ⟨c, hc, -⟩ := h.sent_accepted hsub m hm
    rw [eq_of_beq hmi] at hc
    have := (h.pairs.pairs i x c sub hc hsub).once
    omega
  · intro m hm
    obtain ⟨c, hc, hevent, hacc, hwants⟩ := h.sent_accepted hsub m hm
    exact ⟨c, hc, hevent, hacc, Kind.wants_eq_covers hkind _ ▸ hwants⟩
  · refine (h.sent.in_order sub (mem_of_getElem? hsub)).imp ?_
    intro m m' horder c c' hc hc' hp
    apply horder c.producer c.event c'.event
    · rw [getElem?_map, hc]
      rfl
    · rw [getElem?_map, hc', hp]
      rfl

/-- Nothing is sent to a subscriber to the empty table name: `HandleEvent` turns to the subscribers
    of a table only for an event that names one. -/
theorem Bus.Delivery.sent_unnamed {s : Bus} (h : s.Delivery) {x : Nat} {sub : Subscriber}
    (hsub : s.subs[x]? = some sub) (hkind : sub.kind = .table []) : sub.sent = [] := by
  apply eq_nil_iff_forall_not_mem.mpr
  intro m hm
  obtain ⟨c, -, -, -, hwants⟩ := h.sent_accepted hsub m hm
  rw [hkind] at hwants
  simp only [Kind.wants, Bool.and_eq_true, bne_iff_ne, beq_iff_eq] at hwants
  -- the event would have a table name, and it would be the empty one
  exact hwants.1.1 hwants.2

/-- After every interleaving of calls, sends and receives, each subscriber to everything or to a
    named table has got its events exactly once and in order, a subscriber to the empty table name
    has got nothing, and the service's account of its subscribers is that of the live
    subscriptions. -/
theorem delivers_exactly_once {cap : Nat} {actions : List BusAction} {s : Bus}
    (hrun : runSteps (Bus.step cap) newService actions = some s) :
    (∀ (x : Nat) (sub : Subscriber), s.subs[x]? = some sub → sub.kind ≠ .table [] →
      s.DeliversTo sub) ∧
    (∀ (x : Nat) (sub : Subscriber), s.subs[x]? = some sub → sub.kind = .table [] →
      sub.sent = []) ∧
    s.totalSubscriberCount = s.live.length ∧
    ∀ t, s.hasTableSubscribers t = true ↔
      ∃ (x : Nat) (sub : Subscriber), s.subs[x]? = some sub ∧ sub.live = true ∧
        sub.kind = .table t := by
  have h := Bus.Delivery.of_run hrun
  refine ⟨?_, ?_, Bus.totalSubscriberCount_eq h.registry, Bus.hasTableSubscribers_iff h.registry⟩
  · intro x sub hsub hkind
    exact h.deliversTo hsub hkind
  · intro x sub hsub hkind
    exact h.sent_unnamed hsub hkind

/-- A subscription, one event and the wait for it to come back. -/
def roundTrip (kind : Kind) (event : Event) : List BusAction :=
  [.callSubscribe kind, .prepare 0, .announce 0, .acquire 0, .body 0, .callHandle 7 event, .check 0,
    .rlock 0]

/-- An insert without data. -/
def insertInto (table : GoString) : Event := newEvent .insert [] table [] [] []

/-- A table. -/
def orders : GoString := ascii "orders"

/-- One subscriber and one insert. -/
theorem delivers_orders :
    ∃ s, runSteps (Bus.step 1) newService
        (roundTrip (.table orders) (insertInto orders) ++ [.send 0, .finish 0]) = some s ∧
      s.totalSubscriberCount = 1 ∧ ∃ sub, s.subs[0]? = some sub ∧ s.DeliversTo sub ∧
        sub.sent = [⟨0, insertInto orders⟩] := by
  refine ⟨_, rfl, rfl, _, rfl, ?_, rfl⟩
  have hrun := @delivers_exactly_once 1
    (roundTrip (.table orders) (insertInto orders) ++ [.send 0, .finish 0]) _ rfl
  exact hrun.1 0 _ rfl (by decide)

/-- A subscriber to the empty table name does not get the insert into it. -/
theorem unnamed_table_unserved :
    ∃ s, runSteps (Bus.step 1) newService
        (roundTrip (.table []) (insertInto []) ++ [.finish 0]) = some s ∧
      ∃ sub, s.subs[0]? = some sub ∧ ¬ s.DeliversTo sub := by
  refine ⟨_, rfl, _, rfl, ?_⟩
  intro h
  have hone := h.exactly_once 0 _ 8 rfl rfl rfl (by decide) (fun u hu => nomatch hu)
    (fun u hu => nomatch hu)
  exact absurd hone (by decide)

end Cdc
