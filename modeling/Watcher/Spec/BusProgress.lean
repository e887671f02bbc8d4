import Watcher.Spec.BusRegistry

/-!
# The bus never gets stuck

A call that is serving subscribers holds the read lock, so none of these
subscribers is taken away meanwhile and their channels are open (`ServingAt`).
A consumer that has stopped receiving has called its unsubscribe, which closes
`done` before it asks for the lock (`StopAt`): that is what lets a producer go
that is blocked on a full buffer.

Hence some call or consumer can always move on, and since every such step uses
up some of the work the calls have left (`Bus.work`), the calls come to an end.
-/

namespace Cdc

open Run List

/-! ### Who is being served -/

/-- The subscribers a call is still to serve are live. -/
def ServingAt (handles : List HandleCall) (subs : List Subscriber) : Prop :=
  ∀ c ∈ handles, ∀ todo blocked, c.pc = .delivering todo blocked → ∀ x ∈ todo,
    ∃ sub, subs[x]? = some sub ∧ sub.live = true

abbrev Bus.Serving (s : Bus) : Prop := ServingAt s.handles s.subs

namespace ServingAt

variable {handles : List HandleCall} {subs : List Subscriber}

theorem callHandle (h : ServingAt handles subs) (producer : Nat) (event : Event) (now : Nat) :
    ServingAt (handles ++ [⟨producer, event, now, .checking⟩]) subs :=
  forall_mem_concat h fun _ _ hpc => nomatch hpc

theorem setHandle (h : ServingAt handles subs) (i : Nat) {pc : HandlePc}
    (hpc : ∀ todo blocked, pc = .delivering todo blocked → ∀ x ∈ todo,
      ∃ sub, subs[x]? = some sub ∧ sub.live = true) :
    ServingAt (handles.modify i fun c => { c with pc := pc }) subs :=
  forall_mem_modify h fun _ _ _ => hpc

/-- A call that has served a subscriber, or has to wait for it. -/
theorem setHandle_rest (h : ServingAt handles subs) {i : Nat} {c : HandleCall}
    (hc : handles[i]? = some c) {todo todo' : List Nat} {blocked blocked' : Bool}
    (hpc : c.pc = .delivering todo blocked) (hsub : todo' ⊆ todo) :
    ServingAt (handles.modify i fun c => { c with pc := .delivering todo' blocked' }) subs := by
  apply h.setHandle i
  intro rest b heq x hx
  obtain ⟨rfl, rfl⟩ := HandlePc.delivering.inj heq
  exact h c (mem_of_getElem? hc) todo blocked hpc x (hsub hx)

theorem setSub (h : ServingAt handles subs) (x : Nat) {f : Subscriber → Subscriber}
    (hf : ∀ sub, (f sub).live = sub.live) : ServingAt handles (subs.modify x f) := by
  intro c hc todo blocked hpc y hy
  obtain ⟨sub, hsub, hlive⟩ := h c hc todo blocked hpc y hy
  refine ⟨_, getElem?_modify_eq_some.mpr ⟨sub, hsub, rfl⟩, ?_⟩
  split
  · rw [hf, hlive]
  · exact hlive

/-- Without a reader there is nothing to show. -/
theorem of_unread {subs : List Subscriber} (h : ∀ c ∈ handles, c.pc.reading = false) :
    ServingAt handles subs := by
  intro c hc todo blocked hpc
  have := h c hc
  rw [hpc] at this
  exact nomatch this

end ServingAt

/-- A consumer whose unsubscribe has been called sees `done` closed, or the call is about to
    close it. -/
def StopAt (subs : List Subscriber) (writes : List WriteCall) : Prop :=
  ∀ (x : Nat) (sub : Subscriber), subs[x]? = some sub →
    (sub.consuming = false → sub.unsubBegan ≠ none) ∧
    (sub.unsubBegan ≠ none → sub.done = true ∨
      ∃ i : Nat, writes[i]? = some ⟨.unsubscribe x, .start⟩)

abbrev Bus.Stop (s : Bus) : Prop := StopAt s.subs s.writes

namespace StopAt

variable {subs : List Subscriber} {writes : List WriteCall}

theorem callWrite (h : StopAt subs writes) (w : WriteCall) : StopAt subs (writes ++ [w]) := by
  intro x sub hsub
  obtain ⟨hstop, hdone⟩ := h x sub hsub
  refine ⟨hstop, fun hne => (hdone hne).imp_right ?_⟩
  rintro ⟨i, hi⟩
  exact ⟨i, getElem?_concat_eq_some.mpr (.inl hi)⟩

/-- A writer that moves on, unless it is an unsubscribe that is about to close `done`. -/
theorem setWrite (h : StopAt subs writes) {i : Nat} {w : WriteCall} (hw : writes[i]? = some w)
    (hpc : ∀ x, w ≠ ⟨.unsubscribe x, .start⟩) (pc : WritePc) :
    StopAt subs (writes.modify i fun w => { w with pc := pc }) := by
  intro x sub hsub
  obtain ⟨hstop, hdone⟩ := h x sub hsub
  refine ⟨hstop, fun hne => (hdone hne).imp_right ?_⟩
  rintro ⟨j, hj⟩
  have hij : i ≠ j := by
    rintro rfl
    exact hpc x (Option.some.inj (hw.symm.trans hj))
  exact ⟨j, by rw [getElem?_modify_ne _ _ hij, hj]⟩

theorem setSub (h : StopAt subs writes) (x : Nat) {f : Subscriber → Subscriber}
    (hf : ∀ sub, subs[x]? = some sub →
      ((f sub).consuming = false → (f sub).unsubBegan ≠ none) ∧
      ((f sub).unsubBegan ≠ none →
        (f sub).done = true ∨
      ∃ i : Nat, writes[i]? = some ⟨.unsubscribe x, .start⟩)) :
    StopAt (subs.modify x f) writes := by
  intro y sub hsub
  obtain ⟨old, hold, rfl⟩ := getElem?_modify_eq_some.mp hsub
  split
  · rename_i hxy
    subst hxy
    exact hf old hold
  · exact h y old hold

/-- A change to a subscriber that concerns none of this. -/
theorem setSub_other (h : StopAt subs writes) (x : Nat) {f : Subscriber → Subscriber}
    (hconsuming : ∀ sub, (f sub).consuming = sub.consuming)
    (hunsub : ∀ sub, (f sub).unsubBegan = sub.unsubBegan) (hdone : ∀ sub, (f sub).done = sub.done) :
    StopAt (subs.modify x f) writes := by
  apply h.setSub x
  intro sub hsub
  rw [hconsuming, hunsub, hdone]
  exact h x sub hsub

theorem addSubscriber (h : StopAt subs writes) (kind : Kind) (now : Nat) :
    StopAt (subs ++ [newSubscriber kind now]) writes := by
  intro x sub hsub
  rcases getElem?_concat_eq_some.mp hsub with hsub | ⟨-, rfl⟩
  · exact h x sub hsub
  · exact ⟨fun hstop => absurd hstop (by simp [newSubscriber]), fun hne => absurd rfl hne⟩

end StopAt

/-! ### Whole runs -/

/-- The invariant behind progress. -/
structure Bus.Progress (s : Bus) : Prop where
  lock : s.Lock
  registry : s.Registry
  serving : s.Serving
  stop : s.Stop

namespace Bus.Progress

variable {cap : Nat} {s t : Bus} {a : BusAction}

theorem init : newService.Progress where
  lock := .init
  registry := .init
  serving := fun c hc => nomatch hc
  stop := fun x sub hsub => by simp [newService] at hsub

theorem serving_rlock (h : s.Progress) (i : Nat) (c : HandleCall) :
    (s.setHandle i (.delivering (s.targets c.event) false)).Serving := by
  apply h.serving.setHandle i
  intro todo blocked heq x hx
  obtain ⟨rfl, -⟩ := HandlePc.delivering.inj heq
  obtain ⟨sub, hsub, hlive, -⟩ := (mem_targets h.registry).mp hx
  exact ⟨sub, hsub, hlive⟩

/-- Every move keeps the subscribers live that a call is still to serve. -/
theorem serving_moves (h : s.Progress) (hmoves : Moves cap s a t) : t.Serving := by
  cases hmoves with
  | callHandle producer event hidle => exact h.serving.callHandle producer event s.time
  | callSubscribe kind => exact h.serving
  | callUnsubscribe x hx => exact h.serving.setSub x fun _ => rfl
  | callShutdown => exact h.serving
  | stop x sub hsub hunsub => exact h.serving.setSub x fun _ => rfl
  | receive x sub hsub hbuf => exact h.serving.setSub x fun _ => rfl
  | refuse i c hc hpc => exact h.serving.setHandle i fun _ _ heq => nomatch heq
  | accept i c hc hpc => exact h.serving.setHandle i fun _ _ heq => nomatch heq
  | rlock i c hc hpc hwriter => exact h.serving_rlock i c
  | send i c hc x todo blocked hpc sub hsub =>
    have hrest : (s.setHandle i (.delivering todo false)).Serving :=
      h.serving.setHandle_rest hc hpc (subset_cons_self x todo)
    exact ServingAt.setSub hrest x fun _ => rfl
  | block i c hc x todo hpc => exact h.serving.setHandle_rest hc hpc (List.Subset.refl _)
  | giveUp i c hc x todo hpc sub hsub hgive =>
    exact h.serving.setHandle_rest hc hpc (subset_cons_self x todo)
  | poll i => exact h.serving
  | finish i c hc blocked hpc => exact h.serving.setHandle i fun _ _ heq => nomatch heq
  | prepare i w hw hpc =>
    cases hop : w.op with
    | subscribe kind => exact h.serving
    | unsubscribe x => exact h.serving.setSub x fun _ => rfl
    | shutdown =>
      simp only [Bus.prepareOp]
      split <;> exact h.serving
  | announce i w hw hpc hwriter => exact h.serving
  | acquire i w hw hpc hreaders => exact h.serving
  | body i w hw hpc =>
    -- the writer is alone
    show ServingAt (s.perform w.op).handles (s.perform w.op).subs
    rw [Bus.perform_handles]
    exact .of_unread (h.lock.exclusive i w hw hpc)

theorem stop_perform (h : s.Progress) (op : WriteOp) : StopAt (s.perform op).subs s.writes := by
  cases op with
  | subscribe kind =>
    rw [Bus.perform_subscribe_subs]
    exact h.stop.addSubscriber kind s.time
  | unsubscribe x =>
    rw [Bus.perform_unsubscribe_subs]
    exact h.stop.setSub_other x (fun _ => rfl) (fun _ => rfl) (fun _ => rfl)
  | shutdown =>
    intro x sub hsub
    obtain ⟨old, hold, rfl⟩ := Bus.perform_shutdown_subs.mp hsub
    split <;> exact h.stop x old hold

/-- `stop` closes `done` before `Lock` is called. -/
theorem stop_prepare (h : s.Progress) {i : Nat} {w : WriteCall} (hw : s.writes[i]? = some w) :
    (s.prepareOp i w.op).Stop := by
  cases hop : w.op with
  | subscribe kind => exact h.stop.setWrite hw (fun x heq => by simp [heq] at hop) .waiting
  | unsubscribe x =>
    intro y sub hsub
    simp only [Bus.prepareOp, Bus.setWrite, Bus.setSub] at hsub
    obtain ⟨old, hold, rfl⟩ := getElem?_modify_eq_some.mp hsub
    obtain ⟨hstop, hdone⟩ := h.stop y old hold
    by_cases hxy : x = y
    · rw [if_pos hxy]
      exact ⟨hstop, fun _ => .inl rfl⟩
    · rw [if_neg hxy]
      refine ⟨hstop, fun hne => (hdone hne).imp_right ?_⟩
      rintro ⟨j, hj⟩
      have hij : i ≠ j := by
        rintro rfl
        obtain rfl := Option.some.inj (hw.symm.trans hj)
        exact hxy (WriteOp.unsubscribe.inj hop).symm
      exact ⟨j, (getElem?_modify_ne _ _ hij).trans hj⟩
  | shutdown =>
    have hnot : ∀ x, w ≠ ⟨.unsubscribe x, .start⟩ := fun x heq => by simp [heq] at hop
    simp only [Bus.prepareOp]
    split
    · exact h.stop.setWrite hw hnot .returned
    · exact h.stop.setWrite hw hnot .waiting

/-- Every move keeps the account of those that have stopped. -/
theorem stop_moves (h : s.Progress) (hmoves : Moves cap s a t) : t.Stop := by
  -- past its start a writer is no unsubscribe that is about to close `done`
  have hpast : ∀ {w : WriteCall} {pc : WritePc}, w.pc = pc → pc ≠ .start →
      ∀ x, w ≠ ⟨.unsubscribe x, .start⟩ := by
    rintro w pc hpc hne x rfl
    exact hne hpc.symm
  cases hmoves with
  | callHandle producer event hidle => exact h.stop
  | callSubscribe kind => exact h.stop.callWrite _
  | callUnsubscribe x hx =>
    -- the call that begins is the one that is going to close `done`
    apply StopAt.setSub (h.stop.callWrite ⟨.unsubscribe x, .start⟩) x
    intro sub hsub
    refine ⟨fun _ => ?_, fun _ => .inr ⟨s.writes.length, by simp⟩⟩
    cases sub.unsubBegan <;> simp
  | callShutdown => exact h.stop.callWrite _
  | stop x sub hsub hunsub =>
    apply h.stop.setSub x
    intro sub' hsub'
    obtain rfl := Option.some.inj (hsub.symm.trans hsub')
    exact ⟨fun _ => hunsub, (h.stop x sub hsub).2⟩
  | receive x sub hsub hbuf =>
    exact h.stop.setSub_other x (fun _ => rfl) (fun _ => rfl) (fun _ => rfl)
  | refuse i c hc hpc => exact h.stop
  | accept i c hc hpc => exact h.stop
  | rlock i c hc hpc hwriter => exact h.stop
  | send i c hc x todo blocked hpc sub hsub =>
    exact h.stop.setSub_other x (fun _ => rfl) (fun _ => rfl) (fun _ => rfl)
  | block i c hc x todo hpc => exact h.stop
  | giveUp i c hc x todo hpc sub hsub hgive => exact h.stop
  | poll i => exact h.stop
  | finish i c hc blocked hpc => exact h.stop
  | prepare i w hw hpc => exact h.stop_prepare hw
  | announce i w hw hpc hwriter => exact h.stop.setWrite hw (hpast hpc (by simp)) .announced
  | acquire i w hw hpc hreaders => exact h.stop.setWrite hw (hpast hpc (by simp)) .holding
  | body i w hw hpc =>
    show StopAt (s.perform w.op).subs ((s.perform w.op).writes.modify i _)
    rw [Bus.perform_writes]
    exact (h.stop_perform w.op).setWrite hw (hpast hpc (by simp)) .returned

/-- Every step keeps the invariant. -/
theorem step (h : s.Progress) (hstep : s.step cap a = some t) : t.Progress := by
  obtain ⟨u, hmoves, rfl⟩ := step_moves hstep
  have hlock : u.Lock := h.lock.moves hmoves
  have hregistry : u.Registry := h.registry.moves hmoves
  have hserving : u.Serving := h.serving_moves hmoves
  have hstop : u.Stop := h.stop_moves hmoves
  exact ⟨hlock, hregistry, hserving, hstop⟩

theorem of_run {actions : List BusAction}
    (hrun : runSteps (Bus.step cap) newService actions = some s) : s.Progress :=
  runSteps_invariant (fun h hstep => h.step hstep) init hrun

end Bus.Progress

/-! ### Something can move -/

/-- The actions that are the work of the calls and consumers there are: no new calls, nobody stops
    receiving, and no look at `closed` that finds it unset. -/
def BusAction.isWork : BusAction → Bool
  | .callHandle _ _ | .callSubscribe _ | .callUnsubscribe _ | .callShutdown | .stop _ | .poll _ =>
    false
  | _ => true

/-- Some call has not returned. -/
def Bus.Unfinished (s : Bus) : Prop :=
  (∃ c ∈ s.handles, c.pc.finished = false) ∨ ∃ w ∈ s.writes, w.pc ≠ .returned

/-- Some of the work can be done. -/
def Bus.CanWork (cap : Nat) (s : Bus) : Prop :=
  ∃ a : BusAction, a.isWork = true ∧ (s.step cap a).isSome = true

namespace Bus

variable {cap : Nat} {s : Bus}

theorem CanWork.of_act {a : BusAction} (ha : a.isWork = true)
    (h : (s.act cap a).isSome = true) : s.CanWork cap :=
  ⟨a, ha, by rw [step, Option.isSome_map, h]⟩

variable {i : Nat} {c : HandleCall}

theorem CanWork.of_handle {a : BusAction} (hc : s.handles[i]? = some c)
    (ha : a ∈ [.check i, .rlock i, .send i, .block i, .giveUp i, .finish i])
    (h : (s.stepHandle cap i c a).isSome = true) : s.CanWork cap := by
  have hact : a.isWork = true ∧
      s.act cap a = s.handles[i]?.bind fun c => s.stepHandle cap i c a := by
    simp only [mem_cons, not_mem_nil, or_false] at ha
    rcases ha with rfl | rfl | rfl | rfl | rfl | rfl <;> exact ⟨rfl, rfl⟩
  rw [hc, Option.bind_some] at hact
  exact .of_act hact.1 (hact.2 ▸ h)

/-- And so is a step of a writing call. -/
theorem CanWork.of_write {w : WriteCall} {a : BusAction} (hw : s.writes[i]? = some w)
    (ha : a ∈ [.prepare i, .announce i, .acquire i, .body i])
    (h : (s.stepWrite i w a).isSome = true) : s.CanWork cap := by
  have hact : a.isWork = true ∧
      s.act cap a = s.writes[i]?.bind fun w => s.stepWrite i w a := by
    simp only [mem_cons, not_mem_nil, or_false] at ha
    rcases ha with rfl | rfl | rfl | rfl <;> exact ⟨rfl, rfl⟩
  rw [hw, Option.bind_some] at hact
  exact .of_act hact.1 (hact.2 ▸ h)

theorem CanWork.of_start {w : WriteCall} (hw : s.writes[i]? = some w) (hpc : w.pc = .start) :
    s.CanWork cap :=
  .of_write (a := .prepare i) hw (by simp)
    (by simp only [stepWrite, if_pos hpc, Option.isSome_some])

/-- A call that serves subscribers can go on, or the consumer it waits for can. -/
theorem Progress.serve (h : s.Progress) (hcap : 0 < cap) {todo : List Nat} {blocked : Bool}
    (hc : s.handles[i]? = some c) (hpc : c.pc = .delivering todo blocked) : s.CanWork cap := by
  cases todo with
  | nil =>
    exact .of_handle (a := .finish i) hc (by simp)
      (by simp only [stepHandle, hpc, Option.isSome_some])
  | cons x todo =>
    obtain ⟨sub, hsub, -⟩ :=
      h.serving c (mem_of_getElem? hc) _ _ hpc x mem_cons_self
    by_cases hfull : sub.full cap = true
    · cases blocked with
      | false =>
        exact .of_handle (a := .block i) hc (by simp)
          (by simp only [stepHandle, hpc, hsub, if_pos hfull, Option.isSome_some])
      | true =>
        by_cases hgive : (sub.done || s.closed) = true
        · exact .of_handle (a := .giveUp i) hc (by simp)
            (by simp only [stepHandle, hpc, hsub, if_pos hgive, Option.isSome_some])
        · -- the consumer still receives, or its unsubscribe is about to close `done`
          obtain ⟨hstop, hdone⟩ := h.stop x sub hsub
          cases hconsuming : sub.consuming with
          | true =>
            have hbuf : sub.buffered.isEmpty = false := by
              rw [Subscriber.full, decide_eq_true_eq] at hfull
              cases hb : sub.buffered with
              | nil =>
                rw [hb, length_nil] at hfull
                omega
              | cons m l => rfl
            exact .of_act (a := .receive x) rfl
              (by simp only [act, hsub, hconsuming, hbuf, Bool.not_false, Bool.and_self, ↓reduceIte,
                Option.isSome_some])
          | false =>
            rcases hdone (hstop hconsuming) with hd | ⟨j, hj⟩
            · simp [hd] at hgive
            · exact .of_start hj rfl
    · exact .of_handle (a := .send i) hc (by simp)
        (by simp only [stepHandle, hpc, hsub, if_neg hfull, Option.isSome_some])

/-- While a call serves subscribers something can move. -/
theorem Progress.read (h : s.Progress) (hcap : 0 < cap) (hc : c ∈ s.handles)
    (hreading : c.pc.reading = true) : s.CanWork cap := by
  obtain ⟨i, hi⟩ := mem_iff_getElem?.mp hc
  cases hpc : c.pc with
  | delivering todo blocked => exact h.serve hcap hi hpc
  | checking => simp [hpc, HandlePc.reading] at hreading
  | locking => simp [hpc, HandlePc.reading] at hreading
  | returned accepted ended => simp [hpc, HandlePc.reading] at hreading

/-- While a writer is announced or holds the lock something can move. -/
theorem Progress.write (h : s.Progress) (hcap : 0 < cap) (hwriter : s.writer = some i) :
    s.CanWork cap := by
  obtain ⟨w, hw⟩ := h.lock.known i hwriter
  rcases (h.lock.owner i w hw).mpr hwriter with hpc | hpc
  · -- it waits for the readers, or there are none
    by_cases hreaders : s.handles.all (fun c => !c.pc.reading) = true
    · exact .of_write (a := .acquire i) hw (by simp)
        (by simp only [stepWrite, if_pos (And.intro hpc hreaders), Option.isSome_some])
    · rw [all_eq_true] at hreaders
      push Not at hreaders
      obtain ⟨c, hc, hreading⟩ := hreaders
      exact h.read hcap hc (by simpa using hreading)
  · exact .of_write (a := .body i) hw (by simp)
      (by simp only [stepWrite, if_pos hpc, Option.isSome_some])

/-- While there is a call that has not returned something can move. -/
theorem Progress.canWork (h : s.Progress) (hcap : 0 < cap) (hunfinished : s.Unfinished) :
    s.CanWork cap := by
  cases hwriter : s.writer with
  | some i => exact h.write hcap hwriter
  | none =>
    -- the lock is free for whoever asks
    rcases hunfinished with ⟨c, hc, hfin⟩ | ⟨w, hw, hfin⟩
    · obtain ⟨i, hi⟩ := mem_iff_getElem?.mp hc
      cases hpc : c.pc with
      | checking =>
        by_cases hok : Service.handleEvent ⟨s.closed⟩ c.event = true
        · exact .of_handle (a := .check i) hi (by simp)
            (by simp only [stepHandle, hpc, if_pos hok, Option.isSome_some])
        · exact .of_handle (a := .check i) hi (by simp)
            (by simp only [stepHandle, hpc, if_neg hok, Option.isSome_some])
      | locking =>
        exact .of_handle (a := .rlock i) hi (by simp)
          (by simp only [stepHandle, hpc, hwriter, Option.isSome_some])
      | delivering todo blocked => exact h.serve hcap hi hpc
      | returned accepted ended => simp [hpc, HandlePc.finished] at hfin
    · obtain ⟨i, hi⟩ := mem_iff_getElem?.mp hw
      have howner := h.lock.owner i w hi
      rw [hwriter] at howner
      cases hpc : w.pc with
      | start => exact .of_start hi hpc
      | waiting =>
        exact .of_write (a := .announce i) hi (by simp)
          (by simp only [stepWrite, if_pos (And.intro hpc hwriter), Option.isSome_some])
      | announced => exact absurd (howner.mp (.inl hpc)) (by simp)
      | holding => exact absurd (howner.mp (.inr hpc)) (by simp)
      | returned => exact absurd hpc hfin

/-- The subscriber a call turns to has an open channel. -/
theorem Progress.channel_open (h : s.Progress) {x : Nat} {todo : List Nat} {blocked : Bool}
    (hc : c ∈ s.handles) (hpc : c.pc = .delivering (x :: todo) blocked) :
    ∃ sub, s.subs[x]? = some sub ∧ sub.chClosed = false := by
  obtain ⟨sub, hsub, hlive⟩ := h.serving c hc _ _ hpc x mem_cons_self
  exact ⟨sub, hsub, h.registry.channel_open x sub hsub hlive⟩

end Bus

/-! ### The work comes to an end -/

/-- The work of a call to `HandleEvent` that has at most `room` subscribers to serve: for each of
    them one step to send, one for the consumer to receive, and perhaps one to find it full. -/
def HandlePc.work (room : Nat) : HandlePc → Nat
  | .checking => 3 * room + 4
  | .locking => 3 * room + 3
  | .delivering todo blocked => 3 * todo.length + if blocked then 1 else 2
  | .returned _ _ => 0

/-- The steps a writing call has left. -/
def WritePc.work : WritePc → Nat
  | .start => 4
  | .waiting => 3
  | .announced => 2
  | .holding => 1
  | .returned => 0

/-- The subscribers a call is still going to add. -/
def WriteCall.adds (w : WriteCall) : Nat :=
  match w.op, w.pc with
  | .subscribe _, .returned => 0
  | .subscribe _, _ => 1
  | _, _ => 0

namespace Bus

/-- The work of the calls to `HandleEvent`. -/
def handling (room : Nat) (handles : List HandleCall) : Nat :=
  (handles.map fun c => c.pc.work room).sum

/-- The work of the calls that take the write lock. -/
def writing (writes : List WriteCall) : Nat := (writes.map fun w => w.pc.work).sum

variable {i x : Nat} {c : HandleCall} {w : WriteCall} {sub : Subscriber}

theorem handling_modify {handles : List HandleCall} (hc : handles[i]? = some c) (room : Nat)
    (pc : HandlePc) :
    handling room (handles.modify i fun c => { c with pc := pc }) + c.pc.work room =
      handling room handles + pc.work room :=
  sum_map_modify (fun c : HandleCall => c.pc.work room) hc

/-- And so does a writing call. -/
theorem writing_modify {writes : List WriteCall} (hw : writes[i]? = some w) (pc : WritePc) :
    writing (writes.modify i fun w => { w with pc := pc }) + w.pc.work = writing writes + pc.work :=
  sum_map_modify (fun w : WriteCall => w.pc.work) hw

/-- The subscribers there are and those to come. -/
def room (s : Bus) : Nat := s.subs.length + (s.writes.map WriteCall.adds).sum

/-- The messages that are in channels. -/
def unreceived (s : Bus) : Nat := (s.subs.map fun sub => sub.buffered.length).sum

/-- The work that the calls and consumers have left. -/
def work (s : Bus) : Nat := handling s.room s.handles + writing s.writes + s.unreceived

variable {cap : Nat} {s t : Bus} {a : BusAction}

theorem targets_length_le (h : s.Registry) (e : Event) : (s.targets e).length ≤ s.subs.length := by
  have hsub : s.targets e ⊆ List.range s.subs.length := by
    intro x hx
    obtain ⟨sub, hsub, -⟩ := (mem_targets h).mp hx
    exact mem_range.mpr (getElem?_lt_length hsub)
  have hle := (subperm_of_subset (nodup_targets h e) hsub).length_le
  rwa [length_range] at hle

/-- A call to `HandleEvent` moves on. -/
theorem work_setHandle {pc : HandlePc} (hc : s.handles[i]? = some c)
    (hpc : pc.work s.room < c.pc.work s.room) : (s.setHandle i pc).work < s.work := by
  have hsum := handling_modify hc s.room pc
  show handling s.room (s.handles.modify i _) + writing s.writes + s.unreceived < s.work
  unfold work
  omega

theorem unreceived_setSub {f : Subscriber → Subscriber} (hsub : s.subs[x]? = some sub) :
    (s.setSub x f).unreceived + sub.buffered.length = s.unreceived + (f sub).buffered.length :=
  sum_map_modify (fun sub : Subscriber => sub.buffered.length) hsub

/-- An event goes into a channel. -/
theorem work_send {todo : List Nat} {blocked : Bool} (hc : s.handles[i]? = some c)
    (hpc : c.pc = .delivering (x :: todo) blocked) (hsub : s.subs[x]? = some sub) :
    ((s.setSub x fun sub => { sub with sent := sub.sent ++ [⟨i, c.event⟩] }).setHandle i
      (.delivering todo false)).work < s.work := by
  have hsum := handling_modify hc s.room (.delivering todo false)
  have hsent :=
    unreceived_setSub (f := fun sub => { sub with sent := sub.sent ++ [⟨i, c.event⟩] }) hsub
  have hroom : (s.setSub x fun sub => { sub with sent := sub.sent ++ [⟨i, c.event⟩] }).room =
      s.room := by
    simp only [room, setSub, length_modify]
  -- three steps less for this subscriber; two may be added, to receive the message and to find
  -- the next subscriber full
  have hblocked : 1 ≤ if blocked = true then 1 else 2 := by
    split <;> omega
  show handling (setSub s x _).room (s.handles.modify i _) + writing s.writes +
    (setSub s x _).unreceived < s.work
  unfold work
  rw [hroom]
  simp only [hpc, HandlePc.work, length_cons, Bool.false_eq_true, ↓reduceIte] at hsum
  simp only [Subscriber.buffered, length_drop, length_append, length_singleton]
    at hsent
  omega

/-- An event is received. -/
theorem work_receive (hsub : s.subs[x]? = some sub) (hbuf : sub.buffered ≠ []) :
    (s.setSub x fun sub => { sub with received := sub.received + 1 }).work < s.work := by
  have hsum := unreceived_setSub (f := fun sub => { sub with received := sub.received + 1 }) hsub
  have hroom : (s.setSub x fun sub => { sub with received := sub.received + 1 }).room = s.room := by
    simp only [room, setSub, length_modify]
  have hpos := length_pos_of_ne_nil hbuf
  show handling (setSub s x _).room s.handles + writing s.writes +
    (setSub s x _).unreceived < s.work
  unfold work
  rw [hroom]
  simp only [Subscriber.buffered, length_drop] at hsum hpos
  omega

/-- A writer moves on. -/
theorem work_write (pc : WritePc) (hw : s.writes[i]? = some w) (hhandles : t.handles = s.handles)
    (hwrites : t.writes = s.writes.modify i fun w => { w with pc := pc })
    (hpc : pc.work < w.pc.work) (hunreceived : t.unreceived = s.unreceived)
    (hadds : t.subs.length + WriteCall.adds { w with pc := pc } ≤ s.subs.length + w.adds) :
    t.work < s.work := by
  have hsum := writing_modify hw pc
  have hadd := sum_map_modify (f := fun w => { w with pc := pc }) WriteCall.adds hw
  -- with no more room the calls that still wait have no more to do
  have hroom : t.room ≤ s.room := by
    unfold room
    rw [hwrites]
    omega
  have hmono : handling t.room s.handles ≤ handling s.room s.handles := by
    apply sum_map_le
    intro c
    cases c.pc <;> simp only [HandlePc.work] <;> omega
  unfold work
  rw [hhandles, hwrites, hunreceived]
  omega

/-- A writer moves on before it holds the lock. -/
theorem work_setWrite (pc : WritePc) (hw : s.writes[i]? = some w) (hpc : pc.work < w.pc.work)
    (hhandles : t.handles = s.handles)
    (hwrites : t.writes = s.writes.modify i fun w => { w with pc := pc })
    (hlength : t.subs.length = s.subs.length) (hunreceived : t.unreceived = s.unreceived) :
    t.work < s.work := by
  apply work_write pc hw hhandles hwrites hpc hunreceived
  rw [hlength]
  apply Nat.add_le_add_left
  obtain ⟨op, pc'⟩ := w
  cases op with
  | subscribe kind =>
    -- it has not returned, so it is still going to add its subscriber
    cases pc' with
    | returned => exact absurd hpc (Nat.not_lt_zero _)
    | _ => cases pc <;> simp [WriteCall.adds]
  | unsubscribe x => exact Nat.le_refl _
  | shutdown => exact Nat.le_refl _

theorem unreceived_setSub_other (s : Bus) (x : Nat) {f : Subscriber → Subscriber}
    (hf : ∀ sub, (f sub).buffered = sub.buffered) : (s.setSub x f).unreceived = s.unreceived := by
  have hmap := map_modify_of_eq (l := s.subs) (i := x)
    (g := fun sub => sub.buffered.length) fun sub => congrArg List.length (hf sub)
  exact congrArg List.sum hmap

theorem work_prepare (hw : s.writes[i]? = some w) (hpc : w.pc = .start) :
    (s.prepareOp i w.op).work < s.work := by
  have hlt : ∀ pc : WritePc, pc ≠ .start → pc.work < w.pc.work := by
    intro pc hne
    rw [hpc]
    cases pc with
    | start => exact absurd rfl hne
    | _ => simp [WritePc.work]
  cases hop : w.op with
  | subscribe kind => exact work_setWrite .waiting hw (hlt _ (by simp)) rfl rfl rfl rfl
  | unsubscribe x =>
    refine work_setWrite .waiting hw (hlt _ (by simp)) rfl rfl ?_ ?_
    · exact length_modify _ _ _
    · exact unreceived_setSub_other s x fun _ => rfl
  | shutdown =>
    simp only [prepareOp]
    split
    · exact work_setWrite .returned hw (hlt _ (by simp)) rfl rfl rfl rfl
    · exact work_setWrite .waiting hw (hlt _ (by simp)) rfl rfl rfl rfl

/-- Under the lock at most the one subscriber is added that was to be added, and nothing is sent
    or received. -/
theorem perform_subs (s : Bus) (op : WriteOp) :
    (s.perform op).subs.length ≤ s.subs.length + WriteCall.adds ⟨op, .holding⟩ ∧
      (s.perform op).unreceived = s.unreceived := by
  cases op with
  | subscribe kind =>
    unfold unreceived
    rw [perform_subscribe_subs]
    -- the new channel is empty
    simp [WriteCall.adds, newSubscriber, Subscriber.buffered]
  | unsubscribe x =>
    have hquiet := unreceived_setSub_other s x (f := fun sub => { sub with live := false })
      fun _ => rfl
    unfold unreceived at hquiet ⊢
    rw [perform_unsubscribe_subs]
    exact ⟨Nat.le_of_eq (length_modify _ _ _), hquiet⟩
  | shutdown =>
    constructor
    · simp [perform, closeAll]
    · apply congrArg List.sum
      apply ext_getElem?
      intro x
      simp only [perform, closeAll, getElem?_mapIdx, getElem?_map]
      cases s.subs[x]? with
      | none => rfl
      | some sub =>
        simp only [Option.map_some]
        split <;> rfl

/-- What a writer does under the lock. -/
theorem work_body (hw : s.writes[i]? = some w) (hpc : w.pc = .holding) :
    ({ (s.perform w.op).setWrite i .returned with writer := none } : Bus).work < s.work := by
  obtain ⟨hlength, hunreceived⟩ := perform_subs s w.op
  apply work_write .returned hw
  · exact perform_handles s w.op
  · show (s.perform w.op).writes.modify i _ = _
    rw [perform_writes]
  · rw [hpc]
    exact Nat.zero_lt_one
  · exact hunreceived
  · obtain ⟨op, pc⟩ := w
    obtain rfl := hpc
    have hzero : WriteCall.adds ⟨op, .returned⟩ = 0 := by
      cases op <;> rfl
    show (s.perform op).subs.length + WriteCall.adds ⟨op, .returned⟩ ≤ _
    rw [hzero]
    exact hlength

/-- Every step of the work leaves less of it. -/
theorem work_moves (h : s.Registry) (hmoves : Moves cap s a t) (ha : a.isWork = true) :
    t.work < s.work := by
  cases hmoves with
  | callHandle producer event hidle => exact nomatch ha
  | callSubscribe kind => exact nomatch ha
  | callUnsubscribe x hx => exact nomatch ha
  | callShutdown => exact nomatch ha
  | stop x sub hsub hunsub => exact nomatch ha
  | receive x sub hsub hbuf => exact work_receive hsub hbuf
  | refuse i c hc hpc => exact work_setHandle hc (by rw [hpc]; simp [HandlePc.work])
  | accept i c hc hpc => exact work_setHandle hc (by rw [hpc]; simp [HandlePc.work])
  | rlock i c hc hpc hwriter =>
    -- the call has counted on all subscribers there may be by then
    have hle := targets_length_le h c.event
    have hroom : s.subs.length ≤ s.room := Nat.le_add_right _ _
    apply work_setHandle hc
    simp only [hpc, HandlePc.work, Bool.false_eq_true, ↓reduceIte]
    omega
  | send i c hc x todo blocked hpc sub hsub => exact work_send hc hpc hsub
  | block i c hc x todo hpc => exact work_setHandle hc (by rw [hpc]; simp [HandlePc.work])
  | giveUp i c hc x todo hpc sub hsub hgive =>
    apply work_setHandle hc
    simp only [hpc, HandlePc.work, length_cons, Bool.false_eq_true, ↓reduceIte]
    omega
  | poll i => exact nomatch ha
  | finish i c hc blocked hpc =>
    apply work_setHandle hc
    simp only [hpc, HandlePc.work]
    split <;> omega
  | prepare i w hw hpc => exact work_prepare hw hpc
  | announce i w hw hpc hwriter =>
    exact work_setWrite .announced hw (by rw [hpc]; decide) rfl rfl rfl rfl
  | acquire i w hw hpc hreaders =>
    exact work_setWrite .holding hw (by rw [hpc]; decide) rfl rfl rfl rfl
  | body i w hw hpc => exact work_body hw hpc

/-- A run of the work is no longer than the work there is. -/
theorem work_run (h : s.Progress) {actions : List BusAction}
    (hwork : ∀ a ∈ actions, a.isWork = true)
    (hrun : runSteps (Bus.step cap) s actions = some t) : t.work + actions.length ≤ s.work := by
  induction actions generalizing s with
  | nil =>
    rw [runSteps_nil, Option.some.injEq] at hrun
    rw [hrun]
    exact Nat.le_refl _
  | cons a actions ih =>
    rw [runSteps_cons, Option.bind_eq_some_iff] at hrun
    obtain ⟨s₁, h₁, hrest⟩ := hrun
    have hle := ih (h.step h₁) (fun b hb => hwork b (mem_cons_of_mem _ hb)) hrest
    obtain ⟨u, hmoves, rfl⟩ := step_moves h₁
    have hlt : u.work < s.work := work_moves h.registry hmoves (hwork a mem_cons_self)
    have htick : u.tick.work = u.work := rfl
    rw [length_cons]
    omega

end Bus

/-- In every state that any interleaving of calls leads to, the channel a call turns to is open;
    while a call has not returned, some call or consumer can move on; and they can do so only a
    bounded number of times before every call has returned. -/
theorem never_stuck {cap : Nat} (hcap : 0 < cap) {actions : List BusAction} {s : Bus}
    (hrun : runSteps (Bus.step cap) newService actions = some s) :
    (∀ c ∈ s.handles, ∀ x todo blocked, c.pc = .delivering (x :: todo) blocked →
      ∃ sub, s.subs[x]? = some sub ∧ sub.chClosed = false) ∧
    (s.Unfinished → ∃ a : BusAction, a.isWork = true ∧ (s.step cap a).isSome = true) ∧
    ∃ bound, ∀ work t, (∀ a ∈ work, a.isWork = true) →
      runSteps (Bus.step cap) s work = some t → work.length ≤ bound := by
  have h := Bus.Progress.of_run hrun
  refine ⟨fun c hc x todo blocked hpc => h.channel_open hc hpc, h.canWork hcap, s.work, ?_⟩
  intro work t hwork hwork_run
  have := Bus.work_run h hwork hwork_run
  omega

/-- A producer makes two calls to a service with one subscriber, whose consumer calls its
    unsubscribe and stops without having received anything. -/
def abandoned : List BusAction :=
  [.callSubscribe .global, .prepare 0, .announce 0, .acquire 0, .body 0,
    .callHandle 7 (newEvent .commit [] [] [] [] []), .check 0, .rlock 0, .send 0, .finish 0,
    .callHandle 7 (newEvent .commit [] [] [] [] []), .check 1, .rlock 1, .block 1,
    .callUnsubscribe 0, .stop 0]

theorem never_stuck_abandoned :
    ∃ s, runSteps (Bus.step 1) newService abandoned = some s ∧ s.Unfinished ∧
      ∃ a : BusAction, a.isWork = true ∧ (s.step 1 a).isSome = true := by
  have hunfinished : ∀ s, runSteps (Bus.step 1) newService abandoned = some s → s.Unfinished := by
    rintro s ⟨⟩
    exact .inr ⟨⟨.unsubscribe 0, .start⟩, by decide, by decide⟩
  refine ⟨_, rfl, hunfinished _ rfl, ?_⟩
  exact (@never_stuck 1 Nat.zero_lt_one abandoned _ rfl).2.1 (hunfinished _ rfl)

end Cdc
