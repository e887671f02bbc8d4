import Watcher.Spec.BusProgress

/-!
# What the users of the bus can rely on

A step within the calls that have been made, or the receiving of an event, leaves
alone who has made which call and who is subscribed (`Bus.Keeps`). The calls add a
known amount of work. And once the consumers are on their way out, the calls come
to their ends without anything being received (`Bus.Progress.canWork_inside`).
-/

namespace Cdc

open List Option

namespace Bus

/-! ### What stays -/

/-- The calls that were made are those of `s`, perhaps further on, and the subscribers of `s` are
    still there. -/
structure Keeps (s t : Bus) : Prop where
  handles : t.handles.length = s.handles.length
  handle : ∀ (i : Nat) (c : HandleCall), s.handles[i]? = some c →
    ∃ pc, t.handles[i]? = some { c with pc := pc } ∧ (c.pc.finished = true → pc.finished = true)
  writes : t.writes.length = s.writes.length
  write : ∀ (i : Nat) (w : WriteCall), s.writes[i]? = some w →
    ∃ pc, t.writes[i]? = some { w with pc := pc } ∧ (w.pc = .returned → pc = .returned)
  begun : KeepsBegun s.subs t.subs
  room : t.room = s.room
  subs : s.subs.length ≤ t.subs.length
  shutdown : t.shutdownBegan = s.shutdownBegan
  /-- Without a call to `HandleEvent` nothing is sent. -/
  unsent : s.handles = [] → (∀ sub ∈ s.subs, sub.sent = []) → ∀ sub ∈ t.subs, sub.sent = []

namespace Keeps

variable {s t : Bus}

/-- Nothing happened. -/
theorem refl (s : Bus) : Keeps s s where
  handles := rfl
  handle _ c hc := ⟨c.pc, hc, id⟩
  writes := rfl
  write _ w hw := ⟨w.pc, hw, id⟩
  begun := .rfl
  room := rfl
  subs := Nat.le_refl _
  shutdown := rfl
  unsent _ h := h

/-- One step after the other. -/
theorem trans {u : Bus} (h : Keeps s t) (h' : Keeps t u) : Keeps s u where
  handles := h'.handles.trans h.handles
  handle i c hc := by
    obtain ⟨pc, hpc, hfin⟩ := h.handle i c hc
    obtain ⟨pc', hpc', hfin'⟩ := h'.handle i _ hpc
    exact ⟨pc', hpc', fun hc => hfin' (hfin hc)⟩
  writes := h'.writes.trans h.writes
  write i w hw := by
    obtain ⟨pc, hpc, hret⟩ := h.write i w hw
    obtain ⟨pc', hpc', hret'⟩ := h'.write i _ hpc
    exact ⟨pc', hpc', fun hw => hret' (hret hw)⟩
  begun x sub hsub hne := by
    obtain ⟨sub', hsub', hne'⟩ := h.begun x sub hsub hne
    exact h'.begun x sub' hsub' hne'
  room := h'.room.trans h.room
  subs := Nat.le_trans h.subs h'.subs
  shutdown := h'.shutdown.trans h.shutdown
  unsent hnil hsent := by
    have hnil' : t.handles = [] := by
      rw [← length_eq_zero_iff, h.handles, hnil, length_nil]
    exact h'.unsent hnil' (h.unsent hnil hsent)

end Keeps

variable {cap : Nat} {s t : Bus} {a : BusAction}

variable {i x : Nat} {w : WriteCall}

/-- A call to `HandleEvent` moves on. -/
theorem keeps_setHandle {c : HandleCall} (hc : s.handles[i]? = some c)
    (hpc : c.pc.finished = false) (pc : HandlePc) : Keeps s (s.setHandle i pc) where
  handles := length_modify _ _ _
  handle j d hd := by
    by_cases hij : i = j
    · subst hij
      obtain rfl := some.inj (hc.symm.trans hd)
      refine ⟨pc, getElem?_modify_eq_some.mpr ⟨c, hc, (if_pos rfl).symm⟩, fun hfin => ?_⟩
      rw [hpc] at hfin
      cases hfin
    · exact ⟨d.pc, getElem?_modify_eq_some.mpr ⟨d, hd, (if_neg hij).symm⟩, id⟩
  writes := rfl
  write _ w hw := ⟨w.pc, hw, id⟩
  begun := .rfl
  room := rfl
  subs := Nat.le_refl _
  shutdown := rfl
  unsent _ h := h

/-- Something about a subscriber changes. -/
theorem keeps_setSub (x : Nat) {f : Subscriber → Subscriber}
    (hbegan : ∀ sub, (f sub).unsubBegan = sub.unsubBegan)
    (hsent : s.handles = [] → ∀ sub, (f sub).sent = sub.sent) : Keeps s (s.setSub x f) where
  handles := rfl
  handle _ c hc := ⟨c.pc, hc, id⟩
  writes := rfl
  write _ w hw := ⟨w.pc, hw, id⟩
  begun := .modify x fun sub hne => by rwa [hbegan]
  room := by simp only [Bus.room, setSub, length_modify]
  subs := Nat.le_of_eq (length_modify _ _ _).symm
  shutdown := rfl
  unsent hnil hall := forall_mem_modify hall fun sub _ hsub => by rw [hsent hnil, hsub]

/-- A writing call moves on, and has added its subscriber if it has returned. -/
theorem keeps_write (pc : WritePc) (hw : s.writes[i]? = some w) (hpc : w.pc ≠ .returned)
    (hhandles : t.handles = s.handles)
    (hwrites : t.writes = s.writes.modify i fun w => { w with pc := pc })
    (hbegun : KeepsBegun s.subs t.subs) (hsubs : s.subs.length ≤ t.subs.length)
    (hadds : t.subs.length + WriteCall.adds { w with pc := pc } = s.subs.length + w.adds)
    (hshutdown : t.shutdownBegan = s.shutdownBegan)
    (hsent : (∀ sub ∈ s.subs, sub.sent = []) → ∀ sub ∈ t.subs, sub.sent = []) : Keeps s t where
  handles := by rw [hhandles]
  handle _ c hc := ⟨c.pc, by rw [hhandles]; exact hc, id⟩
  writes := by rw [hwrites, length_modify]
  write j v hv := by
    rw [hwrites]
    by_cases hij : i = j
    · subst hij
      obtain rfl := some.inj (hw.symm.trans hv)
      exact ⟨pc, getElem?_modify_eq_some.mpr ⟨w, hw, (if_pos rfl).symm⟩, fun h => absurd h hpc⟩
    · exact ⟨v.pc, getElem?_modify_eq_some.mpr ⟨v, hv, (if_neg hij).symm⟩, id⟩
  begun := hbegun
  room := by
    have hsum := sum_map_modify (f := fun w => { w with pc := pc }) WriteCall.adds hw
    unfold Bus.room
    rw [hwrites]
    omega
  subs := hsubs
  shutdown := hshutdown
  unsent _ := hsent

/-- A writing call that does not return adds its subscriber later. -/
theorem adds_of_ne_returned {pc : WritePc} (hw : w.pc ≠ .returned) (hpc : pc ≠ .returned) :
    WriteCall.adds { w with pc := pc } = w.adds := by
  obtain ⟨op, pc'⟩ := w
  cases op with
  | subscribe kind => cases pc <;> cases pc' <;> simp_all [WriteCall.adds]
  | unsubscribe x => rfl
  | shutdown => rfl

/-- What a writer does before it asks for the lock. -/
theorem keeps_prepare (hw : s.writes[i]? = some w) (hpc : w.pc = .start) :
    Keeps s (s.prepareOp i w.op) := by
  have hne : w.pc ≠ .returned := by rw [hpc]; simp
  have hadds : WriteCall.adds { w with pc := .waiting } = w.adds :=
    adds_of_ne_returned hne (by simp)
  cases hop : w.op with
  | subscribe kind =>
    exact keeps_write .waiting hw hne rfl rfl .rfl (Nat.le_refl _)
      (congrArg (s.subs.length + ·) hadds) rfl id
  | unsubscribe x =>
    have hsub := keeps_setSub (s := s) x (f := fun sub => { sub with done := true })
      (fun _ => rfl) fun _ _ => rfl
    refine hsub.trans ?_
    exact keeps_write .waiting hw hne rfl rfl .rfl (Nat.le_refl _)
      (congrArg ((s.setSub x fun sub => { sub with done := true }).subs.length + ·) hadds) rfl id
  | shutdown =>
    simp only [prepareOp]
    split
    · refine keeps_write .returned hw hne rfl rfl .rfl (Nat.le_refl _) ?_ rfl id
      show s.subs.length + WriteCall.adds ⟨w.op, .returned⟩ = s.subs.length + w.adds
      rw [show w.adds = WriteCall.adds ⟨w.op, w.pc⟩ from rfl, hop]
      rfl
    · exact keeps_write .waiting hw hne rfl rfl .rfl (Nat.le_refl _)
        (congrArg (s.subs.length + ·) hadds) rfl id

/-- What is done under the lock keeps what has begun, and sends nothing. -/
theorem perform_keeps (s : Bus) (op : WriteOp) :
    KeepsBegun s.subs (s.perform op).subs ∧
      (s.perform op).subs.length = s.subs.length + WriteCall.adds ⟨op, .holding⟩ ∧
      ((∀ sub ∈ s.subs, sub.sent = []) → ∀ sub ∈ (s.perform op).subs, sub.sent = []) := by
  cases op with
  | subscribe kind =>
    rw [perform_subscribe_subs]
    refine ⟨?_, by simp [WriteCall.adds], fun h => forall_mem_concat h rfl⟩
    exact fun x sub hsub hne => ⟨sub, getElem?_concat_eq_some.mpr (.inl hsub), hne⟩
  | unsubscribe x =>
    rw [perform_unsubscribe_subs]
    refine ⟨.modify x fun _ hne => hne, length_modify _ _ _, fun h => ?_⟩
    exact forall_mem_modify h fun _ _ hsub => hsub
  | shutdown =>
    refine ⟨?_, by simp [perform, closeAll, WriteCall.adds], ?_⟩
    · intro x sub hsub hne
      refine ⟨_, perform_shutdown_subs.mpr ⟨sub, hsub, rfl⟩, ?_⟩
      split <;> exact hne
    · intro h sub hsub
      obtain ⟨x, hx⟩ := mem_iff_getElem?.mp hsub
      obtain ⟨old, hold, rfl⟩ := perform_shutdown_subs.mp hx
      have hnil := h old (mem_of_getElem? hold)
      split <;> exact hnil

/-- What a writer does under the lock. -/
theorem keeps_body (hw : s.writes[i]? = some w) (hpc : w.pc = .holding) :
    Keeps s { (s.perform w.op).setWrite i .returned with writer := none } := by
  obtain ⟨hbegun, hlength, hsent⟩ := perform_keeps s w.op
  have hadds : WriteCall.adds ⟨w.op, .returned⟩ = 0 := by
    cases w.op <;> rfl
  have hw' : w.adds = WriteCall.adds ⟨w.op, .holding⟩ := by
    rw [← hpc]
  apply keeps_write .returned hw (by rw [hpc]; simp)
  · exact perform_handles s w.op
  · show (s.perform w.op).writes.modify i _ = _
    rw [perform_writes]
  · exact hbegun
  · show s.subs.length ≤ (s.perform w.op).subs.length
    omega
  · show (s.perform w.op).subs.length + WriteCall.adds ⟨w.op, .returned⟩ = _
    omega
  · exact perform_shutdownBegan s w.op
  · exact hsent

/-- Every move within the calls, and every receiving, keeps what there is. -/
theorem keeps_moves (hmoves : Moves cap s a t)
    (ha : a.inside = true ∨ ∃ x, a = .receive x) : Keeps s t := by
  cases hmoves with
  | callHandle producer event hidle => simp [BusAction.inside] at ha
  | callSubscribe kind => simp [BusAction.inside] at ha
  | callUnsubscribe x hx => simp [BusAction.inside] at ha
  | callShutdown => simp [BusAction.inside] at ha
  | stop x sub hsub hunsub => simp [BusAction.inside] at ha
  | receive x sub hsub hbuf => exact keeps_setSub x (fun _ => rfl) fun _ _ => rfl
  | refuse i c hc hpc => exact keeps_setHandle hc (by rw [hpc]; rfl) _
  | accept i c hc hpc => exact keeps_setHandle hc (by rw [hpc]; rfl) _
  | rlock i c hc hpc hwriter => exact keeps_setHandle hc (by rw [hpc]; rfl) _
  | send i c hc x todo blocked hpc sub hsub =>
    -- the channel first, then the call that has sent
    have hkeeps := keeps_setSub (s := s) x
      (f := fun sub => { sub with sent := sub.sent ++ [⟨i, c.event⟩] }) (fun _ => rfl) fun hnil _ =>
        absurd hc (by simp [hnil])
    exact hkeeps.trans (keeps_setHandle (s := s.setSub x _) hc (by rw [hpc]; rfl) _)
  | block i c hc x todo hpc => exact keeps_setHandle hc (by rw [hpc]; rfl) _
  | giveUp i c hc x todo hpc sub hsub hgive => exact keeps_setHandle hc (by rw [hpc]; rfl) _
  | poll i => exact .refl s
  | finish i c hc blocked hpc => exact keeps_setHandle hc (by rw [hpc]; rfl) _
  | prepare i w hw hpc => exact keeps_prepare hw hpc
  | announce i w hw hpc hwriter =>
    exact keeps_write .announced hw (by rw [hpc]; simp) rfl rfl .rfl (Nat.le_refl _)
      (congrArg (s.subs.length + ·) (adds_of_ne_returned (by rw [hpc]; simp) (by simp))) rfl id
  | acquire i w hw hpc hreaders =>
    exact keeps_write .holding hw (by rw [hpc]; simp) rfl rfl .rfl (Nat.le_refl _)
      (congrArg (s.subs.length + ·) (adds_of_ne_returned (by rw [hpc]; simp) (by simp))) rfl id
  | body i w hw hpc => exact keeps_body hw hpc

/-- And so does every such step. -/
theorem keeps_step (hstep : s.step cap a = some t)
    (ha : a.inside = true ∨ ∃ x, a = .receive x) : Keeps s t := by
  obtain ⟨u, hmoves, rfl⟩ := step_moves hstep
  have hkeeps := keeps_moves hmoves ha
  exact ⟨hkeeps.handles, hkeeps.handle, hkeeps.writes, hkeeps.write, hkeeps.begun, hkeeps.room,
    hkeeps.subs, hkeeps.shutdown, hkeeps.unsent⟩

/-! ### What calls add -/

/-- One more call to `HandleEvent`. -/
theorem handling_append (room : Nat) (handles : List HandleCall) (c : HandleCall) :
    handling room (handles ++ [c]) = handling room handles + c.pc.work room := by
  simp [handling]

/-- One more writing call. -/
theorem writing_append (writes : List WriteCall) (w : WriteCall) :
    writing (writes ++ [w]) = writing writes + w.pc.work := by
  simp [writing]

/-- A call to `HandleEvent` is made. -/
theorem work_callHandle {producer : Nat} {event : Event}
    (hstep : s.step cap (.callHandle producer event) = some t) :
    t.work = s.work + (3 * s.room + 4) ∧ t.room = s.room := by
  obtain ⟨u, hmoves, rfl⟩ := step_moves hstep
  cases hmoves
  refine ⟨?_, rfl⟩
  show handling s.room (s.handles ++ [_]) + writing s.writes + s.unreceived = _
  rw [handling_append]
  simp only [work, HandlePc.work]
  omega

/-- A call that adds no subscriber is made. -/
theorem work_callWrite (op : WriteOp) (hop : WriteCall.adds ⟨op, .start⟩ = 0)
    (hhandles : t.handles = s.handles) (hwrites : t.writes = s.writes ++ [⟨op, .start⟩])
    (hlength : t.subs.length = s.subs.length) (hunreceived : t.unreceived = s.unreceived) :
    t.work = s.work + 4 ∧ t.room = s.room := by
  have hroom : t.room = s.room := by
    simp only [room, hwrites, hlength, map_append, map_cons, map_nil,
      sum_append, sum_cons, sum_nil, hop, Nat.add_zero]
  refine ⟨?_, hroom⟩
  simp only [work, hroom, hhandles, hwrites, hunreceived, writing_append, WritePc.work]
  omega

/-- An unsubscribe is called. -/
theorem work_callUnsubscribe (hstep : s.step cap (.callUnsubscribe x) = some t) :
    t.work = s.work + 4 ∧ t.room = s.room := by
  obtain ⟨u, hmoves, rfl⟩ := step_moves hstep
  cases hmoves
  refine work_callWrite (.unsubscribe x) rfl rfl rfl (length_modify _ _ _) ?_
  exact unreceived_setSub_other s x fun _ => rfl

/-- `Shutdown` is called. -/
theorem work_callShutdown (hstep : s.step cap .callShutdown = some t) :
    t.work = s.work + 4 ∧ t.room = s.room := by
  obtain ⟨u, hmoves, rfl⟩ := step_moves hstep
  cases hmoves
  exact work_callWrite .shutdown rfl rfl rfl rfl rfl

/-- A subscription is asked for while there are no calls to `HandleEvent`. -/
theorem work_callSubscribe {kind : Kind} (hnil : s.handles = [])
    (hstep : s.step cap (.callSubscribe kind) = some t) : t.work = s.work + 4 := by
  obtain ⟨u, hmoves, rfl⟩ := step_moves hstep
  cases hmoves
  show handling _ s.handles + writing (s.writes ++ [_]) + s.unreceived = _
  simp only [work, hnil, handling, map_nil, sum_nil, writing_append, WritePc.work]
  omega

/-- A step of the work leaves less of it. -/
theorem work_step (h : s.Progress) (hstep : s.step cap a = some t) (ha : a.isWork = true) :
    t.work < s.work := by
  obtain ⟨u, hmoves, rfl⟩ := step_moves hstep
  have htick : u.tick.work = u.work := rfl
  rw [htick]
  exact work_moves h.registry hmoves ha

/-! ### Progress without the consumers -/

/-- A consumer that stops receiving. -/
def deafened (s : Bus) (x : Nat) : Bus := s.setSub x fun sub => { sub with consuming := false }

@[simp] theorem deafened_handles (s : Bus) (x : Nat) : (s.deafened x).handles = s.handles := rfl

@[simp] theorem deafened_writes (s : Bus) (x : Nat) : (s.deafened x).writes = s.writes := rfl

@[simp] theorem deafened_writer (s : Bus) (x : Nat) : (s.deafened x).writer = s.writer := rfl

@[simp] theorem deafened_closed (s : Bus) (x : Nat) : (s.deafened x).closed = s.closed := rfl

theorem deafened_subs (cap : Nat) (s : Bus) (x y : Nat) :
    ∃ f : Subscriber → Subscriber, (s.deafened x).subs[y]? = s.subs[y]?.map f ∧
      ∀ sub, (f sub).full cap = sub.full cap ∧ (f sub).done = sub.done := by
  refine ⟨fun sub => if x = y then { sub with consuming := false } else sub, ?_, ?_⟩
  · simp only [deafened, setSub, getElem?_modify]
    cases s.subs[y]? with
    | none => rfl
    | some sub => simp only [Option.map_eq_map, Option.map_some]
  · intro sub
    dsimp only
    split <;> exact ⟨rfl, rfl⟩

/-- A call to `HandleEvent` does not see whether a consumer receives. -/
theorem stepHandle_deafened {c : HandleCall}
    (ha : a ∈ [.check i, .rlock i, .send i, .block i, .giveUp i, .poll i, .finish i]) :
    ((s.deafened x).stepHandle cap i c a).isSome = (s.stepHandle cap i c a).isSome := by
  simp only [mem_cons, not_mem_nil, or_false] at ha
  cases hpc : c.pc with
  | checking =>
    by_cases hok : Service.handleEvent ⟨s.closed⟩ c.event = true <;>
      rcases ha with rfl | rfl | rfl | rfl | rfl | rfl | rfl <;> simp [stepHandle, hpc, hok]
  | locking =>
    cases hwriter : s.writer <;>
      rcases ha with rfl | rfl | rfl | rfl | rfl | rfl | rfl <;> simp [stepHandle, hpc, hwriter]
  | returned accepted ended =>
    rcases ha with rfl | rfl | rfl | rfl | rfl | rfl | rfl <;> simp [stepHandle, hpc]
  | delivering todo blocked =>
    cases todo with
    | nil => rcases ha with rfl | rfl | rfl | rfl | rfl | rfl | rfl <;> simp [stepHandle, hpc]
    | cons y todo =>
      -- only these calls look at a subscriber
      obtain ⟨f, hf, hsame⟩ := deafened_subs cap s x y
      cases hsub : s.subs[y]? with
      | none =>
        rw [hsub, map_none] at hf
        cases blocked <;> cases hclosed : s.closed <;>
          rcases ha with rfl | rfl | rfl | rfl | rfl | rfl | rfl <;>
          simp [stepHandle, hpc, hf, hsub, hclosed]
      | some sub =>
        rw [hsub, map_some] at hf
        obtain ⟨hfull, hdone⟩ := hsame sub
        cases blocked <;> cases hclosed : s.closed <;>
          rcases ha with rfl | rfl | rfl | rfl | rfl | rfl | rfl <;>
          simp [stepHandle, hpc, hf, hsub, hfull, hdone, hclosed, apply_ite Option.isSome]

/-- Neither does a writing call. -/
theorem stepWrite_deafened (ha : a ∈ [.prepare i, .announce i, .acquire i, .body i]) :
    ((s.deafened x).stepWrite i w a).isSome = (s.stepWrite i w a).isSome := by
  simp only [mem_cons, not_mem_nil, or_false] at ha
  rcases ha with rfl | rfl | rfl | rfl
  · by_cases hpc : w.pc = .start <;> simp [stepWrite, hpc]
  · by_cases hguard : w.pc = .waiting ∧ s.writer = none <;> simp [stepWrite, hguard]
  · by_cases hguard : w.pc = .announced ∧ s.handles.all (fun c => !c.pc.reading) = true
    · rw [stepWrite, stepWrite, deafened_handles, if_pos hguard, if_pos hguard]
      rfl
    · rw [stepWrite, stepWrite, deafened_handles, if_neg hguard, if_neg hguard]
  · by_cases hpc : w.pc = .holding <;> simp [stepWrite, hpc]

/-- A consumer that stops receiving stops nobody else. -/
theorem act_deafened (x : Nat) (ha : a.inside = true) :
    ((s.deafened x).act cap a).isSome = (s.act cap a).isSome := by
  -- the steps of a call to `HandleEvent`, and below those of a writing call
  have hhandle : ∀ {i b},
      b ∈ [.check i, .rlock i, .send i, .block i, .giveUp i, .poll i, .finish i] →
      ((s.deafened x).handles[i]?.bind fun c => (s.deafened x).stepHandle cap i c b).isSome =
        (s.handles[i]?.bind fun c => s.stepHandle cap i c b).isSome := by
    intro i b hb
    rw [deafened_handles]
    cases s.handles[i]? with
    | none => rfl
    | some c => exact stepHandle_deafened hb
  have hwrite : ∀ {i b}, b ∈ [.prepare i, .announce i, .acquire i, .body i] →
      ((s.deafened x).writes[i]?.bind fun w => (s.deafened x).stepWrite i w b).isSome =
        (s.writes[i]?.bind fun w => s.stepWrite i w b).isSome := by
    intro i b hb
    rw [deafened_writes]
    cases s.writes[i]? with
    | none => rfl
    | some w => exact stepWrite_deafened hb
  cases a with
  | callHandle producer event => cases ha
  | callSubscribe kind => cases ha
  | callUnsubscribe x => cases ha
  | callShutdown => cases ha
  | stop x => cases ha
  | receive x => cases ha
  | check i => exact hhandle (by simp)
  | rlock i => exact hhandle (by simp)
  | send i => exact hhandle (by simp)
  | block i => exact hhandle (by simp)
  | giveUp i => exact hhandle (by simp)
  | poll i => exact hhandle (by simp)
  | finish i => exact hhandle (by simp)
  | prepare i => exact hwrite (by simp)
  | announce i => exact hwrite (by simp)
  | acquire i => exact hwrite (by simp)
  | body i => exact hwrite (by simp)

/-- Some work that is done within a call can be done. -/
def CanWorkInside (cap : Nat) (s : Bus) : Prop :=
  ∃ a : BusAction, a.isWork = true ∧ a.inside = true ∧ (s.step cap a).isSome = true

theorem inside_of_isWork (ha : a.isWork = true) (hne : ∀ x, a ≠ .receive x) : a.inside = true := by
  cases a with
  | receive x => exact absurd rfl (hne x)
  | _ => first | rfl | cases ha

/-- Where nothing was sent a call moves on without anything being received. -/
theorem Progress.canWorkInside_of_unsent (h : s.Progress) (hcap : 0 < cap)
    (hunfinished : s.Unfinished) (hsent : ∀ sub ∈ s.subs, sub.sent = []) : s.CanWorkInside cap := by
  obtain ⟨a, ha, hstep⟩ := h.canWork hcap hunfinished
  refine ⟨a, ha, inside_of_isWork ha ?_, hstep⟩
  rintro x rfl
  obtain ⟨t, ht⟩ := isSome_iff_exists.mp hstep
  obtain ⟨u, hmoves, -⟩ := step_moves ht
  cases hmoves with
  | receive x sub hsub hbuf =>
    apply hbuf
    rw [Subscriber.buffered, hsent sub (mem_of_getElem? hsub), drop_nil]

/-- Once the only subscriber is on its way out, a call moves on without anything being
    received. -/
theorem Progress.canWorkInside_of_left (h : s.Progress) (hcap : 0 < cap)
    (hunfinished : s.Unfinished) {sub : Subscriber} (hsub : s.subs = [sub])
    (hleft : sub.unsubBegan ≠ none) : s.CanWorkInside cap := by
  -- as if its consumer had stopped
  have hstop : s.step cap (.stop 0) = some (s.deafened 0).tick := by
    simp [Bus.step, act, hsub, isSome_iff_ne_none.mpr hleft, deafened]
  have hprogress := h.step hstop
  have hdeafened : (s.deafened 0).Progress :=
    ⟨hprogress.lock, hprogress.registry, hprogress.serving, hprogress.stop⟩
  obtain ⟨a, ha, hact⟩ := hdeafened.canWork hcap hunfinished
  rw [Bus.step, isSome_map] at hact
  have hinside : a.inside = true := by
    apply inside_of_isWork ha
    rintro x rfl
    obtain ⟨t, ht⟩ := isSome_iff_exists.mp hact
    simp only [act, deafened, setSub, hsub] at ht
    cases x <;> simp at ht
  refine ⟨a, ha, hinside, ?_⟩
  rw [Bus.step, isSome_map, ← act_deafened 0 hinside]
  exact hact

/-! ### Who closes the channels -/

/-- Only its call begins `Shutdown`. -/
theorem shutdownBegan_step (hstep : s.step cap a = some t) (ha : a ≠ .callShutdown) :
    t.shutdownBegan = s.shutdownBegan := by
  obtain ⟨u, hmoves, rfl⟩ := step_moves hstep
  show u.shutdownBegan = s.shutdownBegan
  cases hmoves with
  | callShutdown => exact absurd rfl ha
  | prepare i w hw hpc => exact (keeps_prepare hw hpc).shutdown
  | body i w hw hpc => exact (keeps_body hw hpc).shutdown
  | _ => rfl

/-- Channels are closed by `Shutdown` only. -/
def Shut (s : Bus) : Prop := ∀ sub ∈ s.subs, sub.chClosed = true → s.shutdownBegan ≠ none

namespace Shut

theorem init : newService.Shut := fun sub hsub => by simp [newService] at hsub

theorem setSub (h : s.Shut) (x : Nat) {f : Subscriber → Subscriber}
    (hf : ∀ sub, (f sub).chClosed = sub.chClosed) : (s.setSub x f).Shut :=
  forall_mem_modify h fun sub _ hsub hclosed => hsub ((hf sub).symm.trans hclosed)

theorem perform (h : s.Shut) {op : WriteOp} (hop : OpBegun s.shutdownBegan s.subs op) :
    (s.perform op).Shut := by
  rw [Shut, perform_shutdownBegan]
  cases op with
  | subscribe kind =>
    rw [perform_subscribe_subs]
    exact forall_mem_concat h fun hclosed => by cases hclosed
  | unsubscribe x =>
    rw [perform_unsubscribe_subs]
    exact forall_mem_modify h fun _ _ hsub => hsub
  | shutdown => exact fun _ _ _ => hop

/-- Every move keeps it. -/
theorem moves (h : s.Shut) (hbegun : s.Begun) (hmoves : Moves cap s a t) : t.Shut := by
  cases hmoves with
  | callHandle producer event hidle => exact h
  | callSubscribe kind => exact h
  | callUnsubscribe x hx => exact h.setSub x fun _ => rfl
  | callShutdown =>
    -- from now on it has begun
    intro sub hsub hclosed hnone
    cases hold : s.shutdownBegan <;> simp [hold] at hnone
  | stop x sub hsub hunsub => exact h.setSub x fun _ => rfl
  | receive x sub hsub hbuf => exact h.setSub x fun _ => rfl
  | refuse i c hc hpc => exact h
  | accept i c hc hpc => exact h
  | rlock i c hc hpc hwriter => exact h
  | send i c hc x todo blocked hpc sub hsub => exact h.setSub x fun _ => rfl
  | block i c hc x todo hpc => exact h
  | giveUp i c hc x todo hpc sub hsub hgive => exact h
  | poll i => exact h
  | finish i c hc blocked hpc => exact h
  | prepare i w hw hpc =>
    cases hop : w.op with
    | subscribe kind => exact h
    | unsubscribe x => exact h.setSub x fun _ => rfl
    | shutdown =>
      simp only [prepareOp]
      split <;> exact h
  | announce i w hw hpc hwriter => exact h
  | acquire i w hw hpc hreaders => exact h
  | body i w hw hpc => exact h.perform (hbegun.ops_begun w (mem_of_getElem? hw))

/-- And so does every step. -/
theorem step (h : s.Shut) (hbegun : s.Begun) (hstep : s.step cap a = some t) :
    t.Shut ∧ t.Begun := by
  obtain ⟨u, hmoves, rfl⟩ := step_moves hstep
  have hshut : u.Shut := h.moves hbegun hmoves
  exact ⟨hshut, hbegun.moves hmoves⟩

end Shut

end Bus

end Cdc
