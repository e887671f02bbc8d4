import Watcher.Model.OffsetFile
import Watcher.Spec.MysqlOrder
import Watcher.Spec.Outbox

/-!
# From the binlog to the stream

The whole way of a row: canal's callbacks, the handler, the gate, the bus, the
publisher and JetStream, over processes that start where the offset file says.
Whatever happens, the stream has an initial part of the binlog's events in
binlog order, each of them once, and everything before the persisted offset is in
it. What is relied on of JetStream are hypotheses (`Spec.Outbox`).

`resolveStartPosition` only warns if the first offset cannot be saved. A process that
ends before any offset is saved leaves nothing to start from, and the next one takes
the server's position of that time; so the offset file has to exist when a process
is followed by another one (`Pipeline.keeps`).

A process that starts at a boundary reads the rest of the binlog, which is a
binlog itself; there `System` follows it step by step. What `System` has persisted
is safe in the rest, and what precedes the rest was safe when the process started.

## Key results

- `Pipeline.Simulated.step`: one step keeps the invariant
- `Pipeline.binlog_copied`: what is in the stream after every run
-/

namespace Mysql

open Cdc Run Nats List

structure Pipeline where
  /-- What `Load` returns. -/
  offset : OffsetFile
  /-- What canal's goroutine does in this process. -/
  program : List (Loc × Effect)
  /-- What it does next. -/
  pc : Nat
  /-- The bus took an event that the gate has not counted yet. -/
  handing : Bool
  saver : OffsetSaver
  outbox : Outbox

namespace Pipeline

inductive Move where
  /-- The next effect of a callback, up to `HandleEvent` for an event that is emitted. -/
  | perform
  /-- `Hand`, after the bus took an event. -/
  | hand
  /-- `saveConfirmedOffset`; whether the store could write the position. -/
  | save (saved : Bool)
  /-- The process ends, and a new one starts; what `resolveStartPosition` finds. -/
  | restart (master : Option BinlogPosition) (saved : Bool)
  | outbox (action : OutboxAction)

variable (b : Binlog) (js : JetStream) (subjectPrefix : GoString)
  (keyOnly : EventType → GoString → List GoString → GoString)

/-- A process that starts at this position: canal calls back from there on. -/
def boot (file : OffsetFile) (start savedOffset : BinlogPosition) (broker : Broker) :
    Pipeline where
  offset := file
  program := ((EventHandler.new start.file).perform (b.after start b.callbacks)).1
  pc := 0
  handing := false
  saver := ⟨newCommitGate.enable, savedOffset⟩
  outbox := ⟨⟨subjectPrefix, 1, []⟩, [], none, broker⟩

/-- `resolveStartPosition`, and the process that starts there. -/
def launch (master : Option BinlogPosition) (saved : Bool) (file : OffsetFile) (broker : Broker) :
    Option Pipeline :=
  match resolveStartPosition master saved file with
  | (file, some (start, savedOffset)) => some (boot b subjectPrefix file start savedOffset broker)
  | (_, none) => none

/-- The bus passes on what it took. -/
def deliver (w : Pipeline) (taken : List Event) : Outbox :=
  { w.outbox with bus := w.outbox.bus ++ taken }

/-- Callbacks are handled one after another; the offset saver, the publisher and the network work
    beside. -/
def step (w : Pipeline) : Move → Option Pipeline
  | .perform =>
    if w.handing then none
    else
      match w.program[w.pc]? with
      | none => none
      | some (_, .emit e) =>
        if Service.opened.handleEvent e then
          -- the gate counts it in a step of its own
          some { w with pc := w.pc + 1, handing := ownEvent e, outbox := w.deliver [e] }
        else some { w with pc := w.pc + 1 }
      | some (_, .handle e) =>
        some { w with
          pc := w.pc + 1
          outbox := w.deliver (if Service.opened.handleEvent e then [e] else []) }
      | some (_, .committed pos) =>
        some { w with
          pc := w.pc + 1
          saver := { w.saver with gate := w.saver.gate.committed pos } }
  | .hand =>
    if w.handing then
      some { w with handing := false, saver := { w.saver with gate := w.saver.gate.hand } }
    else none
  | .save saved =>
    let (file, saver) := w.saver.saveTo saved w.offset
    some { w with offset := file, saver := saver }
  -- the offset file and the broker outlast the process
  | .restart master saved => launch b subjectPrefix master saved w.offset w.outbox.broker
  | .outbox a =>
    (w.outbox.step js keyOnly a).map fun (outbox, told) =>
      { w with
        outbox := outbox
        saver := told.elim w.saver fun e =>
          { w.saver with gate := w.saver.gate.observePublished e } }

/-- What is relied on of the limits on messages. -/
def Move.Admits : Move → Prop
  | .outbox action => action.Admits
  | _ => True

/-- A process is followed by another one only when there is an offset file. -/
def keeps (w : Pipeline) : Move → Bool
  | .restart _ _ => w.offset.isSome
  | _ => true

/-! ## The invariant -/

/-- An event that the listener emits and the bus takes. -/
def Genuine (e : Event) : Prop := ∃ x ∈ b.effects, x.2.taken = some e

/-- The position is a boundary, and everything before it is in the stream. -/
structure Reached (ids : List GoString) (pos : BinlogPosition) : Prop where
  boundary : b.IsBoundary pos
  stored : ∀ x ∈ b.effects, ∀ e, x.2.taken = some e → b.before x.1 pos = true →
    messageID subjectPrefix [] e ∈ ids

/-- The process reads `c`, the rest of the binlog, and the system is where it is. -/
structure Simulated (w : Pipeline) (c : Binlog) (s : System) : Prop where
  program : w.program.map Prod.snd = c.effects.map Prod.snd
  pc : w.pc = s.pc
  handing : w.handing = s.handing
  saver : w.saver = s.saver
  bus : s.bus.map Prod.snd = w.outbox.queue
  inv : s.Inv c
  taken : ∀ x ∈ s.bus, (c.effects.map Prod.snd)[x.1]? = some (.emit x.2)
  delivered : ∀ n ∈ s.delivered, ∀ e, (c.effects.map Prod.snd)[n]? = some (.emit e) →
    messageID subjectPrefix [] e ∈ w.outbox.broker.ids
  /-- What precedes a position of the rest is in the stream or in the rest. -/
  covers : ∀ pos, c.IsBoundary pos → b.IsBoundary pos ∧
    ∀ x ∈ b.effects, ∀ e, x.2.taken = some e → b.before x.1 pos = true →
      messageID subjectPrefix [] e ∈ w.outbox.broker.ids ∨
        ∃ y ∈ c.effects, y.2 = x.2 ∧ c.before y.1 pos = true
  offset : ∀ pos, w.offset = some pos → Reached b subjectPrefix w.outbox.broker.ids pos
  genuine : ∀ x ∈ c.effects, ∀ e, x.2.taken = some e → Genuine b e
  copies : w.outbox.Copies keyOnly subjectPrefix (Genuine b) (b.messageIDs subjectPrefix)
    (messageIDsOf subjectPrefix (c.effects.drop s.pc))

variable {b js subjectPrefix keyOnly} {w w' : Pipeline} {c : Binlog} {s : System}

variable {e : Event} {pos : BinlogPosition} {loc : Loc}

theorem ownEvent_of_genuine (h : Genuine b e) : ownEvent e = true := by
  obtain ⟨⟨loc, eff⟩, hx, htaken⟩ := h
  cases eff with
  | emit e' =>
    simp only [Effect.taken, Option.ite_none_right_eq_some, Option.some.injEq] at htaken
    obtain ⟨-, rfl⟩ := htaken
    exact Binlog.ownEvent_of_emit hx
  | handle e' | committed pos => cases htaken

theorem publishable_of_own (h : ownEvent e = true) : isPublishable e.type = true := by
  rw [ownEvent, Bool.and_eq_true] at h
  exact h.2

theorem Reached.mono {ids ids' : List GoString} (h : Reached b subjectPrefix ids pos)
    (hsub : ids ⊆ ids') : Reached b subjectPrefix ids' pos :=
  ⟨h.boundary, fun x hx e he hbefore => hsub (h.stored x hx e he hbefore)⟩

/-- A new process that starts at a position that the stream has reached. -/
theorem exists_simulated_boot (keyOnly : EventType → GoString → List GoString → GoString)
    {o : Outbox} {rest : List GoString} (hreached : Reached b subjectPrefix o.broker.ids pos)
    (hcopies : o.Copies keyOnly subjectPrefix (Genuine b) (b.messageIDs subjectPrefix) rest)
    {file : OffsetFile} (hfile : ∀ p, file = some p → Reached b subjectPrefix o.broker.ids p)
    (savedOffset : BinlogPosition) :
    ∃ c s, Simulated b subjectPrefix keyOnly
      (boot b subjectPrefix file pos savedOffset o.broker) c s := by
  obtain ⟨f, hf, hname, hcases⟩ := hreached.boundary
  obtain ⟨pre, post, hsplit⟩ := append_of_mem hf
  obtain ⟨name, position⟩ := pos
  obtain rfl : name = f.name := hname
  have hposition : 0 < position := by
    have hmin : minBinlogPosition = 4 := rfl
    rcases hcases with h | ⟨t, ht, h⟩
    · simp only at h
      omega
    · have h₁ := (b.txns_wf f hf t ht).start_ge
      have h₂ := (b.txns_wf f hf t ht).start_lt
      have h₃ := (b.txns_wf f hf t ht).gtidEnd_lt
      simp only at h
      omega
  have hafter := Binlog.after_effects hsplit hposition
  have hmem : ∀ x ∈ (b.cutAt hsplit position).effects, Binlog.shift pre.length x ∈ b.effects := by
    intro x hx
    have := mem_map_of_mem (f := Binlog.shift pre.length) hx
    rw [← hafter] at this
    exact (mem_filter.mp this).1
  refine ⟨b.cutAt hsplit position, System.start savedOffset, {
    program := ?_
    pc := rfl
    handing := rfl
    saver := rfl
    bus := rfl
    inv := System.Inv.start _ _
    taken := forall_mem_nil _
    delivered := forall_mem_nil _
    covers := ?_
    offset := hfile
    genuine := fun x hx e he => ⟨_, hmem x hx, he⟩
    copies := ?_ }⟩
  · show (((EventHandler.new f.name).perform _).1).map Prod.snd = _
    rw [perform_after b hreached.boundary, hafter, map_map]
    rfl
  · -- what precedes the position precedes the start as well, or is in the rest
    intro pos hboundary
    refine ⟨hboundary.of_cutAt, fun x hx e he hbefore => ?_⟩
    rw [b.effects_split ⟨f.name, position⟩, mem_append] at hx
    rcases hx with hx | hx
    · obtain ⟨hx, hearlier⟩ := mem_filter.mp hx
      exact Or.inl (hreached.stored x hx e he hearlier)
    · rw [hafter] at hx
      obtain ⟨y, hy, rfl⟩ := mem_map.mp hx
      rw [Binlog.before_cutAt hboundary] at hbefore
      exact Or.inr ⟨y, hy, rfl, hbefore⟩
  · have horder : b.messageIDs subjectPrefix =
        messageIDsOf subjectPrefix (b.effects.filter fun x => b.before x.1 ⟨f.name, position⟩) ++
          messageIDsOf subjectPrefix ((b.cutAt hsplit position).effects.drop 0) := by
      rw [drop_zero, ← messageIDsOf_shift subjectPrefix pre.length
        (b.cutAt hsplit position).effects, ← hafter, ← messageIDsOf_append, ← b.effects_split]
      rfl
    refine hcopies.restart [] horder fun id hid => ?_
    obtain ⟨e, he, rfl⟩ := mem_map.mp hid
    obtain ⟨x, hx, htaken⟩ := mem_filterMap.mp he
    obtain ⟨hx, hbefore⟩ := mem_filter.mp hx
    exact hreached.stored x hx e htaken hbefore

/-- A position that is safe in the rest is one that the stream has reached. -/
theorem Simulated.reached (h : Simulated b subjectPrefix keyOnly w c s)
    (hsafe : System.Safe c s pos) : Reached b subjectPrefix w.outbox.broker.ids pos := by
  obtain ⟨hboundary, hcovers⟩ := h.covers pos hsafe.1
  refine ⟨hboundary, fun x hx e he hbefore => ?_⟩
  rcases hcovers x hx e he hbefore with hin | ⟨y, hy, heff, hbefore'⟩
  · exact hin
  · -- the system has delivered what is before the position
    rw [← heff] at he
    have hown := ownEvent_of_genuine (h.genuine y hy e he)
    obtain ⟨loc, eff⟩ := y
    cases eff with
    | emit e' =>
      simp only [Effect.taken, Option.ite_none_right_eq_some, Option.some.injEq] at he
      obtain ⟨htake, rfl⟩ := he
      obtain ⟨n, hn⟩ := mem_iff_getElem?.mp hy
      have hprogram : c.program[n]? = some (loc, .emit e') := by
        rw [Binlog.program, perform_callbacks]
        exact hn
      refine h.delivered n (hsafe.2 n ⟨loc, e', hprogram, ⟨htake, hown⟩, hbefore'⟩) e' ?_
      rw [getElem?_map, hn]
      rfl
    | handle e' | committed pos => cases he

/-- Both are at the same effect. -/
theorem Simulated.effect (h : Simulated b subjectPrefix keyOnly w c s) {eff : Effect}
    (hpc : w.program[w.pc]? = some (loc, eff)) :
    ∃ loc', c.effects[s.pc]? = some (loc', eff) ∧ c.program[s.pc]? = some (loc', eff) := by
  have hmap : (w.program.map Prod.snd)[w.pc]? = some eff := by
    rw [getElem?_map, hpc]
    rfl
  rw [h.program, h.pc, getElem?_map, Option.map_eq_some_iff] at hmap
  obtain ⟨⟨loc', eff'⟩, heff, rfl⟩ := hmap
  refine ⟨loc', heff, ?_⟩
  rw [Binlog.program, perform_callbacks]
  exact heff

/-- The bus takes an event that is emitted. -/
private theorem Simulated.performTaken (h : Simulated b subjectPrefix keyOnly w c s)
    (hhanding : w.handing = false) (hpc : w.program[w.pc]? = some (loc, .emit e))
    (htake : Service.opened.handleEvent e = true) :
    ∃ s', Simulated b subjectPrefix keyOnly
      { w with pc := w.pc + 1, handing := ownEvent e, outbox := w.deliver [e] } c s' := by
  obtain ⟨loc', heff, hprogram⟩ := h.effect hpc
  have htaken : (Effect.emit e).taken = some e := if_pos htake
  have hgenuine := h.genuine _ (mem_of_getElem? heff) e htaken
  have hown := ownEvent_of_genuine hgenuine
  have hpub := publishable_of_own hown
  -- the step of the system that goes with this one
  let s' : System := { s with pc := s.pc + 1, handing := true, bus := s.bus ++ [(s.pc, e)] }
  have hsstep : System.step c s .perform = some s' := by
    rw [h.handing] at hhanding
    simp only [System.step, hhanding, hprogram, Accepted, htake, hown, s']
    rfl
  refine ⟨s', { h with
    pc := congrArg (· + 1) h.pc
    handing := hown
    bus := ?_
    inv := h.inv.step hsstep
    taken := forall_mem_concat h.taken (by rw [getElem?_map, heff]; rfl)
    copies := ?_ }⟩
  · show (s.bus ++ [_]).map Prod.snd = _
    rw [map_append, h.bus]
    simp [deliver, Outbox.queue, hpub]
  · have hrest := h.copies
    rw [messageIDsOf_drop heff, htaken] at hrest
    exact hrest.take hgenuine hpub

/-- An effect by which the publisher gets nothing to publish. -/
private theorem Simulated.performPassed (h : Simulated b subjectPrefix keyOnly w c s)
    {eff : Effect} {saver : OffsetSaver} (heff : c.effects[s.pc]? = some (loc, eff))
    (htaken : eff.taken = none)
    (hsstep : System.step c s .perform = some { s with pc := s.pc + 1, saver := saver }) :
    Simulated b subjectPrefix keyOnly { w with pc := w.pc + 1, saver := saver } c
      { s with pc := s.pc + 1, saver := saver } := by
  refine { h with
    pc := congrArg (· + 1) h.pc
    saver := rfl
    inv := h.inv.step hsstep
    copies := ?_ }
  have hrest := h.copies
  rw [messageIDsOf_drop heff, htaken] at hrest
  exact hrest

/-- The bus takes an event that is not published. -/
private theorem Simulated.deliver (h : Simulated b subjectPrefix keyOnly w c s)
    (hpub : isPublishable e.type = false) :
    Simulated b subjectPrefix keyOnly { w with outbox := w.deliver [e] } c s := by
  have hqueue : (w.deliver [e]).queue = w.outbox.queue := by
    simp [Pipeline.deliver, Outbox.queue, hpub]
  exact { h with bus := h.bus.trans hqueue.symm, copies := h.copies.pass hpub }

theorem Simulated.perform (h : Simulated b subjectPrefix keyOnly w c s)
    (hstep : w.step b js subjectPrefix keyOnly .perform = some w') :
    ∃ s', Simulated b subjectPrefix keyOnly w' c s' := by
  simp only [step] at hstep
  split at hstep
  · cases hstep
  rename_i hhanding
  rw [Bool.not_eq_true] at hhanding
  have hshanding : s.handing = false := h.handing ▸ hhanding
  split at hstep
  · cases hstep
  · rename_i loc e hpc
    split at hstep
    · rename_i htake
      cases hstep
      exact h.performTaken hhanding hpc htake
    · rename_i hrefuse
      cases hstep
      obtain ⟨loc', heff, hprogram⟩ := h.effect hpc
      -- refused by the bus
      have htaken : (Effect.emit e).taken = none := if_neg hrefuse
      have hsstep : System.step c s .perform =
          some { s with pc := s.pc + 1, saver := w.saver } := by
        have hnot : ¬Accepted e := fun haccepted => hrefuse haccepted.1
        simp only [System.step, hshanding, hprogram, if_neg hnot, h.saver]
        rfl
      exact ⟨_, h.performPassed heff htaken hsstep⟩
  · rename_i loc e hpc
    cases hstep
    obtain ⟨loc', heff, hprogram⟩ := h.effect hpc
    have hsstep : System.step c s .perform =
        some { s with pc := s.pc + 1, saver := w.saver } := by
      simp only [System.step, hshanding, hprogram, h.saver]
      rfl
    have hpassed := h.performPassed heff rfl hsstep
    -- the end of a transaction, which is not published
    have hpub := Binlog.publishable_of_handle (mem_of_getElem? heff)
    cases htake : Service.opened.handleEvent e with
    | true => exact ⟨_, hpassed.deliver hpub⟩
    | false =>
      have hdeliver : w.deliver [] = w.outbox := by simp [Pipeline.deliver]
      simp only [Bool.false_eq_true, ↓reduceIte, hdeliver]
      exact ⟨_, hpassed⟩
  · rename_i loc pos hpc
    cases hstep
    obtain ⟨loc', heff, hprogram⟩ := h.effect hpc
    have hsstep : System.step c s .perform =
        some { s with
          pc := s.pc + 1
          saver := { w.saver with gate := w.saver.gate.committed pos } } := by
      simp only [System.step, hshanding, hprogram, h.saver]
      rfl
    exact ⟨_, h.performPassed heff rfl hsstep⟩

theorem Simulated.hand (h : Simulated b subjectPrefix keyOnly w c s)
    (hstep : w.step b js subjectPrefix keyOnly .hand = some w') :
    ∃ s', Simulated b subjectPrefix keyOnly w' c s' := by
  simp only [step] at hstep
  split at hstep
  · rename_i hhanding
    cases hstep
    let s' : System := { s with
      handing := false
      saver := { s.saver with gate := s.saver.gate.hand } }
    have hsstep : System.step c s .hand = some s' := by
      rw [h.handing] at hhanding
      simp only [System.step, if_pos hhanding, s']
    exact ⟨s', { h with
      handing := rfl
      saver := congrArg (fun saver => { saver with gate := saver.gate.hand }) h.saver
      inv := h.inv.step hsstep }⟩
  · cases hstep

/-- A step of the publisher or the network; the gate hears of an event that is acked. -/
theorem Simulated.outbox (hjs : js.Dedups) (h : Simulated b subjectPrefix keyOnly w c s)
    {a : OutboxAction} (hadmits : a.Admits)
    (hstep : w.step b js subjectPrefix keyOnly (.outbox a) = some w') :
    ∃ s', Simulated b subjectPrefix keyOnly w' c s' := by
  simp only [step, Option.map_eq_some_iff] at hstep
  obtain ⟨⟨o, told⟩, hostep, rfl⟩ := hstep
  obtain ⟨hcopies, hstepped⟩ := h.copies.step hjs
    (fun e he => sourceID_ne_nil_of_own (ownEvent_of_genuine he)) hadmits hostep
  have hcovers : ∀ pos, c.IsBoundary pos → b.IsBoundary pos ∧
      ∀ x ∈ b.effects, ∀ e, x.2.taken = some e → b.before x.1 pos = true →
        messageID subjectPrefix [] e ∈ o.broker.ids ∨
          ∃ y ∈ c.effects, y.2 = x.2 ∧ c.before y.1 pos = true := by
    intro pos hpos
    obtain ⟨hboundary, hcovers⟩ := h.covers pos hpos
    exact ⟨hboundary, fun x hx e he hbefore =>
      (hcovers x hx e he hbefore).imp_left fun hin => hstepped.ids hin⟩
  have hoffset' : ∀ pos, w.offset = some pos → Reached b subjectPrefix o.broker.ids pos :=
    fun pos hpos => (h.offset pos hpos).mono hstepped.ids
  cases told with
  | none =>
    exact ⟨s, { h with
      bus := h.bus.trans hstepped.queue
      delivered := fun n hn e he => hstepped.ids (h.delivered n hn e he)
      covers := hcovers
      offset := hoffset'
      copies := hcopies }⟩
  | some e =>
    -- it is the oldest event that the system waits for
    have hbus := h.bus.trans hstepped.queue
    cases hsbus : s.bus with
    | nil => rw [hsbus] at hbus; cases hbus
    | cons x bus =>
      obtain ⟨n, e'⟩ := x
      rw [hsbus] at hbus
      obtain ⟨rfl, htail⟩ := List.cons.inj hbus
      let s' : System := { s with
        saver := { s.saver with gate := s.saver.gate.observePublished e' }
        bus := bus
        delivered := s.delivered ++ [n] }
      have hsstep : System.step c s .ack = some s' := by
        simp only [System.step, hsbus, s']
      have htaken := h.taken
      rw [hsbus, forall_mem_cons] at htaken
      refine ⟨s', { h with
        saver := congrArg (fun saver =>
          { saver with gate := saver.gate.observePublished e' }) h.saver
        bus := htail
        inv := h.inv.step hsstep
        taken := htaken.2
        delivered := ?_
        covers := hcovers
        offset := hoffset'
        copies := hcopies }⟩
      intro m hm e he
      rcases mem_append.mp hm with hm | hm
      · exact hstepped.ids (h.delivered m hm e he)
      · obtain rfl := mem_singleton.mp hm
        have hsame := htaken.1.symm.trans he
        simp only [Option.some.injEq, Effect.emit.injEq] at hsame
        rw [← hsame]
        exact hstepped.stored e' rfl

/-- The position in the offset file is one that the stream has reached. -/
theorem Simulated.save (hnames : ∀ f ∈ b.files, Utf8.reread f.name = f.name)
    (h : Simulated b subjectPrefix keyOnly w c s) {saved : Bool}
    (hstep : w.step b js subjectPrefix keyOnly (.save saved) = some w') :
    ∃ s', Simulated b subjectPrefix keyOnly w' c s' := by
  simp only [step, Option.some.injEq] at hstep
  subst hstep
  obtain ⟨pos, saver, hsave⟩ : ∃ pos saver, w.saver.saveConfirmedOffset saved = (pos, saver) :=
    ⟨_, _, rfl⟩
  let s' : System := { s with saver := saver, persisted := pos.toList ++ s.persisted }
  have hsstep : System.step c s (.save saved) = some s' := by
    rw [h.saver] at hsave
    simp only [System.step, hsave, s']
  have hinv := h.inv.step hsstep
  -- the file changes only if the save succeeds and there is a position
  have hfile : w.saver.saveTo saved w.offset =
      (if saved then pos.elim w.offset OffsetFile.save else w.offset, saver) := by
    rw [OffsetSaver.saveTo, hsave]
    cases pos with
    | none => simp
    | some pos => rfl
  rw [hfile]
  refine ⟨s', { h with saver := rfl, inv := hinv, offset := ?_ }⟩
  cases saved with
  | false => exact h.offset
  | true =>
    cases pos with
    | none => exact h.offset
    | some pos =>
      -- what is confirmed is in the stream, and so is everything before it
      have hreached := h.reached (hinv.persisted pos mem_cons_self)
      obtain ⟨f, hf, hname, -⟩ := hreached.boundary
      have hreread : OffsetFile.save pos = some pos := by
        rw [OffsetFile.save, hname, hnames f hf, ← hname]
      intro q hq
      obtain rfl := Option.some.inj (hreread.symm.trans hq)
      exact hreached

/-- One step of the pipeline. -/
theorem Simulated.step (hjs : js.Dedups) (hnames : ∀ f ∈ b.files, Utf8.reread f.name = f.name)
    (h : Simulated b subjectPrefix keyOnly w c s) {m : Move} (hkeeps : w.keeps m = true)
    (hadmits : m.Admits) (hstep : w.step b js subjectPrefix keyOnly m = some w') :
    ∃ c' s', Simulated b subjectPrefix keyOnly w' c' s' := by
  cases m with
  | perform => exact ⟨c, h.perform hstep⟩
  | hand => exact ⟨c, h.hand hstep⟩
  | save saved => exact ⟨c, h.save hnames hstep⟩
  | restart master saved =>
    -- the new process starts where the file says
    obtain ⟨pos, hoffset⟩ := Option.isSome_iff_exists.mp hkeeps
    simp only [Pipeline.step, launch, resolveStartPosition, hoffset, Option.some.injEq] at hstep
    subst hstep
    rw [← hoffset]
    exact exists_simulated_boot keyOnly (h.offset pos hoffset) h.copies h.offset _
  | outbox a => exact ⟨c, h.outbox hjs hadmits hstep⟩

/-- The first process: nothing is before the position it starts at, so an empty stream has reached
    that, whether or not it could be saved. -/
theorem exists_simulated_launch (keyOnly : EventType → GoString → List GoString → GoString)
    {origin : BinlogPosition} (horigin : b.IsBoundary origin)
    (hfirst : ∀ x ∈ b.effects, b.before x.1 origin = true → x.2.taken = none)
    (hnames : ∀ f ∈ b.files, Utf8.reread f.name = f.name) {saved : Bool}
    (hlaunch : launch b subjectPrefix (some origin) saved none ⟨[], []⟩ = some w) :
    ∃ c s, Simulated b subjectPrefix keyOnly w c s := by
  have hreached : Reached b subjectPrefix [] origin :=
    ⟨horigin, fun x hx e he hbefore => absurd ((hfirst x hx hbefore).symm.trans he) (by simp)⟩
  -- from `origin` on, with whatever is in the file
  have hboot : ∀ {file : OffsetFile}, (∀ p, file = some p → Reached b subjectPrefix [] p) →
      ∀ savedOffset, ∃ c s, Simulated b subjectPrefix keyOnly
        (boot b subjectPrefix file origin savedOffset ⟨[], []⟩) c s := by
    intro file hfile savedOffset
    have hcopies : Outbox.Copies keyOnly subjectPrefix (Genuine b) (b.messageIDs subjectPrefix)
        (b.messageIDs subjectPrefix) ⟨⟨subjectPrefix, 1, []⟩, [], none, ⟨[], []⟩⟩ :=
      .start (b.nodup_messageIDs subjectPrefix) []
    exact exists_simulated_boot keyOnly hreached hcopies hfile savedOffset
  cases saved with
  | true =>
    obtain ⟨f, hf, hname, -⟩ := id horigin
    have hsave : OffsetFile.save origin = some origin := by
      rw [OffsetFile.save, hname, hnames f hf, ← hname]
    simp only [launch, resolveStartPosition, ↓reduceIte, hsave, Option.some.injEq] at hlaunch
    subst hlaunch
    refine hboot ?_ _
    intro p hp
    obtain rfl := Option.some.inj hp
    exact hreached
  | false =>
    simp only [launch, resolveStartPosition, Bool.false_eq_true, ↓reduceIte,
      Option.some.injEq] at hlaunch
    subst hlaunch
    refine hboot ?_ _
    intro p hp
    cases hp

/-- An event is published, or passed over. -/
def published : List Move :=
  [.outbox (.fetch [] accepting), .outbox .perform, .outbox .perform, .outbox .finish]

/-- Two rows of one transaction, and the first offset could not be saved: the ack of the second row
    is lost and the process dies before the transaction's end is persisted. A new one starts at the
    boundary that was. -/
def lostAck : List Move :=
  [.perform, .perform, .hand] ++ published ++ [.save true, .perform, .hand,
    .outbox (.fetch [] failing), .outbox .perform, .outbox (.arrive 0), .restart none true,
    .perform, .perform, .hand] ++ published ++ [.perform, .hand] ++ published ++
    [.perform, .perform, .perform, .perform, .perform, .save true]

theorem admits_lostAck : ∀ m ∈ lostAck, m.Admits := by
  simp [lostAck, published, Move.Admits, OutboxAction.Admits, accepting, failing]

end Pipeline

end Mysql
