import Watcher.Lib.Run
import Watcher.Model.MysqlListener
import Watcher.Model.PostgresListener

/-!
# The gates of the two listeners do not interfere

Both listeners and the snapshots put their events on one bus, and the publisher
notifies both gates of every event it publishes. Each gate tells its own events
from the others: a Postgres event is numbered, a MySQL event has an id that says
so.

The listeners themselves are arbitrary here: any bytes may come from the
primary and any callbacks from canal.

## Key results

- `System.Inv.step`: events on the bus are marked as those of their source
- `System.gates_isolated`: each listener gets the answers it would get alone
-/

namespace SharedBus

open Cdc Run List

/-! ## Two listeners and a publisher -/

/-- Who put an event on the bus. -/
inductive Source where
  | postgres
  | mysql
  | snapshot
  deriving DecidableEq, Repr

/-- The Postgres listener, the events of a message it has yet to emit and what `Flush` returned,
    newest first. -/
structure PostgresSide where
  listener : Postgres.Listener
  todo : List Event
  flushed : List Postgres.LSN

/-- What the Postgres listener can do next. -/
inductive PostgresAction where
  /-- A message from the primary. -/
  | receive (data : List UInt8) (lsn : GoString)
  /-- The next event of that message. -/
  | emit
  | idle (position : Postgres.LSN)
  | flush
  | newSession
  deriving DecidableEq, Repr

/-- One step of the Postgres listener, and what it puts on the bus. -/
def PostgresSide.step (s : PostgresSide) : PostgresAction → Option (PostgresSide × List Event)
  | .receive data lsn =>
    match s.todo with
    | [] =>
      let parsed := s.listener.parser.parse data lsn
      some ({ s with
        listener := { s.listener with parser := parsed.parser }
        todo := parsed.handled ++ parsed.event.toList }, [])
    | _ :: _ => none
  | .emit =>
    match s.todo with
    | [] => none
    | e :: todo =>
      let (l, taken) := s.listener.emit Service.opened e
      some ({ s with listener := l, todo := todo }, taken.toList)
  | .idle position =>
    some ({ s with listener := { s.listener with ack := s.listener.ack.idle position } }, [])
  | .flush =>
    let (flush, ack) := s.listener.ack.flush
    some ({ s with listener := { s.listener with ack := ack }, flushed := flush :: s.flushed }, [])
  | .newSession => some ({ s with listener := s.listener.newSession }, [])

/-- The publisher is done with an event: observers hear of it if it is one to publish. -/
def PostgresSide.observe (s : PostgresSide) (e : Event) : PostgresSide :=
  if isPublishable e.type then
    { s with listener := { s.listener with ack := s.listener.ack.observePublished e } }
  else s

/-- The MySQL listener, the effects of a callback it has yet to perform and what `Confirmable`
    returned, newest first. -/
structure MysqlSide where
  handler : Mysql.EventHandler
  todo : List Mysql.Effect
  /-- The bus took an event that the gate has not counted yet. -/
  handing : Bool
  gate : Mysql.CommitGate
  confirmed : List (Mysql.BinlogPosition × Bool)

/-- What the MySQL listener can do next. -/
inductive MysqlAction where
  /-- A callback from canal. -/
  | call (callback : Mysql.Callback)
  /-- The next effect of that callback. -/
  | perform
  | hand
  | confirmable
  deriving DecidableEq, Repr

/-- One step of the MySQL listener, and what it puts on the bus. -/
def MysqlSide.step (s : MysqlSide) : MysqlAction → Option (MysqlSide × List Event)
  | .call callback =>
    match s.todo, s.handing, s.handler.call callback with
    | [], false, .ok (handler, todo) => some ({ s with handler := handler, todo := todo }, [])
    | _, _, _ => none
  | .perform =>
    match s.todo, s.handing with
    | .emit e :: todo, false =>
      if Service.opened.handleEvent e then
        some ({ s with todo := todo, handing := Mysql.ownEvent e }, [e])
      else some ({ s with todo := todo }, [])
    | .handle e :: todo, false =>
      some ({ s with todo := todo }, if Service.opened.handleEvent e then [e] else [])
    | .committed pos :: todo, false =>
      some ({ s with todo := todo, gate := s.gate.committed pos }, [])
    | _, _ => none
  | .hand => if s.handing then some ({ s with handing := false, gate := s.gate.hand }, []) else none
  | .confirmable =>
    let (answer, gate) := s.gate.confirmable
    some ({ s with gate := gate, confirmed := answer :: s.confirmed }, [])

@[inherit_doc PostgresSide.observe]
def MysqlSide.observe (s : MysqlSide) (e : Event) : MysqlSide :=
  if isPublishable e.type then { s with gate := s.gate.observePublished e } else s

/-- A watcher with both listeners. -/
structure System where
  postgres : PostgresSide
  mysql : MysqlSide
  /-- What the publisher has yet to publish, oldest first. -/
  bus : List (Source × Event)

/-- What can happen next in the watcher. -/
inductive Action where
  | postgres (action : PostgresAction)
  | mysql (action : MysqlAction)
  /-- A row of a snapshot of either source. -/
  | snapshot (schema table data lsn : GoString)
  | publish
  deriving DecidableEq, Repr

namespace System

/-- Both listeners are gated. -/
def start (tables : List GoString) (captureDDL : Bool) (file : GoString) : System where
  postgres := ⟨Postgres.newGatedListener tables captureDDL, [], []⟩
  mysql := ⟨Mysql.EventHandler.new file, [], false, Mysql.newCommitGate.enable, []⟩
  bus := []

/-- The event of a snapshot row. -/
def snapshotRow (schema table data lsn : GoString) : Event :=
  newEvent .insert schema table data (ascii "INSERT") lsn

/-- One step of the watcher. -/
def step (w : System) : Action → Option System
  | .postgres a =>
    (w.postgres.step a).map fun (postgres, out) =>
      { w with postgres := postgres, bus := w.bus ++ out.map (.postgres, ·) }
  | .mysql a =>
    (w.mysql.step a).map fun (mysql, out) =>
      { w with mysql := mysql, bus := w.bus ++ out.map (.mysql, ·) }
  | .snapshot schema table data lsn =>
    let row := snapshotRow schema table data lsn
    if Service.opened.handleEvent row then some { w with bus := w.bus ++ [(.snapshot, row)] }
    else some w
  | .publish =>
    match w.bus with
    | [] => none
    -- every observer is notified, whoever the event is from
    | (_, e) :: bus => some ⟨w.postgres.observe e, w.mysql.observe e, bus⟩

/-- The step is one of this source, or publishes one of its events. -/
def own (source : Source) (w : System) : Action → Bool
  | .postgres _ => source = .postgres
  | .mysql _ => source = .mysql
  | .snapshot _ _ _ _ => source = .snapshot
  | .publish => (w.bus.head?.map Prod.fst) = some source

/-! ## Marks -/

variable {e : Event} {source : Source} {a : Action}

/-- An event of the Postgres listener does not pass for one of the MySQL listener. -/
theorem ownEvent_of_emit {l : Postgres.Listener} {service : Service} {e' : Event}
    (h : (l.emit service e).2 = some e') : Mysql.ownEvent e' = false := by
  have hdeliver : ∀ {e : Event}, (if service.handleEvent e then some e else none) = some e' →
      e = e' := by
    intro e h
    split at h
    · exact Option.some.inj h
    · exact nomatch h
  have hunpublished : isPublishable e.type = false → e = e' → Mysql.ownEvent e' = false := by
    rintro htype rfl
    rw [Mysql.ownEvent, htype, Bool.and_false]
  simp only [Postgres.Listener.emit] at h
  -- BEGIN, COMMIT, an event that is numbered and named, and one that is passed on as it is
  split at h
  · rename_i htype
    exact hunpublished (by rw [htype]; rfl) (hdeliver h)
  · rename_i htype
    exact hunpublished (by rw [htype]; rfl) (hdeliver h)
  · split at h
    · -- its id begins with another letter
      have heq := hdeliver h
      have hmark : Mysql.sourcePrefix.isPrefixOf e'.sourceID = false := by
        rw [← heq]
        rfl
      rw [Mysql.ownEvent, hmark, Bool.false_and]
    · rename_i htype
      exact hunpublished (Bool.eq_false_iff.mpr htype) (hdeliver h)

/-- The event that an effect passes to the bus. -/
def passes : Mysql.Effect → Option Event
  | .emit e | .handle e => some e
  | .committed _ => none

private theorem nameRow_sequence (rowID : Option (Nat → GoString)) (e : Event) (row : Nat) :
    (Mysql.EventHandler.nameRow rowID e row).sequence = e.sequence := by
  cases rowID <;> rfl

/-- The MySQL listener numbers no event. -/
theorem call_unnumbered {h h' : Mysql.EventHandler} {cb : Mysql.Callback} {es : List Mysql.Effect}
    (hcall : h.call cb = .ok (h', es)) : ∀ eff ∈ es, ∀ e ∈ passes eff, e.sequence = 0 := by
  cases cb with
  | gtid header =>
    simp only [Mysql.EventHandler.call, Except.ok.injEq] at hcall
    obtain rfl : (h.onGTID header).2 = es := congrArg Prod.snd hcall
    intro eff heff e he
    -- a GTID event only records a boundary
    have hcommitted : ∃ pos, eff = .committed pos := by
      cases header with
      | none => exact nomatch heff
      | some header =>
        simp only [Mysql.EventHandler.onGTID] at heff
        split at heff
        · exact nomatch heff
        · simp only at heff
          split at heff
          · exact ⟨_, mem_singleton.mp heff⟩
          · exact nomatch heff
    obtain ⟨pos, rfl⟩ := hcommitted
    exact nomatch he
  | row event =>
    simp only [Mysql.EventHandler.call, Mysql.EventHandler.onRow] at hcall
    cases hids : h.rowIDs event with
    | error err =>
      rw [hids] at hcall
      exact nomatch hcall
    | ok ids =>
      obtain ⟨h₁, rowID, lsn⟩ := ids
      rw [hids] at hcall
      intro eff heff e he
      -- whatever the action is, each row becomes a new event that is only given an id
      have hemit : ∃ typ raw data row, eff = .emit (Mysql.EventHandler.nameRow rowID
          (newEvent typ event.table.schema event.table.name data raw lsn) row) := by
        cases haction : event.action <;> rw [haction] at hcall <;> cases hcall
        · exact ⟨_, _, Mysql.EventHandler.mem_singleRows heff⟩
        · exact ⟨_, _, Mysql.EventHandler.mem_pairedRows heff⟩
        · exact ⟨_, _, Mysql.EventHandler.mem_singleRows heff⟩
      obtain ⟨typ, raw, data, row, rfl⟩ := hemit
      cases he
      exact nameRow_sequence _ _ _
  | ddl nextPos schema query =>
    simp only [Mysql.EventHandler.call, Mysql.EventHandler.onDDL, Except.ok.injEq,
      Prod.mk.injEq] at hcall
    obtain ⟨-, rfl⟩ := hcall
    simp only [mem_cons, not_mem_nil, or_false, forall_eq_or_imp, forall_eq]
    refine ⟨?_, fun e he => nomatch he⟩
    rintro e ⟨⟩
    split <;> rfl
  | xid nextPos =>
    simp only [Mysql.EventHandler.call, Mysql.EventHandler.onXID, Except.ok.injEq,
      Prod.mk.injEq] at hcall
    obtain ⟨-, rfl⟩ := hcall
    simp only [mem_cons, not_mem_nil, or_false, forall_eq_or_imp, forall_eq]
    refine ⟨?_, fun e he => nomatch he⟩
    rintro e ⟨⟩
    rfl
  | rotate nextLogName position =>
    simp only [Mysql.EventHandler.call, Mysql.EventHandler.onRotate, Except.ok.injEq,
      Prod.mk.injEq] at hcall
    obtain ⟨-, rfl⟩ := hcall
    simp only [mem_singleton, forall_eq]
    exact fun e he => nomatch he

/-- Events on the bus carry the mark of their source only. -/
structure Inv (w : System) : Prop where
  unnumbered : ∀ x ∈ w.bus, x.1 ≠ .postgres → x.2.sequence = 0
  unowned : ∀ x ∈ w.bus, x.1 ≠ .mysql → Mysql.ownEvent x.2 = false
  todo : ∀ eff ∈ w.mysql.todo, ∀ e ∈ passes eff, e.sequence = 0

variable {w w' : System}

/-- Putting events on the bus. -/
private theorem Inv.push {postgres : PostgresSide} {mysql : MysqlSide} (h : Inv w)
    (out : List Event) (hunnumbered : source ≠ .postgres → ∀ e ∈ out, e.sequence = 0)
    (hunowned : source ≠ .mysql → ∀ e ∈ out, Mysql.ownEvent e = false)
    (htodo : ∀ eff ∈ mysql.todo, ∀ e ∈ passes eff, e.sequence = 0) :
    Inv ⟨postgres, mysql, w.bus ++ out.map (source, ·)⟩ where
  unnumbered := by
    intro x hx hsource
    rcases mem_append.mp hx with hx | hx
    · exact h.unnumbered x hx hsource
    · obtain ⟨e, he, rfl⟩ := mem_map.mp hx
      exact hunnumbered hsource e he
  unowned := by
    intro x hx hsource
    rcases mem_append.mp hx with hx | hx
    · exact h.unowned x hx hsource
    · obtain ⟨e, he, rfl⟩ := mem_map.mp hx
      exact hunowned hsource e he
  todo := htodo

/-- What a step of the Postgres listener puts on the bus. -/
private theorem postgresStep_unowned {p p' : PostgresSide} {a : PostgresAction} {out : List Event}
    (hstep : p.step a = some (p', out)) : ∀ e ∈ out, Mysql.ownEvent e = false := by
  cases a with
  | receive data lsn =>
    simp only [PostgresSide.step] at hstep
    split at hstep
    · cases hstep
      exact forall_mem_nil _
    · exact nomatch hstep
  | emit =>
    simp only [PostgresSide.step] at hstep
    split at hstep
    · exact nomatch hstep
    · cases hstep
      intro e he
      exact ownEvent_of_emit (Option.mem_toList.mp he)
  | idle position =>
    cases hstep
    exact forall_mem_nil _
  | flush =>
    cases hstep
    exact forall_mem_nil _
  | newSession =>
    cases hstep
    exact forall_mem_nil _

/-- What a step of the MySQL listener puts on the bus. -/
private theorem mysqlStep_unnumbered {m m' : MysqlSide} {a : MysqlAction} {out : List Event}
    (htodo : ∀ eff ∈ m.todo, ∀ e ∈ passes eff, e.sequence = 0)
    (hstep : m.step a = some (m', out)) :
    (∀ e ∈ out, e.sequence = 0) ∧ ∀ eff ∈ m'.todo, ∀ e ∈ passes eff, e.sequence = 0 := by
  cases a with
  | call callback =>
    simp only [MysqlSide.step] at hstep
    split at hstep
    · rename_i hcall
      cases hstep
      exact ⟨forall_mem_nil _, call_unnumbered hcall⟩
    · exact nomatch hstep
  | perform =>
    simp only [MysqlSide.step] at hstep
    -- an event to emit, one only to handle, or a boundary to record
    split at hstep
    · rename_i e todo htodo' _
      rw [htodo', forall_mem_cons] at htodo
      split at hstep
      · cases hstep
        exact ⟨forall_mem_singleton.mpr (htodo.1 e rfl), htodo.2⟩
      · cases hstep
        exact ⟨forall_mem_nil _, htodo.2⟩
    · rename_i e todo htodo' _
      rw [htodo', forall_mem_cons] at htodo
      cases hstep
      refine ⟨?_, htodo.2⟩
      split
      · exact forall_mem_singleton.mpr (htodo.1 e rfl)
      · exact forall_mem_nil _
    · rename_i pos todo htodo' _
      rw [htodo', forall_mem_cons] at htodo
      cases hstep
      exact ⟨forall_mem_nil _, htodo.2⟩
    · exact nomatch hstep
  | hand =>
    simp only [MysqlSide.step] at hstep
    split at hstep
    · cases hstep
      exact ⟨forall_mem_nil _, htodo⟩
    · exact nomatch hstep
  | confirmable =>
    cases hstep
    exact ⟨forall_mem_nil _, htodo⟩

theorem publish_cases (hstep : w.step .publish = some w') :
    ∃ source e bus, w.bus = (source, e) :: bus ∧
      w' = ⟨w.postgres.observe e, w.mysql.observe e, bus⟩ := by
  simp only [System.step] at hstep
  split at hstep
  · exact nomatch hstep
  · rename_i source e bus hbus
    exact ⟨source, e, bus, hbus, (Option.some.inj hstep).symm⟩

/-- One step of the watcher. -/
theorem Inv.step (h : Inv w) (hstep : w.step a = some w') : Inv w' := by
  cases a with
  | postgres a =>
    simp only [System.step, Option.map_eq_some_iff] at hstep
    obtain ⟨⟨p', out⟩, hside, rfl⟩ := hstep
    exact h.push out (fun hne => absurd rfl hne) (fun _ => postgresStep_unowned hside) h.todo
  | mysql a =>
    simp only [System.step, Option.map_eq_some_iff] at hstep
    obtain ⟨⟨m', out⟩, hside, rfl⟩ := hstep
    obtain ⟨hout, htodo⟩ := mysqlStep_unnumbered h.todo hside
    exact h.push out (fun _ => hout) (fun hne => absurd rfl hne) htodo
  | snapshot schema table data lsn =>
    simp only [System.step] at hstep
    split at hstep
    · cases hstep
      -- a snapshot row has neither mark
      exact h.push [snapshotRow schema table data lsn]
        (fun _ => forall_mem_singleton.mpr rfl) (fun _ => forall_mem_singleton.mpr rfl)
        h.todo
    · cases hstep
      exact h
  | publish =>
    obtain ⟨source, e, bus, hbus, rfl⟩ := publish_cases hstep
    have hmem : ∀ x ∈ bus, x ∈ w.bus := fun x hx => by
      rw [hbus]
      exact mem_cons_of_mem _ hx
    have htodo : (w.mysql.observe e).todo = w.mysql.todo := by
      rw [MysqlSide.observe]
      split <;> rfl
    exact ⟨fun x hx => h.unnumbered x (hmem x hx), fun x hx => h.unowned x (hmem x hx),
      htodo ▸ h.todo⟩

/-! ## What each listener sees -/

/-- The part of the state that belongs to the Postgres listener, in an otherwise untouched
    watcher. -/
def viewPostgres (w₀ w : System) : System :=
  ⟨w.postgres, w₀.mysql, w.bus.filter fun x => x.1 = .postgres⟩

/-- The part that belongs to the MySQL listener. -/
def viewMysql (w₀ w : System) : System :=
  ⟨w₀.postgres, w.mysql, w.bus.filter fun x => x.1 = .mysql⟩

/-- Events of another source leave a gate as it is. -/
theorem observe_unowned (m : MysqlSide) (h : Mysql.ownEvent e = false) : m.observe e = m := by
  rw [MysqlSide.observe, Mysql.CommitGate.observePublished, h]
  exact ite_self m

theorem observe_unnumbered (p : PostgresSide) (h : e.sequence = 0) : p.observe e = p := by
  rw [PostgresSide.observe, Postgres.AckGate.observePublished, if_pos h]
  exact ite_self p

/-- Events of one source on the bus. -/
private theorem filter_push (keep source : Source) (bus : List (Source × Event))
    (out : List Event) :
    (bus ++ out.map (source, ·)).filter (fun x => x.1 = keep) =
      bus.filter (fun x => x.1 = keep) ++ if source = keep then out.map (source, ·) else [] := by
  rw [filter_append, filter_map]
  split
  · rename_i heq
    simp [Function.comp_def, heq]
  · rename_i hne
    simp [Function.comp_def, hne]

/-- The next event to publish, if it is one of the source. -/
private theorem filter_own {keep : Source} {bus : List (Source × Event)}
    (hbus : w.bus = (source, e) :: bus) (hown : own keep w .publish = true) :
    source = keep ∧ w.bus.filter (fun x => x.1 = keep) =
      (keep, e) :: bus.filter fun x => x.1 = keep := by
  have hsource : source = keep := by simpa [own, hbus] using hown
  exact ⟨hsource, by simp [hbus, hsource]⟩

private theorem filter_other {keep : Source} {bus : List (Source × Event)}
    (hbus : w.bus = (source, e) :: bus) (hown : own keep w .publish = false) :
    source ≠ keep ∧ w.bus.filter (fun x => x.1 = keep) = bus.filter fun x => x.1 = keep := by
  have hsource : source ≠ keep := by simpa [own, hbus] using hown
  exact ⟨hsource, by simp [hbus, hsource]⟩

theorem viewPostgres_own (w₀ : System) (h : Inv w) (hstep : w.step a = some w')
    (hown : own .postgres w a = true) : (viewPostgres w₀ w).step a = some (viewPostgres w₀ w') := by
  cases a with
  | postgres a =>
    simp only [System.step, Option.map_eq_some_iff] at hstep ⊢
    obtain ⟨⟨p', out⟩, hside, rfl⟩ := hstep
    exact ⟨⟨p', out⟩, hside, by simp only [viewPostgres, filter_push, ↓reduceIte]⟩
  | mysql a => exact absurd hown (by simp [own])
  | snapshot schema table data lsn => exact absurd hown (by simp [own])
  | publish =>
    obtain ⟨source, e, bus, hbus, rfl⟩ := publish_cases hstep
    obtain ⟨rfl, hfilter⟩ := filter_own hbus hown
    -- the MySQL gate is notified too, in both runs, and does not mind
    have hunowned : Mysql.ownEvent e = false :=
      h.unowned (.postgres, e) (by rw [hbus]; exact mem_cons_self) (by simp)
    simp only [System.step, viewPostgres, hfilter, observe_unowned _ hunowned]

/-- No other step is seen there. -/
theorem viewPostgres_other (w₀ : System) (h : Inv w) (hstep : w.step a = some w')
    (hown : own .postgres w a = false) : viewPostgres w₀ w' = viewPostgres w₀ w := by
  cases a with
  | postgres a => exact absurd hown (by simp [own])
  | mysql a =>
    simp only [System.step, Option.map_eq_some_iff] at hstep
    obtain ⟨⟨m', out⟩, hside, rfl⟩ := hstep
    simp [viewPostgres]
  | snapshot schema table data lsn =>
    simp only [System.step] at hstep
    split at hstep <;> cases hstep <;> simp [viewPostgres]
  | publish =>
    obtain ⟨source, e, bus, hbus, rfl⟩ := publish_cases hstep
    obtain ⟨hsource, hfilter⟩ := filter_other hbus hown
    -- somebody else's event: the Postgres gate hears of it and ignores it
    have hunnumbered : e.sequence = 0 :=
      h.unnumbered (source, e) (by rw [hbus]; exact mem_cons_self) hsource
    simp only [viewPostgres, hfilter, observe_unnumbered _ hunnumbered]

/-- The same for the MySQL side. -/
theorem viewMysql_own (w₀ : System) (h : Inv w) (hstep : w.step a = some w')
    (hown : own .mysql w a = true) : (viewMysql w₀ w).step a = some (viewMysql w₀ w') := by
  cases a with
  | postgres a => exact absurd hown (by simp [own])
  | mysql a =>
    simp only [System.step, Option.map_eq_some_iff] at hstep ⊢
    obtain ⟨⟨m', out⟩, hside, rfl⟩ := hstep
    exact ⟨⟨m', out⟩, hside, by simp only [viewMysql, filter_push, ↓reduceIte]⟩
  | snapshot schema table data lsn => exact absurd hown (by simp [own])
  | publish =>
    obtain ⟨source, e, bus, hbus, rfl⟩ := publish_cases hstep
    obtain ⟨rfl, hfilter⟩ := filter_own hbus hown
    have hunnumbered : e.sequence = 0 :=
      h.unnumbered (.mysql, e) (by rw [hbus]; exact mem_cons_self) (by simp)
    simp only [System.step, viewMysql, hfilter, observe_unnumbered _ hunnumbered]

/-- And for the steps of others. -/
theorem viewMysql_other (w₀ : System) (h : Inv w) (hstep : w.step a = some w')
    (hown : own .mysql w a = false) : viewMysql w₀ w' = viewMysql w₀ w := by
  cases a with
  | postgres a =>
    simp only [System.step, Option.map_eq_some_iff] at hstep
    obtain ⟨⟨p', out⟩, hside, rfl⟩ := hstep
    simp [viewMysql]
  | mysql a => exact absurd hown (by simp [own])
  | snapshot schema table data lsn =>
    simp only [System.step] at hstep
    split at hstep <;> cases hstep <;> simp [viewMysql]
  | publish =>
    obtain ⟨source, e, bus, hbus, rfl⟩ := publish_cases hstep
    obtain ⟨hsource, hfilter⟩ := filter_other hbus hown
    have hunowned : Mysql.ownEvent e = false :=
      h.unowned (source, e) (by rw [hbus]; exact mem_cons_self) hsource
    simp only [viewMysql, hfilter, observe_unowned _ hunowned]

/-- In every run, each listener gets the same answers from its gate as in the run restricted to
    its own steps and the publishing of its own events. -/
theorem gates_isolated (tables : List GoString) (captureDDL : Bool) (file : GoString)
    (actions : List Action) (w : System)
    (hrun : runSteps step (start tables captureDDL file) actions = some w) :
    (∃ w', runSteps step (start tables captureDDL file)
        (restrict step (own .postgres) (start tables captureDDL file) actions) = some w' ∧
      w'.postgres.flushed = w.postgres.flushed) ∧
    ∃ w', runSteps step (start tables captureDDL file)
        (restrict step (own .mysql) (start tables captureDDL file) actions) = some w' ∧
      w'.mysql.confirmed = w.mysql.confirmed := by
  have hstart : Inv (start tables captureDDL file) :=
    ⟨forall_mem_nil _, forall_mem_nil _, forall_mem_nil _⟩
  -- the start looks the same in every view
  have hpostgres := runSteps_restrict hrun hstart (fun _ _ _ h => h.step)
    (fun _ _ _ => viewPostgres_own (start tables captureDDL file)) fun _ _ _ => viewPostgres_other _
  have hmysql := runSteps_restrict hrun hstart (fun _ _ _ h => h.step)
    (fun _ _ _ => viewMysql_own (start tables captureDDL file)) fun _ _ _ => viewMysql_other _
  exact ⟨⟨_, hpostgres, rfl⟩, ⟨_, hmysql, rfl⟩⟩

/-- A transaction with one row arrives from Postgres, a statement and a snapshot row in between;
    both listeners ask their gates before and after everything is published. -/
def sampleActions : List Action :=
  [.postgres (.receive (0x42 :: (beBytes 8 10 ++ beBytes 12 0)) []), .postgres .emit,
    .mysql (.call (.ddl ⟨ascii "a.1", 40⟩ (ascii "s") (ascii "DROP TABLE t"))),
    .mysql .perform, .mysql .hand, .mysql .perform,
    .snapshot (ascii "s") (ascii "t") (ascii "\x7b\x7d") [],
    .postgres (.receive (0x52 :: (beBytes 4 1 ++ ascii "s" ++ 0 :: ascii "t" ++ 0 :: 0x64 ::
      beBytes 2 0)) []),
    .postgres (.receive (0x49 :: (beBytes 4 1 ++ 0x4e :: beBytes 2 0)) []), .postgres .emit,
    .postgres (.receive (0x43 :: 0 :: (beBytes 8 10 ++ beBytes 8 20 ++ beBytes 8 0)) []),
    .postgres .emit, .publish, .publish, .postgres .flush, .mysql .confirmable, .publish,
    .postgres .flush, .publish, .publish, .postgres .flush]

theorem gates_isolated_sample :
    ∃ w, runSteps step (start [] false (ascii "a.1")) sampleActions = some w ∧
      w.postgres.flushed = [20, 0, 0] ∧ w.mysql.confirmed = [(⟨ascii "a.1", 40⟩, true)] ∧
      (∃ w', runSteps step (start [] false (ascii "a.1"))
          (restrict step (own .postgres) (start [] false (ascii "a.1")) sampleActions) = some w' ∧
        w'.postgres.flushed = w.postgres.flushed) ∧
      ∃ w', runSteps step (start [] false (ascii "a.1"))
          (restrict step (own .mysql) (start [] false (ascii "a.1")) sampleActions) = some w' ∧
        w'.mysql.confirmed = w.mysql.confirmed :=
  ⟨_, rfl, rfl, rfl, gates_isolated [] false (ascii "a.1") sampleActions _ rfl⟩

end System

end SharedBus
