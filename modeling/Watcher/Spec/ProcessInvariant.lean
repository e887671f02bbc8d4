import Watcher.Spec.ProcessMoves

/-!
# Invariants of the process

- `Calls`: a call to `HandleEvent` that has not returned is the one its source waits for
- `Writers`: a call of the bus that takes the write lock is one that `run` or the publisher's
  goroutine waits for
- `Subscribed`: there is at most the publisher's subscription, and when its goroutine is in its
  `unsub` or gone, that has begun
- `Busy`: events are handed over only by goroutines that run
- `Stacked`: for every goroutine that runs, the deferred call that waits for it is still to come,
  or `run` is about to defer it
-/

namespace Nats

/-- What others see of the place of the publisher's goroutine. -/
inductive Stage where
  | before
  | live
  | unsubscribing (call : Nat)
  | exited
  deriving DecidableEq, Repr

/-- The stage that a place of the goroutine belongs to. -/
def LifePc.stage : LifePc → Stage
  | .notStarted => .before
  | .unsubscribing i => .unsubscribing i
  | .exited => .exited
  | _ => .live

@[simp] theorem Life.close_pc (l : Life) : l.close.pc = l.pc := by
  rw [Life.close]
  split <;> rfl

@[simp] theorem Life.onClosed_pc (l : Life) : l.onClosed.pc = l.pc := by
  rw [Life.onClosed]
  split <;> rfl

/-- The goroutine's own steps are within a stage. -/
theorem LifeMoves.stage {ctxDone : Bool} {l l' : Life} {a : LifeAction}
    (h : LifeMoves ctxDone l a l') : l'.pc.stage = l.pc.stage := by
  cases h with
  | up hconn => rfl
  | down hconn => rfl
  | lost hconn => rw [Life.close_pc]
  | closedHandler hclosing => exact congrArg LifePc.stage l.onClosed_pc
  | lookupFails hpc =>
    rw [hpc]
    cases ctxDone <;> rfl
  | tooLarge event form hpc =>
    rw [hpc]
    cases form <;> rfl
  | attemptFails a event form hpc ha =>
    rw [hpc]
    dsimp only
    split <;> rfl
  | doneWaiting hdone hpc => rcases hpc with hpc | hpc | hpc | hpc <;> rw [hpc] <;> rfl
  | doneRetrying hdone event form hpc =>
    rcases hpc with ⟨hpc, -⟩ | hpc <;> rw [hpc] <;> rfl
  | missing hpc => rw [hpc]; rfl
  | closed hpc hconn => rw [hpc]; rfl
  | _ => simp [*, LifePc.stage]

end Nats

namespace Main

open Cdc Nats Run List Option

/-! ### Calls to `HandleEvent` -/

/-- Every call under way belongs to a source, and a source waits for a call that was made. -/
structure Calls (handles : List HandleCall) (hands : Source → Hands) : Prop where
  owned : ∀ (i : Nat) (c : HandleCall), handles[i]? = some c → c.pc.finished = false →
    ∃ s : Source, c.producer = s.id ∧ (hands s).call = some i
  made : ∀ s i, (hands s).call = some i → i < handles.length

theorem Source.id_inj {s t : Source} (h : s.id = t.id) : s = t := by
  cases s <;> cases t <;> first | rfl | cases h

namespace Calls

variable {handles : List HandleCall} {hands : Source → Hands}

/-- Nobody has called. -/
theorem init : Calls [] fun _ => .none where
  owned i c hc := by simp at hc
  made s i hi := by cases hi

theorem keeps {s t : Bus} (h : Calls s.handles hands) (hkeeps : s.Keeps t) :
    Calls t.handles hands where
  owned i c hc hfin := by
    have hlt : i < s.handles.length := hkeeps.handles ▸ getElem?_lt_length hc
    obtain ⟨pc, hpc, hfinished⟩ := hkeeps.handle i _ (getElem?_eq_getElem hlt)
    obtain rfl := some.inj (hc.symm.trans hpc)
    have hold : s.handles[i].pc.finished = false := by
      rw [← Bool.not_eq_true]
      intro hold
      exact absurd ((hfinished hold).symm.trans hfin) (by simp)
    exact h.owned i s.handles[i] (getElem?_eq_getElem hlt) hold
  made s i hi := hkeeps.handles ▸ h.made s i hi

/-- Nobody's call changes. -/
theorem setHands (h : Calls handles hands) {hands' : Source → Hands}
    (hcall : ∀ s, (hands' s).call = (hands s).call) : Calls handles hands' where
  owned i c hc hfin := by
    obtain ⟨s, hs, hi⟩ := h.owned i c hc hfin
    exact ⟨s, hs, (hcall s).trans hi⟩
  made s i hi := h.made s i ((hcall s).symm.trans hi)

/-- A source makes a call. -/
theorem hand (h : Calls handles hands) {s : Source} (hnone : (hands s).call = none)
    {c : HandleCall} (hc : c.producer = s.id) (todo : List Event) :
    Calls (handles ++ [c]) fun t => if t = s then ⟨todo, some handles.length⟩ else hands t where
  owned i d hd hfin := by
    rcases getElem?_concat_eq_some.mp hd with hd | ⟨rfl, rfl⟩
    · obtain ⟨t, ht, hi⟩ := h.owned i d hd hfin
      have hne : t ≠ s := by
        rintro rfl
        rw [hnone] at hi
        cases hi
      exact ⟨t, ht, by rw [if_neg hne]; exact hi⟩
    · exact ⟨s, hc, by rw [if_pos rfl]⟩
  made t i hi := by
    rw [length_append, length_singleton]
    by_cases ht : t = s
    · rw [if_pos ht] at hi
      obtain rfl := some.inj hi
      exact Nat.lt_succ_self _
    · rw [if_neg ht] at hi
      exact Nat.lt_succ_of_lt (h.made t i hi)

/-- The call a source has made returned. -/
theorem handed (h : Calls handles hands) {s : Source} {i : Nat} {c : HandleCall}
    (hi : (hands s).call = some i) (hc : handles[i]? = some c) (hfin : c.pc.finished = true)
    (todo : List Event) : Calls handles fun t => if t = s then ⟨todo, none⟩ else hands t where
  owned j d hd hdfin := by
    obtain ⟨t, ht, hj⟩ := h.owned j d hd hdfin
    have hne : t ≠ s := by
      rintro rfl
      obtain rfl := some.inj (hi.symm.trans hj)
      obtain rfl := some.inj (hc.symm.trans hd)
      exact absurd (hfin.symm.trans hdfin) (by simp)
    exact ⟨t, ht, by rw [if_neg hne]; exact hj⟩
  made t j hj := by
    by_cases ht : t = s
    · rw [if_pos ht] at hj
      cases hj
    · rw [if_neg ht] at hj
      exact h.made t j hj

/-- A source without a call under way can make one. -/
theorem producer_idle (h : Calls handles hands) {s : Source} (hnone : (hands s).call = none) :
    ∀ c ∈ handles, c.producer = s.id → c.pc.finished = true := by
  intro c hc hproducer
  rw [← Bool.not_eq_false]
  intro hfin
  obtain ⟨i, hi⟩ := mem_iff_getElem?.mp hc
  obtain ⟨t, ht, hcall⟩ := h.owned i c hi hfin
  obtain rfl := Source.id_inj (hproducer.symm.trans ht)
  rw [hnone] at hcall
  cases hcall

end Calls

/-! ### Calls that take the write lock -/

/-- The call of the bus that `run` waits for. -/
def MainPc.call : MainPc → Option Nat
  | .subscribing i => some i
  | .shutting i => some i
  | _ => none

/-- Every call under way is one that `run` or the goroutine waits for. -/
structure Writers (writes : List WriteCall) (main : MainPc) (stage : Stage) : Prop where
  owned : ∀ (i : Nat) (w : WriteCall), writes[i]? = some w → w.pc ≠ .returned →
    main.call = some i ∨ stage = .unsubscribing i
  main_made : ∀ i, main.call = some i → i < writes.length
  life_made : ∀ i, stage = .unsubscribing i → i < writes.length

/-- The call has returned. -/
theorem written_iff {bus : Bus} {i : Nat} :
    written bus i = true ↔ ∃ w, bus.writes[i]? = some w ∧ w.pc = .returned := by
  unfold written
  split
  · rename_i w hw
    simp [hw]
  · rename_i hw
    simp [hw]

/-- And so for a call to `HandleEvent`. -/
theorem handled_iff {bus : Bus} {i : Nat} :
    handled bus i = true ↔ ∃ c, bus.handles[i]? = some c ∧ c.pc.finished = true := by
  unfold handled
  split
  · rename_i c hc
    simp [hc]
  · rename_i hc
    simp [hc]

namespace Writers

variable {writes : List WriteCall} {main : MainPc} {stage : Stage}

/-- The bus moves on. -/
theorem keeps {s t : Bus} (h : Writers s.writes main stage) (hkeeps : s.Keeps t) :
    Writers t.writes main stage where
  owned i w hw hret := by
    have hlt : i < s.writes.length := hkeeps.writes ▸ getElem?_lt_length hw
    obtain ⟨pc, hpc, hreturned⟩ := hkeeps.write i _ (getElem?_eq_getElem hlt)
    obtain rfl := some.inj (hw.symm.trans hpc)
    exact h.owned i _ (getElem?_eq_getElem hlt) fun hold => hret (hreturned hold)
  main_made i hi := hkeeps.writes ▸ h.main_made i hi
  life_made i hi := hkeeps.writes ▸ h.life_made i hi

/-- `run` moves on without a call. -/
theorem setMain (h : Writers writes main stage) {main' : MainPc} (hcall : main.call = none)
    (hcall' : main'.call = none) : Writers writes main' stage where
  owned i w hw hret := by
    rcases h.owned i w hw hret with hi | hi
    · rw [hcall] at hi
      cases hi
    · exact .inr hi
  main_made i hi := by
    rw [hcall'] at hi
    cases hi
  life_made := h.life_made

/-- The call of `run` returned. -/
theorem mainReturns (h : Writers writes main stage) {main' : MainPc} {i : Nat}
    (hcall : main.call = some i) {w : WriteCall} (hw : writes[i]? = some w)
    (hret : w.pc = .returned) (hcall' : main'.call = none) : Writers writes main' stage where
  owned j v hv hvret := by
    rcases h.owned j v hv hvret with hj | hj
    · obtain rfl := some.inj (hcall.symm.trans hj)
      obtain rfl := some.inj (hw.symm.trans hv)
      exact absurd hret hvret
    · exact .inr hj
  main_made j hj := by
    rw [hcall'] at hj
    cases hj
  life_made := h.life_made

/-- `run` makes a call. -/
theorem mainCalls (h : Writers writes main stage) (hcall : main.call = none) (op : WriteOp)
    {main' : MainPc} (hcall' : main'.call = some writes.length) :
    Writers (writes ++ [⟨op, .start⟩]) main' stage where
  owned i w hw hret := by
    rcases getElem?_concat_eq_some.mp hw with hw | ⟨rfl, rfl⟩
    · rcases h.owned i w hw hret with hi | hi
      · rw [hcall] at hi
        cases hi
      · exact .inr hi
    · exact .inl hcall'
  main_made i hi := by
    obtain rfl := some.inj (hcall'.symm.trans hi)
    simp
  life_made i hi := by
    rw [length_append, length_singleton]
    exact Nat.lt_succ_of_lt (h.life_made i hi)

/-- The publisher's goroutine moves on without a call. -/
theorem setStage (h : Writers writes main stage) {stage' : Stage}
    (hcall : ∀ i, stage ≠ .unsubscribing i) (hcall' : ∀ i, stage' ≠ .unsubscribing i) :
    Writers writes main stage' where
  owned i w hw hret := (h.owned i w hw hret).imp_right fun hi => absurd hi (hcall i)
  main_made := h.main_made
  life_made i hi := absurd hi (hcall' i)

/-- The call of the publisher's goroutine returned. -/
theorem lifeReturns (h : Writers writes main stage) {i : Nat} (hcall : stage = .unsubscribing i)
    {w : WriteCall} (hw : writes[i]? = some w) (hret : w.pc = .returned) :
    Writers writes main .exited where
  owned j v hv hvret := by
    rcases h.owned j v hv hvret with hj | hj
    · exact .inl hj
    · obtain rfl := Stage.unsubscribing.inj (hcall.symm.trans hj)
      obtain rfl := some.inj (hw.symm.trans hv)
      exact absurd hret hvret
  main_made := h.main_made
  life_made j hj := by cases hj

/-- The publisher's goroutine makes a call. -/
theorem lifeCalls (h : Writers writes main stage) (hcall : ∀ i, stage ≠ .unsubscribing i)
    (op : WriteOp) :
    Writers (writes ++ [⟨op, .start⟩]) main (.unsubscribing writes.length) where
  owned i w hw hret := by
    rcases getElem?_concat_eq_some.mp hw with hw | ⟨rfl, rfl⟩
    · exact (h.owned i w hw hret).imp_right fun hi => absurd hi (hcall i)
    · exact .inr rfl
  main_made i hi := by
    rw [length_append, length_singleton]
    exact Nat.lt_succ_of_lt (h.main_made i hi)
  life_made i hi := by
    obtain rfl := Stage.unsubscribing.inj hi
    simp

end Writers

/-! ### The publisher's subscription -/

/-- Before `SubscribeAll` is called. -/
def MainPc.early : MainPc → Bool
  | .connecting | .verifying | .looking => true
  | _ => false

/-- The publisher's subscription, by how far `run` and the goroutine have come. -/
structure Subscribed (bus : Bus) (main : MainPc) (stage : Stage) : Prop where
  room_le : bus.room ≤ 1
  /-- Nobody has used the bus. -/
  early : main.early = true → bus.handles = [] ∧ bus.room = 0
  subscribing : ∀ i, main = .subscribing i → bus.handles = [] ∧ bus.room = 1 ∧
    (∀ sub ∈ bus.subs, sub.sent = []) ∧ ∃ pc, bus.writes = [⟨.subscribe .global, pc⟩]
  before : stage = .before → bus.room = 0 ∨ ∃ i, main = .subscribing i
  /-- The goroutine starts once `SubscribeAll` has returned. -/
  not_started : (main.early = true ∨ ∃ i, main = .subscribing i) → stage = .before
  live : stage = .live → 0 < bus.subs.length
  left : (∃ i, stage = .unsubscribing i) ∨ stage = .exited →
    ∃ sub, bus.subs[subscription]? = some sub ∧ sub.unsubBegan ≠ none
  unused : main.early = true → bus.writes = []

namespace Subscribed

variable {bus : Bus} {main : MainPc} {stage : Stage}

theorem subs_le (h : Subscribed bus main stage) : bus.subs.length ≤ 1 :=
  Nat.le_trans (Nat.le_add_right _ _) h.room_le

/-- Without room there is none. -/
theorem subs_nil (h : bus.room = 0) : bus.subs = [] := by
  rw [← length_eq_zero_iff]
  exact Nat.eq_zero_of_add_eq_zero_right h

/-- The bus moves on. -/
theorem keeps {t : Bus} (h : Subscribed bus main stage) (hkeeps : bus.Keeps t) :
    Subscribed t main stage where
  room_le := hkeeps.room ▸ h.room_le
  early he := by
    obtain ⟨hnil, hroom⟩ := h.early he
    refine ⟨?_, hkeeps.room.trans hroom⟩
    rw [← length_eq_zero_iff, hkeeps.handles, hnil, length_nil]
  subscribing i hi := by
    obtain ⟨hnil, hroom, hsent, pc, hwrites⟩ := h.subscribing i hi
    refine ⟨?_, hkeeps.room.trans hroom, hkeeps.unsent hnil hsent, ?_⟩
    · rw [← length_eq_zero_iff, hkeeps.handles, hnil, length_nil]
    · obtain ⟨pc', hpc', -⟩ := hkeeps.write 0 ⟨.subscribe .global, pc⟩ (by rw [hwrites]; rfl)
      obtain ⟨w, hw⟩ := length_eq_one_iff.mp (hkeeps.writes.trans (by rw [hwrites]; rfl))
      rw [hw] at hpc'
      exact ⟨pc', by rw [hw, some.inj hpc']⟩
  before hb := (h.before hb).imp_left hkeeps.room.trans
  not_started := h.not_started
  live hl := Nat.lt_of_lt_of_le (h.live hl) hkeeps.subs
  left hl := by
    obtain ⟨sub, hsub, hne⟩ := h.left hl
    exact hkeeps.begun _ sub hsub hne
  unused he := by
    rw [← length_eq_zero_iff, hkeeps.writes, h.unused he, length_nil]

/-- A step of `run` between the calls of the bus. -/
theorem setMain (h : Subscribed bus main stage) {main' : MainPc}
    (hearly : main'.early = true → main.early = true) (hsub : ∀ i, main' ≠ .subscribing i)
    (hnot : ∀ i, main ≠ .subscribing i) : Subscribed bus main' stage where
  room_le := h.room_le
  early he := h.early (hearly he)
  subscribing i hi := absurd hi (hsub i)
  before hb := by
    rcases h.before hb with hroom | ⟨i, hi⟩
    · exact .inl hroom
    · exact absurd hi (hnot i)
  not_started hs := by
    rcases hs with he | ⟨i, hi⟩
    · exact h.not_started (.inl (hearly he))
    · exact absurd hi (hsub i)
  live := h.live
  left := h.left
  unused he := h.unused (hearly he)

/-- `run` calls `SubscribeAll`. -/
theorem callSubscribe {cap : Nat} {t : Bus} (h : Subscribed bus main stage)
    (hearly : main.early = true) (hstep : bus.step cap (.callSubscribe .global) = some t)
    (i : Nat) : Subscribed t (.subscribing i) stage := by
  obtain ⟨u, hmoves, rfl⟩ := Cdc.step_moves hstep
  cases hmoves
  obtain ⟨hnil, hroom⟩ := h.early hearly
  have hwrites := h.unused hearly
  have hsubs := subs_nil hroom
  have hroom' : Bus.room (Bus.tick
      { bus with writes := bus.writes ++ [⟨.subscribe .global, .start⟩] }) = 1 := by
    simp [Bus.room, Bus.tick, hwrites, hsubs, WriteCall.adds]
  refine ⟨Nat.le_of_eq hroom', ?_, ?_, ?_, ?_, ?_, ?_, ?_⟩
  · intro he
    cases he
  · intro j hj
    refine ⟨hnil, hroom', ?_, .start, ?_⟩
    · intro sub hsub
      exact absurd (hsubs ▸ hsub) (by simp)
    · show bus.writes ++ [_] = _
      rw [hwrites, nil_append]
  · exact fun _ => .inr ⟨i, rfl⟩
  · exact fun _ => h.not_started (.inl hearly)
  · exact h.live
  · exact h.left
  · intro he
    cases he

/-- `SubscribeAll` has returned. -/
theorem subscribed (h : Subscribed bus main stage) {i : Nat} (hmain : main = .subscribing i)
    (hwritten : written bus i = true) : Subscribed bus .startingPostgres .live := by
  obtain ⟨hnil, hroom, hsent, pc, hwrites⟩ := h.subscribing i hmain
  obtain ⟨w, hw, hret⟩ := written_iff.mp hwritten
  have hlive : 0 < bus.subs.length := by
    rw [hwrites] at hw
    cases i with
    | succ i => simp at hw
    | zero =>
      obtain rfl := some.inj hw
      obtain rfl : pc = .returned := hret
      simp only [Bus.room, hwrites, map_cons, map_nil, WriteCall.adds, sum_cons, sum_nil] at hroom
      omega
  refine ⟨h.room_le, ?_, ?_, ?_, ?_, fun _ => hlive, ?_, ?_⟩
  · intro he
    cases he
  · intro j hj
    cases hj
  · intro hb
    cases hb
  · rintro (he | ⟨j, hj⟩)
    · cases he
    · cases hj
  · rintro (⟨j, hj⟩ | hj) <;> cases hj
  · intro he
    cases he

/-- A call that adds no subscription. -/
theorem call {t : Bus} {main' : MainPc} {stage' : Stage} (h : Subscribed bus main stage)
    (hroom : t.room = bus.room) (hlength : t.subs.length = bus.subs.length)
    (hearly : main'.early = false) (hsub : ∀ i, main' ≠ .subscribing i)
    (hnot : ∀ i, main ≠ .subscribing i) (hbefore : stage' = .before → stage = .before)
    (hlive : stage' = .live → stage = .live)
    (hleft : (∃ i, stage' = .unsubscribing i) ∨ stage' = .exited →
      ∃ sub, t.subs[subscription]? = some sub ∧ sub.unsubBegan ≠ none) :
    Subscribed t main' stage' where
  room_le := hroom ▸ h.room_le
  early he := by
    rw [hearly] at he
    cases he
  subscribing i hi := absurd hi (hsub i)
  before hb := by
    rcases h.before (hbefore hb) with hr | ⟨i, hi⟩
    · exact .inl (hroom.trans hr)
    · exact absurd hi (hnot i)
  not_started hs := by
    rcases hs with he | ⟨i, hi⟩
    · rw [hearly] at he
      cases he
    · exact absurd hi (hsub i)
  live hl := hlength ▸ h.live (hlive hl)
  left := hleft
  unused he := by
    rw [hearly] at he
    cases he

end Subscribed

/-! ### Who hands over events -/

/-- `startPostgres` has not succeeded. -/
def MainPc.beforePostgres : MainPc → Bool
  | .connecting | .verifying | .looking | .subscribing _ | .startingPostgres => true
  | _ => false

/-- `startMySQL` has not succeeded. -/
def MainPc.beforeMysql : MainPc → Bool
  | .markingPostgres | .storingPostgres | .startingMysql => true
  | main => main.beforePostgres

/-- Who can have something to hand over. -/
structure Busy (cfg : Config) (hands : Source → Hands) (main : MainPc) (loop : LoopPc)
    (canal : CanalPc) : Prop where
  run : (hands .run).idle = false →
    main = .startingPostgres ∧ cfg.postgres = true ∨ main = .startingMysql ∧ cfg.mysql = true
  postgres : (hands .postgres).idle = false → loop = .streaming
  mysql : (hands .mysql).idle = false → canal = .running
  no_loop : main.beforePostgres = true → loop = .notStarted
  no_canal : main.beforeMysql = true → canal = .notStarted

namespace Busy

variable {cfg : Config} {hands : Source → Hands} {main : MainPc} {loop : LoopPc} {canal : CanalPc}

/-- Nothing runs. -/
theorem init (cfg : Config) (main : MainPc) :
    Busy cfg (fun _ => .none) main .notStarted .notStarted where
  run h := by cases h
  postgres h := by cases h
  mysql h := by cases h
  no_loop _ := rfl
  no_canal _ := rfl

/-- `run` moves on, with nothing to hand over, or nothing but what it has. -/
theorem setMain (h : Busy cfg hands main loop canal) {main' : MainPc}
    (hrun : (hands .run).idle = true)
    (hloop : main'.beforePostgres = true → main.beforePostgres = true)
    (hcanal : main'.beforeMysql = true → main.beforeMysql = true) :
    Busy cfg hands main' loop canal where
  run hidle := by
    rw [hrun] at hidle
    cases hidle
  postgres := h.postgres
  mysql := h.mysql
  no_loop he := h.no_loop (hloop he)
  no_canal he := h.no_canal (hcanal he)

theorem run_idle (h : Busy cfg hands main loop canal)
    (hpostgres : main = .startingPostgres → cfg.postgres = false)
    (hmysql : main = .startingMysql → cfg.mysql = false) : (hands .run).idle = true := by
  rw [← Bool.not_eq_false]
  intro hidle
  rcases h.run hidle with ⟨hm, hcfg⟩ | ⟨hm, hcfg⟩
  · exact absurd ((hpostgres hm).symm.trans hcfg) (by simp)
  · exact absurd ((hmysql hm).symm.trans hcfg) (by simp)

/-- What a source has to hand over changes, and the source may hand over events. -/
theorem setHands (h : Busy cfg hands main loop canal) (s : Source) (new : Hands)
    (hrun : s = .run →
      main = .startingPostgres ∧ cfg.postgres = true ∨ main = .startingMysql ∧ cfg.mysql = true)
    (hpostgres : s = .postgres → loop = .streaming) (hmysql : s = .mysql → canal = .running) :
    Busy cfg (fun t => if t = s then new else hands t) main loop canal := by
  refine { h with run := ?_, postgres := ?_, mysql := ?_ } <;> intro hidle <;> split at hidle
  · exact hrun (by symm; assumption)
  · exact h.run hidle
  · exact hpostgres (by symm; assumption)
  · exact h.postgres hidle
  · exact hmysql (by symm; assumption)
  · exact h.mysql hidle

theorem keepHands (h : Busy cfg hands main loop canal) {s : Source} (hs : (hands s).idle = false)
    (new : Hands) : Busy cfg (fun t => if t = s then new else hands t) main loop canal :=
  h.setHands s new (fun hsrc => h.run (hsrc ▸ hs)) (fun hsrc => h.postgres (hsrc ▸ hs))
    fun hsrc => h.mysql (hsrc ▸ hs)

/-- Nobody hands over events before `SubscribeAll` has returned. -/
theorem not_early (h : Busy cfg hands main loop canal) {s : Source} (hs : (hands s).idle = false) :
    main.early = false ∧ ∀ i, main ≠ .subscribing i := by
  have hstarted : main = .startingPostgres ∨ main = .startingMysql ∨ main.beforePostgres = false ∨
      main.beforeMysql = false := by
    cases s with
    | run => exact (h.run hs).imp And.left fun hm => .inl hm.1
    | postgres =>
      refine .inr (.inr (.inl ?_))
      rw [← Bool.not_eq_true]
      exact fun he => absurd ((h.no_loop he).symm.trans (h.postgres hs)) (by simp)
    | mysql =>
      refine .inr (.inr (.inr ?_))
      rw [← Bool.not_eq_true]
      exact fun he => absurd ((h.no_canal he).symm.trans (h.mysql hs)) (by simp)
  cases main <;> simp_all [MainPc.early, MainPc.beforePostgres, MainPc.beforeMysql]

end Busy

/-! ### The deferred calls -/

/-- `run` waits in the deferred call for the goroutines to end, or it has just started them and is
    about to defer it. -/
def MainPc.minds : MainPc → Option Deferred
  | .joining d => some d
  | .markingPostgres | .storingPostgres => some .stopPostgres
  | .markingMysql => some .stopMysql
  | _ => none

/-- For every goroutine that runs there is a deferred call, or will be. -/
structure Stacked (main : MainPc) (defers : List Deferred) (stage : Stage)
    (pg : PostgresPart) (my : MysqlPart) : Prop where
  nats : stage = .live ∨ (∃ i, stage = .unsubscribing i) →
    .stopNats ∈ defers ∨ main.minds = some .stopNats
  postgres : (pg.pc ≠ .notStarted ∧ pg.pc ≠ .exited) ∨ 0 < pg.helpers →
    .stopPostgres ∈ defers ∨ main.minds = some .stopPostgres
  mysql : my.pc = .running ∨ my.saver = true →
    .stopMysql ∈ defers ∨ main.minds = some .stopMysql
  closed : main = .joining .stopMysql → my.closed = true
  returned : main = .returned → defers = []

namespace Stacked

variable {main : MainPc} {defers : List Deferred} {stage : Stage} {pg : PostgresPart}
  {my : MysqlPart}

/-- `run` neither waits in a deferred call nor has returned. -/
def moving (main : MainPc) : Prop := (∀ d, main ≠ .joining d) ∧ main ≠ .returned

/-- `run` is at none of the places that matter here. -/
def outside (main : MainPc) : Prop := main.minds = none ∧ main ≠ .returned

theorem outside.moving (h : outside main) : moving main := by
  refine ⟨?_, h.2⟩
  rintro d rfl
  exact absurd h.1 (by simp [MainPc.minds])

/-- `run` moves on and minds the same deferred calls. -/
theorem setMain (h : Stacked main defers stage pg my) {main' : MainPc}
    (hminds : ∀ d, main.minds = some d → main'.minds = some d) (hmain' : moving main') :
    Stacked main' defers stage pg my where
  nats hs := (h.nats hs).imp_right (hminds _)
  postgres hs := (h.postgres hs).imp_right (hminds _)
  mysql hs := (h.mysql hs).imp_right (hminds _)
  closed hj := absurd hj (hmain'.1 _)
  returned hr := absurd hr hmain'.2

/-- `run` moves on between places that do not matter here. -/
theorem skip (h : Stacked main defers stage pg my) {main' : MainPc} (hmain : outside main)
    (hmain' : moving main') : Stacked main' defers stage pg my :=
  h.setMain (fun d hd => absurd (hd.symm.trans hmain.1) (by simp)) hmain'

/-- `run` defers the call that it had to. -/
theorem push (h : Stacked main defers stage pg my) (d : Deferred) {main' : MainPc}
    (hminds : ∀ e, main.minds = some e → e = d) (hmain' : moving main') :
    Stacked main' (d :: defers) stage pg my := by
  have hstill : ∀ {e : Deferred}, e ∈ defers ∨ main.minds = some e → e ∈ d :: defers := by
    rintro e (he | he)
    · exact mem_cons_of_mem d he
    · exact hminds e he ▸ mem_cons_self
  exact ⟨fun hs => .inl (hstill (h.nats hs)), fun hs => .inl (hstill (h.postgres hs)),
    fun hs => .inl (hstill (h.mysql hs)), fun hj => absurd hj (hmain'.1 _),
    fun hr => absurd hr hmain'.2⟩

/-- The next deferred call begins, or is over at once. -/
theorem pop {d : Deferred} (h : Stacked main (d :: defers) stage pg my)
    (hmain : outside main) {main' : MainPc}
    (hmain' : main' = .joining d ∨
      moving main' ∧ d ≠ .stopNats ∧ d ≠ .stopPostgres ∧ d ≠ .stopMysql)
    (hclosed : d = .stopMysql → my.closed = true) :
    Stacked main' defers stage pg my := by
  have hstill : ∀ {e : Deferred}, e = .stopNats ∨ e = .stopPostgres ∨ e = .stopMysql →
      (e ∈ d :: defers ∨ main.minds = some e) → e ∈ defers ∨ main'.minds = some e := by
    intro e he hmem
    rcases mem_cons.mp (hmem.resolve_right (by simp [hmain.1])) with rfl | hmem
    · rcases hmain' with hjoin | ⟨-, h1, h2, h3⟩
      · exact .inr (by simp [hjoin, MainPc.minds])
      · rcases he with rfl | rfl | rfl
        · exact absurd rfl h1
        · exact absurd rfl h2
        · exact absurd rfl h3
    · exact .inl hmem
  refine ⟨?_, ?_, ?_, ?_, ?_⟩
  · exact fun hs => hstill (.inl rfl) (h.nats hs)
  · exact fun hs => hstill (.inr (.inl rfl)) (h.postgres hs)
  · exact fun hs => hstill (.inr (.inr rfl)) (h.mysql hs)
  · intro hj
    rcases hmain' with hjoin | ⟨hin, -⟩
    · exact hclosed (MainPc.joining.inj (hjoin.symm.trans hj))
    · exact absurd hj (hin.1 _)
  · intro hr
    rcases hmain' with hjoin | ⟨hin, -⟩
    · exact absurd (hjoin.symm.trans hr) (by simp)
    · exact absurd hr hin.2

/-- The goroutines that a deferred call waits for are over. -/
theorem join {d : Deferred} (h : Stacked (.joining d) defers stage pg my)
    (hnats : d = .stopNats → stage ≠ .live ∧ ∀ i, stage ≠ .unsubscribing i)
    (hpostgres : d = .stopPostgres →
      (pg.pc = .notStarted ∨ pg.pc = .exited) ∧ pg.helpers = 0)
    (hmysql : d = .stopMysql → my.pc ≠ .running ∧ my.saver = false) {main' : MainPc}
    (hmain' : moving main') : Stacked main' defers stage pg my := by
  have hjoin : ∀ {e : Deferred}, (MainPc.joining d).minds = some e → d = e := by
    intro e he
    simpa [MainPc.minds] using he
  refine ⟨?_, ?_, ?_, fun hj => absurd hj (hmain'.1 _), fun hr => absurd hr hmain'.2⟩
  · intro hs
    refine .inl ((h.nats hs).resolve_right fun hj => ?_)
    obtain ⟨h1, h2⟩ := hnats (hjoin hj)
    rcases hs with hs | ⟨i, hi⟩
    · exact h1 hs
    · exact h2 i hi
  · intro hs
    refine .inl ((h.postgres hs).resolve_right fun hj => ?_)
    obtain ⟨h1, h2⟩ := hpostgres (hjoin hj)
    rcases hs with ⟨hs1, hs2⟩ | hs
    · rcases h1 with h1 | h1
      · exact hs1 h1
      · exact hs2 h1
    · omega
  · intro hs
    refine .inl ((h.mysql hs).resolve_right fun hj => ?_)
    obtain ⟨h1, h2⟩ := hmysql (hjoin hj)
    rcases hs with hs | hs
    · exact h1 hs
    · exact absurd (h2.symm.trans hs) (by simp)

/-- A goroutine of the publisher moves on; where it starts, its deferred call is there. -/
theorem setStage (h : Stacked main defers stage pg my) {stage' : Stage}
    (hstage : stage' = .live ∨ (∃ i, stage' = .unsubscribing i) →
      (stage = .live ∨ ∃ i, stage = .unsubscribing i) ∨ .stopNats ∈ defers) :
    Stacked main defers stage' pg my :=
  { h with
    nats := fun hs => by
      rcases hstage hs with hold | hmem
      · exact h.nats hold
      · exact .inl hmem }

/-- The goroutines of the Postgres listener move on, or `run` has just started them. -/
theorem setPostgres (h : Stacked main defers stage pg my) {pg' : PostgresPart}
    (hpostgres : (pg'.pc ≠ .notStarted ∧ pg'.pc ≠ .exited) ∨ 0 < pg'.helpers →
      ((pg.pc ≠ .notStarted ∧ pg.pc ≠ .exited) ∨ 0 < pg.helpers) ∨
        main.minds = some .stopPostgres) : Stacked main defers stage pg' my :=
  { h with
    postgres := fun hs => by
      rcases hpostgres hs with hold | hminds
      · exact h.postgres hold
      · exact .inr hminds }

/-- Those of the MySQL listener move on. -/
theorem setMysql (h : Stacked main defers stage pg my) {my' : MysqlPart}
    (hmysql : my'.pc = .running ∨ my'.saver = true → my.pc = .running ∨ my.saver = true)
    (hclosed : my.closed = true → my'.closed = true) :
    Stacked main defers stage pg my' :=
  { h with
    mysql := fun hs => h.mysql (hmysql hs)
    closed := fun hj => hclosed (h.closed hj) }

end Stacked

/-! ### All of it -/

/-- `run` is on its way out. -/
def MainPc.exiting : MainPc → Bool
  | .closing | .draining | .unwinding | .joining _ | .releasing | .shutting _ | .returned => true
  | _ => false

theorem MainPc.exiting_late {main : MainPc} (h : main.exiting = true) :
    (main.early = false ∧ ∀ i, main ≠ .subscribing i) ∧
      (main ≠ .startingPostgres ∧ main ≠ .startingMysql) ∧
      main.beforePostgres = false ∧ main.beforeMysql = false := by
  cases main <;>
    simp_all [MainPc.exiting, MainPc.early, MainPc.beforePostgres, MainPc.beforeMysql]

theorem Subscribed.leave {bus t : Bus} {main main' : MainPc} {stage : Stage}
    (h : Subscribed bus main stage) (hexit : main.exiting = true) (hexit' : main'.exiting = true)
    (hroom : t.room = bus.room) (hsubs : t.subs = bus.subs) : Subscribed t main' stage := by
  obtain ⟨⟨-, hsub⟩, -⟩ := MainPc.exiting_late hexit
  obtain ⟨⟨hearly, hsub'⟩, -⟩ := MainPc.exiting_late hexit'
  exact h.call hroom (congrArg _ hsubs) hearly hsub' hsub id id (hsubs ▸ h.left)

theorem Busy.leave {cfg : Config} {hands : Source → Hands} {main main' : MainPc} {loop : LoopPc}
    {canal : CanalPc} (h : Busy cfg hands main loop canal) (hexit : main.exiting = true)
    (hexit' : main'.exiting = true) : Busy cfg hands main' loop canal := by
  obtain ⟨-, ⟨hpostgres, hmysql⟩, -⟩ := MainPc.exiting_late hexit
  obtain ⟨-, -, hloop, hcanal⟩ := MainPc.exiting_late hexit'
  refine h.setMain (h.run_idle (absurd · hpostgres) (absurd · hmysql)) ?_ ?_
  · exact fun he => absurd (hloop.symm.trans he) (by simp)
  · exact fun he => absurd (hcanal.symm.trans he) (by simp)

/-- The invariants together. -/
structure Process.Inv (cfg : Config) (p : Process) : Prop where
  progress : p.bus.Progress
  calls : Calls p.bus.handles p.hands
  writers : Writers p.bus.writes p.main p.life.pc.stage
  subscribed : Subscribed p.bus p.main p.life.pc.stage
  busy : Busy cfg p.hands p.main p.postgres.pc p.mysql.pc
  stacked : Stacked p.main p.defers p.life.pc.stage p.postgres p.mysql
  exiting : p.main.exiting = true → p.ctxDone = true ∨ p.result = .startFailed

/-- At the start nothing runs and nobody has called. -/
theorem Process.Inv.init (cfg : Config) : (init cfg).Inv cfg where
  progress := .init
  calls := .init
  writers := by
    -- with NATS or without, `run` has made no call of the bus
    have hcall : (Main.init cfg).main.call = none := by
      simp only [Main.init]
      split <;> rfl
    refine ⟨?_, ?_, ?_⟩
    · intro i w hw
      simp [Main.init, newService] at hw
    · intro i hi
      rw [hcall] at hi
      cases hi
    · intro i hi
      cases hi
  subscribed := by
    have hsub : ∀ i, (Main.init cfg).main ≠ .subscribing i := by
      intro i
      simp only [Main.init]
      split <;> simp
    refine ⟨Nat.zero_le _, fun _ => ⟨rfl, rfl⟩, ?_, fun _ => .inl rfl, fun _ => rfl, ?_, ?_,
      fun _ => rfl⟩
    · exact fun i hi => absurd hi (hsub i)
    · intro hl
      cases hl
    · rintro (⟨i, hi⟩ | hi) <;> cases hi
  busy := .init cfg _
  stacked := by
    refine ⟨?_, ?_, ?_, ?_, ?_⟩
    · rintro (hs | ⟨i, hi⟩)
      · cases hs
      · cases hi
    · rintro (⟨h, -⟩ | h)
      · exact absurd rfl h
      · cases h
    · rintro (h | h) <;> cases h
    · simp only [Main.init]
      split <;> simp
    · simp only [Main.init]
      split <;> simp
  exiting := by
    simp only [Main.init]
    split <;> simp [MainPc.exiting]

/-- `run` is in no call of the bus, minds no goroutine and has not returned. -/
def MainPc.plain : MainPc → Bool
  | .subscribing _ | .shutting _ | .joining _ | .returned => false
  | .markingPostgres | .storingPostgres | .markingMysql => false
  | _ => true

/-- Between the two places of `run` nothing was started. -/
def MainPc.follows (main main' : MainPc) : Bool :=
  main.plain && main'.plain && (!main'.early || main.early) &&
    (!main'.beforePostgres || main.beforePostgres) && (!main'.beforeMysql || main.beforeMysql)

theorem MainPc.plain_call {main : MainPc} (h : main.plain = true) : main.call = none := by
  cases main <;> first | rfl | cases h

/-- Nor a goroutine to mind. -/
theorem MainPc.plain_outside {main : MainPc} (h : main.plain = true) : Stacked.outside main := by
  constructor
  · cases main <;> first | rfl | cases h
  · rintro rfl
    cases h

theorem MainPc.plain_subscribing {main : MainPc} (h : main.plain = true) (i : Nat) :
    main ≠ .subscribing i := by
  rintro rfl
  cases h

namespace Process.Inv

variable {cap : Nat} {cfg : Config} {p q : Process}

/-- `run` moves on, between its calls of the bus and its waits. -/
theorem advance (h : p.Inv cfg) (hbus : q.bus = p.bus) (hhands : q.hands = p.hands)
    (hlife : q.life.pc = p.life.pc) (hpostgres : q.postgres = p.postgres)
    (hcanal : q.mysql.pc = p.mysql.pc) (hsaver : q.mysql.saver = p.mysql.saver)
    (hdefers : q.defers = p.defers) {main : MainPc} (hmain : p.main = main)
    (hfollows : main.follows q.main = true)
    (hrun : (main = .startingPostgres → cfg.postgres = false) ∧
      (main = .startingMysql → cfg.mysql = false) ∨ (p.hands .run).idle = true)
    (hexit : q.main.exiting = true → q.ctxDone = true ∨ q.result = .startFailed) : q.Inv cfg := by
  subst hmain
  simp only [MainPc.follows, Bool.and_eq_true, Bool.or_eq_true, Bool.not_eq_true'] at hfollows
  obtain ⟨⟨⟨⟨hplain, hplain'⟩, hearly⟩, hloop⟩, hbefore⟩ := hfollows
  -- nothing was started between the two places, so what held of the old one holds of the new one
  have himp : ∀ {x y : Bool}, x = false ∨ y = true → x = true → y = true := by
    intro x y hxy hx
    rcases hxy with hxy | hxy
    · rw [hxy] at hx
      cases hx
    · exact hxy
  refine ⟨hbus ▸ h.progress, ?_, ?_, ?_, ?_, ?_, hexit⟩
  · rw [hbus, hhands]
    exact h.calls
  · rw [hbus, hlife]
    exact h.writers.setMain (MainPc.plain_call hplain) (MainPc.plain_call hplain')
  · rw [hbus, hlife]
    exact h.subscribed.setMain (himp hearly) (MainPc.plain_subscribing hplain')
      (MainPc.plain_subscribing hplain)
  · rw [hhands, hpostgres, hcanal]
    refine ⟨?_, h.busy.postgres, h.busy.mysql, fun he => h.busy.no_loop (himp hloop he),
      fun he => h.busy.no_canal (himp hbefore he)⟩
    intro hidle
    -- whatever `run` had to hand over is handed over before it moves on
    rcases hrun with ⟨hrun, hrun'⟩ | hrun
    · rw [h.busy.run_idle hrun hrun'] at hidle
      cases hidle
    · rw [hrun] at hidle
      cases hidle
  · rw [hlife, hpostgres, hdefers]
    have hin := (MainPc.plain_outside hplain').moving
    have hstacked := h.stacked.skip (MainPc.plain_outside hplain) hin
    refine { hstacked with mysql := ?_, closed := ?_ }
    · rw [hcanal, hsaver]
      exact hstacked.mysql
    · exact fun hj => absurd hj (hin.1 _)

/-- A step within the calls of the bus, or an event received. -/
theorem setBus (h : p.Inv cfg) {bus : Bus} {a : BusAction} (hbus : p.bus.step cap a = some bus)
    (ha : a.inside = true ∨ ∃ x, a = .receive x) : { p with bus := bus }.Inv cfg :=
  { h with
    progress := h.progress.step hbus
    calls := h.calls.keeps (Bus.keeps_step hbus ha)
    writers := h.writers.keeps (Bus.keeps_step hbus ha)
    subscribed := h.subscribed.keeps (Bus.keeps_step hbus ha) }

/-- The publisher's goroutine moves on between its calls of the bus. -/
theorem setLife (h : p.Inv cfg) {life : Life} (hlife : life.pc.stage = p.life.pc.stage) :
    { p with life := life }.Inv cfg :=
  { h with
    writers := hlife ▸ h.writers
    subscribed := hlife ▸ h.subscribed
    stacked := hlife ▸ h.stacked }

/-- `run` calls `SubscribeAll`. -/
theorem subscribe (h : p.Inv cfg) (hearly : p.main.early = true) {bus : Bus}
    (hbus : p.bus.step cap (.callSubscribe .global) = some bus) :
    { p with bus := bus, main := .subscribing p.bus.writes.length }.Inv cfg where
  progress := h.progress.step hbus
  calls := by
    obtain ⟨u, hmoves, rfl⟩ := Cdc.step_moves hbus
    cases hmoves
    exact h.calls
  writers := by
    obtain ⟨u, hmoves, rfl⟩ := Cdc.step_moves hbus
    cases hmoves
    refine h.writers.mainCalls ?_ _ rfl
    cases hmain : p.main <;> first | rfl | (rw [hmain] at hearly; cases hearly)
  subscribed := h.subscribed.callSubscribe hearly hbus _
  busy := by
    -- both listeners come later
    have hbefore : p.main.beforePostgres = true ∧ p.main.beforeMysql = true := by
      cases hmain : p.main <;> first | exact ⟨rfl, rfl⟩ | (rw [hmain] at hearly; cases hearly)
    refine ⟨?_, h.busy.postgres, h.busy.mysql, fun _ => h.busy.no_loop hbefore.1,
      fun _ => h.busy.no_canal hbefore.2⟩
    intro hidle
    exact absurd ((h.busy.not_early hidle).1.symm.trans hearly) (by simp)
  stacked := by
    refine h.stacked.skip (MainPc.plain_outside ?_) (by simp [Stacked.moving])
    cases hmain : p.main <;> first | rfl | (rw [hmain] at hearly; cases hearly)
  exiting he := by cases he

/-- A source makes a call to `HandleEvent`. -/
theorem hand (h : p.Inv cfg) {s : Source} {event : Event} {todo : List Event}
    (hhands : p.hands s = ⟨event :: todo, none⟩) {bus : Bus}
    (hbus : p.bus.step cap (.callHandle s.id event) = some bus) :
    { p.setHands s ⟨todo, some p.bus.handles.length⟩ with bus := bus }.Inv cfg := by
  have hidle : (p.hands s).idle = false := by
    rw [hhands]
    rfl
  obtain ⟨hearly, hsub⟩ := h.busy.not_early hidle
  obtain ⟨u, hmoves, rfl⟩ := Cdc.step_moves hbus
  cases hmoves
  exact { h with
    progress := h.progress.step hbus
    calls := h.calls.hand (by rw [hhands]) rfl todo
    subscribed := h.subscribed.call rfl rfl hearly hsub hsub id id h.subscribed.left
    busy := h.busy.keepHands hidle _ }

/-- What a source has to hand over changes, but not its call. -/
theorem setHands (h : p.Inv cfg) (s : Source) {new : Hands} (hcall : new.call = (p.hands s).call)
    (hbusy : Busy cfg (p.setHands s new).hands p.main p.postgres.pc p.mysql.pc) :
    (p.setHands s new).Inv cfg := by
  refine { h with calls := h.calls.setHands fun t => ?_, busy := hbusy }
  simp only [Process.setHands]
  split
  · rename_i hts
    rw [hcall, hts]
  · rfl

/-- Something is there to be handed over by a source that runs. -/
theorem fill (h : p.Inv cfg) (s : Source) (hidle : (p.hands s).idle = true) (events : List Event)
    (hrun : s = .run → p.main = .startingPostgres ∧ cfg.postgres = true ∨
      p.main = .startingMysql ∧ cfg.mysql = true)
    (hpostgres : s = .postgres → p.postgres.pc = .streaming)
    (hmysql : s = .mysql → p.mysql.pc = .running) : (p.setHands s ⟨events, none⟩).Inv cfg := by
  apply h.setHands
  · rw [Hands.idle, Bool.and_eq_true, isNone_iff_eq_none] at hidle
    exact hidle.2.symm
  · exact h.busy.setHands s _ hrun hpostgres hmysql

/-- `SubscribeAll` has returned and the goroutine starts. -/
theorem subscribed_moves (h : p.Inv cfg) {i : Nat} (hmain : p.main = .subscribing i)
    (hwritten : written p.bus i = true) :
    { p with
      life := p.life.start
      defers := .stopNats :: p.defers
      http := { p.http with pc := .serving }
      main := .startingPostgres }.Inv cfg := by
  obtain ⟨w, hw, hret⟩ := written_iff.mp hwritten
  -- the goroutine was not there before
  have hbefore := h.subscribed.not_started (.inr ⟨i, hmain⟩)
  have hstart : p.life.start.pc.stage = .live := by
    simp only [Life.start]
    split <;> rfl
  refine ⟨h.progress, h.calls, ?_, ?_, ?_, ?_, nofun⟩
  · rw [hstart]
    refine (h.writers.mainReturns (by rw [hmain]; rfl) hw hret rfl).setStage ?_ ?_
    · intro j hj
      rw [hbefore] at hj
      cases hj
    · intro j hj
      cases hj
  · rw [hstart]
    exact h.subscribed.subscribed hmain hwritten
  · apply h.busy.setMain
    · exact h.busy.run_idle (by simp [hmain]) (by simp [hmain])
    all_goals simp [hmain, MainPc.beforePostgres, MainPc.beforeMysql]
  · apply Stacked.setStage
    · exact h.stacked.push .stopNats (by simp [hmain, MainPc.minds]) (by simp [Stacked.moving])
    · exact fun _ => .inr mem_cons_self

/-- The Postgres listener has been started. -/
theorem postgresStarts (h : p.Inv cfg) (helpers : Nat) (registered : Bool)
    (hmain : p.main = .startingPostgres) (hidle : (p.hands .run).idle = true) :
    { p with
      postgres := ⟨.connecting, true, false, helpers, registered, true⟩
      main := .markingPostgres }.Inv cfg := by
  have hminds : ∀ d, p.main.minds = some d → MainPc.minds .markingPostgres = some d := by
    simp [hmain, MainPc.minds]
  refine ⟨h.progress, h.calls, ?_, ?_, ?_, ?_, nofun⟩
  · exact h.writers.setMain (by rw [hmain]; rfl) rfl
  · apply h.subscribed.setMain <;> simp [hmain, MainPc.early]
  · refine ⟨?_, ?_, h.busy.mysql, ?_, ?_⟩
    · intro hrest
      rw [hidle] at hrest
      cases hrest
    · -- there was no loop to hand anything over
      intro hrest
      have hloop := h.busy.no_loop (by rw [hmain]; rfl)
      exact absurd (hloop.symm.trans (h.busy.postgres hrest)) (by simp)
    · nofun
    · exact fun _ => h.busy.no_canal (by rw [hmain]; rfl)
  · exact (h.stacked.setMain hminds (by simp [Stacked.moving])).setPostgres fun _ => .inr rfl

/-- The MySQL listener has been started. -/
theorem mysqlStarts (h : p.Inv cfg) (saver : Bool) (hmain : p.main = .startingMysql)
    (hidle : (p.hands .run).idle = true) :
    { p with
      mysql := ⟨.running, true, false, false, saver, false⟩
      main := .markingMysql }.Inv cfg := by
  have hminds : ∀ d, p.main.minds = some d → MainPc.minds .markingMysql = some d := by
    simp [hmain, MainPc.minds]
  have hstacked := h.stacked.setMain hminds (by simp [Stacked.moving])
  refine ⟨h.progress, h.calls, ?_, ?_, ?_, ?_, nofun⟩
  · exact h.writers.setMain (by rw [hmain]; rfl) rfl
  · apply h.subscribed.setMain <;> simp [hmain, MainPc.early]
  · refine ⟨?_, h.busy.postgres, fun _ => rfl, ?_, ?_⟩
    · intro hrest
      rw [hidle] at hrest
      cases hrest
    · nofun
    · nofun
  · exact { hstacked with
      mysql := fun _ => .inr rfl
      closed := fun hj => by cases hj }

/-- A step of `run` between the start of a listener and the deferred call that stops it. -/
theorem mind (h : p.Inv cfg) (hbus : q.bus = p.bus) (hhands : q.hands = p.hands)
    (hlife : q.life = p.life) (hpostgres : q.postgres = p.postgres) (hmysql : q.mysql = p.mysql)
    (hmain : p.main = .markingPostgres ∨ p.main = .storingPostgres ∨ p.main = .markingMysql)
    (hmain' : q.main = .storingPostgres ∨ q.main = .startingMysql ∨ q.main = .started)
    (hbefore : q.main.beforeMysql = true → p.main.beforeMysql = true)
    (hstacked : Stacked q.main q.defers p.life.pc.stage p.postgres p.mysql) : q.Inv cfg := by
  -- no call of the bus, before and after
  have hp : p.main.call = none ∧ (∀ i, p.main ≠ .subscribing i) ∧ p.main ≠ .startingPostgres ∧
      p.main ≠ .startingMysql := by
    rcases hmain with hm | hm | hm <;> simp [hm, MainPc.call]
  have hq : q.main.call = none ∧ q.main.early = false ∧ (∀ i, q.main ≠ .subscribing i) ∧
      q.main.beforePostgres = false ∧ q.main.exiting = false := by
    rcases hmain' with hm | hm | hm <;>
      simp [hm, MainPc.call, MainPc.early, MainPc.beforePostgres, MainPc.exiting]
  obtain ⟨hcall, hsub, hnot, hnot'⟩ := hp
  obtain ⟨hcall', hearly', hsub', hloop', hexit'⟩ := hq
  refine ⟨hbus ▸ h.progress, ?_, ?_, ?_, ?_, ?_, ?_⟩
  · rw [hbus, hhands]
    exact h.calls
  · rw [hbus, hlife]
    exact h.writers.setMain hcall hcall'
  · rw [hbus, hlife]
    exact h.subscribed.call rfl rfl hearly' hsub' hsub id id h.subscribed.left
  · rw [hhands, hpostgres, hmysql]
    refine h.busy.setMain ?_ (fun he => absurd (hloop'.symm.trans he) (by simp)) hbefore
    exact h.busy.run_idle (fun hm => absurd hm hnot) fun hm => absurd hm hnot'
  · rw [hlife, hpostgres, hmysql]
    exact hstacked
  · exact fun he => absurd (hexit'.symm.trans he) (by simp)

/-- The next deferred call begins, and is one that waits for goroutines or is over at once. -/
theorem defer (h : p.Inv cfg) {d : Deferred} {rest : List Deferred} (hmain : p.main = .unwinding)
    (hdefers : p.defers = d :: rest) (hbus : q.bus = p.bus) (hhands : q.hands = p.hands)
    (hlife : q.life.pc = p.life.pc) (hloop : q.postgres.pc = p.postgres.pc)
    (hhelpers : q.postgres.helpers = p.postgres.helpers) (hcanal : q.mysql.pc = p.mysql.pc)
    (hsaver : q.mysql.saver = p.mysql.saver) (hrest : q.defers = rest)
    (hmain' : q.main = .joining d ∨ q.main = .unwinding ∧ d = .cancel)
    (hclosed : d = .stopMysql → q.mysql.closed = true)
    (hctx : p.ctxDone = true → q.ctxDone = true) (hresult : q.result = p.result) : q.Inv cfg := by
  have hexit : p.main.exiting = true := by rw [hmain]; rfl
  have hq : q.main.call = none ∧ q.main.exiting = true := by
    rcases hmain' with hm | ⟨hm, -⟩ <;> simp [hm, MainPc.call, MainPc.exiting]
  refine ⟨hbus ▸ h.progress, ?_, ?_, ?_, ?_, ?_, ?_⟩
  · rw [hbus, hhands]
    exact h.calls
  · rw [hbus, hlife]
    exact h.writers.setMain (by rw [hmain]; rfl) hq.1
  · rw [hbus, hlife]
    exact h.subscribed.leave hexit hq.2 rfl rfl
  · rw [hhands, hloop, hcanal]
    exact h.busy.leave hexit hq.2
  · rw [hlife, hrest]
    have hstacked := h.stacked
    rw [hdefers, hmain] at hstacked
    -- the goroutines run on; only the context or canal was closed
    have hparts : Stacked .unwinding (d :: rest) p.life.pc.stage q.postgres q.mysql := by
      refine ⟨hstacked.nats, ?_, ?_, by simp, by simp⟩
      · rw [hloop, hhelpers]
        exact hstacked.postgres
      · rw [hcanal, hsaver]
        exact hstacked.mysql
    refine hparts.pop (MainPc.plain_outside rfl) ?_ hclosed
    rcases hmain' with hm | ⟨hm, rfl⟩
    · exact .inl hm
    · exact .inr (by simp [Stacked.moving, hm])
  · intro _
    rw [hresult]
    exact (h.exiting hexit).imp_left hctx

/-- `run` calls `service.Shutdown`. -/
theorem deferShutdown (h : p.Inv cfg) {rest : List Deferred} (hmain : p.main = .unwinding)
    (hdefers : p.defers = .shutdown :: rest) {bus : Bus}
    (hbus : p.bus.step cap .callShutdown = some bus) :
    { p with defers := rest, bus := bus, main := .shutting p.bus.writes.length }.Inv cfg := by
  have hprogress := h.progress.step hbus
  have hroom := (Bus.work_callShutdown hbus).2
  obtain ⟨u, hmoves, rfl⟩ := Cdc.step_moves hbus
  cases hmoves
  have hexit : p.main.exiting = true := by rw [hmain]; rfl
  refine ⟨hprogress, h.calls, h.writers.mainCalls (by rw [hmain]; rfl) _ rfl,
    h.subscribed.leave hexit rfl hroom rfl, h.busy.leave hexit rfl, ?_, fun _ => h.exiting hexit⟩
  have hstacked := h.stacked
  rw [hdefers, hmain] at hstacked
  apply hstacked.pop (MainPc.plain_outside rfl)
  all_goals simp [Stacked.moving]

/-- The goroutines that `run` has waited for are over. -/
theorem join (h : p.Inv cfg) {d : Deferred} (hmain : p.main = .joining d)
    (hjoined : p.joined d = true) {life : Life} (hlife : life.pc = p.life.pc) {main : MainPc}
    (hmain' : main = .releasing ∨ main = .unwinding) :
    { p with life := life, main := main }.Inv cfg := by
  have hexit : p.main.exiting = true := by rw [hmain]; rfl
  have hq : main.call = none ∧ main.exiting = true ∧ Stacked.moving main := by
    rcases hmain' with hm | hm <;> simp [hm, MainPc.call, MainPc.exiting, Stacked.moving]
  obtain ⟨hcall, hexit', hin⟩ := hq
  refine ⟨h.progress, h.calls, ?_, ?_, h.busy.leave hexit hexit', ?_, fun _ => h.exiting hexit⟩
  · rw [hlife]
    exact h.writers.setMain (by rw [hmain]; rfl) hcall
  · rw [hlife]
    exact h.subscribed.leave hexit hexit' rfl rfl
  · rw [hlife]
    have hstacked := h.stacked
    rw [hmain] at hstacked
    refine hstacked.join ?_ ?_ ?_ hin
    · rintro rfl
      rw [Process.joined, Bool.or_eq_true, beq_iff_eq, beq_iff_eq] at hjoined
      rcases hjoined with hpc | hpc <;> simp [hpc, LifePc.stage]
    · rintro rfl
      simpa [Process.joined] using hjoined
    · rintro rfl
      simpa [Process.joined] using hjoined

/-- `service.Shutdown` has returned. -/
theorem shut (h : p.Inv cfg) {i : Nat} (hmain : p.main = .shutting i)
    (hwritten : written p.bus i = true) : { p with main := .unwinding }.Inv cfg := by
  obtain ⟨w, hw, hret⟩ := written_iff.mp hwritten
  have hexit : p.main.exiting = true := by rw [hmain]; rfl
  refine ⟨h.progress, h.calls, h.writers.mainReturns (by rw [hmain]; rfl) hw hret rfl,
    h.subscribed.leave hexit rfl rfl rfl, h.busy.leave hexit rfl, ?_, fun _ => h.exiting hexit⟩
  exact h.stacked.skip (by simp [Stacked.outside, hmain, MainPc.minds]) (by simp [Stacked.moving])

/-- `run` returns. -/
theorem finish (h : p.Inv cfg) (hmain : p.main = .unwinding) (hdefers : p.defers = []) :
    { p with main := .returned }.Inv cfg := by
  have hexit : p.main.exiting = true := by rw [hmain]; rfl
  refine ⟨h.progress, h.calls, h.writers.setMain (by rw [hmain]; rfl) rfl,
    h.subscribed.leave hexit rfl rfl rfl, h.busy.leave hexit rfl, ?_, fun _ => h.exiting hexit⟩
  have hstacked := h.stacked
  rw [hmain] at hstacked
  exact ⟨hstacked.nats, hstacked.postgres, hstacked.mysql, by simp, fun _ => hdefers⟩

/-- The publisher's goroutine calls its `unsub`. -/
theorem unsubscribe (h : p.Inv cfg) (hpc : p.life.pc = .leaving) {bus : Bus}
    (hbus : p.bus.step cap (.callUnsubscribe subscription) = some bus) :
    { p with
      bus := bus
      life := { p.life with pc := .unsubscribing p.bus.writes.length } }.Inv cfg := by
  have hstage : p.life.pc.stage = .live := by
    rw [hpc]
    rfl
  have hstarted : p.main.early = false ∧ ∀ i, p.main ≠ .subscribing i := by
    constructor
    · rw [← Bool.not_eq_true]
      exact fun he => absurd (hstage.symm.trans (h.subscribed.not_started (.inl he))) (by simp)
    · exact fun i hi =>
        absurd (hstage.symm.trans (h.subscribed.not_started (.inr ⟨i, hi⟩))) (by simp)
  have hprogress := h.progress.step hbus
  have hroom := (Bus.work_callUnsubscribe hbus).2
  obtain ⟨u, hmoves, rfl⟩ := Cdc.step_moves hbus
  cases hmoves
  refine ⟨hprogress, h.calls, ?_, ?_, h.busy, ?_, h.exiting⟩
  · exact h.writers.lifeCalls (by simp [hstage]) _
  · apply h.subscribed.call hroom (length_modify _ _ _) hstarted.1 hstarted.2 hstarted.2
    · nofun
    · nofun
    · -- the call has begun
      intro _
      have hlt := h.subscribed.live hstage
      refine ⟨_, getElem?_modify_eq_some.mpr
        ⟨p.bus.subs[subscription], getElem?_eq_getElem hlt, rfl⟩, ?_⟩
      rw [if_pos rfl]
      cases p.bus.subs[subscription].unsubBegan <;> simp
  · exact h.stacked.setStage fun _ => .inl (.inl hstage)

/-- The `unsub` of the publisher's goroutine has returned. -/
theorem gone (h : p.Inv cfg) {i : Nat} (hpc : p.life.pc = .unsubscribing i)
    (hwritten : written p.bus i = true) :
    { p with life := { p.life with pc := .exited } }.Inv cfg := by
  have hstage : p.life.pc.stage = .unsubscribing i := by
    rw [hpc]
    rfl
  obtain ⟨w, hw, hret⟩ := written_iff.mp hwritten
  refine { h with writers := h.writers.lifeReturns hstage hw hret, subscribed := ?_, stacked := ?_ }
  · refine { h.subscribed with before := ?_, not_started := ?_, live := ?_, left := ?_ }
    · nofun
    · exact fun hs => absurd (hstage.symm.trans (h.subscribed.not_started hs)) (by simp)
    · nofun
    · exact fun _ => h.subscribed.left (.inl ⟨i, hstage⟩)
  · apply h.stacked.setStage
    rintro (hs | ⟨j, hs⟩) <;> cases hs

/-- A call to `HandleEvent` has returned to its source. -/
theorem handed (h : p.Inv cfg) {s : Source} {todo : List Event} {i : Nat}
    (hhands : p.hands s = ⟨todo, some i⟩) (hhandled : handled p.bus i = true) :
    (p.setHands s ⟨todo, none⟩).Inv cfg := by
  obtain ⟨c, hc, hfin⟩ := handled_iff.mp hhandled
  have hidle : (p.hands s).idle = false := by
    rw [hhands, Hands.idle]
    simp
  exact { h with
    calls := h.calls.handed (by rw [hhands]) hc hfin todo
    busy := h.busy.keepHands hidle _ }

/-- `listenLoop` moves on with nothing to hand over. -/
theorem setLoop (h : p.Inv cfg) {pc : LoopPc} (hidle : (p.hands .postgres).idle = true)
    (hpc : p.postgres.pc ≠ .notStarted) (hpc' : p.postgres.pc ≠ .exited) :
    (p.setLoop pc).Inv cfg := by
  refine { h with
    busy := { h.busy with postgres := ?_, no_loop := fun he => absurd (h.busy.no_loop he) hpc }
    stacked := h.stacked.setPostgres fun _ => .inl (.inl ⟨hpc, hpc'⟩) }
  exact fun hrest => absurd (hidle.symm.trans hrest) (by simp)

/-- Canal's goroutine ends. -/
theorem canalEnds (h : p.Inv cfg) (hidle : (p.hands .mysql).idle = true)
    (hpc : p.mysql.pc = .running) {failed : Bool} :
    { p with mysql := { p.mysql with pc := .exited, failed := failed } }.Inv cfg := by
  refine { h with
    busy := { h.busy with mysql := ?_, no_canal := ?_ }
    stacked := h.stacked.setMysql (fun _ => .inl hpc) id }
  · exact fun hrest => absurd (hidle.symm.trans hrest) (by simp)
  · exact fun he => absurd ((h.busy.no_canal he).symm.trans hpc) (by simp)

theorem postgres_idle (h : p.Inv cfg) (hpc : p.postgres.pc ≠ .streaming) :
    (p.hands .postgres).idle = true := by
  rw [← Bool.not_eq_false]
  exact fun hidle => hpc (h.busy.postgres hidle)

/-- Every step keeps the invariant. -/
theorem moves {a : Action} (h : p.Inv cfg) (hmoves : Moves cap cfg p a q) : q.Inv cfg := by
  cases hmoves with
  | signal =>
    exact { h with exiting := fun _ => .inl rfl }
  | connectFails hmain =>
    exact h.advance rfl rfl rfl rfl rfl rfl rfl hmain rfl (.inl (by simp)) fun _ => .inr rfl
  | connects conn hconn up hmain =>
    exact h.advance rfl rfl rfl rfl rfl rfl rfl hmain rfl (.inl (by simp)) nofun
  | lookUp hmain hconn =>
    exact h.advance rfl rfl rfl rfl rfl rfl rfl hmain rfl (.inl (by simp)) nofun
  | missing hmain =>
    exact h.advance rfl rfl p.life.close_pc rfl rfl rfl rfl hmain rfl (.inl (by simp)) fun _ =>
      .inr rfl
  | verified r hmain bus hbus =>
    have hlife : (p.life.verified r).pc = p.life.pc := by
      cases r <;> rfl
    have hinv := h.setLife (congrArg LifePc.stage hlife)
    exact hinv.subscribe (by rw [hmain]; rfl) hbus
  | subscribe hmain bus hbus =>
    exact h.subscribe (by rcases hmain with hm | hm <;> rw [hm] <;> rfl) hbus
  | subscribed i hmain hwritten => exact h.subscribed_moves hmain hwritten
  | skipPostgres hmain hcfg =>
    exact h.advance rfl rfl rfl rfl rfl rfl rfl hmain rfl (.inl ⟨fun _ => hcfg, by simp⟩)
      nofun
  | postgresCancelled hmain hctx hidle =>
    exact h.advance rfl rfl rfl rfl rfl rfl rfl hmain rfl (.inr hidle) fun _ => .inl hctx
  | postgresFails hmain hidle =>
    refine h.advance rfl rfl rfl rfl rfl rfl rfl hmain rfl (.inr hidle) fun _ => ?_
    cases hctx : p.ctxDone with
    | true => exact .inl hctx
    | false => exact .inr (by simp [Process.postgresFails, Process.unwind, hctx])
  | postgresRows events hmain hcfg hidle =>
    exact h.fill .run hidle events (fun _ => .inl ⟨hmain, hcfg⟩) (by simp) (by simp)
  | postgresStarts helpers registered hmain hidle =>
    exact h.postgresStarts helpers registered hmain hidle
  | markPostgres hmain =>
    refine h.mind rfl rfl rfl rfl rfl (.inl hmain) (.inl rfl) (fun _ => by rw [hmain]; rfl) ?_
    exact h.stacked.setMain (by simp [hmain, MainPc.minds]) (by simp [Stacked.moving])
  | storePostgres hmain =>
    refine h.mind rfl rfl rfl rfl rfl (.inr (.inl hmain)) (.inr (.inl rfl))
      (fun _ => by rw [hmain]; rfl) ?_
    exact h.stacked.push _ (by simp [hmain, MainPc.minds]) (by simp [Stacked.moving])
  | skipMysql hmain hcfg =>
    exact h.advance rfl rfl rfl rfl rfl rfl rfl hmain rfl (.inl ⟨by simp, fun _ => hcfg⟩)
      nofun
  | mysqlFails hmain hidle =>
    exact h.advance rfl rfl rfl rfl rfl rfl rfl hmain rfl (.inr hidle) fun _ => .inr rfl
  | mysqlRows events hmain hcfg hidle =>
    exact h.fill .run hidle events (fun _ => .inr ⟨hmain, hcfg⟩) (by simp) (by simp)
  | mysqlStarts hmain hidle => exact h.mysqlStarts _ hmain hidle
  | markMysql hmain =>
    refine h.mind rfl rfl rfl rfl rfl (.inr (.inr hmain)) (.inr (.inr rfl))
      (nofun) ?_
    exact h.stacked.push _ (by simp [hmain, MainPc.minds]) (by simp [Stacked.moving])
  | finishStart hmain =>
    exact h.advance rfl rfl rfl rfl rfl rfl rfl hmain rfl (.inl (by simp)) nofun
  | hearSignal hmain hctx =>
    exact h.advance rfl rfl rfl rfl rfl rfl rfl hmain rfl (.inl (by simp)) nofun
  | hearNats hmain =>
    exact h.advance rfl rfl rfl rfl rfl rfl rfl hmain rfl (.inl (by simp)) nofun
  | hearMysql hmain =>
    exact h.advance rfl rfl rfl rfl rfl rfl rfl hmain rfl (.inl (by simp)) nofun
  | stop hmain =>
    exact h.advance rfl rfl rfl rfl rfl rfl rfl hmain rfl (.inl (by simp)) fun _ => .inl rfl
  | shutServer hmain =>
    exact h.advance rfl rfl rfl rfl rfl rfl rfl hmain rfl (.inl (by simp)) fun _ =>
      h.exiting (by rw [hmain]; rfl)
  | drained a ha hmain =>
    exact h.advance rfl rfl rfl rfl rfl rfl rfl hmain rfl (.inl (by simp)) fun _ =>
      h.exiting (by rw [hmain]; rfl)
  | deferMysql rest hmain hdefers =>
    exact h.defer hmain hdefers rfl rfl rfl rfl rfl rfl rfl rfl (.inl rfl) (fun _ => rfl) id rfl
  | deferPostgres rest hmain hdefers =>
    exact h.defer hmain hdefers rfl rfl rfl rfl rfl rfl rfl rfl (.inl rfl) (by simp) id rfl
  | deferNats rest hmain hdefers =>
    exact h.defer hmain hdefers rfl rfl rfl rfl rfl rfl rfl rfl (.inl rfl) (by simp) id rfl
  | deferShutdown rest hmain hdefers bus hbus => exact h.deferShutdown hmain hdefers hbus
  | deferCancel rest hmain hdefers =>
    exact h.defer hmain hdefers rfl rfl rfl rfl rfl rfl rfl rfl (.inr ⟨hmain, rfl⟩) (by simp)
      (fun _ => rfl) rfl
  | join d hmain hjoined =>
    apply h.join hmain hjoined
    · split
      · exact p.life.close_pc
      · rfl
    · split
      · exact .inl rfl
      · exact .inr rfl
  | released a ha hmain =>
    exact h.advance rfl rfl rfl rfl rfl rfl rfl hmain rfl (.inl (by simp)) fun _ =>
      h.exiting (by rw [hmain]; rfl)
  | shut i hmain hwritten => exact h.shut hmain hwritten
  | finish hmain hdefers => exact h.finish hmain hdefers
  | life a life hlife => exact h.setLife (Life.step_moves hlife).stage
  | take event hpc bus hbus =>
    have hinv := h.setBus hbus (.inr ⟨_, rfl⟩)
    apply hinv.setLife
    split
    · rw [hpc]
      rfl
    · rfl
  | channelClosed sub hpc hsub hclosed =>
    apply h.setLife
    rw [hpc]
    rfl
  | unsubscribe hpc bus hbus => exact h.unsubscribe hpc hbus
  | gone i hpc hwritten => exact h.gone hpc hwritten
  | bus a ha bus hbus => exact h.setBus hbus (.inl ha)
  | hand s event todo hhands bus hbus => exact h.hand hhands hbus
  | handed s todo i hhands hhandled => exact h.handed hhands hhandled
  | walConnected hpc hdone =>
    exact h.setLoop (h.postgres_idle (by simp [hpc])) (by simp [hpc]) (by simp [hpc])
  | walLost hpc hidle hdone =>
    rcases hpc with hpc | hpc <;> exact h.setLoop hidle (by simp [hpc]) (by simp [hpc])
  | walRetry hpc =>
    exact h.setLoop (h.postgres_idle (by simp [hpc])) (by simp [hpc]) (by simp [hpc])
  | walMessage events hpc hidle =>
    exact h.fill .postgres hidle events (by simp) (fun _ => hpc) (by simp)
  | walEnds hdone hpc hidle => exact h.setLoop hidle (by simp [hpc]) (by simp [hpc])
  | walStop hdone hpc =>
    rcases hpc with hpc | hpc <;>
      exact h.setLoop (h.postgres_idle (by simp [hpc])) (by simp [hpc]) (by simp [hpc])
  | helperStop hdone hpos =>
    exact { h with stacked := h.stacked.setPostgres fun _ => .inl (.inr hpos) }
  | sampled usable =>
    exact { h with stacked := h.stacked.setPostgres .inl }
  | binlogEvent events hpc hidle =>
    exact h.fill .mysql hidle events (by simp) (by simp) fun _ => hpc
  | binlogFails hpc hidle => exact h.canalEnds hidle hpc
  | canalStop hpc hidle hclosed => exact h.canalEnds hidle hpc
  | saverStop hsaver =>
    exact { h with stacked := h.stacked.setMysql (fun _ => .inr hsaver) id }
  | serverFails hpc => exact { h with }
  | serverStop hpc hshutdown => exact { h with }

end Process.Inv

end Main