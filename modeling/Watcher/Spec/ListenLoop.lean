import Watcher.Model.ListenLoop

/-!
# When the reconnect delay starts afresh

A session that streamed and then broke is a failed attempt like any other:
`connectAndStream` returns `nil` only once the listener is being stopped
(`stopping_of_ended`), and then no wait follows (`listenLoop_of_stopping`). So
the delay is never reset: the waits of a loop double from one to the next up to
the bound, whatever the attempts were (`delay_waits`).

Which attempts are waited for can be told from the script alone: those of the
turns at its beginning that all break (`breaksThrough_iff`). The waits are those of
a backoff that starts afresh after each working session only if none of these turns
had a working session, or if the second turn does not break (`startsAfresh_iff`).
-/

namespace Postgres.Reconnect

open List

/-! ### The backoff that is wanted -/

/-- The wait after the `k`-th attempt in a row that never started, `k` counted from 0. -/
def backoff (k : Nat) : Nat := min (2 ^ k * second) maxReconnectDelay

/-- How many attempts at the end of `log` never started. -/
def streak (log : List Wait) : Nat := (log.reverse.takeWhile fun w => !w.attempt.started).length

/-- The wait that is wanted after `a` when the waits before were `log`. -/
def wantedDelay (log : List Wait) (a : Attempt) : Nat :=
  if a.started then second else backoff (streak log)

/-- Each wait is the wanted one. -/
def StartsAfresh (log : List Wait) : Prop :=
  ∀ before w after, log = before ++ w :: after → w.delay = wantedDelay before w.attempt

/-! ### Which attempts are waited for -/

/-- The turn breaks: the listener runs when it begins, `connectAndStream` returns an error, and the
    context is not done when it is asked then. -/
def Turn.Breaks (f : Flags) (turn : Turn) : Prop :=
  (f.after turn.before).running = true ∧
    (connectAndStream (f.after turn.before) turn.attempt).1 = .failed ∧
    ((connectAndStream (f.after turn.before) turn.attempt).2.after turn.failing).cancelled = false

/-- The flags when the next turn begins. -/
def Turn.leaves (f : Flags) (turn : Turn) : Flags :=
  ((connectAndStream (f.after turn.before) turn.attempt).2.after turn.failing).after turn.waiting

/-- The turns of the script up to number `i` all break. -/
def BreaksThrough (f : Flags) : List Turn → (i : Nat) → Prop
  | [], _ => False
  | turn :: _, 0 => turn.Breaks f
  | turn :: turns, i + 1 => turn.Breaks f ∧ BreaksThrough (turn.leaves f) turns i

/-! ### The backoff that is there -/

/-- The listener is being stopped. -/
def Flags.stopping (f : Flags) : Prop := f.running = false ∨ f.cancelled = true

variable {f : Flags} {turns : List Turn}

/-- A signal does not undo a cancelled context. -/
theorem Flags.cancelled_after (h : f.cancelled = true) (s : Signals) :
    (f.after s).cancelled = true := by
  simp [Flags.after, h]

/-- The loop over messages returns `nil` only when the listener is being stopped. -/
theorem stopping_of_streamLoop {rounds : List Round} : ∀ {f f' : Flags},
    streamLoop f rounds = (.ended, f') → f'.stopping := by
  induction rounds with
  | nil => exact fun h => nomatch h
  | cons round rounds ih =>
    intro f f' h
    simp only [streamLoop] at h
    -- the loop's condition, then the context at its top
    split at h
    · rename_i hrun
      obtain ⟨-, rfl⟩ := Prod.mk.inj h
      exact .inl (by simpa using hrun)
    split at h
    · rename_i hcancel
      obtain ⟨-, rfl⟩ := Prod.mk.inj h
      exact .inr hcancel
    -- a failed receive is no error only if the context is done by now
    split at h
    · split at h
      · rename_i hcancel
        obtain ⟨-, rfl⟩ := Prod.mk.inj h
        exact .inr hcancel
      · exact nomatch h
    -- the errors of the other two calls are always returned
    split at h
    · exact nomatch h
    split at h
    · exact nomatch h
    · exact ih h

/-- `connectAndStream` returns `nil` only when the listener is being stopped. -/
theorem stopping_of_ended {f' : Flags} {a : Attempt} (h : connectAndStream f a = (.ended, f')) :
    f'.stopping := by
  unfold connectAndStream at h
  split at h
  · exact nomatch h
  split at h
  · exact nomatch h
  · exact stopping_of_streamLoop h

/-- With the context done the loop over messages ends in its first round. -/
theorem cancelled_streamLoop (h : f.cancelled = true) (rounds : List Round) :
    (streamLoop f rounds).2.cancelled = true := by
  cases rounds with
  | nil => exact h
  | cons round rounds =>
    have hbefore := Flags.cancelled_after h round.before
    simp only [streamLoop, hbefore, if_true]
    split
    · exact hbefore
    · exact hbefore

/-- A context that is done stays so. -/
theorem cancelled_connectAndStream (h : f.cancelled = true) (a : Attempt) :
    (connectAndStream f a).2.cancelled = true := by
  unfold connectAndStream
  repeat' split
  · exact h
  · exact h
  · exact cancelled_streamLoop h a.rounds

/-- A turn that begins while the listener is being stopped is followed by no wait. Within a turn
    this would be wrong: a session that breaks after `Stop` is still waited for. -/
theorem listenLoop_of_stopping : ∀ {f : Flags} {delay : Nat}, f.stopping →
    listenLoop f delay turns = [] := by
  induction turns with
  | nil => exact fun _ => rfl
  | cons turn turns ih =>
    intro f delay h
    by_cases hrun : (f.after turn.before).running = true
    · -- it still runs, so it is the context that is done
      have hcancel : f.cancelled = true := by
        rcases h with h | h
        · simp [Flags.after, h] at hrun
        · exact h
      have hafter := cancelled_connectAndStream (Flags.cancelled_after hcancel turn.before)
        turn.attempt
      simp only [listenLoop, hrun, Bool.not_true, Bool.false_eq_true, if_false]
      rcases hout : connectAndStream (f.after turn.before) turn.attempt with ⟨out, f'⟩
      rw [hout] at hafter
      cases out with
      | streaming => rfl
      | ended => exact ih (.inr hafter)
      | failed => exact if_pos (Flags.cancelled_after hafter turn.failing)
    · simp [listenLoop, hrun]

/-- A turn that breaks is waited for, and the loop goes on with the next one. -/
theorem listenLoop_of_breaks {turn : Turn} (h : turn.Breaks f) (delay : Nat) (turns : List Turn) :
    listenLoop f delay (turn :: turns) = ⟨turn.attempt, delay⟩ ::
      listenLoop (turn.leaves f) (min (delay * 2) maxReconnectDelay) turns := by
  obtain ⟨hrun, hfailed, hopen⟩ := h
  unfold Turn.leaves
  rw [listenLoop]
  rcases hout : connectAndStream (f.after turn.before) turn.attempt with ⟨out, f'⟩
  rw [hout] at hfailed hopen
  obtain rfl : out = .failed := hfailed
  simp only [hrun, Bool.not_true, Bool.false_eq_true, if_false, hopen]
  -- with the context done during the wait there is no further turn to be waited for
  split
  · rename_i hdone
    rw [listenLoop_of_stopping (.inr hdone)]
  · rfl

/-- After a turn that does not break nothing is waited for. -/
theorem listenLoop_of_not_breaks {turn : Turn} (h : ¬turn.Breaks f) (delay : Nat)
    (turns : List Turn) : listenLoop f delay (turn :: turns) = [] := by
  rw [listenLoop]
  by_cases hrun : (f.after turn.before).running = true
  · rcases hout : connectAndStream (f.after turn.before) turn.attempt with ⟨out, f'⟩
    simp only [hrun, Bool.not_true, Bool.false_eq_true, if_false]
    cases out with
    | streaming => rfl
    | ended =>
      -- the loop goes on, but it is being stopped
      exact listenLoop_of_stopping (stopping_of_ended hout)
    | failed =>
      refine if_pos ?_
      by_contra hopen
      apply h
      rw [Turn.Breaks, hout]
      exact ⟨hrun, rfl, Bool.eq_false_iff.mpr hopen⟩
  · simp [hrun]

/-- Up to a number that a script does not have, its turns do not all break. -/
theorem BreaksThrough.lt_length : ∀ {f : Flags} {i : Nat},
    BreaksThrough f turns i → i < turns.length := by
  induction turns with
  | nil => exact fun h => h.elim
  | cons turn turns ih =>
    intro f i h
    cases i with
    | zero => exact Nat.zero_lt_succ _
    | succ i => exact Nat.succ_lt_succ (ih h.2)

/-- The next delay of the loop. -/
theorem backoff_succ (k : Nat) : min (backoff k * 2) maxReconnectDelay = backoff (k + 1) := by
  unfold backoff
  rw [Nat.pow_succ, Nat.mul_right_comm]
  omega

/-- The first delay of the loop. -/
theorem backoff_zero : backoff 0 = second := by decide

/-- From the second attempt on the wait is longer than the first one. -/
theorem second_lt_backoff_succ (k : Nat) : second < backoff (k + 1) := by
  have hpow : 1 ≤ 2 ^ k := Nat.one_le_two_pow
  unfold backoff maxReconnectDelay second
  rw [Nat.pow_succ]
  omega

/-- The delays double from wait to wait, whatever the attempts between were. -/
theorem delay_listenLoop (turns : List Turn) : ∀ (f : Flags) (k : Nat),
    (listenLoop f (backoff k) turns).map Wait.delay =
      (List.range' k (listenLoop f (backoff k) turns).length).map backoff := by
  induction turns with
  | nil => exact fun _ _ => rfl
  | cons turn turns ih =>
    intro f k
    by_cases hbreaks : turn.Breaks f
    · rw [listenLoop_of_breaks hbreaks, backoff_succ, map_cons, length_cons,
        range'_succ, map_cons, ih]
    · rw [listenLoop_of_not_breaks hbreaks]
      rfl

/-- The `i`-th wait of a loop is the `i`-th of a backoff that is never reset. -/
theorem delay_waits (f : Flags) (turns : List Turn) :
    (waits f turns).map Wait.delay = (List.range (waits f turns).length).map backoff := by
  have h := delay_listenLoop turns f 0
  rw [backoff_zero] at h
  rw [range_eq_range']
  exact h

/-- The `i`-th wait of a loop. -/
theorem delay_of_split {before after : List Wait} {w : Wait}
    (h : waits f turns = before ++ w :: after) : w.delay = backoff before.length := by
  have hdelay := congrArg (fun l => l[before.length]?) (delay_waits f turns)
  simpa [h] using hdelay

/-! ### Where the two agree -/

/-- Where no attempt had started, the streak is the whole log. -/
theorem streak_of_never {log : List Wait} (h : ∀ w ∈ log, w.attempt.started = false) :
    streak log = log.length := by
  unfold streak
  rw [takeWhile_eq_self_iff.mpr, length_reverse]
  intro w hw
  rw [h w (mem_reverse.mp hw)]
  rfl

/-- The attempts that are waited for are those of the turns at the beginning that all break. -/
theorem breaksThrough_iff : ∀ {f : Flags} {delay i : Nat} {a : Attempt},
    (∃ w, (listenLoop f delay turns)[i]? = some w ∧ w.attempt = a) ↔
      BreaksThrough f turns i ∧ ∃ turn, turns[i]? = some turn ∧ turn.attempt = a := by
  induction turns with
  | nil => simp [listenLoop, BreaksThrough]
  | cons turn turns ih =>
    intro f delay i a
    by_cases hbreaks : turn.Breaks f
    · rw [listenLoop_of_breaks hbreaks]
      cases i with
      | zero => simp [BreaksThrough, hbreaks]
      | succ i => simp only [getElem?_cons_succ, BreaksThrough, hbreaks, true_and, ih]
    · rw [listenLoop_of_not_breaks hbreaks]
      cases i with
      | zero => simp [BreaksThrough, hbreaks]
      | succ i => simp [BreaksThrough, hbreaks]

/-- In the waits of a loop: every attempt that is waited for has the property exactly if every
    attempt up to which the turns break has it. -/
theorem forall_waits_iff (f : Flags) (turns : List Turn) (P : Attempt → Prop) :
    (∀ w ∈ waits f turns, P w.attempt) ↔
      ∀ i turn, turns[i]? = some turn → BreaksThrough f turns i → P turn.attempt := by
  constructor
  · intro h i turn hturn hbreaks
    obtain ⟨w, hw, hattempt⟩ : ∃ w, (waits f turns)[i]? = some w ∧ w.attempt = turn.attempt :=
      breaksThrough_iff.mpr ⟨hbreaks, turn, hturn, rfl⟩
    rw [← hattempt]
    exact h w (mem_of_getElem? hw)
  · intro h w hw
    obtain ⟨i, hi⟩ := mem_iff_getElem?.mp hw
    obtain ⟨hbreaks, turn, hturn, hattempt⟩ := breaksThrough_iff.mp ⟨w, hi, rfl⟩
    rw [← hattempt]
    exact h i turn hturn hbreaks

/-- There is a wait number `i` exactly if the turns break up to that number. -/
theorem lt_length_waits_iff (f : Flags) (turns : List Turn) (i : Nat) :
    i < (waits f turns).length ↔ BreaksThrough f turns i := by
  constructor
  · intro hi
    exact (breaksThrough_iff.mp ⟨_, getElem?_eq_getElem hi, rfl⟩).1
  · intro hbreaks
    have hturn : i < turns.length := hbreaks.lt_length
    obtain ⟨w, hw, -⟩ : ∃ w, (waits f turns)[i]? = some w ∧ w.attempt = turns[i].attempt :=
      breaksThrough_iff.mpr ⟨hbreaks, _, getElem?_eq_getElem hturn, rfl⟩
    exact (List.getElem?_eq_some_iff.mp hw).1

/-- The waits are the wanted ones exactly if no attempt that is waited for had started replication,
    or if there is at most one wait. -/
theorem startsAfresh_waits (f : Flags) (turns : List Turn) :
    StartsAfresh (waits f turns) ↔
      (∀ w ∈ waits f turns, w.attempt.started = false) ∨ (waits f turns).length ≤ 1 := by
  constructor
  · intro h
    by_contra hno
    rw [not_or, Nat.not_le] at hno
    -- there is a second wait, and it is longer than a second
    obtain ⟨first, snd, rest, hlog⟩ : ∃ a b l, waits f turns = a :: b :: l := by
      match hw : waits f turns, hno.2 with
      | a :: b :: l, _ => exact ⟨a, b, l, rfl⟩
    have hfirst : first.attempt.started = false := by
      by_contra hstarted
      have hwanted := h [first] snd rest hlog
      have hstreak : streak [first] = 0 := by simp [streak, hstarted]
      have hsplit : waits f turns = [first] ++ snd :: rest := hlog
      have hdelay := delay_of_split hsplit
      have hlong := second_lt_backoff_succ 0
      rw [hwanted, wantedDelay, hstreak, backoff_zero, ite_self] at hdelay
      rw [hdelay] at hlong
      exact Nat.lt_irrefl _ hlong
    -- any other wait that starts afresh would be a second long, too
    apply hno.1
    intro w hw
    by_contra hstarted
    have hstarted : w.attempt.started = true := by simpa using hstarted
    obtain ⟨before, after, hsplit⟩ := append_of_mem hw
    have hwanted := h before w after hsplit
    rw [wantedDelay, if_pos hstarted, delay_of_split hsplit] at hwanted
    cases before with
    | nil =>
      rw [hlog, nil_append, List.cons.injEq] at hsplit
      rw [hsplit.1, hstarted] at hfirst
      exact nomatch hfirst
    | cons a before =>
      have hlong := second_lt_backoff_succ before.length
      rw [length_cons] at hwanted
      omega
  · intro h before w after hsplit
    rw [delay_of_split hsplit, wantedDelay]
    rcases h with hnever | hone
    · rw [if_neg (by simp [hnever w (by simp [hsplit])]), streak_of_never]
      intro w' hw'
      exact hnever w' (by simp [hsplit, hw'])
    · rw [hsplit, length_append, length_cons] at hone
      have hbefore : before = [] := eq_nil_of_length_eq_zero (by omega)
      rw [hbefore, length_nil, backoff_zero]
      split
      · rfl
      · exact backoff_zero.symm

/-- The waits are those of a backoff that starts afresh after each session in which replication
    had started exactly if, among the turns at the beginning of the script that all break, no
    attempt had started it, or if the first two turns do not both break. -/
theorem startsAfresh_iff (f : Flags) (turns : List Turn) :
    StartsAfresh (waits f turns) ↔
      (∀ i turn, turns[i]? = some turn → BreaksThrough f turns i → turn.attempt.started = false) ∨
        ¬BreaksThrough f turns 1 := by
  rw [startsAfresh_waits, forall_waits_iff f turns fun a => a.started = false,
    ← lt_length_waits_iff, Nat.not_lt]

/-- A session that streamed a message before its connection broke. -/
def brokenSession : Attempt :=
  ⟨true, true, [⟨{}, {}, true, true, true⟩, ⟨{}, {}, false, true, true⟩]⟩

/-- After a second broken session the wait is two seconds, not one. -/
theorem not_startsAfresh_brokenSessions :
    waits ⟨true, false⟩ [⟨{}, brokenSession, {}, {}⟩, ⟨{}, brokenSession, {}, {}⟩] =
      [⟨brokenSession, second⟩, ⟨brokenSession, 2 * second⟩] ∧
    ¬StartsAfresh
      (waits ⟨true, false⟩ [⟨{}, brokenSession, {}, {}⟩, ⟨{}, brokenSession, {}, {}⟩]) := by
  have hwaits : waits ⟨true, false⟩ [⟨{}, brokenSession, {}, {}⟩, ⟨{}, brokenSession, {}, {}⟩] =
      [⟨brokenSession, second⟩, ⟨brokenSession, 2 * second⟩] := by decide
  refine ⟨hwaits, ?_⟩
  intro h
  have hsecond := h [⟨brokenSession, second⟩] ⟨brokenSession, 2 * second⟩ [] hwaits
  exact absurd hsecond (by decide)

end Postgres.Reconnect
