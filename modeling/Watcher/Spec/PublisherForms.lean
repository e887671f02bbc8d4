import Watcher.Model.Publisher
import Watcher.Model.Truncate

/-!
# One event, one identity, shrinking payloads

All attempts with an event carry one subject and one message id. They start with
the whole event and go to the next smaller form exactly when the one before was
refused as too large (`Form.after`). Observers hear of the event once, as it was
read, and only if the last attempt was acked (`publish_forms`).

An event without a position, such as a row of a snapshot, leaves the last acked
position as it is.

## Key results

- `publishWithRetry_tries`: the attempts with one form
- `Trail.orTooLarge`: going on to the next form
- `publish_forms`: all attempts with an event, and what follows from the last
-/

namespace Nats

open Cdc List

/-! ## Forms of an event -/

inductive Form where
  | full
  | truncated
  | stripped
  deriving DecidableEq, Repr

/-- The form of the attempt that follows one with this form and this result, if one does. -/
def Form.after : Form → PublishResult → Option Form
  | _, .ok => none
  | form, .failed => some form
  | .full, .tooLarge => some .truncated
  | .truncated, .tooLarge => some .stripped
  | .stripped, .tooLarge => none

def Form.payload (keyOnly : EventType → GoString → List GoString → GoString) (event : Event) :
    Form → Event
  | .full => event
  | .truncated => event.truncated keyOnly
  | .stripped => event.stripped

def Form.rank : Form → Nat
  | .full => 0
  | .truncated => 1
  | .stripped => 2

/-- Attempts by form, with the result of each: every one has the form that follows the one
    before. -/
def Follow (tries : List (Form × PublishResult)) : Prop :=
  tries.IsChain fun x y => x.1.after x.2 = some y.1

theorem Form.rank_le_of_after {x y : Form} {r : PublishResult} (h : x.after r = some y) :
    x.rank ≤ y.rank := by
  cases x <;> cases r <;> cases h <;> decide

/-- Forms that do not grow come in three blocks. -/
theorem eq_replicate_of_sorted {forms : List Form}
    (h : forms.Pairwise fun x y => x.rank ≤ y.rank) :
    ∃ a b c, forms = List.replicate a .full ++ List.replicate b .truncated ++
      List.replicate c .stripped := by
  induction forms with
  | nil => exact ⟨0, 0, 0, rfl⟩
  | cons x forms ih =>
    rw [pairwise_cons] at h
    obtain ⟨a, b, c, rfl⟩ := ih h.2
    -- a larger form does not come after a smaller one
    have hsmaller : ∀ n form, form ∈ List.replicate a Form.full ++ List.replicate b .truncated ++
        List.replicate c .stripped → form.rank = n → x.rank ≤ n :=
      fun n form hform hn => hn ▸ h.1 form hform
    cases x with
    | full => exact ⟨a + 1, b, c, rfl⟩
    | truncated =>
      cases a with
      | zero => exact ⟨0, b + 1, c, rfl⟩
      | succ a => exact absurd (hsmaller 0 .full (by simp) rfl) (by decide)
    | stripped =>
      cases a with
      | succ a => exact absurd (hsmaller 0 .full (by simp) rfl) (by decide)
      | zero =>
        cases b with
        | succ b => exact absurd (hsmaller 1 .truncated (by simp) rfl) (by decide)
        | zero => exact ⟨0, 0, c + 1, rfl⟩

theorem Follow.blocks {tries : List (Form × PublishResult)} (h : Follow tries) :
    ∃ a b c, tries.map Prod.fst = List.replicate a .full ++ List.replicate b .truncated ++
      List.replicate c .stripped := by
  apply eq_replicate_of_sorted
  rw [pairwise_map]
  have hchain : tries.IsChain fun x y => x.1.rank ≤ y.1.rank :=
    h.imp fun _ _ hafter => Form.rank_le_of_after hafter
  have : IsTrans (Form × PublishResult) fun x y => x.1.rank ≤ y.1.rank :=
    ⟨fun _ _ _ => Nat.le_trans⟩
  exact hchain.pairwise

/-! ## Attempts -/

/-- The attempts of a call that may go from the form `first` to the form `last`. -/
structure Trail (index : Nat) (attempt : Form → Attempt) (first last : Form) (r : Sending)
    (tries : List (Form × PublishResult)) : Prop where
  log_eq : r.log = tries.map fun x => .attempt index (attempt x.1) x.2
  starts : ∀ x ∈ tries.head?, x.1 = first
  follow : Follow tries
  ok_iff : r.outcome = .ok ↔ tries.getLast?.map Prod.snd = some .ok
  refused : r.outcome = .error .tooLarge → tries.getLast? = some (last, .tooLarge)
  /-- A refusal is final for the last form only; the script may end right after another one. -/
  final : ∀ x ∈ tries.getLast?, x.2 = .tooLarge →
    r.outcome = .blocked ∨ x.1 = last ∧ r.outcome = .error .tooLarge

variable {index : Nat} {attempt : Form → Attempt} {first mid last : Form}
  {r : Sending} {tries : List (Form × PublishResult)}

/-- A call that made no attempt. -/
private theorem Trail.idle (index : Nat) (attempt : Form → Attempt) (first : Form) {o : Outcome}
    (rest : List Moment) (hok : o ≠ .ok) (htooLarge : o ≠ .error .tooLarge) :
    Trail index attempt first first ⟨o, rest, []⟩ [] where
  log_eq := rfl
  starts := by simp
  follow := .nil
  ok_iff := iff_of_false hok (by simp)
  refused h := absurd h htooLarge
  final := by simp

/-- A call that made one attempt, which ended it. -/
private theorem Trail.single {result : PublishResult} {o : Outcome} (rest : List Moment)
    (hok : o = .ok ↔ result = .ok) (htooLarge : o = .error .tooLarge ↔ result = .tooLarge) :
    Trail index attempt first first ⟨o, rest, [.attempt index (attempt first) result]⟩
      [(first, result)] where
  log_eq := rfl
  starts := by simp
  follow := .singleton _
  ok_iff := by simpa using hok
  refused h := by rw [htooLarge.mp h]; rfl
  final := by simpa using fun h => .inr (htooLarge.mpr h)

/-- A failed attempt is repeated with the same form. -/
private theorem Trail.retry (h : Trail index attempt first last r tries) :
    Trail index attempt first last
      { r with log := .attempt index (attempt first) .failed :: r.log }
      ((first, .failed) :: tries) where
  log_eq := by rw [h.log_eq]; rfl
  starts := by simp
  follow := by
    refine isChain_cons.mpr ⟨fun y hy => ?_, h.follow⟩
    rw [h.starts y hy]
    rfl
  ok_iff := by
    rw [h.ok_iff, getLast?_cons]
    cases tries.getLast? with
    | none => simp
    | some x => simp
  refused htooLarge := by rw [getLast?_cons, h.refused htooLarge, Option.getD_some]
  final := by
    have hfinal := h.final
    rw [getLast?_cons]
    cases hlast : tries.getLast? with
    | none => simp
    | some x => simpa [hlast] using hfinal

theorem publishWithRetry_tries (index : Nat) (attempt : Form → Attempt) (form : Form)
    (phase : Phase) (ms : List Moment) :
    ∃ tries,
      Trail index attempt form form (publishWithRetry index (attempt form) phase ms) tries := by
  fun_induction publishWithRetry index (attempt form) phase ms with
  | case1 phase => exact ⟨[], .idle _ _ _ _ Outcome.noConfusion Outcome.noConfusion⟩
  | case2 m ms hok => exact ⟨_, .single _ (iff_of_true rfl rfl) (by simp)⟩
  | case3 m ms htooLarge => exact ⟨_, .single _ (by simp) (iff_of_true rfl rfl)⟩
  | case4 m ms hfailed r ih =>
    obtain ⟨tries, htries⟩ := ih
    exact ⟨_, htries.retry⟩
  | case5 m ms hlost ih => exact ih
  | case6 m ms hlost hdone => exact ⟨[], .idle _ _ _ _ Outcome.noConfusion (by decide)⟩
  | case7 m ms hlost hdone ih => exact ih
  | case8 m ms hconn ih => exact ih
  | case9 m ms hconn => exact ⟨[], .idle _ _ _ _ Outcome.noConfusion (by decide)⟩
  | case10 m ms hconn hdone => exact ⟨[], .idle _ _ _ _ Outcome.noConfusion (by decide)⟩
  | case11 m ms hconn hdone ih => exact ih

/-- An attempt is made before anything else, if the script has a moment for it. -/
theorem blocked_of_no_attempt {a : Attempt} {ms : List Moment}
    (h : (publishWithRetry index a .attempting ms).log = []) :
    (publishWithRetry index a .attempting ms).outcome = .blocked := by
  cases ms with
  | nil => rfl
  | cons m ms =>
    rw [publishWithRetry] at h
    split at h <;> exact nomatch h

private theorem orTooLarge_blocked {next : List Moment → Sending}
    (h : r.log = [] → r.outcome = .blocked) (hlog : (r.orTooLarge next).log = []) :
    (r.orTooLarge next).outcome = .blocked := by
  rw [Sending.orTooLarge] at hlog ⊢
  split
  · rename_i htooLarge
    rw [if_pos htooLarge] at hlog
    rw [h (append_eq_nil_iff.mp hlog).1] at htooLarge
    exact nomatch htooLarge
  · rename_i htooLarge
    rw [if_neg htooLarge] at hlog
    exact h hlog

/-- Going on to the next form after the last attempt was refused as too large. -/
private theorem Trail.orTooLarge {next : List Moment → Sending} {form : Form}
    (h : Trail index attempt first mid r tries) (hafter : mid.after .tooLarge = some form)
    (hnext : ∃ tries', Trail index attempt form last (next r.rest) tries')
    (hblocked : (next r.rest).log = [] → (next r.rest).outcome = .blocked) :
    ∃ tries', Trail index attempt first last (r.orTooLarge next) tries' := by
  rw [Sending.orTooLarge]
  split
  · rename_i htooLarge
    obtain ⟨tries', hnext⟩ := hnext
    have hlast := h.refused htooLarge
    have hne : tries ≠ [] := by
      rintro rfl
      exact nomatch hlast
    refine ⟨tries ++ tries', ?_⟩
    exact {
      log_eq := by rw [map_append, ← h.log_eq, ← hnext.log_eq]
      starts := by
        rw [head?_append_of_ne_nil _ hne]
        exact h.starts
      follow := by
        refine isChain_append.mpr ⟨h.follow, hnext.follow, fun x hx y hy => ?_⟩
        rw [hlast, Option.mem_some_iff] at hx
        rw [← hx, hnext.starts y hy]
        exact hafter
      ok_iff := by
        rw [hnext.ok_iff, getLast?_append, hlast]
        cases tries'.getLast? with
        | none => simp
        | some x => simp
      refused := fun hr => by rw [getLast?_append, hnext.refused hr, Option.some_or]
      final := by
        rw [getLast?_append]
        cases hlast' : tries'.getLast? with
        | none =>
          -- no attempt with the next form: the script has ended
          have hnil : tries' = [] := getLast?_eq_none_iff.mp hlast'
          exact fun _ _ _ => .inl (hblocked (by rw [hnext.log_eq, hnil]; rfl))
        | some x =>
          rw [Option.some_or, ← hlast']
          exact hnext.final }
  · rename_i htooLarge
    have hfinal : ∀ x ∈ tries.getLast?, x.2 = .tooLarge → r.outcome = .blocked :=
      fun x hx hr => (h.final x hx hr).resolve_right fun hmid => htooLarge hmid.2
    exact ⟨tries, { h with
      refused := fun hr => absurd hr htooLarge
      final := fun x hx hr => .inl (hfinal x hx hr) }⟩

/-! ## An event -/

section Publish

variable (keyOnly : EventType → GoString → List GoString → GoString)

/-- The notifications of an event, one for every observer. -/
def notifications (p : Publisher) (index : Nat) (event : Event) : List Entry :=
  (List.range p.observers).map fun i => .notify i index event

/-- Every attempt with an event has its subject and its message id, and the form that follows from
    the attempts before. It is published exactly when the last attempt succeeded; then every
    observer hears of it and its position, if it has one, is the last acked. Otherwise nothing
    changes. -/
theorem publish_forms (p : Publisher) (next : GoString) (event : Event)
    (ms : List Moment) :
    let r := p.publish keyOnly index next event ms
    ∃ tries : List (Form × PublishResult),
      r.1.log = tries.map (fun x => .attempt index
          ⟨buildSubject p.subjectPrefix event.schema event.table, x.1.payload keyOnly event,
            messageID p.subjectPrefix next event⟩ x.2) ++
        (if r.1.outcome = .ok then notifications p index event else []) ∧
      (∀ x ∈ tries.head?, x.1 = .full) ∧
      Follow tries ∧
      (∀ x ∈ tries.getLast?, x.2 = .tooLarge → r.1.outcome = .blocked ∨ x.1 = .stripped) ∧
      (∃ a b c, tries.map Prod.fst = List.replicate a .full ++ List.replicate b .truncated ++
        List.replicate c .stripped) ∧
      (r.1.outcome = .ok ↔ tries.getLast?.map Prod.snd = some .ok) ∧
      r.2 = (if r.1.outcome = .ok ∧ event.lsn ≠ [] then { p with lastAckedLSN := event.lsn }
        else p) := by
  let attempt (form : Form) : Attempt :=
    ⟨buildSubject p.subjectPrefix event.schema event.table, form.payload keyOnly event,
      messageID p.subjectPrefix next event⟩
  have hsend : ∀ form ms, ∃ tries, Trail index attempt form form
      (send index (attempt form).subject (attempt form).payload (attempt form).msgID ms) tries :=
    fun form ms => publishWithRetry_tries index attempt form .attempting ms
  -- the whole event, then its key, then nothing of its data
  have hall : ∃ tries, Trail index attempt .full .stripped
      ((send index (attempt .full).subject event (attempt .full).msgID ms).orTooLarge
        (sendTruncated keyOnly index (attempt .full).subject event (attempt .full).msgID))
      tries := by
    obtain ⟨tries, hfull⟩ := hsend .full ms
    obtain ⟨tries', htruncated⟩ := hsend .truncated
      (send index (attempt .full).subject event (attempt .full).msgID ms).rest
    have htruncated' := htruncated.orTooLarge rfl (hsend .stripped _) blocked_of_no_attempt
    exact hfull.orTooLarge rfl htruncated' (orTooLarge_blocked blocked_of_no_attempt)
  obtain ⟨tries, htries⟩ := hall
  obtain ⟨r, hr⟩ : ∃ r,
      (send index (attempt .full).subject event (attempt .full).msgID ms).orTooLarge
        (sendTruncated keyOnly index (attempt .full).subject event (attempt .full).msgID) = r :=
    ⟨_, rfl⟩
  rw [hr] at htries
  have hpublish : p.publish keyOnly index next event ms =
      if r.outcome = .ok then
        ({ r with log := r.log ++ notifications p index event },
          if event.lsn ≠ [] then { p with lastAckedLSN := event.lsn } else p)
      else (r, p) := by
    rw [← hr]
    rfl
  have hfinal : ∀ x ∈ tries.getLast?, x.2 = .tooLarge → r.outcome = .blocked ∨ x.1 = .stripped :=
    fun x hx hr => (htries.final x hx hr).imp_right And.left
  by_cases hok : r.outcome = .ok
  · rw [if_pos hok] at hpublish
    rw [hpublish]
    refine ⟨tries, ?_, htries.starts, htries.follow, hfinal, htries.follow.blocks,
      htries.ok_iff, ?_⟩
    · show r.log ++ _ = _ ++ if r.outcome = .ok then _ else _
      rw [if_pos hok, htries.log_eq]
    · show (if event.lsn ≠ [] then _ else _) = if r.outcome = .ok ∧ event.lsn ≠ [] then _ else _
      simp only [hok, true_and]
  · rw [if_neg hok] at hpublish
    rw [hpublish]
    refine ⟨tries, ?_, htries.starts, htries.follow, hfinal, htries.follow.blocks,
      htries.ok_iff, ?_⟩
    · rw [if_neg hok, append_nil]
      exact htries.log_eq
    · exact (if_neg fun h => hok h.1).symm

end Publish

/-- A row without a position is acked, and the last acked position stays what it was. -/
theorem publish_without_lsn :
    let p : Publisher := ⟨ascii "cdc", 1, ascii "0/10"⟩
    let event := newEvent .insert (ascii "public") (ascii "users") (ascii "\x7b\x7d") [] []
    let acks : Moment := ⟨false, .connected, fun _ => .ok, false⟩
    let r := p.publish keyOnly 0 (ascii "n1") event [acks]
    r.1.outcome = .ok ∧ r.2.lastAckedLSN = p.lastAckedLSN ∧ r.2.lastAckedLSN ≠ event.lsn :=
  ⟨rfl, rfl, by decide⟩

end Nats
