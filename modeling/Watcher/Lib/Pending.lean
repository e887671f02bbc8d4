import Mathlib

/-!
# Values that wait for a count

A queue of values, each of which may be released once a counter has reached the
count it was recorded at. Values recorded at one count share an entry, and
released values are merged into an accumulator, both by the same `merge`.

The values are positions: each owes a set of items, and it is covered by a count
when those items are among that many first items of a log. If every waiting
position is covered by its count, releasing by a reached count releases only
positions whose items are all among the reached ones.

## Key results

- `record_forall`: what holds of every entry after a value was recorded
- `settle_forall`: what holds of the entries that still wait
- `settle_released`: what holds of the accumulator after a release
- `Follows.record`, `Follows.settle`: the queue releases what a log of all values releases
- `record_covered`, `settle_covered`: the same for positions and what they owe
-/

namespace Pending

open List

variable {α : Type _}

/-- A value and the count it waits for. -/
structure Entry (α : Type _) where
  count : Nat
  value : α
  deriving DecidableEq, Repr

/-- Record a value at the end of the queue, in the last entry when that waits for the same
    count. -/
def record (merge : α → α → α) (count : Nat) (value : α) : List (Entry α) → List (Entry α)
  | [] => [⟨count, value⟩]
  | [last] =>
    if last.count = count then [⟨count, merge last.value value⟩] else [last, ⟨count, value⟩]
  | e :: q => e :: record merge count value q

/-- Release, from the front, every entry whose count has been reached. -/
def settle (merge : α → α → α) (reached : Nat) : α → List (Entry α) → α × List (Entry α)
  | acc, [] => (acc, [])
  | acc, e :: q =>
    if reached < e.count then (acc, e :: q) else settle merge reached (merge acc e.value) q

variable {merge : α → α → α}

/-- What holds of every entry, of the new one, and is kept by merging. -/
theorem record_forall {P : Entry α → Prop} {count : Nat} {value : α} {q : List (Entry α)}
    (hq : ∀ e ∈ q, P e) (hnew : P ⟨count, value⟩)
    (hmerge : ∀ v, P ⟨count, v⟩ → P ⟨count, merge v value⟩) :
    ∀ e ∈ record merge count value q, P e := by
  fun_induction record merge count value q with
  | case1 =>
    intro e he
    rw [mem_singleton.mp he]
    exact hnew
  | case2 last hcount =>
    -- the shared entry: its count is the one the new value came with
    intro e he
    rw [mem_singleton.mp he]
    exact hmerge last.value (hcount ▸ hq last mem_cons_self)
  | case3 last =>
    intro e he
    simp only [mem_cons, not_mem_nil, or_false] at he
    obtain rfl | rfl := he
    · exact hq e mem_cons_self
    · exact hnew
  | case4 e q hne ih =>
    intro e' he'
    rcases mem_cons.mp he' with rfl | he'
    · exact hq e' mem_cons_self
    · exact ih (fun e'' h => hq e'' (mem_cons_of_mem e h)) e' he'

/-- The entries that remain are among those there were. -/
theorem settle_sublist (reached : Nat) (acc : α) (q : List (Entry α)) :
    (settle merge reached acc q).2.Sublist q := by
  fun_induction settle merge reached acc q with
  | case1 => exact List.Sublist.refl _
  | case2 => exact List.Sublist.refl _
  | case3 acc e q hle ih => exact ih.cons e

theorem settle_forall {P : Entry α → Prop} {q : List (Entry α)} (hq : ∀ e ∈ q, P e)
    (reached : Nat) (acc : α) : ∀ e ∈ (settle merge reached acc q).2, P e :=
  fun e he => hq e ((settle_sublist reached acc q).subset he)

/-- A property of the accumulator that merging a released entry keeps. -/
theorem settle_released {P : Entry α → Prop} {Q : α → Prop} {reached : Nat} {acc : α}
    {q : List (Entry α)} (hq : ∀ e ∈ q, P e) (hacc : Q acc)
    (hmerge : ∀ a e, Q a → P e → e.count ≤ reached → Q (merge a e.value)) :
    Q (settle merge reached acc q).1 := by
  fun_induction settle merge reached acc q with
  | case1 => exact hacc
  | case2 => exact hacc
  | case3 acc e q hle ih =>
    -- the accumulator changes, so the induction is over `acc` too
    have he : P e := hq e mem_cons_self
    exact ih (fun e' h => hq e' (mem_cons_of_mem e h))
      (hmerge acc e hacc he (Nat.le_of_not_lt hle))

/-- Where merging only adds, so does a release. -/
theorem le_settle [Preorder α] (hmerge : ∀ a b : α, a ≤ merge a b) (reached : Nat) (acc : α)
    (q : List (Entry α)) : acc ≤ (settle merge reached acc q).1 :=
  settle_released (P := fun _ => True) (Q := fun a => acc ≤ a) (fun _ _ => trivial) le_rfl
    fun a e ha _ _ => le_trans ha (hmerge a e.value)

/-! ## Where the newer value replaces the older one -/

/-- Values recorded in order stay in order. -/
theorem record_pairwise {R : α → α → Prop} {count : Nat} {value : α} {q : List (Entry α)}
    (hq : q.Pairwise fun a b => R a.value b.value) (hnew : ∀ e ∈ q, R e.value value) :
    (record (fun _ newer => newer) count value q).Pairwise fun a b => R a.value b.value := by
  fun_induction record (fun _ newer => newer) count value q with
  | case1 => exact pairwise_singleton _ _
  | case2 => exact pairwise_singleton _ _
  | case3 last =>
    rw [pairwise_pair]
    exact hnew last mem_cons_self
  | case4 e q hne ih =>
    rw [pairwise_cons] at hq ⊢
    refine ⟨?_, ih hq.2 fun e' he' => hnew e' (mem_cons_of_mem e he')⟩
    exact record_forall (fun e' he' => hq.1 e' he') (hnew e mem_cons_self) fun v hv =>
      hnew e mem_cons_self

/-- What is released last comes before everything that still waits. -/
theorem settle_pairwise {R : α → α → Prop} (reached : Nat) {acc : α} {q : List (Entry α)}
    (hq : q.Pairwise fun a b => R a.value b.value) (hacc : ∀ e ∈ q, R acc e.value) :
    ∀ e ∈ (settle (fun _ newer => newer) reached acc q).2,
      R (settle (fun _ newer => newer) reached acc q).1 e.value := by
  fun_induction settle (fun _ newer => newer) reached acc q with
  | case1 => exact hacc
  | case2 => exact hacc
  | case3 acc e q hle ih =>
    rw [pairwise_cons] at hq
    exact ih hq.2 hq.1

/-! ## Against a log of everything

A log keeps every value in an entry of its own and drops none; what it has released at a reached
count is computed from the whole of it each time. A queue follows a log when it releases the same
from any count on. -/

section Log

/-- What a log has released into `acc` when `reached` is reached. -/
def releasedBy (merge : α → α → α) (reached : Nat) (acc : α) (log : List (Entry α)) : α :=
  (log.filter (·.count ≤ reached)).foldl (fun a e => merge a e.value) acc

@[simp] theorem releasedBy_nil (reached : Nat) (acc : α) : releasedBy merge reached acc [] = acc :=
  rfl

/-- The first entry of the log. -/
theorem releasedBy_cons (reached : Nat) (acc : α) (e : Entry α) (log : List (Entry α)) :
    releasedBy merge reached acc (e :: log) =
      releasedBy merge reached (if e.count ≤ reached then merge acc e.value else acc) log := by
  by_cases h : e.count ≤ reached
  · simp [releasedBy, h]
  · simp [releasedBy, h]

/-- One log after the other. -/
theorem releasedBy_append (reached : Nat) (acc : α) (log log' : List (Entry α)) :
    releasedBy merge reached acc (log ++ log') =
      releasedBy merge reached (releasedBy merge reached acc log) log' := by
  simp only [releasedBy, filter_append, foldl_append]

/-- What waits is not released. -/
theorem releasedBy_of_waiting {reached : Nat} {log : List (Entry α)}
    (h : ∀ e ∈ log, reached < e.count) (acc : α) : releasedBy merge reached acc log = acc := by
  have hnone : log.filter (·.count ≤ reached) = [] := by
    rw [filter_eq_nil_iff]
    intro e he
    simpa using h e he
  rw [releasedBy, hnone, foldl_nil]

/-- Sharing an entry releases the same as an entry of its own. -/
theorem releasedBy_record (hassoc : ∀ a b c : α, merge (merge a b) c = merge a (merge b c))
    (reached count : Nat) (value acc : α) (q : List (Entry α)) :
    releasedBy merge reached acc (record merge count value q) =
      releasedBy merge reached acc (q ++ [⟨count, value⟩]) := by
  fun_induction record merge count value q generalizing acc with
  | case1 => rfl
  | case2 last hcount =>
    rw [singleton_append]
    simp only [releasedBy_cons, hcount, releasedBy_nil]
    by_cases h : count ≤ reached
    · simp only [if_pos h, hassoc]
    · simp only [if_neg h]
  | case3 last => rfl
  | case4 e q hne ih => rw [cons_append, releasedBy_cons, releasedBy_cons, ih]

/-- What was released early is released later too. -/
theorem releasedBy_settle {reached later : Nat} (hle : reached ≤ later) (acc : α)
    (q : List (Entry α)) :
    releasedBy merge later (settle merge reached acc q).1 (settle merge reached acc q).2 =
      releasedBy merge later acc q := by
  fun_induction settle merge reached acc q with
  | case1 => rfl
  | case2 => rfl
  | case3 acc e q hwait ih => rw [ih, releasedBy_cons, if_pos (by omega)]

/-- In a queue with increasing counts nothing that may be released hides behind what waits. -/
theorem settle_waiting {q : List (Entry α)} (hq : q.Pairwise (·.count < ·.count)) (reached : Nat)
    (acc : α) : ∀ e ∈ (settle merge reached acc q).2, reached < e.count := by
  fun_induction settle merge reached acc q with
  | case1 => exact fun e he => nomatch he
  | case2 acc e q hwait =>
    intro e' he'
    rcases mem_cons.mp he' with rfl | he'
    · exact hwait
    · exact Nat.lt_trans hwait (rel_of_pairwise_cons hq he')
  | case3 acc e q hwait ih => exact ih hq.of_cons

theorem mem_settle_of_waiting {reached : Nat} {e : Entry α} (hwait : reached < e.count)
    {q : List (Entry α)} (he : e ∈ q) (acc : α) : e ∈ (settle merge reached acc q).2 := by
  fun_induction settle merge reached acc q with
  | case1 => exact he
  | case2 => exact he
  | case3 acc e' q hle ih =>
    rcases mem_cons.mp he with rfl | he
    · exact absurd hwait hle
    · exact ih he

theorem settle_fst {q : List (Entry α)} (hq : q.Pairwise (·.count < ·.count)) (reached : Nat)
    (acc : α) : (settle merge reached acc q).1 = releasedBy merge reached acc q := by
  rw [← releasedBy_settle (Nat.le_refl reached) acc q,
    releasedBy_of_waiting (settle_waiting hq reached acc)]

/-- Counts stay increasing when they are recorded in order. -/
theorem record_increasing {count : Nat} {value : α} {q : List (Entry α)}
    (hq : q.Pairwise (·.count < ·.count)) (hle : ∀ e ∈ q, e.count ≤ count) :
    (record merge count value q).Pairwise (·.count < ·.count) := by
  fun_induction record merge count value q with
  | case1 => exact pairwise_singleton _ _
  | case2 => exact pairwise_singleton _ _
  | case3 last hne =>
    rw [pairwise_pair]
    exact Nat.lt_of_le_of_ne (hle last mem_cons_self) hne
  | case4 e q hne ih =>
    rw [pairwise_cons] at hq ⊢
    refine ⟨?_, ih hq.2 fun e' he' => hle e' (mem_cons_of_mem e he')⟩
    -- `e` is before an entry of `q`, so its count is smaller than the new one
    obtain ⟨last, hlast⟩ := exists_mem_of_ne_nil q hne
    have hlt : e.count < count := Nat.lt_of_lt_of_le (hq.1 last hlast)
      (hle last (mem_cons_of_mem e hlast))
    exact record_forall hq.1 hlt fun _ h => h

theorem exists_record_count {P : Nat → Prop} {count : Nat} {value : α} {q : List (Entry α)} :
    (∃ e ∈ record merge count value q, P e.count) ↔ (∃ e ∈ q, P e.count) ∨ P count := by
  fun_induction record merge count value q with
  | case1 => simp
  | case2 last hcount => simp [hcount]
  | case3 last => simp
  | case4 e q hne ih =>
    simp only [mem_cons, or_and_right, exists_or, exists_eq_left, ih, or_assoc]

/-- The queue and what it has released so far stand for the log, from the count `floor` on. -/
structure Follows (merge : α → α → α) (floor : Nat) (init : α) (log : List (Entry α)) (acc : α)
    (q : List (Entry α)) : Prop where
  released : ∀ reached, floor ≤ reached →
    releasedBy merge reached acc q = releasedBy merge reached init log
  waiting : ∀ reached, floor ≤ reached →
    ((∃ e ∈ q, reached < e.count) ↔ ∃ e ∈ log, reached < e.count)

theorem Follows.nil (floor : Nat) (acc : α) : Follows merge floor acc [] acc [] :=
  ⟨fun _ _ => rfl, fun _ _ => Iff.rfl⟩

variable {floor : Nat} {init acc : α} {log q : List (Entry α)}

/-- From a later count on. -/
theorem Follows.mono (h : Follows merge floor init log acc q) {floor' : Nat}
    (hle : floor ≤ floor') : Follows merge floor' init log acc q :=
  ⟨fun r hr => h.released r (Nat.le_trans hle hr), fun r hr => h.waiting r (Nat.le_trans hle hr)⟩

/-- A value is recorded in both. -/
theorem Follows.record (h : Follows merge floor init log acc q)
    (hassoc : ∀ a b c : α, merge (merge a b) c = merge a (merge b c)) (count : Nat) (value : α) :
    Follows merge floor init (log ++ [⟨count, value⟩]) acc (record merge count value q) where
  released reached hr := by
    rw [releasedBy_record hassoc, releasedBy_append, releasedBy_append, h.released reached hr]
  waiting reached hr := by
    have hq : (∃ e ∈ Pending.record merge count value q, reached < e.count) ↔
        (∃ e ∈ q, reached < e.count) ∨ reached < count := exists_record_count
    rw [hq, h.waiting reached hr]
    simp only [mem_append, mem_singleton, or_and_right, exists_or, exists_eq_left]

theorem Follows.settle (h : Follows merge floor init log acc q) {reached : Nat}
    (hle : floor ≤ reached) :
    Follows merge reached init log (settle merge reached acc q).1
      (settle merge reached acc q).2 where
  released later hr := by
    rw [releasedBy_settle hr]
    exact h.released later (Nat.le_trans hle hr)
  waiting later hr := by
    rw [← h.waiting later (Nat.le_trans hle hr)]
    constructor
    · rintro ⟨e, he, hwait⟩
      exact ⟨e, (settle_sublist reached acc q).subset he, hwait⟩
    · rintro ⟨e, he, hwait⟩
      exact ⟨e, mem_settle_of_waiting (Nat.lt_of_le_of_lt hr hwait) he acc, hwait⟩

end Log

/-! ## Positions and what they owe -/

section Covered

variable {ι : Type _} {owes : α → Set ι} {log : List ι}

/-- Everything the position owes is among the first `n` items of the log. -/
def Covered (owes : α → Set ι) (log : List ι) (n : Nat) (position : α) : Prop :=
  ∀ c ∈ owes position, c ∈ log.take n

/-- A longer log covers as much. -/
theorem Covered.append {n : Nat} {position : α} (h : Covered owes log n position)
    (more : List ι) : Covered owes (log ++ more) n position := by
  intro c hc
  rw [take_append]
  exact mem_append_left _ (h c hc)

/-- And so does a larger count. -/
theorem Covered.mono {n m : Nat} {position : α} (h : Covered owes log n position) (hnm : n ≤ m) :
    Covered owes log m position :=
  fun c hc => (take_subset_take_left log hnm) (h c hc)

theorem Covered.combine (hmerge : ∀ a b, owes (merge a b) ⊆ owes a ∪ owes b) {n : Nat} {a b : α}
    (ha : Covered owes log n a) (hb : Covered owes log n b) :
    Covered owes log n (merge a b) :=
  fun c hc => (hmerge a b hc).elim (ha c) (hb c)

/-- A covered position is recorded. -/
theorem record_covered (hmerge : ∀ a b, owes (merge a b) ⊆ owes a ∪ owes b) {count : Nat}
    {position : α} {q : List (Entry α)} (hq : ∀ e ∈ q, Covered owes log e.count e.value)
    (hnew : Covered owes log count position) :
    ∀ e ∈ record merge count position q, Covered owes log e.count e.value :=
  record_forall hq hnew fun _ hv => Covered.combine hmerge hv hnew

theorem settle_covered (hmerge : ∀ a b, owes (merge a b) ⊆ owes a ∪ owes b) {reached : Nat}
    {acc : α} {q : List (Entry α)} (hq : ∀ e ∈ q, Covered owes log e.count e.value)
    (hacc : Covered owes log reached acc) :
    Covered owes log reached (settle merge reached acc q).1 :=
  settle_released hq hacc fun _ _ ha he hle => Covered.combine hmerge ha (Covered.mono he hle)

end Covered

end Pending
