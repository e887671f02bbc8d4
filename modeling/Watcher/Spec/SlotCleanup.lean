import Watcher.ForStd.List
import Watcher.Model.SlotCleanup

/-!
# Which slots the cleanup drops

A cleaner makes one pass after another. Whether it drops a slot without a
registry row depends on when it first saw the slot inactive, which it remembers
from pass to pass (`inactiveSince`). An active or registered listing and a
successful drop forget the mark, a failed drop keeps it.

A slot that is missing from a listing keeps its mark too. `drops_orphans` is
therefore about runs in which no such slot comes back under its old mark
(`NoReturn`): in these every pass drops exactly the orphans.
-/

namespace Postgres

open List Option

/-! ### One pass -/

namespace SlotCleaner

/-- The mark `observeInactive` returns. -/
def firstSeen (c : SlotCleaner) (now : Int) (d : SlotCandidate) : Int :=
  (c.observeInactive now d).1

/-- Whether the pass calls `drop` on the candidate. -/
def drops (c : SlotCleaner) (now : Int) (d : SlotCandidate) : Bool :=
  !c.dryRun && (c.rules.decide now d (c.firstSeen now d)).drop

/-- The mark the pass leaves for the candidate. -/
def nextMark (c : SlotCleaner) (now : Int) (fails : GoString → Bool) (d : SlotCandidate) :
    Option Int :=
  if d.active || d.owner.isSome then none
  else if c.drops now d && !fails d.name then none
  else some (c.firstSeen now d)

theorem firstSeen_of_idle (c : SlotCleaner) (now : Int) {d : SlotCandidate}
    (hactive : d.active = false) (howner : d.owner = none) :
    c.firstSeen now d = (c.inactiveSince d.name).getD now := by
  unfold firstSeen observeInactive
  simp only [hactive, howner, isSome_none, Bool.or_self, Bool.false_eq_true, ↓reduceIte]
  cases c.inactiveSince d.name <;> rfl

/-- Everything but the marks stays as it is. -/
theorem observeInactive_rules (c : SlotCleaner) (now : Int) (d : SlotCandidate) :
    (c.observeInactive now d).2.rules = c.rules ∧
      (c.observeInactive now d).2.dryRun = c.dryRun := by
  unfold observeInactive
  split
  · exact ⟨rfl, rfl⟩
  · split <;> exact ⟨rfl, rfl⟩

theorem observeInactive_mark (c : SlotCleaner) (now : Int) (d : SlotCandidate) (n : GoString) :
    (c.observeInactive now d).2.inactiveSince n =
      if n = d.name then
        if d.active || d.owner.isSome then none else some (c.firstSeen now d)
      else c.inactiveSince n := by
  unfold firstSeen observeInactive
  by_cases hbusy : (d.active || d.owner.isSome) = true
  · simp only [hbusy, ↓reduceIte, mark_inactiveSince]
  · rw [if_neg hbusy, if_neg hbusy]
    cases hmark : c.inactiveSince d.name with
    | none => simp only [mark_inactiveSince]
    | some m =>
      by_cases hn : n = d.name
      · rw [if_pos hn, hn]
        exact hmark
      · rw [if_neg hn]

/-- What one candidate does to the cleaner. -/
theorem cleanupCandidate_cleaner (c : SlotCleaner) (now : Int) (fails : GoString → Bool)
    (log : PassLog) (d : SlotCandidate) :
    (c.cleanupCandidate now fails log d).1.rules = c.rules ∧
      (c.cleanupCandidate now fails log d).1.dryRun = c.dryRun ∧
      ∀ n, (c.cleanupCandidate now fails log d).1.inactiveSince n =
        if n = d.name then c.nextMark now fails d else c.inactiveSince n := by
  obtain ⟨hrules, hdry⟩ := c.observeInactive_rules now d
  have hmark := c.observeInactive_mark now d
  have hdrops : c.drops now d = (!c.dryRun &&
    (c.rules.decide now d (c.observeInactive now d).1).drop) := rfl
  simp only [cleanupCandidate, dropSlot, nextMark, hrules, hdry, hdrops]
  -- kept, logged only, refused, dropped
  cases hdrop : (c.rules.decide now d (c.observeInactive now d).1).drop with
  | false =>
    simp only [Bool.false_eq_true, ↓reduceIte, Bool.and_false, Bool.false_and]
    exact ⟨hrules, hdry, hmark⟩
  | true =>
    cases hdryRun : c.dryRun with
    | true =>
      simp only [↓reduceIte, Bool.not_true, Bool.false_and, Bool.false_eq_true]
      exact ⟨hrules, hdry.trans hdryRun, hmark⟩
    | false =>
      cases hfails : fails d.name with
      | true =>
        simp only [↓reduceIte, Bool.false_eq_true, Bool.not_true, Bool.and_false]
        exact ⟨hrules, hdry.trans hdryRun, hmark⟩
      | false =>
        simp only [Bool.false_eq_true, ↓reduceIte, Bool.not_false, Bool.and_self,
          mark_inactiveSince, ite_self]
        refine ⟨hrules, hdry.trans hdryRun, ?_⟩
        intro n
        by_cases hn : n = d.name
        · rw [if_pos hn, if_pos hn]
        · rw [if_neg hn, if_neg hn, hmark, if_neg hn]

/-- What one candidate adds to the log. -/
theorem cleanupCandidate_calls (c : SlotCleaner) (now : Int) (fails : GoString → Bool)
    (log : PassLog) (d : SlotCandidate) :
    (c.cleanupCandidate now fails log d).2.calls =
      log.calls ++ if c.drops now d then [d.name] else [] := by
  obtain ⟨hrules, hdry⟩ := c.observeInactive_rules now d
  have hdrops : c.drops now d = (!c.dryRun &&
    (c.rules.decide now d (c.observeInactive now d).1).drop) := rfl
  simp only [cleanupCandidate, dropSlot, hrules, hdry, hdrops]
  cases (c.rules.decide now d (c.observeInactive now d).1).drop with
  | false => simp
  | true =>
    cases c.dryRun with
    | true => simp
    | false => cases fails d.name <;> simp

/-- A candidate's treatment depends on the mark of its own name only. -/
theorem drops_congr {c c' : SlotCleaner} (now : Int) {d : SlotCandidate}
    (hrules : c'.rules = c.rules)
    (hdry : c'.dryRun = c.dryRun) (hmark : c'.inactiveSince d.name = c.inactiveSince d.name) :
    c'.drops now d = c.drops now d ∧
      ∀ fails, c'.nextMark now fails d = c.nextMark now fails d := by
  have hfirst : c'.firstSeen now d = c.firstSeen now d := by
    unfold firstSeen observeInactive
    rw [hmark]
    split
    · rfl
    · cases c.inactiveSince d.name <;> rfl
  have hdrops : c'.drops now d = c.drops now d := by
    unfold drops
    rw [hrules, hdry, hfirst]
  refine ⟨hdrops, ?_⟩
  intro fails
  unfold nextMark
  rw [hdrops, hfirst]

/-- The loop over candidates of distinct names, from the cleaner before it. -/
theorem cleanupLoop_spec (now : Int) (fails : GoString → Bool) (c : SlotCleaner) (log : PassLog)
    (ds : List SlotCandidate) (hnodup : (ds.map SlotCandidate.name).Nodup) :
    (cleanupLoop now fails c log ds).1.rules = c.rules ∧
      (cleanupLoop now fails c log ds).1.dryRun = c.dryRun ∧
      (∀ d ∈ ds, (cleanupLoop now fails c log ds).1.inactiveSince d.name =
        c.nextMark now fails d) ∧
      (∀ n, n ∉ ds.map SlotCandidate.name →
        (cleanupLoop now fails c log ds).1.inactiveSince n = c.inactiveSince n) ∧
      ∀ n, n ∈ (cleanupLoop now fails c log ds).2.calls ↔
        n ∈ log.calls ∨ ∃ d ∈ ds, d.name = n ∧ c.drops now d = true := by
  induction ds generalizing c log with
  | nil => simp [cleanupLoop]
  | cons d ds ih =>
    rw [map_cons, nodup_cons] at hnodup
    obtain ⟨hrules, hdry, hmark⟩ := c.cleanupCandidate_cleaner now fails log d
    have hcalls := c.cleanupCandidate_calls now fails log d
    obtain ⟨ihRules, ihDry, ihListed, ihOther, ihCalls⟩ :=
      ih (c.cleanupCandidate now fails log d).1 (c.cleanupCandidate now fails log d).2 hnodup.2
    -- the later candidates have other names, so they are treated as from the start
    have hlater : ∀ e ∈ ds, (c.cleanupCandidate now fails log d).1.drops now e = c.drops now e ∧
        ∀ fails', (c.cleanupCandidate now fails log d).1.nextMark now fails' e =
          c.nextMark now fails' e := by
      intro e he
      apply drops_congr now hrules hdry
      rw [hmark, if_neg]
      intro heq
      exact hnodup.1 (heq ▸ mem_map_of_mem he)
    have hloop : cleanupLoop now fails c log (d :: ds) =
      cleanupLoop now fails (c.cleanupCandidate now fails log d).1
        (c.cleanupCandidate now fails log d).2 ds := rfl
    rw [hloop]
    refine ⟨ihRules.trans hrules, ihDry.trans hdry, ?_, ?_, ?_⟩
    · intro e he
      rcases mem_cons.mp he with rfl | he
      · rw [ihOther _ hnodup.1, hmark, if_pos rfl]
      · rw [ihListed e he, (hlater e he).2]
    · intro n hn
      rw [map_cons, mem_cons, not_or] at hn
      rw [ihOther n hn.2, hmark, if_neg hn.1]
    · intro n
      rw [ihCalls, hcalls]
      constructor
      · rintro (h | ⟨e, he, rfl, hd⟩)
        · rcases mem_append.mp h with h | h
          · exact .inl h
          · by_cases hd : c.drops now d = true
            · rw [if_pos hd, mem_singleton] at h
              exact .inr ⟨d, mem_cons_self, h.symm, hd⟩
            · rw [if_neg hd] at h
              exact absurd h (not_mem_nil)
        · exact .inr ⟨e, mem_cons_of_mem _ he, rfl, (hlater e he).1 ▸ hd⟩
      · rintro (h | ⟨e, he, rfl, hd⟩)
        · exact .inl (mem_append_left _ h)
        · rcases mem_cons.mp he with rfl | he
          · rw [if_pos hd]
            exact .inl (mem_append_right _ (mem_singleton_self _))
          · exact .inr ⟨e, he, rfl, (hlater e he).1.symm ▸ hd⟩

end SlotCleaner

/-! ### Listings -/

/-- The pass lists the slot as inactive and unregistered. -/
def Pass.ListsIdle (p : Pass) (n : GoString) : Prop :=
  ∃ ds d, p.fetched = some ds ∧ d ∈ ds ∧ d.name = n ∧ d.active = false ∧ d.owner = none

/-- The pass lists the slot as active or registered. -/
def Pass.ListsBusy (p : Pass) (n : GoString) : Prop :=
  ∃ ds d, p.fetched = some ds ∧ d ∈ ds ∧ d.name = n ∧ ¬(d.active = false ∧ d.owner = none)

/-- The pass does not list the slot; in particular when its fetch failed. -/
def Pass.Omits (p : Pass) (n : GoString) : Prop :=
  ∀ ds, p.fetched = some ds → n ∉ ds.map SlotCandidate.name

/-- Names are distinct in each listing, as in `pg_replication_slots`. -/
def Pass.Distinct (p : Pass) : Prop :=
  ∀ ds, p.fetched = some ds → (ds.map SlotCandidate.name).Nodup

theorem Pass.listed_cases (p : Pass) (n : GoString) :
    p.ListsIdle n ∨ p.ListsBusy n ∨ p.Omits n := by
  cases hfetched : p.fetched with
  | none => exact .inr (.inr fun ds hds => absurd (hfetched.symm.trans hds) (by simp))
  | some ds =>
    by_cases hmem : n ∈ ds.map SlotCandidate.name
    · obtain ⟨d, hd, hname⟩ := mem_map.mp hmem
      by_cases hidle : d.active = false ∧ d.owner = none
      · exact .inl ⟨ds, d, hfetched, hd, hname, hidle.1, hidle.2⟩
      · exact .inr (.inl ⟨ds, d, hfetched, hd, hname, hidle⟩)
    · refine .inr (.inr ?_)
      intro ds' hds'
      obtain rfl := some.inj (hfetched.symm.trans hds')
      exact hmem

theorem Pass.Distinct.not_busy {p : Pass} (hp : p.Distinct) {n : GoString} (h : p.ListsIdle n) :
    ¬p.ListsBusy n := by
  rintro ⟨ds, d, hfetched, hd, rfl, hbusy⟩
  obtain ⟨es, e, hfetched', he, hname, hidle⟩ := h
  obtain rfl := some.inj (hfetched.symm.trans hfetched')
  rw [inj_on_of_nodup_map (hp ds hfetched) he hd hname] at hidle
  exact hbusy hidle

/-! ### Runs of passes -/

section Runs

variable (rules : OrphanRules) (dryRun : Bool)

/-- The cleaner after some passes. -/
def cleanerAfter (passes : List Pass) : SlotCleaner :=
  passes.foldl (fun c p => (c.cleanupOnce p).1) (newSlotCleaner rules dryRun)

/-- The names the pass `p` after `earlier` calls `drop` with. -/
def callsOf (earlier : List Pass) (p : Pass) : List GoString :=
  ((cleanerAfter rules dryRun earlier).cleanupOnce p).2.calls

/-- The pass `p` after `earlier` drops the slot, and the database does not refuse. -/
def Dropped (earlier : List Pass) (p : Pass) (n : GoString) : Prop :=
  n ∈ callsOf rules dryRun earlier p ∧ p.fails n = false

/-- No pass of `later`, made after `earlier`, drops the slot. -/
def NotDropped (earlier later : List Pass) (n : GoString) : Prop :=
  ∀ before p after, later = before ++ p :: after → ¬Dropped rules dryRun (earlier ++ before) p n

/-- Before the pass `p` the slot was listed as inactive and unregistered in every pass whose fetch
    succeeded, from one at least `staleAfter` earlier on, and was not dropped. -/
def IdleSince (earlier : List Pass) (p : Pass) (n : GoString) : Prop :=
  ∃ before first between, earlier = before ++ first :: between ∧
    rules.staleAfter.val ≤ p.now - first.now ∧ first.ListsIdle n ∧
    (∀ q ∈ between, q.fetched ≠ none → q.ListsIdle n) ∧
    NotDropped rules dryRun before (first :: between) n

/-- The candidate `d` of the pass `p` after `earlier` is an orphan that the pass has to drop. -/
def Orphan (earlier : List Pass) (p : Pass) (d : SlotCandidate) : Prop :=
  dryRun = false ∧ d.name ≠ rules.ownSlot ∧ rules.pattern d.name = true ∧ d.active = false ∧
    (0 < rules.retainedThreshold → rules.retainedThreshold < d.retainedWALBytes) ∧
    ((∃ owner, d.owner = some owner ∧ owner.releasedAt ≠ none) ∨
      (∃ owner, d.owner = some owner ∧ rules.staleAfter.val ≤ p.now - owner.heartbeatAt) ∨
      (d.owner = none ∧ IdleSince rules dryRun earlier p d.name))

/-- A slot that still has a mark is only listed as inactive and unregistered if the last successful
    fetch before listed it as well. -/
def NoReturn (passes : List Pass) : Prop :=
  ∀ earlier p later, passes = earlier ++ p :: later → ∀ n, p.ListsIdle n →
    (cleanerAfter rules dryRun earlier).inactiveSince n ≠ none →
    ∃ ds, (earlier.filterMap Pass.fetched).getLast? = some ds ∧ n ∈ ds.map SlotCandidate.name

variable {rules dryRun}

/-- One pass more. -/
theorem cleanerAfter_snoc (passes : List Pass) (p : Pass) :
    cleanerAfter rules dryRun (passes ++ [p]) =
      ((cleanerAfter rules dryRun passes).cleanupOnce p).1 := by
  simp only [cleanerAfter, foldl_append, foldl_cons, foldl_nil]

theorem notDropped_snoc {earlier later : List Pass} {p : Pass} {n : GoString} :
    NotDropped rules dryRun earlier (later ++ [p]) n ↔
      NotDropped rules dryRun earlier later n ∧ ¬Dropped rules dryRun (earlier ++ later) p n :=
  forall_concat_eq_append_cons

/-- The cleaner keeps its rules, and a pass treats every name as the one-pass lemmas say. -/
theorem cleanupOnce_spec (c : SlotCleaner) {p : Pass} (hdistinct : p.Distinct) :
    (c.cleanupOnce p).1.rules = c.rules ∧ (c.cleanupOnce p).1.dryRun = c.dryRun ∧
      (∀ ds, p.fetched = some ds → ∀ d ∈ ds, (c.cleanupOnce p).1.inactiveSince d.name =
        c.nextMark p.now p.fails d ∧
        (d.name ∈ (c.cleanupOnce p).2.calls ↔ c.drops p.now d = true)) ∧
      ∀ n, p.Omits n → (c.cleanupOnce p).1.inactiveSince n = c.inactiveSince n ∧
        n ∉ (c.cleanupOnce p).2.calls := by
  unfold SlotCleaner.cleanupOnce
  cases hfetched : p.fetched with
  | none => simp
  | some ds =>
    have hnodup := hdistinct ds hfetched
    obtain ⟨hrules, hdry, hlisted, hother, hcalls⟩ :=
      SlotCleaner.cleanupLoop_spec p.now p.fails c ⟨[], []⟩ ds hnodup
    refine ⟨hrules, hdry, ?_, ?_⟩
    · rintro ds' hds' d hd
      obtain rfl := some.inj hds'
      refine ⟨hlisted d hd, ?_⟩
      -- with distinct names a call of the name is a call of the candidate
      rw [hcalls]
      constructor
      · rintro (h | ⟨e, he, hname, hdrops⟩)
        · exact absurd h (not_mem_nil)
        · rw [← inj_on_of_nodup_map hnodup he hd hname]
          exact hdrops
      · exact fun h => .inr ⟨d, hd, rfl, h⟩
    · intro n homits
      have hn := homits ds hfetched
      refine ⟨hother n hn, ?_⟩
      rw [hcalls]
      rintro (h | ⟨e, he, rfl, -⟩)
      · exact absurd h (not_mem_nil)
      · exact hn (mem_map_of_mem he)

variable (rules dryRun) in
theorem cleanerAfter_rules (passes : List Pass) (hdistinct : ∀ p ∈ passes, p.Distinct) :
    (cleanerAfter rules dryRun passes).rules = rules ∧
      (cleanerAfter rules dryRun passes).dryRun = dryRun := by
  induction passes using List.reverseRecOn with
  | nil => exact ⟨rfl, rfl⟩
  | append_singleton passes p ih =>
    obtain ⟨ihRules, ihDry⟩ := ih fun q hq => hdistinct q (mem_append_left _ hq)
    obtain ⟨hrules, hdry, -⟩ := cleanupOnce_spec (cleanerAfter rules dryRun passes)
      (hdistinct p (by simp))
    rw [cleanerAfter_snoc]
    exact ⟨hrules.trans ihRules, hdry.trans ihDry⟩

/-! ### The mark after one more pass -/

section Mark

variable (rules dryRun)
variable (passes : List Pass) {p : Pass} {n : GoString} (hdistinct : p.Distinct)

include hdistinct

theorem mark_of_omits (h : p.Omits n) :
    (cleanerAfter rules dryRun (passes ++ [p])).inactiveSince n =
      (cleanerAfter rules dryRun passes).inactiveSince n ∧ ¬Dropped rules dryRun passes p n := by
  obtain ⟨-, -, -, hother⟩ := cleanupOnce_spec (cleanerAfter rules dryRun passes) hdistinct
  rw [cleanerAfter_snoc]
  exact ⟨(hother n h).1, fun hd => (hother n h).2 hd.1⟩

theorem mark_of_busy (h : p.ListsBusy n) :
    (cleanerAfter rules dryRun (passes ++ [p])).inactiveSince n = none := by
  obtain ⟨-, -, hlisted, -⟩ := cleanupOnce_spec (cleanerAfter rules dryRun passes) hdistinct
  obtain ⟨ds, d, hfetched, hd, rfl, hbusy⟩ := h
  rw [cleanerAfter_snoc, (hlisted ds hfetched d hd).1]
  unfold SlotCleaner.nextMark
  apply if_pos
  cases hactive : d.active with
  | true => rfl
  | false =>
    cases howner : d.owner with
    | none => exact absurd ⟨hactive, howner⟩ hbusy
    | some owner => rfl

/-- A slot listed as inactive and unregistered has no mark after the pass if it was dropped, and
    otherwise the one it had or the time of the pass. -/
theorem mark_of_idle (h : p.ListsIdle n) :
    (Dropped rules dryRun passes p n ∧
      (cleanerAfter rules dryRun (passes ++ [p])).inactiveSince n = none) ∨
    (¬Dropped rules dryRun passes p n ∧
      (cleanerAfter rules dryRun (passes ++ [p])).inactiveSince n =
        some (((cleanerAfter rules dryRun passes).inactiveSince n).getD p.now)) := by
  obtain ⟨-, -, hlisted, -⟩ := cleanupOnce_spec (cleanerAfter rules dryRun passes) hdistinct
  obtain ⟨ds, d, hfetched, hd, rfl, hactive, howner⟩ := h
  obtain ⟨hmark, hcalls⟩ := hlisted ds hfetched d hd
  rw [cleanerAfter_snoc, hmark]
  unfold Dropped callsOf SlotCleaner.nextMark
  rw [hcalls, SlotCleaner.firstSeen_of_idle _ _ hactive howner, if_neg (by simp [hactive, howner])]
  by_cases hdropped : (cleanerAfter rules dryRun passes).drops p.now d = true ∧
      p.fails d.name = false
  · exact .inl ⟨hdropped, if_pos (by simp [hdropped])⟩
  · refine .inr ⟨hdropped, if_neg ?_⟩
    simpa using hdropped

end Mark

/-! ### What a mark means -/

variable (rules dryRun) in
/-- The slot was first listed at `m` and in every successful fetch since, until it disappeared; it
    was not dropped. -/
def MarkedAt (passes : List Pass) (n : GoString) (m : Int) : Prop :=
  ∃ before first kept gone, passes = before ++ first :: (kept ++ gone) ∧ first.now = m ∧
    first.ListsIdle n ∧ (∀ q ∈ kept, q.fetched ≠ none → q.ListsIdle n) ∧
    (∀ q ∈ gone, q.Omits n) ∧ NotDropped rules dryRun before (first :: (kept ++ gone)) n

variable (rules dryRun) in
/-- The invariant of a run: what the mark of a slot says, and that it is there when it has to be. -/
structure MarkInv (passes : List Pass) (n : GoString) : Prop where
  meaning : ∀ m, (cleanerAfter rules dryRun passes).inactiveSince n = some m →
    MarkedAt rules dryRun passes n m
  present : ∀ before first between, passes = before ++ first :: between → first.ListsIdle n →
    (∀ q ∈ between, ¬q.ListsBusy n) → NotDropped rules dryRun before (first :: between) n →
    ∃ m, (cleanerAfter rules dryRun passes).inactiveSince n = some m ∧ m ≤ first.now

/-- A new cleaner has no marks. -/
theorem MarkInv.init (n : GoString) : MarkInv rules dryRun [] n where
  meaning m h := absurd h (by simp [cleanerAfter, newSlotCleaner])
  present before first between heq := absurd heq (by simp)

/-- A slot that the last successful fetch listed has not disappeared. -/
theorem fetched_eq_none_of_gone {passes gone : List Pass} {n : GoString} {ds : List SlotCandidate}
    (hgone : ∀ q ∈ gone, q.Omits n)
    (hlast : ((passes ++ gone).filterMap Pass.fetched).getLast? = some ds)
    (hmem : n ∈ ds.map SlotCandidate.name) : ∀ q ∈ gone, q.fetched = none := by
  rw [filterMap_append, getLast?_append] at hlast
  cases hfound : (gone.filterMap Pass.fetched).getLast? with
  | none =>
    rw [getLast?_eq_none_iff, filterMap_eq_nil_iff] at hfound
    exact hfound
  | some ds' =>
    -- the last listing would be one without the slot
    rw [hfound, some_or, some.injEq] at hlast
    obtain ⟨q, hq, hfetched⟩ := mem_filterMap.mp (mem_of_getLast? hfound)
    exact absurd (hlast ▸ hmem) (hgone q hq ds' hfetched)

/-- A mark whose slot the last successful fetch listed: the slot has been listed all the time. -/
theorem MarkedAt.kept {passes : List Pass} {n : GoString} {m : Int}
    (h : MarkedAt rules dryRun passes n m) {ds : List SlotCandidate}
    (hlast : (passes.filterMap Pass.fetched).getLast? = some ds)
    (hmem : n ∈ ds.map SlotCandidate.name) :
    ∃ before first between, passes = before ++ first :: between ∧ first.now = m ∧
      first.ListsIdle n ∧ (∀ q ∈ between, q.fetched ≠ none → q.ListsIdle n) ∧
      NotDropped rules dryRun before (first :: between) n := by
  obtain ⟨before, first, kept, gone, rfl, hnow, hfirst, hkept, hgone, hdropped⟩ := h
  refine ⟨before, first, kept ++ gone, rfl, hnow, hfirst, ?_, hdropped⟩
  rw [← cons_append, ← append_assoc] at hlast
  have hnone := fetched_eq_none_of_gone hgone hlast hmem
  intro q hq hfetched
  rcases mem_append.mp hq with hq | hq
  · exact hkept q hq hfetched
  · exact absurd (hnone q hq) hfetched

section Step

variable {passes : List Pass} {p : Pass} {n : GoString} (hinv : MarkInv rules dryRun passes n)
  (hdistinct : p.Distinct)

include hinv hdistinct

/-- After one pass more a mark still says since when the slot has been listed. -/
theorem MarkInv.meaning_snoc
    (hreturn : p.ListsIdle n → (cleanerAfter rules dryRun passes).inactiveSince n ≠ none →
      ∃ ds, (passes.filterMap Pass.fetched).getLast? = some ds ∧
        n ∈ ds.map SlotCandidate.name) (m : Int)
    (hm : (cleanerAfter rules dryRun (passes ++ [p])).inactiveSince n = some m) :
    MarkedAt rules dryRun (passes ++ [p]) n m := by
  rcases p.listed_cases n with hidle | hbusy | homits
  · rcases mark_of_idle rules dryRun passes hdistinct hidle with ⟨-, hnone⟩ | ⟨hnot, hsome⟩
    · exact absurd (hnone.symm.trans hm) (by simp)
    · rw [hsome, some.injEq] at hm
      cases hold : (cleanerAfter rules dryRun passes).inactiveSince n with
      | none =>
        -- this pass sets the mark
        rw [hold, getD_none] at hm
        refine ⟨passes, p, [], [], rfl, hm, hidle, by simp, by simp, ?_⟩
        rw [append_nil, ← nil_append [p]]
        exact notDropped_snoc.mpr ⟨by simp [NotDropped], by simpa using hnot⟩
      | some m₀ =>
        -- the mark is an old one, and the slot was there all the time
        rw [hold, getD_some] at hm
        subst hm
        obtain ⟨ds, hlast, hmem⟩ := hreturn hidle (by simp [hold])
        obtain ⟨before, first, between, rfl, hnow, hfirst, hkept, hdropped⟩ :=
          (hinv.meaning m₀ hold).kept hlast hmem
        refine ⟨before, first, between ++ [p], [], by simp, hnow, hfirst, ?_, by simp, ?_⟩
        · intro q hq hfetched
          rcases mem_append.mp hq with hq | hq
          · exact hkept q hq hfetched
          · rw [mem_singleton.mp hq]
            exact hidle
        · rw [append_nil, ← cons_append]
          exact notDropped_snoc.mpr ⟨hdropped, hnot⟩
  · exact absurd ((mark_of_busy rules dryRun passes hdistinct hbusy).symm.trans hm) (by simp)
  · -- a slot that is gone keeps its mark
    obtain ⟨hsame, hnot⟩ := mark_of_omits rules dryRun passes hdistinct homits
    obtain ⟨before, first, kept, gone, rfl, hnow, hfirst, hkept, hgone, hdropped⟩ :=
      hinv.meaning m (hsame ▸ hm)
    refine ⟨before, first, kept, gone ++ [p], by simp, hnow, hfirst, hkept, ?_, ?_⟩
    · intro q hq
      rcases mem_append.mp hq with hq | hq
      · exact hgone q hq
      · rw [mem_singleton.mp hq]
        exact homits
    · rw [← append_assoc, ← cons_append]
      exact notDropped_snoc.mpr ⟨hdropped, hnot⟩

/-- And it is still there for a slot that was idle all the time. -/
theorem MarkInv.present_snoc (hclock : ∀ q ∈ passes, q.now ≤ p.now) (before : List Pass)
    (first : Pass) (between : List Pass) (heq : passes ++ [p] = before ++ first :: between)
    (hfirst : first.ListsIdle n) (hbusy : ∀ q ∈ between, ¬q.ListsBusy n)
    (hdropped : NotDropped rules dryRun before (first :: between) n) :
    ∃ m, (cleanerAfter rules dryRun (passes ++ [p])).inactiveSince n = some m ∧
      m ≤ first.now := by
  rcases concat_eq_append_cons heq with ⟨rfl, rfl, rfl⟩ | ⟨between', hpasses, rfl⟩
  · -- the pass itself is the first listing
    have hnot : ¬Dropped rules dryRun passes p n := by
      have := hdropped [] p [] rfl
      rwa [append_nil] at this
    rcases mark_of_idle rules dryRun passes hdistinct hfirst with ⟨hd, -⟩ | ⟨-, hsome⟩
    · exact absurd hd hnot
    · refine ⟨_, hsome, ?_⟩
      cases hold : (cleanerAfter rules dryRun passes).inactiveSince n with
      | none => exact Int.le_refl _
      | some m₀ =>
        obtain ⟨b, f, k, g, hpasses, hnow, -⟩ := hinv.meaning m₀ hold
        rw [getD_some, ← hnow]
        apply hclock
        rw [hpasses]
        simp
  · -- the mark was there before, and this pass keeps it
    rw [← cons_append, notDropped_snoc] at hdropped
    obtain ⟨m, hm, hle⟩ := hinv.present before first between' hpasses hfirst
      (fun q hq => hbusy q (by simp [hq])) hdropped.1
    rw [← hpasses] at hdropped
    refine ⟨m, ?_, hle⟩
    rcases p.listed_cases n with hidle | hb | homits
    · rcases mark_of_idle rules dryRun passes hdistinct hidle with ⟨hd, -⟩ | ⟨-, hsome⟩
      · exact absurd hd hdropped.2
      · rw [hsome, hm, getD_some]
    · exact absurd hb (hbusy p (by simp))
    · rw [(mark_of_omits rules dryRun passes hdistinct homits).1, hm]

end Step

/-- The invariant along a run. -/
theorem MarkInv.of_run {passes : List Pass} (hdistinct : ∀ p ∈ passes, p.Distinct)
    (hclock : passes.Pairwise fun p q => p.now ≤ q.now)
    (hreturn : NoReturn rules dryRun passes) (n : GoString) : MarkInv rules dryRun passes n := by
  induction passes using List.reverseRecOn with
  | nil => exact MarkInv.init n
  | append_singleton passes p ih =>
    rw [pairwise_append] at hclock
    have hinv := ih (fun q hq => hdistinct q (mem_append_left _ hq)) hclock.1
      (fun earlier q later heq => hreturn earlier q (later ++ [p]) (by simp [heq]))
    have hp := hdistinct p (by simp)
    constructor
    · exact hinv.meaning_snoc hp (hreturn passes p [] rfl n)
    · exact hinv.present_snoc hp fun q hq => hclock.2.2 q hq p (by simp)

/-- For a slot without a row, the mark is old enough exactly when the slot has been idle for that
    long. -/
theorem MarkInv.stale_iff {passes : List Pass} {p : Pass} {d : SlotCandidate}
    (hinv : MarkInv rules dryRun passes d.name) (hstale : 0 < rules.staleAfter.val)
    (hdistinct : ∀ q ∈ passes, q.Distinct)
    (hlast : (cleanerAfter rules dryRun passes).inactiveSince d.name ≠ none →
      ∃ es, (passes.filterMap Pass.fetched).getLast? = some es ∧
        d.name ∈ es.map SlotCandidate.name)
    (hactive : d.active = false) (howner : d.owner = none) :
    rules.staleAfter.val ≤ p.now - (cleanerAfter rules dryRun passes).firstSeen p.now d ↔
      IdleSince rules dryRun passes p d.name := by
  rw [SlotCleaner.firstSeen_of_idle _ _ hactive howner]
  constructor
  · intro hle
    cases hold : (cleanerAfter rules dryRun passes).inactiveSince d.name with
    | none =>
      -- marked by this pass, the slot is not stale yet
      rw [hold, getD_none] at hle
      omega
    | some m =>
      rw [hold, getD_some] at hle
      obtain ⟨es, hlast, hmem⟩ := hlast (by simp [hold])
      obtain ⟨before, first, between, heq, hnow, hfirst, hkept, hdropped⟩ :=
        (hinv.meaning m hold).kept hlast hmem
      exact ⟨before, first, between, heq, hnow ▸ hle, hfirst, hkept, hdropped⟩
  · rintro ⟨before, first, between, heq, hle, hfirst, hkept, hdropped⟩
    have hbusy : ∀ q ∈ between, ¬q.ListsBusy d.name := by
      intro q hq hb
      have hfetched : q.fetched ≠ none := by
        obtain ⟨es, -, hes, -⟩ := hb
        simp [hes]
      exact (hdistinct q (by simp [heq, hq])).not_busy (hkept q hq hfetched) hb
    obtain ⟨m, hm, hmle⟩ := hinv.present before first between heq hfirst hbusy hdropped
    rw [hm, getD_some]
    omega

/-! ### Main result -/

/-- **Main theorem**: in a run whose listings have distinct names, whose clock does not go back and
    in which no slot comes back under an old mark, every pass calls `drop` on exactly the
    orphans among its candidates. -/
theorem drops_orphans {passes : List Pass} (hstale : 0 < rules.staleAfter.val)
    (hdistinct : ∀ p ∈ passes, p.Distinct) (hclock : passes.Pairwise fun p q => p.now ≤ q.now)
    (hreturn : NoReturn rules dryRun passes) {earlier later : List Pass} {p : Pass}
    (hpasses : passes = earlier ++ p :: later) {ds : List SlotCandidate}
    (hfetched : p.fetched = some ds) {d : SlotCandidate} (hd : d ∈ ds) :
    d.name ∈ callsOf rules dryRun earlier p ↔ Orphan rules dryRun earlier p d := by
  have hearlier : ∀ q ∈ earlier, q.Distinct :=
    fun q hq => hdistinct q (hpasses ▸ mem_append_left _ hq)
  have hinv : MarkInv rules dryRun earlier d.name := by
    apply MarkInv.of_run hearlier
    · exact (pairwise_append.mp (hpasses ▸ hclock)).1
    · exact fun e q l heq => hreturn e q (l ++ p :: later) (by simp [hpasses, heq])
  obtain ⟨hrules, hdry⟩ := cleanerAfter_rules rules dryRun earlier hearlier
  obtain ⟨-, -, hlisted, -⟩ := cleanupOnce_spec (cleanerAfter rules dryRun earlier)
    (hdistinct p (by simp [hpasses]))
  have hcalls := (hlisted ds hfetched d hd).2
  unfold callsOf
  rw [hcalls, SlotCleaner.drops, hrules, hdry, Bool.and_eq_true,
    OrphanRules.decide_drop_iff _ _ _ _ hstale]
  unfold Orphan
  -- rules and specification differ in how they tell the age of a slot without a row
  have hmark : d.active = false → d.owner = none →
      (rules.staleAfter.val ≤ p.now - (cleanerAfter rules dryRun earlier).firstSeen p.now d ↔
        IdleSince rules dryRun earlier p d.name) :=
    fun hactive howner => hinv.stale_iff hstale hearlier
      (hreturn earlier p later hpasses d.name ⟨ds, d, hfetched, hd, rfl, hactive, howner⟩)
      hactive howner
  have hrow : d.active = false →
      (((∃ owner, d.owner = some owner ∧ owner.releasedAt ≠ none) ∨
        (∃ owner, d.owner = some owner ∧ rules.staleAfter.val ≤ p.now - owner.heartbeatAt) ∨
        (d.owner = none ∧ rules.staleAfter.val ≤
          p.now - (cleanerAfter rules dryRun earlier).firstSeen p.now d)) ↔
      ((∃ owner, d.owner = some owner ∧ owner.releasedAt ≠ none) ∨
        (∃ owner, d.owner = some owner ∧ rules.staleAfter.val ≤ p.now - owner.heartbeatAt) ∨
        (d.owner = none ∧ IdleSince rules dryRun earlier p d.name))) := by
    intro hactive
    exact or_congr_right (or_congr_right (and_congr_right (hmark hactive)))
  constructor
  · rintro ⟨hdryRun, hown, hpattern, hactive, hwal, hcase⟩
    exact ⟨by simpa using hdryRun, hown, hpattern, hactive, hwal, (hrow hactive).mp hcase⟩
  · rintro ⟨hdryRun, hown, hpattern, hactive, hwal, hcase⟩
    exact ⟨by simpa using hdryRun, hown, hpattern, hactive, hwal, (hrow hactive).mpr hcase⟩

end Runs

/-! ### A slot without a registry row -/

/-- An inactive slot that no watcher has registered. -/
def legacySlot : SlotCandidate := ⟨ascii "cdc_legacy", false, 0, none⟩

/-- Rules for which only the age of the mark matters. -/
def thirtyRules : OrphanRules := ⟨ascii "cdc_mine", fun _ => true, ⟨30, by decide⟩, 0⟩

/-- A pass that lists the given slots and in which every drop succeeds. -/
def listing (now : Int) (ds : List SlotCandidate) : Pass := ⟨now, some ds, fun _ => false⟩

/-- Listed all the time, it is dropped once it is stale. -/
theorem drops_orphans_legacy :
    legacySlot.name ∈ callsOf thirtyRules false [listing 0 [legacySlot]] (listing 31 [legacySlot]) ∧
      Orphan thirtyRules false [listing 0 [legacySlot]] (listing 31 [legacySlot]) legacySlot := by
  have hcalled : legacySlot.name ∈
      callsOf thirtyRules false [listing 0 [legacySlot]] (listing 31 [legacySlot]) := by decide
  have hdistinct : ∀ p ∈ [listing 0 [legacySlot], listing 31 [legacySlot]], p.Distinct := by
    intro p hp ds hds
    simp only [mem_cons, not_mem_nil, or_false] at hp
    rcases hp with rfl | rfl <;> obtain rfl := some.inj hds <;> simp
  have hclock : [listing 0 [legacySlot], listing 31 [legacySlot]].Pairwise
      fun p q => p.now ≤ q.now := by
    simp [listing]
  -- the slot is in both listings and never comes back
  have hreturn : NoReturn thirtyRules false [listing 0 [legacySlot], listing 31 [legacySlot]] := by
    intro earlier p later heq n hidle hmark
    cases earlier with
    | nil => exact absurd rfl hmark
    | cons q earlier =>
      rw [cons_append, List.cons.injEq] at heq
      obtain ⟨rfl, heq⟩ := heq
      cases earlier with
      | nil =>
        rw [nil_append, List.cons.injEq] at heq
        obtain ⟨rfl, -⟩ := heq
        obtain ⟨ds, d, hds, hd, rfl, -⟩ := hidle
        obtain rfl := some.inj hds
        exact ⟨[legacySlot], rfl, mem_map_of_mem hd⟩
      | cons r earlier =>
        rw [cons_append, List.cons.injEq] at heq
        exact absurd heq.2 (by simp)
  exact ⟨hcalled, (drops_orphans (by decide) hdistinct hclock hreturn
    (show _ = [listing 0 [legacySlot]] ++ listing 31 [legacySlot] :: [] from rfl) rfl
    (mem_singleton_self legacySlot)).mp hcalled⟩

/-- Gone at 10 and created again, it is dropped at 31, when it was first seen. -/
theorem recreated_slot_dropped :
    legacySlot.name ∈ callsOf thirtyRules false [listing 0 [legacySlot], listing 10 []]
        (listing 31 [legacySlot]) ∧
      ¬Orphan thirtyRules false [listing 0 [legacySlot], listing 10 []]
        (listing 31 [legacySlot]) legacySlot := by
  refine ⟨by decide, ?_⟩
  rintro ⟨-, -, -, -, -, hcase⟩
  rcases hcase with ⟨owner, howner, -⟩ | ⟨owner, howner, -⟩ | ⟨-, hsince⟩
  · exact absurd howner (by simp [legacySlot])
  · exact absurd howner (by simp [legacySlot])
  · obtain ⟨before, first, between, heq, -, hfirst, hkept, -⟩ := hsince
    -- the empty listing at 10 cannot be the first and cannot come after it
    have hempty : ¬(listing 10 []).ListsIdle legacySlot.name := by
      rintro ⟨ds, d, hds, hd, -⟩
      obtain rfl := some.inj hds
      exact absurd hd (not_mem_nil)
    have hmem : listing 10 [] ∈ first :: between := by
      cases before with
      | nil =>
        rw [nil_append, List.cons.injEq] at heq
        simp [← heq.2]
      | cons q before =>
        rw [cons_append, List.cons.injEq] at heq
        cases before with
        | nil =>
          rw [← show [listing 10 []] = first :: between from heq.2]
          exact mem_singleton_self _
        | cons r before => exact absurd heq.2 (by simp)
    rcases mem_cons.mp hmem with rfl | hmem
    · exact hempty hfirst
    · exact hempty (hkept _ hmem (by simp [listing]))

end Postgres
