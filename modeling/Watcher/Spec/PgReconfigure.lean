import Watcher.Spec.PgSourceId

/-!
# Source ids across a change of configuration

The id of a change is its place among the *published* changes of its
transaction, so two configurations that publish different changes may give one
id to two of them. `Compatible` says exactly when they do not: up to the first
message of which they publish different relations they agree, and from there on
one of them publishes no more than the other publishes first.

## Key results

- `agree_publishOrder_iff`: when two publication orders never clash
- `streams_all`: every configuration can stream the whole transaction
- `same_id_same_change_iff`: when two runs never give one id to two changes
-/

namespace Postgres

open Cdc Run List

/-! ## Publication orders -/

/-- Where both lists have an element, it is the same one. -/
def Agree {α : Type _} (l l' : List α) : Prop :=
  ∀ (n : Nat) (x y : α), l[n]? = some x → l'[n]? = some y → x = y

/-- From message `c` on, `cfg` publishes no more than the first thing `cfg'` publishes. Of a
    TRUNCATE that is the second relation, since the first one is published last. -/
def Yields (cfg cfg' : Config) (c : ChangeMessage) (cs : List ChangeMessage) : Prop :=
  (∀ d ∈ cs, cfg.selected d = []) ∧
    (cfg.selected c = [] ∨ ∃ i j rest, cfg'.selected c = i :: j :: rest ∧ cfg.selected c = [j])

/-- The first message of which the configurations publish different relations, if there is one,
    is where one of them stops. -/
def Compatible (cfg cfg' : Config) : List ChangeMessage → Prop
  | [] => True
  | c :: cs =>
    if cfg.selected c = cfg'.selected c then Compatible cfg cfg' cs
    else Yields cfg cfg' c cs ∨ Yields cfg' cfg c cs

namespace Agree

variable {α : Type _} {l l' : List α}

theorem symm (h : Agree l l') : Agree l' l := fun n x y hx hy => (h n y x hy hx).symm

/-- A common beginning does not matter. -/
theorem append_iff (k : List α) : Agree (k ++ l) (k ++ l') ↔ Agree l l' := by
  constructor
  · intro h n x y hx hy
    refine h (k.length + n) x y ?_ ?_
    · rw [getElem?_append_right (Nat.le_add_right _ _), Nat.add_sub_cancel_left, hx]
    · rw [getElem?_append_right (Nat.le_add_right _ _), Nat.add_sub_cancel_left, hy]
  · intro h n x y hx hy
    rw [getElem?_append] at hx hy
    split at hx
    · next hlt =>
      rw [if_pos hlt, hx, Option.some.injEq] at hy
      exact hy
    · next hge =>
      rw [if_neg hge] at hy
      exact h _ x y hx hy

end Agree

section Orders

variable {cfg cfg' : Config}

theorem publishOrder_eq_nil {i : Nat} {cs : List ChangeMessage} :
    cfg.publishOrder i cs = [] ↔ ∀ c ∈ cs, cfg.selected c = [] := by
  induction cs generalizing i with
  | nil => simp [Config.publishOrder]
  | cons c cs ih =>
    simp only [Config.publishOrder, append_eq_nil_iff, map_eq_nil_iff, ih, forall_mem_cons]
    refine and_congr_left fun _ => ?_
    rw [Config.emitted]
    cases cfg.selected c <;> simp

/-- The order in which a message's relations are published determines which they are. -/
theorem selected_of_emitted {c : ChangeMessage} (h : cfg.emitted c = cfg'.emitted c) :
    cfg.selected c = cfg'.selected c := by
  rw [Config.emitted, Config.emitted] at h
  cases hs : cfg.selected c with
  | nil =>
    rw [hs] at h
    cases hs' : cfg'.selected c with
    | nil => rfl
    | cons j js => rw [hs'] at h; simp at h
  | cons i is =>
    rw [hs] at h
    cases hs' : cfg'.selected c with
    | nil => rw [hs'] at h; simp at h
    | cons j js =>
      rw [hs'] at h
      obtain ⟨htail, hhead⟩ := append_inj' h rfl
      simp only [tail_cons] at htail
      simp only [head?_cons, Option.toList_some, singleton_inj] at hhead
      rw [htail, hhead]

/-- The order begins with the relations of the first message. -/
private theorem publishOrder_first (cfg : Config) (i : Nat) (c : ChangeMessage)
    (cs : List ChangeMessage) {q : Nat} (hq : q < (cfg.emitted c).length) :
    (cfg.publishOrder i (c :: cs))[q]? = some (i, (cfg.emitted c)[q]) := by
  rw [Config.publishOrder, getElem?_append_left (by rwa [length_map]),
    getElem?_map, getElem?_eq_getElem hq]
  rfl

/-- A list that starts with its smallest element is, once that is moved to the end, the beginning
    of another such list only if it has one element. -/
private theorem singleton_of_take {x y : Nat} {as bs : List Nat} (has : (x :: as).Pairwise (· < ·))
    (hbs : (y :: bs).Pairwise (· < ·)) (hlen : as.length < bs.length)
    (h : as ++ [x] = (bs ++ [y]).take (as.length + 1)) : as = [] ∧ ∃ rest, bs = x :: rest := by
  rw [take_append_of_le_length hlen] at h
  have hinc : (as ++ [x]).Pairwise (· < ·) := by
    rw [h]
    exact (pairwise_cons.mp hbs).2.take
  cases as with
  | nil =>
    cases bs with
    | nil => exact absurd hlen (Nat.not_lt_zero _)
    | cons b rest =>
      simp only [nil_append, length_nil, take_succ_cons, take_zero, List.cons.injEq, and_true] at h
      exact ⟨rfl, rest, by rw [h]⟩
  | cons a as =>
    -- `a` would have to be both larger and smaller than `x`
    have hlt := (pairwise_cons.mp has).1 a mem_cons_self
    have hgt := (pairwise_append.mp hinc).2.2 a mem_cons_self x mem_cons_self
    omega

/-- The configuration whose order is shorter on the first message that tells them apart stops
    there. -/
private theorem yields_of_agree {c : ChangeMessage} {cs : List ChangeMessage} {i : Nat}
    (h : Agree (cfg.publishOrder i (c :: cs)) (cfg'.publishOrder i (c :: cs)))
    (hlen : (cfg.emitted c).length < (cfg'.emitted c).length) : Yields cfg cfg' c cs := by
  have hshort : ∀ q, q < (cfg.emitted c).length → (cfg.emitted c)[q]? = (cfg'.emitted c)[q]? := by
    intro q hq
    have hq' : q < (cfg'.emitted c).length := Nat.lt_trans hq hlen
    have hclash := h q _ _ (publishOrder_first cfg i c cs hq) (publishOrder_first cfg' i c cs hq')
    rw [getElem?_eq_getElem hq, getElem?_eq_getElem hq', (Prod.mk.inj hclash).2]
  have htake : cfg.emitted c = (cfg'.emitted c).take (cfg.emitted c).length := by
    refine ext_getElem? fun q => ?_
    rw [getElem?_take]
    split
    · next hq => exact hshort q hq
    · next hq => exact getElem?_eq_none (Nat.le_of_not_lt hq)
  constructor
  · -- a later change of `cfg` would clash with the rest of this message under `cfg'`
    refine (publishOrder_eq_nil (i := i + 1)).mp ?_
    cases hrest : cfg.publishOrder (i + 1) cs with
    | nil => rfl
    | cons z zs =>
      have hx : (cfg.publishOrder i (c :: cs))[(cfg.emitted c).length]? = some z := by
        rw [Config.publishOrder, getElem?_append_right (by rw [length_map]), hrest,
          length_map, Nat.sub_self]
        rfl
      have hge := cfg.le_of_mem_publishOrder (hrest ▸ mem_cons_self)
      rw [h _ _ _ hx (publishOrder_first cfg' i c cs hlen)] at hge
      exact absurd hge (Nat.not_succ_le_self i)
  · have hinc := cfg.selected_increasing c
    have hinc' := cfg'.selected_increasing c
    rw [Config.emitted, Config.emitted] at htake hlen
    cases hs : cfg.selected c with
    | nil => exact Or.inl rfl
    | cons x as =>
      -- the first relation comes last, so a beginning that agrees is a single relation
      cases hs' : cfg'.selected c with
      | nil => rw [hs, hs'] at hlen; simp at hlen
      | cons y bs =>
        rw [hs, hs'] at htake hlen
        rw [hs] at hinc
        rw [hs'] at hinc'
        simp only [tail_cons, head?_cons, Option.toList_some, length_append,
          length_singleton] at htake hlen
        obtain ⟨rfl, rest, rfl⟩ := singleton_of_take hinc hinc' (by omega) htake
        exact Or.inr ⟨y, x, rest, rfl, rfl⟩

private theorem agree_of_yields {c : ChangeMessage} {cs : List ChangeMessage} (i : Nat)
    (h : Yields cfg cfg' c cs) :
    Agree (cfg.publishOrder i (c :: cs)) (cfg'.publishOrder i (c :: cs)) := by
  obtain ⟨hrest, hfirst⟩ := h
  have hnil : cfg.publishOrder (i + 1) cs = [] := publishOrder_eq_nil.mpr hrest
  -- `cfg` publishes at most one change, so there is at most one place to compare
  intro n x y hx hy
  rw [Config.publishOrder, hnil, append_nil, Config.emitted] at hx
  rcases hfirst with hempty | ⟨a, b, rest, hs', hs⟩
  · rw [hempty] at hx
    cases hx
  · rw [hs] at hx
    rw [Config.publishOrder, Config.emitted, hs'] at hy
    cases n with
    | zero =>
      simp only [tail_cons, head?_cons, Option.toList_some, nil_append,
        map_cons, getElem?_cons_zero, cons_append, Option.some.injEq] at hx hy
      rw [← hx, ← hy]
    | succ n => simp at hx

/-- Two configurations never publish different changes in one place exactly when they are
    compatible. -/
theorem agree_publishOrder_iff (i : Nat) (cs : List ChangeMessage) :
    Agree (cfg.publishOrder i cs) (cfg'.publishOrder i cs) ↔ Compatible cfg cfg' cs := by
  induction cs generalizing i with
  | nil => exact ⟨fun _ => trivial, fun _ n x y hx => nomatch hx⟩
  | cons c cs ih =>
    by_cases hsame : cfg.selected c = cfg'.selected c
    · have hemitted : cfg.emitted c = cfg'.emitted c := by
        rw [Config.emitted, Config.emitted, hsame]
      rw [Compatible, if_pos hsame, Config.publishOrder, Config.publishOrder, hemitted,
        Agree.append_iff, ih]
    · rw [Compatible, if_neg hsame]
      constructor
      · intro h
        rcases Nat.lt_trichotomy (cfg.emitted c).length (cfg'.emitted c).length with hlt | heq | hgt
        · exact Or.inl (yields_of_agree h hlt)
        · -- equally long beginnings that agree are equal
          refine absurd (selected_of_emitted (ext_getElem heq fun q hq hq' => ?_)) hsame
          exact (Prod.mk.inj (h q _ _ (publishOrder_first cfg i c cs hq)
            (publishOrder_first cfg' i c cs hq'))).2
        · exact Or.inr (yields_of_agree h.symm hgt)
      · exact fun h => h.elim (agree_of_yields i) fun h' => (agree_of_yields i h').symm

end Orders

/-! ## Whole transactions -/

namespace Stream

variable {cfg : Config} {t : StreamTxn} {s : Stream}

/-- The walsender can describe any relations at any time. -/
private theorem describe (h : Inv cfg [t] s) (c : ChangeMessage) (ids : List UInt32)
    (hids : ∀ id ∈ ids, id ∈ c.message.named) :
    ∃ actions s', runSteps (step cfg [t]) s actions = some s' ∧ Inv cfg [t] s' ∧
      s'.next = s.next ∧ s'.inside = s.inside ∧ s'.assigned = s.assigned ∧
      ∀ id, id ∈ ids ∨ s.session id = c.catalog id → s'.session id = c.catalog id := by
  induction ids generalizing s with
  | nil => exact ⟨[], s, rfl, h, rfl, rfl, rfl, fun id hid => hid.resolve_left not_mem_nil⟩
  | cons id ids ih =>
    obtain ⟨rel, hrel, hid⟩ := c.known id (hids id mem_cons_self)
    obtain ⟨s₁, hstep⟩ : ∃ s₁, step cfg [t] s (.relation rel []) = some s₁ := ⟨_, rfl⟩
    have hinv := h.step hstep
    simp only [step, Option.some.injEq] at hstep
    obtain ⟨actions, s', hrun, hinv', hnext, hinside, hassigned, hsession⟩ :=
      ih hinv fun id' h' => hids id' (mem_cons_of_mem id h')
    refine ⟨.relation rel [] :: actions, s', ?_, hinv', ?_, ?_, ?_, fun id' hid' => ?_⟩
    · simp only [runSteps_cons, step, Option.bind_some, hstep]
      exact hrun
    · rw [hnext, ← hstep]
    · rw [hinside, ← hstep]
    · rw [hassigned, ← hstep]
    · apply hsession
      -- the description just sent, or one that was there
      by_cases hsame : id' = id
      · right
        rw [← hstep, hsame, hrel]
        simp [Catalog.learn, hid]
      · rcases hid' with hmem | hknown
        · exact Or.inl ((mem_cons.mp hmem).resolve_left hsame)
        · right
          rw [← hstep, ← hknown]
          simp [Catalog.learn, hid, hsame]

/-- The changes of the first `k` messages have been given their ids. -/
private def Published (cfg : Config) (t : StreamTxn) (k : Nat) (s : Stream) : Prop :=
  ∀ n m r, (cfg.publishOrder 0 t.changes)[n]? = some (m, r) → m < k →
    ∃ e, (⟨0, m, r⟩, e, Listener.sourceID t.finalLSN n) ∈ s.assigned

/-- A change in the publication order is one of those its message publishes. -/
private theorem emitted_of_publishOrder {cs : List ChangeMessage} {i n m r : Nat}
    (h : (cfg.publishOrder i cs)[n]? = some (m, r)) :
    ∃ c, cs[m - i]? = some c ∧ r ∈ cfg.emitted c ∧ i ≤ m := by
  have hmem : (m, r) ∈ cfg.publishOrder i cs := mem_of_getElem? h
  clear h
  induction cs generalizing i with
  | nil => exact nomatch hmem
  | cons c cs ih =>
    rw [Config.publishOrder, mem_append] at hmem
    rcases hmem with hmem | hmem
    · obtain ⟨r', hr', heq⟩ := mem_map.mp hmem
      cases heq
      exact ⟨c, by rw [Nat.sub_self]; rfl, hr', Nat.le_refl _⟩
    · obtain ⟨c', hc', hr, hle⟩ := ih hmem
      refine ⟨c', ?_, hr, by omega⟩
      rw [show m - i = (m - (i + 1)) + 1 by omega, getElem?_cons_succ]
      exact hc'

/-- The next message can be streamed. -/
private theorem stream_change (h : Inv cfg [t] s) (hnext : s.next = 0) {k : Nat}
    (hinside : s.inside = some k) (hpub : Published cfg t k s) {c : ChangeMessage}
    (hc : t.changes[k]? = some c) :
    ∃ actions s', runSteps (step cfg [t]) s actions = some s' ∧ Inv cfg [t] s' ∧ s'.next = 0 ∧
      s'.inside = some (k + 1) ∧ Published cfg t (k + 1) s' := by
  -- first the relations it names, then the message itself
  obtain ⟨actions, s₁, hrun, hinv, hnext₁, hinside₁, hassigned, hsession⟩ :=
    describe h c c.message.named fun _ h => h
  have hdesc : s₁.described c = true := by
    simp only [described, all_eq_true, decide_eq_true_eq]
    exact fun id hid => hsession id (Or.inl hid)
  have ht : [t][s₁.next]? = some t := by rw [hnext₁, hnext]; rfl
  obtain ⟨s', hstep⟩ : ∃ s', s' = { s₁ with
      listener := receive s₁.listener c.message []
      inside := some (k + 1)
      assigned := s₁.assigned ++ s₁.record cfg k c [] } := ⟨_, rfl⟩
  have hstep' : step cfg [t] s₁ (.change []) = some s' := by
    simp only [step, ht, hinside₁, hinside, hc, hdesc, ↓reduceIte, hstep]
  refine ⟨actions ++ [.change []], s', ?_, hinv.step hstep', ?_, by rw [hstep], ?_⟩
  · rw [runSteps_append, hrun, Option.bind_some, runSteps_cons, hstep', Option.bind_some,
      runSteps_nil]
  · rw [hstep]
    exact hnext₁.trans hnext
  · intro n m r hn hlt
    rw [hstep]
    dsimp only
    by_cases hm : m < k
    · obtain ⟨e, he⟩ := hpub n m r hn hm
      exact ⟨e, mem_append_left _ (hassigned ▸ he)⟩
    · -- the change belongs to this message: its place is found in the record
      have hmk : m = k := by omega
      subst hmk
      obtain ⟨c', hc', hr, -⟩ := emitted_of_publishOrder hn
      rw [Nat.sub_zero, hc, Option.some.injEq] at hc'
      subst hc'
      obtain ⟨-, -, es, hlabels, -, hrecord⟩ := receive_change hinv.agrees c hdesc m []
      obtain ⟨hfinal, hindex⟩ := hinv.position t m ht (hinside₁.trans hinside)
      obtain ⟨q, hq⟩ := mem_iff_getElem?.mp hr
      have hplace := cfg.publishOrder_getElem? hc hq
      -- no change occurs twice in the order, so this is where it stands
      have hn' : n = (cfg.publishOrder 0 (t.changes.take m)).length + q :=
        (List.getElem?_inj (List.getElem?_eq_some_iff.mp hn).1
          (cfg.publishOrder_nodup 0 t.changes)).mp (hn.trans hplace.symm)
      rw [← hlabels, getElem?_map, Option.map_eq_some_iff] at hq
      obtain ⟨⟨r', e⟩, hes, rfl⟩ := hq
      refine ⟨e, mem_append_right _ ?_⟩
      rw [hrecord, hnext₁, hnext, hfinal, hindex, hn']
      exact mem_map.mpr ⟨((r', e), q), mem_zipIdx_iff_getElem?.mpr hes, rfl⟩

/-- Under every configuration some run streams the whole transaction, and then every change that
    is published has the id of its place. -/
theorem streams_all (cfg : Config) (t : StreamTxn) :
    ∃ actions s, runSteps (step cfg [t]) (start cfg) actions = some s ∧
      ∀ n m r, (cfg.publishOrder 0 t.changes)[n]? = some (m, r) →
        ∃ e, (⟨0, m, r⟩, e, Listener.sourceID t.finalLSN n) ∈ s.assigned := by
  -- one message after the other, for as long as there are any
  have hprefix : ∀ k ≤ t.changes.length, ∃ actions s,
      runSteps (step cfg [t]) (start cfg) actions = some s ∧ Inv cfg [t] s ∧ s.next = 0 ∧
        s.inside = some k ∧ Published cfg t k s := by
    intro k
    induction k with
    | zero =>
      intro _
      obtain ⟨s, hs⟩ : ∃ s, step cfg [t] (start cfg) (.begin []) = some s := ⟨_, rfl⟩
      have hinv := (Inv.start cfg [t]).step hs
      simp only [step, start, getElem?_cons_zero, Option.some.injEq] at hs
      refine ⟨[.begin []], s, by rw [← hs]; rfl, hinv, by rw [← hs], by rw [← hs],
        fun n m r _ hlt => absurd hlt (Nat.not_lt_zero m)⟩
    | succ k ih =>
      intro hk
      obtain ⟨actions, s, hrun, hinv, hnext, hinside, hpub⟩ := ih (Nat.le_of_succ_le hk)
      obtain ⟨actions', s', hrun', hinv', hnext', hinside', hpub'⟩ :=
        stream_change hinv hnext hinside hpub (getElem?_eq_getElem hk)
      refine ⟨actions ++ actions', s', ?_, hinv', hnext', hinside', hpub'⟩
      rw [runSteps_append, hrun, Option.bind_some, hrun']
  obtain ⟨actions, s, hrun, -, -, -, hpub⟩ := hprefix t.changes.length (Nat.le_refl _)
  refine ⟨actions, s, hrun, fun n m r hn => hpub n m r hn ?_⟩
  obtain ⟨c, hc, -, -⟩ := emitted_of_publishOrder hn
  exact (List.getElem?_eq_some_iff.mp hc).1

/-- Two configurations, in any two runs that stream one transaction, never give one id to two
    different changes, exactly when they are compatible on it. -/
theorem same_id_same_change_iff (cfg cfg' : Config) (t : StreamTxn) :
    (∀ actions actions' s s', runSteps (step cfg [t]) (start cfg) actions = some s →
      runSteps (step cfg' [t]) (start cfg') actions' = some s' →
      ∀ r ∈ s.assigned, ∀ r' ∈ s'.assigned, r.2.2 = r'.2.2 → r.1 = r'.1) ↔
    Compatible cfg cfg' t.changes := by
  rw [← agree_publishOrder_iff 0]
  constructor
  · -- stream all of it under both configurations
    intro h n x y hx hy
    obtain ⟨actions, s, hrun, hall⟩ := streams_all cfg t
    obtain ⟨actions', s', hrun', hall'⟩ := streams_all cfg' t
    obtain ⟨e, he⟩ := hall n x.1 x.2 hx
    obtain ⟨e', he'⟩ := hall' n y.1 y.2 hy
    have hsame := h actions actions' s s' hrun hrun' _ he _ he' rfl
    simp only [ChangeName.mk.injEq, true_and] at hsame
    exact Prod.ext hsame.1 hsame.2
  · intro h actions actions' s s' hrun hrun' r hr r' hr' hid
    have hinv : Inv cfg [t] s :=
      runSteps_invariant (fun h hstep => h.step hstep) (Inv.start cfg [t]) hrun
    have hinv' : Inv cfg' [t] s' :=
      runSteps_invariant (fun h hstep => h.step hstep) (Inv.start cfg' [t]) hrun'
    obtain ⟨u, n, hu, hn, hplace⟩ := (hinv.assigned r hr).2
    obtain ⟨u', n', hu', hn', hplace'⟩ := (hinv'.assigned r' hr').2
    -- both ids are of this transaction, so they are the same place in it
    have honly : ∀ {i : Nat} {v : StreamTxn}, [t][i]? = some v → i = 0 ∧ v = t := by
      intro i v hv
      cases i with
      | zero => exact ⟨rfl, (Option.some.inj hv).symm⟩
      | succ i => exact nomatch hv
    obtain ⟨hzero, rfl⟩ := honly hu
    obtain ⟨hzero', rfl⟩ := honly hu'
    rw [hplace, hplace'] at hid
    have hname : SourceName.pg u'.finalLSN n = .pg u'.finalLSN n' := SourceName.sourceID_inj hid
    obtain ⟨-, rfl⟩ := SourceName.pg.inj hname
    obtain ⟨hm, hr⟩ := Prod.mk.inj (h n _ _ hn hn')
    obtain ⟨⟨txn, message, relation⟩, _⟩ := r
    obtain ⟨⟨txn', message', relation'⟩, _⟩ := r'
    dsimp only at hzero hzero' hm hr
    rw [hzero, hzero', hm, hr]

/-- A second table, of one text column. -/
def secondTable : RelationDesc where
  id := 8
  nameSpace := ascii "public"
  name := ascii "u"
  replicaIdentity := 0x64
  columns := [⟨1, ascii "k", 25, 0⟩]
  nameSpace_nul := RelationDesc.sample.nameSpace_nul
  name_nul := by decide
  columns_nul := by decide
  columns_lt := by decide
  columns_nodup := by decide

private theorem epoch_lt : 0 < 2 ^ 63 := by decide

private theorem five_fits : (ascii "5").length < 2 ^ 32 := by decide

private theorem sample_named : ∀ id ∈ ([7] : List UInt32),
    ∃ rel, (if id = 7 then some RelationDesc.sample else none) = some rel ∧ rel.id = id := by
  simp [RelationDesc.sample]

/-- A transaction that inserts a row into the second table and one into the first. -/
def twoTables : StreamTxn where
  finalLSN := 10
  time := ⟨0, epoch_lt⟩
  xid := 1
  endLSN := 20
  changes :=
    [⟨.insert 8 [.text (ascii "1") (by decide)],
        fun id => if id = 8 then some secondTable else none, rfl,
        by simp [Message.named, secondTable], by simp [Message.FitsCatalog, secondTable]⟩,
      ⟨.insert 7 [.text (ascii "5") five_fits, .null],
        fun id => if id = 7 then some RelationDesc.sample else none, rfl, sample_named,
        by simp [Message.FitsCatalog, RelationDesc.sample]⟩]

/-- A session that streams it whole. -/
def twoInserts : List Action :=
  [.begin [], .relation secondTable [], .change [], .relation RelationDesc.sample [], .change []]

/-- With only the first table configured its row gets the id that, once the second table is
    added, the other row gets. -/
theorem added_table_clashes :
    ∃ s s', runSteps (step ⟨[ascii "t"], false⟩ [twoTables]) (start ⟨[ascii "t"], false⟩)
        twoInserts = some s ∧
      runSteps (step ⟨[ascii "t", ascii "u"], false⟩ [twoTables])
        (start ⟨[ascii "t", ascii "u"], false⟩) twoInserts = some s' ∧
      s.assigned.map (fun r => (r.1, r.2.2)) = [(⟨0, 1, 0⟩, ascii "pg:0/A:0")] ∧
      s'.assigned.map (fun r => (r.1, r.2.2)) =
        [(⟨0, 0, 0⟩, ascii "pg:0/A:0"), (⟨0, 1, 0⟩, ascii "pg:0/A:1")] :=
  ⟨_, _, rfl, rfl, by decide, by decide⟩

end Stream

end Postgres
