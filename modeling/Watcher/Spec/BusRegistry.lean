import Watcher.Spec.BusInvariant

/-!
# The subscriber collections of the bus

`globalSubs` and `tableSubs` hold exactly the live subscribers, each of them
once, and no table is left without subscribers (`RegistryAt`). What the service
says about its subscribers is read off them.
-/

namespace Cdc

open List Option

/-! ### The table map -/

namespace SubMap

variable {m : SubMap} {t t' : GoString} {l v : List Nat}

theorem mem_delete : (t', l) ∈ m.delete t ↔ (t', l) ∈ m ∧ t' ≠ t := by
  simp [delete, mem_filter]

theorem mem_put : (t', l) ∈ m.put t v ↔ t' = t ∧ l = v ∨ (t', l) ∈ m ∧ t' ≠ t := by
  rw [put, mem_cons, mem_delete, Prod.mk.injEq]

theorem nodup_delete (h : (m.map Prod.fst).Nodup) : ((m.delete t).map Prod.fst).Nodup :=
  h.sublist (filter_sublist.map Prod.fst)

theorem nodup_put (h : (m.map Prod.fst).Nodup) : ((m.put t v).map Prod.fst).Nodup := by
  rw [put, map_cons, nodup_cons]
  refine ⟨?_, nodup_delete h⟩
  intro hmem
  obtain ⟨⟨t'', l⟩, he, heq⟩ := mem_map.mp hmem
  exact (mem_delete.mp he).2 heq

theorem lookup_of_mem (h : (m.map Prod.fst).Nodup) (hmem : (t, l) ∈ m) : m.lookup t = some l := by
  induction m with
  | nil => exact absurd hmem (by simp)
  | cons e m ih =>
    obtain ⟨t'', l'⟩ := e
    rw [map_cons, nodup_cons] at h
    rw [lookup_cons]
    rcases mem_cons.mp hmem with heq | htail
    · obtain ⟨rfl, rfl⟩ := Prod.mk.inj heq
      simp
    · have hne : t ≠ t'' := by
        rintro rfl
        exact h.1 (mem_map.mpr ⟨(t, l), htail, rfl⟩)
      rw [show (t == t'') = false by simpa using hne]
      exact ih h.2 htail

/-- What is found is an entry. -/
theorem mem_of_lookup (h : m.lookup t = some l) : (t, l) ∈ m := by
  obtain ⟨before, after, heq, -⟩ := lookup_eq_some_iff.mp h
  rw [heq]
  exact mem_append_right _ mem_cons_self

theorem get_of_mem (h : (m.map Prod.fst).Nodup) (hmem : (t, l) ∈ m) : m.get t = l := by
  rw [get, lookup_of_mem h hmem, getD_some]

/-- Where something is found there is an entry. -/
theorem mem_get {x : Nat} (h : x ∈ m.get t) : (t, m.get t) ∈ m := by
  unfold get at h ⊢
  cases hl : m.lookup t with
  | none =>
    rw [hl] at h
    exact absurd h (by simp)
  | some l => exact mem_of_lookup hl

theorem get_delete (m : SubMap) (t t' : GoString) :
    (m.delete t).get t' = if t' = t then [] else m.get t' := by
  induction m with
  | nil => simp [delete, get]
  | cons e m ih =>
    obtain ⟨k, l⟩ := e
    by_cases hk : k = t
    · rw [show delete ((k, l) :: m) t = delete m t by simp [delete, hk], ih]
      by_cases ht : t' = t
      · rw [if_pos ht, if_pos ht]
      · rw [if_neg ht, if_neg ht, get, get, lookup_cons,
          show (t' == k) = false by simpa [hk] using ht]
    · rw [show delete ((k, l) :: m) t = (k, l) :: delete m t by simp [delete, hk]]
      rw [get, get, lookup_cons, lookup_cons]
      by_cases htk : t' = k
      · have ht : t' ≠ t := fun h => hk (htk.symm.trans h)
        rw [if_neg ht, show (t' == k) = true by simpa using htk]
      · rw [show (t' == k) = false by simpa using htk]
        exact ih

/-- After a `put` it has the new ones. -/
theorem get_put (m : SubMap) (t t' : GoString) (v : List Nat) :
    (m.put t v).get t' = if t' = t then v else m.get t' := by
  by_cases h : t' = t
  · rw [if_pos h, put, get, lookup_cons, show (t' == t) = true by simpa using h]
    rfl
  · rw [if_neg h, put, get, lookup_cons, show (t' == t) = false by simpa using h]
    show (m.delete t).get t' = m.get t'
    rw [get_delete, if_neg h]

end SubMap

/-! ### The two collections -/

/-- The collections hold exactly the live subscribers of their kind, each once. -/
structure RegistryAt (globalSubs : List Nat) (tableSubs : SubMap) (subs : List Subscriber) :
    Prop where
  global_mem : ∀ x ∈ globalSubs, ∃ sub, subs[x]? = some sub ∧ sub.kind = .global ∧ sub.live = true
  table_mem : ∀ t l, (t, l) ∈ tableSubs → ∀ x ∈ l,
    ∃ sub, subs[x]? = some sub ∧ sub.kind = .table t ∧ sub.live = true
  live_global : ∀ (x : Nat) (sub : Subscriber), subs[x]? = some sub → sub.live = true →
    sub.kind = .global → x ∈ globalSubs
  live_table : ∀ (x : Nat) (sub : Subscriber) (t : GoString), subs[x]? = some sub →
    sub.live = true → sub.kind = .table t → x ∈ tableSubs.get t
  global_nodup : globalSubs.Nodup
  table_nodup : ∀ t l, (t, l) ∈ tableSubs → l.Nodup
  keys_nodup : (tableSubs.map Prod.fst).Nodup
  table_ne : ∀ t l, (t, l) ∈ tableSubs → l ≠ []
  channel_open : ∀ (x : Nat) (sub : Subscriber), subs[x]? = some sub → sub.live = true →
    sub.chClosed = false

abbrev Bus.Registry (s : Bus) : Prop := RegistryAt s.globalSubs s.tableSubs s.subs

namespace RegistryAt

variable {globalSubs : List Nat} {tableSubs : SubMap} {subs : List Subscriber}

/-- At the start there are no subscribers. -/
theorem init : RegistryAt [] [] [] where
  global_mem := by simp
  table_mem := by simp
  live_global := by simp
  live_table := by simp
  global_nodup := nodup_nil
  table_nodup := by simp
  keys_nodup := nodup_nil
  table_ne := by simp
  channel_open := by simp

variable {x y : Nat} {sub : Subscriber}

theorem table_get (h : RegistryAt globalSubs tableSubs subs) {t : GoString}
    (hx : x ∈ tableSubs.get t) :
    ∃ sub, subs[x]? = some sub ∧ sub.kind = .table t ∧ sub.live = true :=
  h.table_mem t _ (SubMap.mem_get hx) x hx

/-- A change to one subscriber that concerns neither its kind nor whether it is live or open. -/
theorem setSub (h : RegistryAt globalSubs tableSubs subs) (x : Nat) {f : Subscriber → Subscriber}
    (hkind : ∀ sub, (f sub).kind = sub.kind) (hlive : ∀ sub, (f sub).live = sub.live)
    (hclosed : ∀ sub, (f sub).chClosed = sub.chClosed) :
    RegistryAt globalSubs tableSubs (subs.modify x f) := by
  have hforth : ∀ (y : Nat) (sub : Subscriber), subs[y]? = some sub →
      ∃ sub', (subs.modify x f)[y]? = some sub' ∧ sub'.kind = sub.kind ∧ sub'.live = sub.live := by
    intro y sub hsub
    refine ⟨_, getElem?_modify_eq_some.mpr ⟨sub, hsub, rfl⟩, ?_⟩
    split
    · exact ⟨hkind sub, hlive sub⟩
    · exact ⟨rfl, rfl⟩
  have hback : ∀ (y : Nat) (sub' : Subscriber), (subs.modify x f)[y]? = some sub' →
      ∃ sub, subs[y]? = some sub ∧ sub'.kind = sub.kind ∧ sub'.live = sub.live ∧
        sub'.chClosed = sub.chClosed := by
    intro y sub' hsub'
    obtain ⟨sub, hsub, rfl⟩ := getElem?_modify_eq_some.mp hsub'
    refine ⟨sub, hsub, ?_⟩
    split
    · exact ⟨hkind sub, hlive sub, hclosed sub⟩
    · exact ⟨rfl, rfl, rfl⟩
  -- who is listed is still there, and who is live and open was so before
  refine ⟨?_, ?_, ?_, ?_, h.global_nodup, h.table_nodup, h.keys_nodup, h.table_ne, ?_⟩
  · intro y hy
    obtain ⟨sub, hsub, hk, hl⟩ := h.global_mem y hy
    obtain ⟨sub', hsub', hk', hl'⟩ := hforth y sub hsub
    exact ⟨sub', hsub', hk'.trans hk, hl'.trans hl⟩
  · intro t l hmem y hy
    obtain ⟨sub, hsub, hk, hl⟩ := h.table_mem t l hmem y hy
    obtain ⟨sub', hsub', hk', hl'⟩ := hforth y sub hsub
    exact ⟨sub', hsub', hk'.trans hk, hl'.trans hl⟩
  · intro y sub' hsub' hl hk
    obtain ⟨sub, hsub, hk', hl', -⟩ := hback y sub' hsub'
    exact h.live_global y sub hsub (hl' ▸ hl) (hk' ▸ hk)
  · intro y sub' t hsub' hl hk
    obtain ⟨sub, hsub, hk', hl', -⟩ := hback y sub' hsub'
    exact h.live_table y sub t hsub (hl' ▸ hl) (hk' ▸ hk)
  · intro y sub' hsub' hl
    obtain ⟨sub, hsub, -, hl', hc'⟩ := hback y sub' hsub'
    rw [hc']
    exact h.channel_open y sub hsub (hl' ▸ hl)

theorem get_nodup (h : RegistryAt globalSubs tableSubs subs) (t : GoString) :
    (tableSubs.get t).Nodup := by
  cases hget : tableSubs.get t with
  | nil => exact nodup_nil
  | cons x l =>
    rw [← hget]
    exact h.table_nodup t _ (SubMap.mem_get (x := x) (by simp [hget]))

/-- A new subscriber has a name of its own. -/
theorem length_notMem_global (h : RegistryAt globalSubs tableSubs subs) :
    subs.length ∉ globalSubs := by
  intro hmem
  obtain ⟨sub, hsub, -⟩ := h.global_mem _ hmem
  exact absurd (getElem?_lt_length hsub) (by omega)

/-- Also for a table. -/
theorem length_notMem_table (h : RegistryAt globalSubs tableSubs subs) (t : GoString) :
    subs.length ∉ tableSubs.get t := by
  intro hmem
  obtain ⟨sub, hsub, -⟩ := h.table_get hmem
  exact absurd (getElem?_lt_length hsub) (by omega)

/-- `SubscribeAll` -/
theorem addGlobal (h : RegistryAt globalSubs tableSubs subs) (now : Nat) :
    RegistryAt (globalSubs ++ [subs.length]) tableSubs (subs ++ [newSubscriber .global now]) := by
  refine ⟨?_, ?_, ?_, ?_, ?_, h.table_nodup, h.keys_nodup, h.table_ne, ?_⟩
  · intro x hx
    rcases mem_append.mp hx with hx | hx
    · obtain ⟨sub, hsub, hrest⟩ := h.global_mem x hx
      exact ⟨sub, getElem?_concat_eq_some.mpr (.inl hsub), hrest⟩
    · refine ⟨_, getElem?_concat_eq_some.mpr (.inr ⟨mem_singleton.mp hx, rfl⟩), rfl, rfl⟩
  · intro t l hmem x hx
    obtain ⟨sub, hsub, hrest⟩ := h.table_mem t l hmem x hx
    exact ⟨sub, getElem?_concat_eq_some.mpr (.inl hsub), hrest⟩
  · intro x sub hsub hlive hkind
    rcases getElem?_concat_eq_some.mp hsub with hsub | ⟨rfl, -⟩
    · exact mem_append_left _ (h.live_global x sub hsub hlive hkind)
    · exact mem_append_right _ (mem_singleton_self _)
  · intro x sub t hsub hlive hkind
    rcases getElem?_concat_eq_some.mp hsub with hsub | ⟨-, rfl⟩
    · exact h.live_table x sub t hsub hlive hkind
    · exact absurd hkind (by simp [newSubscriber])
  · rw [nodup_append]
    refine ⟨h.global_nodup, nodup_singleton _, ?_⟩
    rintro x hx y hy rfl
    rw [mem_singleton.mp hy] at hx
    exact h.length_notMem_global hx
  · intro x sub hsub hlive
    rcases getElem?_concat_eq_some.mp hsub with hsub | ⟨-, rfl⟩
    · exact h.channel_open x sub hsub hlive
    · rfl

/-- `Subscribe` -/
theorem addTable (h : RegistryAt globalSubs tableSubs subs) (t : GoString) (now : Nat) :
    RegistryAt globalSubs (tableSubs.put t (tableSubs.get t ++ [subs.length]))
      (subs ++ [newSubscriber (.table t) now]) := by
  refine ⟨?_, ?_, ?_, ?_, h.global_nodup, ?_, SubMap.nodup_put h.keys_nodup, ?_, ?_⟩
  · intro x hx
    obtain ⟨sub, hsub, hrest⟩ := h.global_mem x hx
    exact ⟨sub, getElem?_concat_eq_some.mpr (.inl hsub), hrest⟩
  · intro t' l hmem x hx
    rcases SubMap.mem_put.mp hmem with ⟨rfl, rfl⟩ | ⟨hmem, -⟩
    · rcases mem_append.mp hx with hx | hx
      · obtain ⟨sub, hsub, hrest⟩ := h.table_get hx
        exact ⟨sub, getElem?_concat_eq_some.mpr (.inl hsub), hrest⟩
      · refine ⟨_, getElem?_concat_eq_some.mpr (.inr ⟨mem_singleton.mp hx, rfl⟩),
          rfl, rfl⟩
    · obtain ⟨sub, hsub, hrest⟩ := h.table_mem t' l hmem x hx
      exact ⟨sub, getElem?_concat_eq_some.mpr (.inl hsub), hrest⟩
  · intro x sub hsub hlive hkind
    rcases getElem?_concat_eq_some.mp hsub with hsub | ⟨-, rfl⟩
    · exact h.live_global x sub hsub hlive hkind
    · exact absurd hkind (by simp [newSubscriber])
  · intro x sub t' hsub hlive hkind
    rw [SubMap.get_put]
    rcases getElem?_concat_eq_some.mp hsub with hsub | ⟨rfl, rfl⟩
    · have hold := h.live_table x sub t' hsub hlive hkind
      split
      · rename_i htt
        exact mem_append_left _ (htt ▸ hold)
      · exact hold
    · obtain rfl : t = t' := by simpa [newSubscriber] using hkind
      rw [if_pos rfl]
      exact mem_append_right _ (mem_singleton_self _)
  · intro t' l hmem
    rcases SubMap.mem_put.mp hmem with ⟨rfl, rfl⟩ | ⟨hmem, -⟩
    · rw [nodup_append]
      refine ⟨h.get_nodup _, nodup_singleton _, ?_⟩
      rintro x hx y hy rfl
      rw [mem_singleton.mp hy] at hx
      exact h.length_notMem_table _ hx
    · exact h.table_nodup t' l hmem
  · intro t' l hmem
    rcases SubMap.mem_put.mp hmem with ⟨rfl, rfl⟩ | ⟨hmem, -⟩
    · simp
    · exact h.table_ne t' l hmem
  · intro x sub hsub hlive
    rcases getElem?_concat_eq_some.mp hsub with hsub | ⟨-, rfl⟩
    · exact h.channel_open x sub hsub hlive
    · rfl

/-- The subscribers when `x` is not live any more. -/
abbrev quieted (subs : List Subscriber) (x : Nat) : List Subscriber :=
  subs.modify x fun sub => { sub with live := false }

theorem quieted_of_ne (hne : y ≠ x) : (quieted subs x)[y]? = some sub ↔ subs[y]? = some sub := by
  rw [getElem?_modify_ne _ _ (Ne.symm hne)]

/-- Nobody but another subscriber is live. -/
theorem quieted_live (hsub : (quieted subs x)[y]? = some sub) (hlive : sub.live = true) :
    y ≠ x ∧ subs[y]? = some sub := by
  have hne : y ≠ x := by
    rintro rfl
    obtain ⟨old, -, rfl⟩ := getElem?_modify_eq_some.mp hsub
    simp at hlive
  exact ⟨hne, (quieted_of_ne hne).mp hsub⟩

/-- A subscriber of another kind is another one. -/
theorem ne_of_kind {old : Subscriber} (hsub : subs[x]? = some sub) (hold : subs[y]? = some old)
    (hkind : old.kind ≠ sub.kind) : y ≠ x := by
  rintro rfl
  rw [hsub, some.injEq] at hold
  exact hkind (congrArg Subscriber.kind hold.symm)

/-- The unsubscribe of a global subscriber. -/
theorem removeGlobal (h : RegistryAt globalSubs tableSubs subs) (hsub : subs[x]? = some sub)
    (hkind : sub.kind = .global) : RegistryAt (globalSubs.erase x) tableSubs (quieted subs x) := by
  refine ⟨?_, ?_, ?_, ?_, h.global_nodup.erase x, h.table_nodup, h.keys_nodup, h.table_ne, ?_⟩
  · intro y hy
    obtain ⟨hne, hy⟩ := h.global_nodup.mem_erase_iff.mp hy
    obtain ⟨old, hold, hrest⟩ := h.global_mem y hy
    exact ⟨old, (quieted_of_ne hne).mpr hold, hrest⟩
  · intro t l hmem y hy
    obtain ⟨old, hold, hk, hl⟩ := h.table_mem t l hmem y hy
    have hne : y ≠ x := ne_of_kind hsub hold (by simp [hk, hkind])
    exact ⟨old, (quieted_of_ne hne).mpr hold, hk, hl⟩
  · intro y old hold hl hk
    obtain ⟨hne, hold⟩ := quieted_live hold hl
    exact h.global_nodup.mem_erase_iff.mpr ⟨hne, h.live_global y old hold hl hk⟩
  · intro y old t hold hl hk
    exact h.live_table y old t (quieted_live hold hl).2 hl hk
  · intro y old hold hl
    exact h.channel_open y old (quieted_live hold hl).2 hl

/-- The map after the unsubscribe of a subscriber of `t`. -/
def removeFrom (m : SubMap) (t : GoString) (x : Nat) : SubMap :=
  let m' := if x ∈ m.get t then m.put t ((m.get t).erase x) else m
  if m'.get t = [] then m'.delete t else m'

/-- The subscriber is taken from its table, and from no other. -/
theorem removeFrom_get (m : SubMap) (t t' : GoString) (x : Nat) :
    (removeFrom m t x).get t' = if t' = t then (m.get t).erase x else m.get t' := by
  unfold removeFrom
  by_cases hx : x ∈ m.get t
  · simp only [if_pos hx, SubMap.get_put, ↓reduceIte]
    split
    · rename_i hnil
      rw [SubMap.get_delete, SubMap.get_put]
      split
      · exact hnil.symm
      · rfl
    · rw [SubMap.get_put]
  · simp only [if_neg hx]
    rw [erase_of_not_mem hx]
    split
    · rename_i hnil
      rw [SubMap.get_delete]
      split
      · exact hnil.symm
      · rfl
    · split
      · rename_i htt
        rw [htt]
      · rfl

/-- The entries of the map after an unsubscribe: the others, and the shortened one unless it is
    empty. -/
theorem mem_removeFrom {m : SubMap} (hkeys : (m.map Prod.fst).Nodup) {t t' : GoString}
    {l : List Nat} (h : (t', l) ∈ removeFrom m t x) :
    t' = t ∧ l = (m.get t).erase x ∧ l ≠ [] ∨ t' ≠ t ∧ (t', l) ∈ m := by
  unfold removeFrom at h
  -- called again, or after `Shutdown`, the unsubscribe finds nothing
  by_cases hx : x ∈ m.get t
  · simp only [if_pos hx, SubMap.get_put, ↓reduceIte] at h
    split at h
    · obtain ⟨hmem, hne⟩ := SubMap.mem_delete.mp h
      rcases SubMap.mem_put.mp hmem with ⟨heq, -⟩ | ⟨hmem, -⟩
      · exact absurd heq hne
      · exact .inr ⟨hne, hmem⟩
    · rename_i hne
      rcases SubMap.mem_put.mp h with ⟨rfl, rfl⟩ | ⟨hmem, hne'⟩
      · exact .inl ⟨rfl, rfl, hne⟩
      · exact .inr ⟨hne', hmem⟩
  · simp only [if_neg hx] at h
    split at h
    · obtain ⟨hmem, hne⟩ := SubMap.mem_delete.mp h
      exact .inr ⟨hne, hmem⟩
    · rename_i hne
      by_cases htt : t' = t
      · subst htt
        have hl := SubMap.get_of_mem hkeys h
        exact .inl ⟨rfl, by rw [erase_of_not_mem hx, hl], hl ▸ hne⟩
      · exact .inr ⟨htt, h⟩

/-- A table has one entry still. -/
theorem removeFrom_nodup {m : SubMap} (hkeys : (m.map Prod.fst).Nodup) (t : GoString) (x : Nat) :
    ((removeFrom m t x).map Prod.fst).Nodup := by
  unfold removeFrom
  by_cases hx : x ∈ m.get t
  · simp only [if_pos hx]
    split
    · exact SubMap.nodup_delete (SubMap.nodup_put hkeys)
    · exact SubMap.nodup_put hkeys
  · simp only [if_neg hx]
    split
    · exact SubMap.nodup_delete hkeys
    · exact hkeys

/-- The unsubscribe of a table subscriber. -/
theorem removeTable (h : RegistryAt globalSubs tableSubs subs) {t : GoString}
    (hsub : subs[x]? = some sub) (hkind : sub.kind = .table t) :
    RegistryAt globalSubs (removeFrom tableSubs t x) (quieted subs x) := by
  refine ⟨?_, ?_, ?_, ?_, h.global_nodup, ?_, removeFrom_nodup h.keys_nodup t x, ?_, ?_⟩
  · intro y hy
    obtain ⟨old, hold, hk, hl⟩ := h.global_mem y hy
    have hne : y ≠ x := ne_of_kind hsub hold (by simp [hk, hkind])
    exact ⟨old, (quieted_of_ne hne).mpr hold, hk, hl⟩
  · intro t' l hmem y hy
    rcases mem_removeFrom h.keys_nodup hmem with ⟨rfl, rfl, -⟩ | ⟨htt, hmem⟩
    -- the table's own list, without the one that leaves
    · obtain ⟨hne, hy⟩ := (h.get_nodup _).mem_erase_iff.mp hy
      obtain ⟨old, hold, hrest⟩ := h.table_get hy
      exact ⟨old, (quieted_of_ne hne).mpr hold, hrest⟩
    · obtain ⟨old, hold, hk, hl⟩ := h.table_mem t' l hmem y hy
      have hne : y ≠ x := ne_of_kind hsub hold (by simpa [hk, hkind] using htt)
      exact ⟨old, (quieted_of_ne hne).mpr hold, hk, hl⟩
  · intro y old hold hl hk
    exact h.live_global y old (quieted_live hold hl).2 hl hk
  · intro y old t' hold hl hk
    obtain ⟨hne, hold⟩ := quieted_live hold hl
    have hy := h.live_table y old t' hold hl hk
    rw [removeFrom_get]
    split
    · rename_i htt
      exact (h.get_nodup t).mem_erase_iff.mpr ⟨hne, htt ▸ hy⟩
    · exact hy
  · intro t' l hmem
    rcases mem_removeFrom h.keys_nodup hmem with ⟨-, rfl, -⟩ | ⟨-, hmem⟩
    · exact (h.get_nodup t).erase x
    · exact h.table_nodup t' l hmem
  · intro t' l hmem
    rcases mem_removeFrom h.keys_nodup hmem with ⟨-, -, hne⟩ | ⟨-, hmem⟩
    · exact hne
    · exact h.table_ne t' l hmem
  · intro y old hold hl
    exact h.channel_open y old (quieted_live hold hl).2 hl

/-- After `Shutdown` nobody is live. -/
theorem closeAll_live {s : Bus} (h : s.Registry) (hsub : s.closeAll.subs[x]? = some sub) :
    sub.live = false := by
  obtain ⟨old, hold, rfl⟩ := Bus.perform_shutdown_subs.mp hsub
  split
  · rfl
  · rename_i hlisted
    rw [← Bool.not_eq_true]
    intro hlive
    apply hlisted
    unfold Bus.listed
    cases hkind : old.kind with
    | global => exact mem_append_left _ (h.live_global x old hold hlive hkind)
    | table t =>
      have hx := h.live_table x old t hold hlive hkind
      exact mem_append_right _ (mem_flatMap.mpr ⟨(t, _), SubMap.mem_get hx, hx⟩)

theorem closeAll {s : Bus} (h : s.Registry) : s.closeAll.Registry := by
  have hnone : ∀ {P : Prop} {x : Nat} {sub : Subscriber}, s.closeAll.subs[x]? = some sub →
      sub.live = true → P :=
    fun hsub hlive => absurd (hlive.symm.trans (closeAll_live h hsub)) (by simp)
  exact ⟨by simp [Bus.closeAll], by simp [Bus.closeAll], fun x sub hsub hlive => hnone hsub hlive,
    fun x sub t hsub hlive => hnone hsub hlive, nodup_nil, by simp [Bus.closeAll],
    nodup_nil, by simp [Bus.closeAll], fun x sub hsub hlive => hnone hsub hlive⟩

end RegistryAt

/-- What a call does under the lock. -/
theorem Bus.Registry.perform {s : Bus} (h : s.Registry) (op : WriteOp) :
    (s.perform op).Registry := by
  cases op with
  | subscribe kind =>
    cases kind with
    | global => exact RegistryAt.addGlobal h s.time
    | table t => exact RegistryAt.addTable h t s.time
  | unsubscribe x =>
    simp only [Bus.perform, Bus.removeSubscriber]
    split
    · exact h
    · rename_i sub hsub
      split
      · rename_i hkind
        exact RegistryAt.removeGlobal h hsub hkind
      · rename_i t hkind
        exact RegistryAt.removeTable h hsub hkind
  | shutdown => exact RegistryAt.closeAll h

/-- Every move keeps the collections. -/
theorem Bus.Registry.moves {cap : Nat} {s t : Bus} {a : BusAction} (h : s.Registry)
    (hmoves : Moves cap s a t) :
    t.Registry := by
  cases hmoves with
  | callHandle producer event hidle => exact h
  | callSubscribe kind => exact h
  | callUnsubscribe x hx =>
    exact RegistryAt.setSub h x (fun _ => rfl) (fun _ => rfl) (fun _ => rfl)
  | callShutdown => exact h
  | stop x sub hsub hunsub =>
    exact RegistryAt.setSub h x (fun _ => rfl) (fun _ => rfl) (fun _ => rfl)
  | receive x sub hsub hbuf =>
    exact RegistryAt.setSub h x (fun _ => rfl) (fun _ => rfl) (fun _ => rfl)
  | refuse i c hc hpc => exact h
  | accept i c hc hpc => exact h
  | rlock i c hc hpc hwriter => exact h
  -- what is sent to a subscriber does not move it
  | send i c hc x todo blocked hpc sub hsub =>
    exact RegistryAt.setSub h x (fun _ => rfl) (fun _ => rfl) (fun _ => rfl)
  | block i c hc x todo hpc => exact h
  | giveUp i c hc x todo hpc sub hsub hgive => exact h
  | poll i => exact h
  | finish i c hc blocked hpc => exact h
  | prepare i w hw hpc =>
    cases hop : w.op with
    | subscribe kind => exact h
    | unsubscribe x => exact RegistryAt.setSub h x (fun _ => rfl) (fun _ => rfl) (fun _ => rfl)
    | shutdown =>
      simp only [Bus.prepareOp]
      split <;> exact h
  | announce i w hw hpc hwriter => exact h
  | acquire i w hw hpc hreaders => exact h
  | body i w hw hpc => exact Bus.Registry.perform h w.op

/-! ### Whom an event is for -/

namespace Bus

variable {s : Bus} {x : Nat}

/-- An event goes to the live subscribers that want it. -/
theorem mem_targets (h : s.Registry) {e : Event} :
    x ∈ s.targets e ↔
      ∃ sub, s.subs[x]? = some sub ∧ sub.live = true ∧ sub.kind.wants e = true := by
  unfold targets
  rw [mem_append]
  constructor
  · intro hx
    rcases hx with hx | hx
    · obtain ⟨sub, hsub, hkind, hlive⟩ := h.global_mem x hx
      exact ⟨sub, hsub, hlive, by rw [hkind]; rfl⟩
    · split at hx
      · rename_i hguard
        obtain ⟨sub, hsub, hkind, hlive⟩ := h.table_get hx
        refine ⟨sub, hsub, hlive, ?_⟩
        rw [hkind]
        simp only [Kind.wants, hguard, Bool.true_and, BEq.rfl]
      · exact absurd hx (by simp)
  · rintro ⟨sub, hsub, hlive, hwants⟩
    cases hkind : sub.kind with
    | global => exact .inl (h.live_global x sub hsub hlive hkind)
    | table t =>
      rw [hkind, Kind.wants, Bool.and_eq_true] at hwants
      obtain ⟨hguard, htable⟩ := hwants
      rw [if_pos hguard, eq_of_beq htable]
      exact .inr (h.live_table x sub t hsub hlive hkind)

/-- And to each of them once. -/
theorem nodup_targets (h : s.Registry) (e : Event) : (s.targets e).Nodup := by
  unfold targets
  rw [nodup_append]
  refine ⟨h.global_nodup, ?_, ?_⟩
  · split
    · exact h.get_nodup _
    · exact nodup_nil
  · -- a subscriber is of one kind
    rintro x hx y hy rfl
    split at hy
    · obtain ⟨sub, hsub, hkind, -⟩ := h.global_mem x hx
      obtain ⟨sub', hsub', hkind', -⟩ := h.table_get hy
      obtain rfl := some.inj (hsub.symm.trans hsub')
      exact absurd (hkind.symm.trans hkind') (by simp)
    · exact absurd hy (by simp)

/-! ### What the service says about its subscribers -/

/-- The live subscriptions. -/
def live (s : Bus) : List Nat :=
  (List.range s.subs.length).filter fun x => s.subs[x]?.any (·.live)

/-- The subscribers that are live. -/
theorem mem_live : x ∈ s.live ↔ ∃ sub, s.subs[x]? = some sub ∧ sub.live = true := by
  rw [live, mem_filter, mem_range, Option.any_eq_true]
  constructor
  · exact fun h => h.2
  · rintro ⟨sub, hsub, hlive⟩
    exact ⟨getElem?_lt_length hsub, sub, hsub, hlive⟩

/-- The collections list the live subscribers. -/
theorem mem_listed (h : s.Registry) : x ∈ s.listed ↔ x ∈ s.live := by
  rw [listed, mem_append, mem_flatMap, mem_live]
  constructor
  · rintro (hx | ⟨⟨t, l⟩, hmem, hx⟩)
    · obtain ⟨sub, hsub, -, hlive⟩ := h.global_mem x hx
      exact ⟨sub, hsub, hlive⟩
    · obtain ⟨sub, hsub, -, hlive⟩ := h.table_mem t l hmem x hx
      exact ⟨sub, hsub, hlive⟩
  · rintro ⟨sub, hsub, hlive⟩
    cases hkind : sub.kind with
    | global => exact .inl (h.live_global x sub hsub hlive hkind)
    | table t =>
      have hx := h.live_table x sub t hsub hlive hkind
      exact .inr ⟨(t, _), SubMap.mem_get hx, hx⟩

/-- Each of them once. -/
theorem nodup_listed (h : s.Registry) : s.listed.Nodup := by
  rw [listed, nodup_append]
  refine ⟨h.global_nodup, ?_, ?_⟩
  · rw [nodup_flatMap]
    refine ⟨fun e he => h.table_nodup e.1 e.2 he, ?_⟩
    -- subscribers of different tables are different
    refine (pairwise_map.mp h.keys_nodup).imp_of_mem ?_
    intro e e' he he' hne x hx hx'
    obtain ⟨sub, hsub, hkind, -⟩ := h.table_mem e.1 e.2 he x hx
    obtain ⟨sub', hsub', hkind', -⟩ := h.table_mem e'.1 e'.2 he' x hx'
    obtain rfl := some.inj (hsub.symm.trans hsub')
    exact hne (Kind.table.inj (hkind.symm.trans hkind'))
  · rintro x hx y hy rfl
    obtain ⟨⟨t, l⟩, hmem, hy⟩ := mem_flatMap.mp hy
    obtain ⟨sub, hsub, hkind, -⟩ := h.global_mem x hx
    obtain ⟨sub', hsub', hkind', -⟩ := h.table_mem t l hmem x hy
    obtain rfl := some.inj (hsub.symm.trans hsub')
    exact absurd (hkind.symm.trans hkind') (by simp)

/-- `TotalSubscriberCount` counts the live subscriptions. -/
theorem totalSubscriberCount_eq (h : s.Registry) : s.totalSubscriberCount = s.live.length := by
  have hlive : s.live.Nodup := nodup_range.filter _
  have hperm : s.listed.Perm s.live :=
    (perm_ext_iff_of_nodup (nodup_listed h) hlive).mpr fun _ => mem_listed h
  rw [← hperm.length_eq, totalSubscriberCount, listed, length_append, length_flatMap]

/-- `HasTableSubscribers` says whether somebody is subscribed to the table. -/
theorem hasTableSubscribers_iff (h : s.Registry) (t : GoString) :
    s.hasTableSubscribers t = true ↔
      ∃ (x : Nat) (sub : Subscriber), s.subs[x]? = some sub ∧ sub.live = true ∧
        sub.kind = .table t := by
  rw [hasTableSubscribers, isSome_iff_exists]
  constructor
  · rintro ⟨l, hl⟩
    have hmem := SubMap.mem_of_lookup hl
    obtain ⟨x, hx⟩ := exists_mem_of_ne_nil l (h.table_ne t l hmem)
    obtain ⟨sub, hsub, hkind, hlive⟩ := h.table_mem t l hmem x hx
    exact ⟨x, sub, hsub, hlive, hkind⟩
  · rintro ⟨x, sub, hsub, hlive, hkind⟩
    have hx := h.live_table x sub t hsub hlive hkind
    exact ⟨_, SubMap.lookup_of_mem h.keys_nodup (SubMap.mem_get hx)⟩

end Bus

end Cdc
