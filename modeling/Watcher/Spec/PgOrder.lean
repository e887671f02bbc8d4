import Watcher.ForStd.List
import Watcher.Spec.PgDelivery
import Watcher.Spec.MessageId

/-!
# The changes of a primary in publication order

Transactions come in commit order and each transaction's changes in the order in
which they are emitted. A position in this order is a transaction and an index
therein; what is at or after it is what a session that stands there has yet to
stream.

## Key results

- `Primary.mem_changes`: the order has every change that the bus takes
- `Primary.changesFrom_taken`: what is left when such a change is taken
- `Primary.nodup_messageIDs`: no two changes have the same message id
-/

namespace Postgres

open Cdc List

/-- Comes before, in publication order. -/
def ChangeId.Before (c d : ChangeId) : Prop := c.1 < d.1 ∨ c.1 = d.1 ∧ c.2 < d.2

/-- The change is at or after this place. -/
def ChangeId.isFrom (next index : Nat) (c : ChangeId) : Bool :=
  next < c.1 || (c.1 = next && index ≤ c.2)

namespace Primary

variable (p : Primary)

/-- The changes that the bus takes, in publication order. -/
def changes : List ChangeId :=
  p.txns.zipIdx.flatMap fun x =>
    (x.1.changes.zipIdx.filter fun y => Service.opened.handleEvent y.1).map fun y => (x.2, y.2)

/-- Those that are at or after a place. -/
def changesFrom (next index : Nat) : List ChangeId :=
  p.changes.filter (ChangeId.isFrom next index)

theorem mem_changes {c : ChangeId} : c ∈ p.changes ↔ p.Acceptable c := by
  simp only [changes, mem_flatMap, mem_map, mem_filter, Acceptable, mem_zipIdx_iff_getElem?]
  constructor
  · rintro ⟨⟨t, i⟩, ht, ⟨e, k⟩, ⟨he, htake⟩, rfl⟩
    exact ⟨t, e, ht, he, htake⟩
  · rintro ⟨t, e, ht, he, htake⟩
    exact ⟨(t, c.1), ht, (e, c.2), ⟨he, htake⟩, rfl⟩

theorem changes_sorted : p.changes.Pairwise ChangeId.Before := by
  have hindex : ∀ {τ : Type} (l : List τ), l.zipIdx.Pairwise fun x y => x.2 < y.2 := by
    intro τ l
    refine pairwise_map.mp ?_
    rw [zipIdx_map_snd]
    exact pairwise_lt_range'
  rw [changes, pairwise_flatMap]
  constructor
  · intro x _
    rw [pairwise_map]
    exact ((hindex x.1.changes).filter _).imp fun h => Or.inr ⟨rfl, h⟩
  · refine (hindex p.txns).imp fun {x y} hlt c hc d hd => ?_
    obtain ⟨_, -, rfl⟩ := mem_map.mp hc
    obtain ⟨_, -, rfl⟩ := mem_map.mp hd
    exact Or.inl hlt

theorem nodup_changes : p.changes.Nodup := by
  refine p.changes_sorted.imp ?_
  rintro c d (h | ⟨-, h⟩) rfl
  · exact Nat.lt_irrefl _ h
  · exact Nat.lt_irrefl _ h

/-- What is before a place, and what is from there on. -/
theorem changes_split (next index : Nat) :
    p.changes = p.changes.filter (fun c => !c.isFrom next index) ++ p.changesFrom next index := by
  refine (filter_not_append_filter p.changes_sorted ?_).symm
  intro c d hbefore hfrom
  simp only [ChangeId.isFrom, Bool.or_eq_true, Bool.and_eq_true, decide_eq_true_eq] at hfrom ⊢
  rcases hbefore with h | ⟨h, h'⟩ <;> omega

theorem changesFrom_zero : p.changesFrom 0 0 = p.changes := by
  refine filter_eq_self.mpr fun c _ => ?_
  simp only [ChangeId.isFrom, Bool.or_eq_true, Bool.and_eq_true, decide_eq_true_eq]
  omega

variable {p} {next index : Nat}

/-- A change that the bus takes. -/
theorem changesFrom_taken (h : p.Acceptable (next, index)) :
    p.changesFrom next index = (next, index) :: p.changesFrom next (index + 1) := by
  refine filter_eq_cons_filter p.changes_sorted (p.mem_changes.mpr h) ?_ ?_ ?_ ?_
  · simp [ChangeId.isFrom]
  · simp [ChangeId.isFrom]
  · intro c hc
    simp only [ChangeId.isFrom, Bool.or_eq_false_iff, Bool.and_eq_false_imp,
      decide_eq_false_iff_not, decide_eq_true_eq]
    rcases hc with h | ⟨h, h'⟩ <;> simp only at h <;> omega
  · intro c hc
    rw [Bool.eq_iff_iff]
    simp only [ChangeId.isFrom, Bool.or_eq_true, Bool.and_eq_true, decide_eq_true_eq]
    rcases hc with h | ⟨h, h'⟩ <;> simp only at h <;> omega

/-- A change that the bus refuses. -/
theorem changesFrom_refused (h : ¬p.Acceptable (next, index)) :
    p.changesFrom next index = p.changesFrom next (index + 1) := by
  refine filter_congr fun c hc => ?_
  have hne : c ≠ (next, index) := fun heq => h (heq ▸ p.mem_changes.mp hc)
  rw [Bool.eq_iff_iff]
  simp only [ChangeId.isFrom, Bool.or_eq_true, Bool.and_eq_true, decide_eq_true_eq]
  have : ¬(c.1 = next ∧ c.2 = index) := fun heq => hne (Prod.ext heq.1 heq.2)
  omega

/-- The end of a transaction. -/
theorem changesFrom_commit {t : Txn} (ht : p.txns[next]? = some t) :
    p.changesFrom next t.changes.length = p.changesFrom (next + 1) 0 := by
  refine filter_congr fun c hc => ?_
  obtain ⟨t', e, ht', he, -⟩ := p.mem_changes.mp hc
  have hlt : c.1 = next → c.2 < t.changes.length := by
    rintro rfl
    rw [ht, Option.some.injEq] at ht'
    exact ht' ▸ getElem?_lt_length he
  rw [Bool.eq_iff_iff]
  simp only [ChangeId.isFrom, Bool.or_eq_true, Bool.and_eq_true, decide_eq_true_eq]
  omega

/-! ## Message ids -/

variable (p)

/-- The message id of a change. -/
def messageID (subjectPrefix : GoString) (c : ChangeId) : GoString :=
  subjectPrefix ++ ascii "/" ++
    Listener.sourceID ((p.txns[c.1]?.map Txn.finalLSN).getD 0) c.2

/-- The message ids of all changes, in publication order. -/
def messageIDs (subjectPrefix : GoString) : List GoString :=
  p.changes.map (p.messageID subjectPrefix)

/-- The event is that of the change, with its name and any number. -/
def IsNamed (c : ChangeId) (e : Event) : Prop :=
  ∃ t e₀ sequence, p.txns[c.1]? = some t ∧ t.changes[c.2]? = some e₀ ∧
    e = { e₀ with sourceID := Listener.sourceID t.finalLSN c.2, sequence := sequence }

variable {p} {c : ChangeId}

theorem sourceID_ne_nil (lsn : LSN) (index : Nat) : Listener.sourceID lsn index ≠ [] := by
  simp [Listener.sourceID, ascii]

theorem IsNamed.messageID_eq {e : Event} (h : p.IsNamed c e) (subjectPrefix next : GoString) :
    Nats.messageID subjectPrefix next e = p.messageID subjectPrefix c := by
  obtain ⟨t, e₀, sequence, ht, -, rfl⟩ := h
  rw [Nats.messageID, if_neg (sourceID_ne_nil _ _), messageID, ht]
  rfl

/-- Transactions with distinct final LSNs have distinct ids. -/
theorem nodup_messageIDs (hdistinct : (p.txns.map Txn.finalLSN).Nodup) (subjectPrefix : GoString) :
    (p.messageIDs subjectPrefix).Nodup := by
  refine p.nodup_changes.map_on ?_
  intro c hc d hd heq
  obtain ⟨t, _, ht, -⟩ := p.mem_changes.mp hc
  obtain ⟨u, _, hu, -⟩ := p.mem_changes.mp hd
  rw [messageID, messageID, ht, hu, append_cancel_left_eq] at heq
  have hname : SourceName.pg t.finalLSN c.2 = .pg u.finalLSN d.2 := SourceName.sourceID_inj heq
  obtain ⟨hlsn, hindex⟩ := SourceName.pg.inj hname
  refine Prod.ext ((getElem?_inj ?_ hdistinct).mp ?_) hindex
  · rw [length_map]
    exact getElem?_lt_length ht
  · rw [getElem?_map, getElem?_map, ht, hu, Option.map_some, Option.map_some, hlsn]

end Primary

end Postgres
