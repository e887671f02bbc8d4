import Watcher.ForStd.List

/-!
# Copying a log into a sink that knows what it has

A source has a list of keys, each of them once: the order. A copier takes keys
from it into a queue and sends the first one of the queue to the sink until the
sink has it. What was sent may arrive late, again, or never. At any time the
copier may be put back to an earlier place of the order, with or without its
queue, if the sink has everything before that place. The sink ignores a key that
it has.

`Copying` is what every step keeps. So the sink has an initial part of the order
at any time, whatever was lost or repeated.

## Key results

- `store_isPrefix`: what arrives is known to the sink or is what the sink needs next
- `Copying.take`, `Copying.send`, `Copying.arrive`, `Copying.ack`, `Copying.resume`: the steps
-/

namespace Replay

open List

variable {κ : Type _}

/-- The key is in the order, and everything before it has the property. -/
def Preceded (order : List κ) (P : κ → Prop) (k : κ) : Prop :=
  ∃ before after, order = before ++ k :: after ∧ ∀ x ∈ before, P x

theorem Preceded.imp {order : List κ} {P Q : κ → Prop} {k : κ} (h : Preceded order P k)
    (hPQ : ∀ x, P x → Q x) : Preceded order Q k := by
  obtain ⟨before, after, horder, hbefore⟩ := h
  exact ⟨before, after, horder, fun x hx => hPQ x (hbefore x hx)⟩

/-- A key arrives at the sink. -/
def store [DecidableEq κ] (sink : List κ) (k : κ) : List κ :=
  if k ∈ sink then sink else sink ++ [k]

section Store

variable [DecidableEq κ]

theorem mem_store {sink : List κ} {k x : κ} : x ∈ store sink k ↔ x ∈ sink ∨ x = k := by
  rw [store]
  split
  · rename_i hk
    constructor
    · exact Or.inl
    · rintro (hx | rfl)
      · exact hx
      · exact hk
  · simp

/-- What arrives is known to the sink or is what the sink needs next. -/
theorem store_isPrefix {order sink : List κ} {k : κ} (hnodup : order.Nodup)
    (hsink : sink <+: order) (hk : Preceded order (· ∈ sink) k) : store sink k <+: order := by
  rw [store]
  split
  · exact hsink
  · rename_i hnew
    obtain ⟨before, after, rfl, hbefore⟩ := hk
    -- without `k` the sink does not reach beyond what is before it
    have hle : sink <+: before := by
      have hbefore := prefix_append before (k :: after)
      rcases prefix_or_prefix_of_prefix hsink hbefore with h | h
      · exact h
      · obtain ⟨more, rfl⟩ := h
        rw [prefix_append_right_inj] at hsink
        cases more with
        | nil => simp
        | cons x more =>
          obtain ⟨rfl, -⟩ := cons_prefix_cons.mp hsink
          exact absurd (by simp) hnew
    -- and all of that is there
    have hlen : before.length ≤ sink.length :=
      (subperm_of_subset (nodup_append.mp hnodup).1 hbefore).length_le
    rw [hle.eq_of_length_le hlen]
    exact ⟨after, by simp⟩

end Store

/-- The copier has taken all of the order but `rest`; the sink has `sink`, the copier waits for
    the keys of `queue`, and what is in `flight` may arrive any number of times. -/
structure Copying (order sink queue rest flight : List κ) : Prop where
  nodup : order.Nodup
  isPrefix : sink <+: order
  queued : ∀ before k after, queue = before ++ k :: after →
    Preceded order (fun x => x ∈ sink ∨ x ∈ before) k
  taken : ∃ done, order = done ++ rest ∧ ∀ x ∈ done, x ∈ sink ∨ x ∈ queue
  sent : ∀ k ∈ flight, Preceded order (· ∈ sink) k

namespace Copying

variable {order sink queue rest flight : List κ} {k : κ}

/-- Nothing is copied yet. -/
theorem start (hnodup : order.Nodup) : Copying order [] [] order [] where
  nodup := hnodup
  isPrefix := nil_prefix
  queued := by simp
  taken := ⟨[], rfl, forall_mem_nil _⟩
  sent := forall_mem_nil _

/-- The next key of the order is taken. -/
theorem take (h : Copying order sink queue (k :: rest) flight) :
    Copying order sink (queue ++ [k]) rest flight := by
  obtain ⟨done, horder, hdone⟩ := h.taken
  refine { h with queued := ?_, taken := ⟨done ++ [k], by simp [horder], ?_⟩ }
  · exact forall_concat_eq_append_cons.mpr ⟨h.queued, done, rest, horder, hdone⟩
  · intro x hx
    rcases mem_append.mp hx with hx | hx
    · exact (hdone x hx).imp_right (mem_append_left _)
    · exact Or.inr (mem_append_right _ hx)

/-- The first key of the queue is sent. -/
theorem send (h : Copying order sink (k :: queue) rest flight) :
    Copying order sink (k :: queue) rest (k :: flight) := by
  have hk := (h.queued [] k queue rfl).imp fun x hx => hx.resolve_right not_mem_nil
  exact { h with sent := forall_mem_cons.mpr ⟨hk, h.sent⟩ }

/-- A key that was sent arrives. -/
theorem arrive [DecidableEq κ] (h : Copying order sink queue rest flight) (hk : k ∈ flight) :
    Copying order (store sink k) queue rest flight := by
  have hmono : ∀ x, x ∈ sink → x ∈ store sink k := fun x hx => mem_store.mpr (Or.inl hx)
  obtain ⟨done, horder, hdone⟩ := h.taken
  exact
    { nodup := h.nodup
      isPrefix := store_isPrefix h.nodup h.isPrefix (h.sent k hk)
      queued := fun before x after hq => (h.queued before x after hq).imp fun y hy =>
        hy.imp_left (hmono y)
      taken := ⟨done, horder, fun x hx => (hdone x hx).imp_left (hmono x)⟩
      sent := fun x hx => (h.sent x hx).imp hmono }

/-- The sink has the first key of the queue. -/
theorem ack (h : Copying order sink (k :: queue) rest flight) (hk : k ∈ sink) :
    Copying order sink queue rest flight := by
  have hdrop : ∀ {x : κ} {l : List κ}, x ∈ sink ∨ x ∈ k :: l → x ∈ sink ∨ x ∈ l := by
    rintro x l (hx | hx)
    · exact Or.inl hx
    · rcases mem_cons.mp hx with rfl | hx
      · exact Or.inl hk
      · exact Or.inr hx
  obtain ⟨done, horder, hdone⟩ := h.taken
  refine { h with queued := ?_, taken := ⟨done, horder, fun x hx => hdrop (hdone x hx)⟩ }
  intro before x after hq
  exact (h.queued (k :: before) x after (by rw [hq, cons_append])).imp fun _ => hdrop

/-- What was sent is lost. -/
theorem lose (h : Copying order sink queue rest flight) {flight' : List κ}
    (hsub : flight' ⊆ flight) : Copying order sink queue rest flight' :=
  { h with sent := fun k hk => h.sent k (hsub hk) }

/-- The copier is put back, or forward, to a place that the sink has reached. -/
theorem resume (h : Copying order sink queue rest flight) {done rest' : List κ}
    (horder : order = done ++ rest') (hdone : ∀ x ∈ done, x ∈ sink) :
    Copying order sink queue rest' flight :=
  { h with taken := ⟨done, horder, fun x hx => Or.inl (hdone x hx)⟩ }

/-- The queue is lost as well. -/
theorem restart (h : Copying order sink queue rest flight) {done rest' : List κ}
    (horder : order = done ++ rest') (hdone : ∀ x ∈ done, x ∈ sink) :
    Copying order sink [] rest' flight :=
  { h with
    queued := by simp
    taken := ⟨done, horder, fun x hx => Or.inl (hdone x hx)⟩ }

end Copying

end Replay
