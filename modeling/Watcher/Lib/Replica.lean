import Mathlib

/-!
# Replicas of keyed rows

A table maps keys to rows, and a row gives values to some columns. A replica
repeats the operations on a table. If it starts with rows that were read one by
one while the operations were going on, it need not be a table that there ever
was, but after all of them it is the table (`replay_eq_of_read`): an operation
that sets or removes the whole row at a key settles it, and where there is none
the rows that were read need only the cells that were patched.
-/

namespace Replica

open List

/-- The columns that are known, with their values. -/
abbrev Row (C X : Type _) := C → Option X

/-- The cells of `new`, and for the other columns those of `old`. -/
def Row.patch {C X : Type _} (new old : Row C X) : Row C X := fun c => (new c).or (old c)

/-- No column is known. -/
def Row.empty {C X : Type _} : Row C X := fun _ => none

/-- The operations on a table. -/
inductive Op (K C X : Type _) where
  | put (k : K) (row : Row C X)
  | patch (k : K) (cells : Row C X)
  | remove (k : K)
  | clear

abbrev State (K C X : Type _) := K → Option (Row C X)

variable {K C X : Type _} [DecidableEq K]

/-- What an operation makes of the row at a key. -/
def Op.effect (k : K) (old : Option (Row C X)) : Op K C X → Option (Row C X)
  | .put k' row => if k' = k then some row else old
  | .patch k' cells => if k' = k then some (cells.patch (old.getD .empty)) else old
  | .remove k' => if k' = k then none else old
  | .clear => none

/-- What an operation makes of a table. -/
def Op.apply (s : State K C X) (op : Op K C X) : State K C X := fun k => op.effect k (s k)

/-- All operations, one after the other. -/
def replay (s : State K C X) (ops : List (Op K C X)) : State K C X := ops.foldl Op.apply s

theorem replay_nil (s : State K C X) : replay s [] = s := rfl

theorem replay_cons (s : State K C X) (op : Op K C X) (ops : List (Op K C X)) :
    replay s (op :: ops) = replay (op.apply s) ops := rfl

theorem replay_append (s : State K C X) (ops ops' : List (Op K C X)) :
    replay s (ops ++ ops') = replay (replay s ops) ops' := foldl_append

variable {s t : State K C X} {k : K} {op : Op K C X} {ops : List (Op K C X)} {row : Row C X}

/-- Keys do not influence each other. -/
theorem replay_congr (h : s k = t k) (ops : List (Op K C X)) : replay s ops k = replay t ops k := by
  induction ops generalizing s t with
  | nil => exact h
  | cons op ops ih =>
    rw [replay_cons, replay_cons]
    apply ih
    simp only [Op.apply, h]

/-! ### Operations that settle a key -/

/-- After the operation the row at the key is the same whatever it was before. -/
def Op.settles (k : K) : Op K C X → Bool
  | .put k' _ => k' = k
  | .patch _ _ => false
  | .remove k' => k' = k
  | .clear => true

theorem Op.apply_of_settles (h : op.settles k = true) (s t : State K C X) :
    op.apply s k = op.apply t k := by
  cases op <;> simp_all [Op.settles, Op.apply, Op.effect]

theorem replay_of_settles (h : ∃ op ∈ ops, op.settles k = true) (s t : State K C X) :
    replay s ops k = replay t ops k := by
  obtain ⟨op, hop, hsettles⟩ := h
  obtain ⟨before, after, rfl⟩ := append_of_mem hop
  simp only [replay_append, replay_cons]
  exact replay_congr (Op.apply_of_settles hsettles _ _) after

/-- Clearing again changes nothing. -/
theorem replay_clears (h : ∀ op ∈ ops, op = .clear) (hne : ops ≠ []) (s : State K C X) :
    replay s ops = replay s [.clear] := by
  have hall : ∀ (t : State K C X) (n : Nat),
      replay t (List.replicate (n + 1) .clear) = fun _ => none := by
    intro t n
    induction n generalizing t with
    | zero => rfl
    | succ n ih => rw [replicate_succ, replay_cons, ih]
  rw [eq_replicate_of_mem h, ← Nat.succ_pred_eq_of_pos (length_pos_of_ne_nil hne), hall]
  rfl

/-! ### Patches -/

namespace Row

/-- Patching a patch. -/
theorem patch_assoc (a b c : Row C X) : a.patch (b.patch c) = (a.patch b).patch c := by
  funext x
  simp only [patch, Option.or_assoc]

/-- Nothing is under the patch. -/
theorem patch_empty (a : Row C X) : a.patch .empty = a := by
  funext x
  simp only [patch, empty, Option.or_none]

/-- The patch is empty. -/
theorem empty_patch (a : Row C X) : Row.empty.patch a = a := by
  funext x
  simp only [patch, empty, Option.none_or]

/-- What is patched again need not have been there. -/
theorem patch_patch_self (a b c : Row C X) :
    (a.patch b).patch (b.patch c) = (a.patch b).patch c := by
  funext x
  cases ha : a x <;> cases hb : b x <;> simp [patch, ha, hb]

end Row

/-- The cells that the operation patches at the key. -/
def Op.cells (k : K) : Op K C X → Row C X
  | .patch k' cells => if k' = k then cells else .empty
  | _ => .empty

/-- The cells that the operations patch at the key, each with its last value. -/
def patched (k : K) : List (Op K C X) → Row C X
  | [] => .empty
  | op :: ops => (patched k ops).patch (op.cells k)

theorem patched_append (k : K) (ops ops' : List (Op K C X)) :
    patched k (ops ++ ops') = (patched k ops').patch (patched k ops) := by
  induction ops with
  | nil => exact (Row.patch_empty _).symm
  | cons op ops ih => rw [cons_append, patched, ih, ← Row.patch_assoc, patched]

theorem Op.apply_of_not_settles (h : op.settles k = false) (hrow : s k = some row) :
    op.apply s k = some ((op.cells k).patch row) := by
  cases op with
  | put k' new => simp_all [Op.settles, Op.apply, Op.effect, Op.cells, Row.empty_patch]
  | remove k' => simp_all [Op.settles, Op.apply, Op.effect, Op.cells, Row.empty_patch]
  | clear => cases h
  | patch k' cells =>
    by_cases hk : k' = k
    · simp [Op.apply, Op.effect, Op.cells, hk, hrow]
    · simp [Op.apply, Op.effect, Op.cells, hk, hrow, Row.empty_patch]

/-- And so do all of them. -/
theorem replay_of_not_settles (h : ∀ op ∈ ops, op.settles k = false) (hrow : s k = some row) :
    replay s ops k = some ((patched k ops).patch row) := by
  induction ops generalizing s row with
  | nil => rw [replay_nil, hrow, patched, Row.empty_patch]
  | cons op ops ih =>
    obtain ⟨hop, hops⟩ := forall_mem_cons.mp h
    rw [replay_cons, ih hops (Op.apply_of_not_settles hop hrow), Row.patch_assoc, patched]

/-- If nothing settles the key, a row that is some operations ahead ends up the same. -/
theorem replay_take (h : ∀ op ∈ ops, op.settles k = false) (hrow : s k = some row) {i : Nat}
    (ht : t k = replay s (ops.take i) k) : replay t ops k = replay s ops k := by
  have htake : ∀ op ∈ ops.take i, op.settles k = false :=
    fun op hop => h op (mem_of_mem_take hop)
  rw [replay_of_not_settles htake hrow] at ht
  rw [replay_of_not_settles h ht, replay_of_not_settles h hrow]
  -- the last of the patches counts, and these come again
  have hsplit : patched k ops = (patched k (ops.drop i)).patch (patched k (ops.take i)) := by
    rw [← patched_append, take_append_drop]
  rw [hsplit, Row.patch_patch_self]

/-! ### The operations on a table -/

/-- Only rows that are there are patched. -/
def Fits (s : State K C X) : List (Op K C X) → Prop
  | [] => True
  | op :: ops => (∀ k cells, op = .patch k cells → (s k).isSome = true) ∧ Fits (op.apply s) ops

/-- One after the other. -/
theorem Fits.append {ops' : List (Op K C X)} (h : Fits s ops) (h' : Fits (replay s ops) ops') :
    Fits s (ops ++ ops') := by
  induction ops generalizing s with
  | nil => exact h'
  | cons op ops ih => exact ⟨h.1, ih h.2 h'⟩

theorem Fits.apply_none (h : Fits s (op :: ops)) (hop : op.settles k = false) (hk : s k = none) :
    op.apply s k = none := by
  cases op with
  | put k' new => simp_all [Op.settles, Op.apply, Op.effect]
  | remove k' => simp_all [Op.settles, Op.apply, Op.effect]
  | clear => rfl
  | patch k' cells =>
    have hne : k' ≠ k := by
      intro heq
      have hsome := h.1 k' cells rfl
      rw [heq, hk] at hsome
      cases hsome
    simp [Op.apply, Op.effect, hne, hk]

/-- If nothing settles the key, no row appears there. -/
theorem Fits.replay_none (h : Fits s ops) (hops : ∀ op ∈ ops, op.settles k = false)
    (hk : s k = none) (i : Nat) : replay s (ops.take i) k = none := by
  induction ops generalizing s i with
  | nil => rw [take_nil]; exact hk
  | cons op ops ih =>
    cases i with
    | zero => exact hk
    | succ i =>
      obtain ⟨hop, hrest⟩ := forall_mem_cons.mp hops
      rw [take_succ_cons, replay_cons]
      exact ih h.2 hrest (h.apply_none hop hk) i

/-- A replica of which each row was read at some time, and which has all rows that were there all
    the time and none that never was, becomes the table. -/
theorem replay_eq_of_read {s t : State K C X} {ops : List (Op K C X)} (hfits : Fits s ops)
    (hread : ∀ k, (∀ i, (replay s (ops.take i) k).isSome = true) →
      ∃ i, t k = replay s (ops.take i) k)
    (hnone : ∀ k, (∀ i, replay s (ops.take i) k = none) → t k = none) :
    replay t ops = replay s ops := by
  funext k
  by_cases hsettled : ∃ op ∈ ops, op.settles k = true
  · -- what was read there is overwritten
    exact replay_of_settles hsettled t s
  have hops : ∀ op ∈ ops, op.settles k = false := by simpa using hsettled
  cases hk : s k with
  | none =>
    have hall := hfits.replay_none hops hk
    exact replay_congr ((hnone k hall).trans hk.symm) ops
  | some row =>
    have hall : ∀ i, (replay s (ops.take i) k).isSome = true := by
      intro i
      rw [replay_of_not_settles (fun op hop => hops op (mem_of_mem_take hop)) hk]
      rfl
    obtain ⟨i, hi⟩ := hread k hall
    exact replay_take hops hk hi

/-! ### Loading rows -/

/-- The rows are put one after the other. -/
def load (s : State K C X) (rows : List (K × Row C X)) : State K C X :=
  replay s (rows.map fun r => .put r.1 r.2)

theorem load_eq (s : State K C X) (rows : List (K × Row C X)) (k : K) :
    (∃ r ∈ rows, r.1 = k ∧ load s rows k = some r.2) ∨
      (∀ r ∈ rows, r.1 ≠ k) ∧ load s rows k = s k := by
  induction rows generalizing s with
  | nil => exact .inr ⟨fun r hr => absurd hr not_mem_nil, rfl⟩
  | cons r rows ih =>
    have hload : load s (r :: rows) = load (Op.apply s (.put r.1 r.2)) rows := rfl
    rw [hload]
    cases ih (Op.apply s (.put r.1 r.2)) with
    | inl hlater =>
      obtain ⟨r', hr', hk, heq⟩ := hlater
      exact .inl ⟨r', mem_cons_of_mem _ hr', hk, heq⟩
    | inr hlater =>
      obtain ⟨hne, heq⟩ := hlater
      by_cases hk : r.1 = k
      · exact .inl ⟨r, mem_cons_self, hk, by rw [heq]; simp [Op.apply, Op.effect, hk]⟩
      · refine .inr ⟨forall_mem_cons.mpr ⟨hk, hne⟩, ?_⟩
        rw [heq]
        simp [Op.apply, Op.effect, hk]

end Replica
