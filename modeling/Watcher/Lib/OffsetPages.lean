import Mathlib

/-!
# Pagination by offset

A list of rows is fetched page by page: the page at an offset holds the next `n`
rows of the list in the order of some key. Rows with one key may come in any
order, and in another order for each page.

Where a page ends between two rows with one key, the next page may start with
the row that this one ended with, and the other row is never returned. So what
is seen of the rows is the same for all orders exactly when rows that a page
boundary can separate look alike (`Uniform`).

## Key results

- `paginate_eq`: how pages are put together
- `pagesFrom_perm`: everything is seen once if separable rows look alike
- `exists_orders`: otherwise some orders show a row twice and hide another
-/

namespace OffsetPages

open List

variable {R K E : Type _} [LinearOrder K] (key : R → K)

/-- The rows in the order of their keys. -/
structure IsOrder (rows sorted : List R) : Prop where
  perm : sorted.Perm rows
  sorted : sorted.Pairwise fun a b => key a ≤ key b

/-- The page of `n` rows at an offset, in some order. -/
def IsSlice (rows : List R) (n offset : Nat) (page : List R) : Prop :=
  ∃ sorted, IsOrder key rows sorted ∧ page = (sorted.drop offset).take n

/-- Fetch pages until one is not full. -/
def paginate (n : Nat) (fetch : (call offset : Nat) → List R) :
    (fuel call offset : Nat) → Option (List R)
  | 0, _, _ => none
  | fuel + 1, call, offset =>
    let page := fetch call offset
    if page.length < n then some page
    else (paginate n fetch fuel (call + 1) (offset + page.length)).map (page ++ ·)

/-- `count` pages from the page `call` on, each in an order of its own. -/
def pagesFrom (n : Nat) (orders : Nat → List R) : (count call : Nat) → List R
  | 0, _ => []
  | count + 1, call =>
    ((orders call).drop (call * n)).take n ++ pagesFrom n orders count (call + 1)

/-- Rows with one key that the end of a page can come between look alike. -/
def Uniform (f : R → E) (rows : List R) (n : Nat) : Prop :=
  ∀ k, ∀ r ∈ rows, ∀ r' ∈ rows, key r = key r' → rows.countP (key · < key r) < k * n →
    k * n < rows.countP (key · ≤ key r) → f r = f r'

variable {key} {f : R → E} {rows sorted : List R} {n : Nat} {orders : Nat → List R}

/-! ### Pages -/

theorem pagesFrom_append (n : Nat) (orders : Nat → List R) (count more call : Nat) :
    pagesFrom n orders (count + more) call =
      pagesFrom n orders count call ++ pagesFrom n orders more (call + count) := by
  induction count generalizing call with
  | zero => rw [Nat.zero_add]; rfl
  | succ count ih =>
    rw [Nat.succ_add, pagesFrom, ih (call + 1), pagesFrom, append_assoc, Nat.succ_add_eq_add_succ]

/-- Pages in one order are a part of that order. -/
theorem pagesFrom_const {l : List R} (count call : Nat)
    (h : ∀ i, call ≤ i → i < call + count → orders i = l) :
    pagesFrom n orders count call = (l.drop (call * n)).take (count * n) := by
  induction count generalizing call with
  | zero => rw [Nat.zero_mul, take_zero]; rfl
  | succ count ih =>
    have hdrop : l.drop ((call + 1) * n) = (l.drop (call * n)).drop n := by
      rw [drop_drop, Nat.succ_mul]
    rw [pagesFrom, h call (Nat.le_refl _) (by omega),
      ih (call + 1) fun i _ _ => h i (by omega) (by omega), hdrop, Nat.succ_mul,
      Nat.add_comm (count * n), take_add]

/-- The pages that are fetched, up to the first one that is not full. -/
theorem paginate_eq {fetch : (call offset : Nat) → List R} (hn : 0 < n)
    (hfetch : ∀ call, fetch call (call * n) = ((orders call).drop (call * n)).take n)
    (hlength : ∀ call, (orders call).length = rows.length) {fuel call : Nat}
    (hcall : call ≤ rows.length / n) (hfuel : rows.length / n < call + fuel) :
    paginate n fetch fuel call (call * n) =
      some (pagesFrom n orders (rows.length / n + 1 - call) call) := by
  induction fuel generalizing call with
  | zero => omega
  | succ fuel ih =>
    have hpage : (fetch call (call * n)).length = min n (rows.length - call * n) := by
      rw [hfetch, length_take, length_drop, hlength]
    have hstart : call * n ≤ rows.length := (Nat.le_div_iff_mul_le hn).mp hcall
    have hnext : (call + 1) * n = call * n + n := Nat.succ_mul call n
    obtain ⟨count, hcount⟩ : ∃ count, rows.length / n + 1 - call = count + 1 :=
      ⟨rows.length / n - call, by omega⟩
    rw [paginate, hcount, pagesFrom, ← hfetch]
    by_cases hfull : (call + 1) * n ≤ rows.length
    · -- a full page, and the next one exists
      have hlater : call + 1 ≤ rows.length / n := (Nat.le_div_iff_mul_le hn).mpr hfull
      have hlen : (fetch call (call * n)).length = n := by omega
      have hrest := ih hlater (by omega)
      have hcount' : rows.length / n + 1 - (call + 1) = count := by omega
      rw [hcount', hnext] at hrest
      simp only [hlen, Nat.lt_irrefl, ↓reduceIte, hrest, Option.map_some]
    · have hlast : ¬call + 1 ≤ rows.length / n := fun h => hfull ((Nat.le_div_iff_mul_le hn).mp h)
      have hzero : count = 0 := by omega
      have hlen : (fetch call (call * n)).length < n := by omega
      rw [if_pos hlen, hzero, pagesFrom, append_nil]

/-- More fuel does not change the result. -/
theorem paginate_add {fetch : (call offset : Nat) → List R} {fuel call offset : Nat}
    {rs : List R} (h : paginate n fetch fuel call offset = some rs) (more : Nat) :
    paginate n fetch (fuel + more) call offset = some rs := by
  induction fuel generalizing call offset rs with
  | zero => exact nomatch h
  | succ fuel ih =>
    rw [Nat.succ_add]
    rw [paginate] at h ⊢
    split at h
    · rename_i hshort
      rw [if_pos hshort, h]
    · rename_i hfull
      obtain ⟨rest, hrest, rfl⟩ := Option.map_eq_some_iff.mp h
      rw [if_neg hfull, ih hrest, Option.map_some]

/-- All pages together are as long as the rows. -/
theorem length_le_mul (rows : List R) (hn : 0 < n) : rows.length ≤ (rows.length / n + 1) * n := by
  have := Nat.lt_div_mul_add hn (a := rows.length)
  rw [Nat.succ_mul]
  omega

/-! ### Rows that look alike -/

/-- In an order, the row at a position tells how many rows come before it. -/
theorem IsOrder.position {r : R} {before after : List R}
    (h : IsOrder key rows (before ++ r :: after)) :
    rows.countP (key · < key r) ≤ before.length ∧ before.length < rows.countP (key · ≤ key r) := by
  obtain ⟨hperm, hsorted⟩ := h
  rw [pairwise_append, pairwise_cons] at hsorted
  have hnone : (r :: after).countP (key · < key r) = 0 := by
    rw [countP_eq_zero]
    intro x hx
    rcases mem_cons.mp hx with rfl | hx
    · simp
    · simpa using hsorted.2.1.1 x hx
  have hall : before.countP (key · ≤ key r) = before.length := by
    rw [countP_eq_length]
    intro x hx
    simpa using hsorted.2.2 x hx r mem_cons_self
  have hself : 0 < (r :: after).countP (key · ≤ key r) :=
    countP_pos_iff.mpr ⟨r, mem_cons_self, by simp⟩
  rw [← hperm.countP_eq, ← hperm.countP_eq, countP_append, countP_append]
  have := countP_le_length (p := (key · < key r)) (l := before)
  omega

/-- Only one key is at a position. -/
theorem key_eq_of_position {r x : R} {j : Nat} (hr : rows.countP (key · < key r) ≤ j)
    (hr' : j < rows.countP (key · ≤ key r)) (hx : rows.countP (key · < key x) ≤ j)
    (hx' : j < rows.countP (key · ≤ key x)) : key r = key x := by
  have hle : ∀ {a b : K}, a < b → rows.countP (key · ≤ a) ≤ rows.countP (key · < b) := by
    intro a b hab
    apply countP_mono_left
    intro y _ hy
    simp only [decide_eq_true_eq] at hy ⊢
    exact lt_of_le_of_lt hy hab
  rcases lt_trichotomy (key r) (key x) with hlt | heq | hgt
  · have := hle hlt
    omega
  · exact heq
  · have := hle hgt
    omega

/-- What the rows before a boundary look like, whatever the order. -/
theorem IsOrder.take_perm (huniform : Uniform key f rows n) {k : Nat} {r : R} (hr : r ∈ rows)
    (hbelow : rows.countP (key · < key r) ≤ k * n) (hupTo : k * n < rows.countP (key · ≤ key r))
    (h : IsOrder key rows sorted) :
    ((sorted.take (k * n)).map f).Perm
      ((rows.filter (key · < key r)).map f ++
        List.replicate (k * n - rows.countP (key · < key r)) (f r)) := by
  have hlt : k * n < sorted.length :=
    h.perm.length_eq ▸ Nat.lt_of_lt_of_le hupTo countP_le_length
  -- the row at the boundary has the key of `r`
  obtain ⟨x, after, hafter⟩ : ∃ x after, sorted.drop (k * n) = x :: after :=
    ⟨_, _, drop_eq_getElem_cons hlt⟩
  have hsplit : sorted.take (k * n) ++ x :: after = sorted := by
    rw [← hafter, take_append_drop]
  have hlength : (sorted.take (k * n)).length = k * n :=
    length_take_of_le (Nat.le_of_lt hlt)
  have hposition :=
    (hsplit.symm ▸ h : IsOrder key rows (sorted.take (k * n) ++ x :: after)).position
  rw [hlength] at hposition
  have hkey : key r = key x := key_eq_of_position hbelow hupTo hposition.1 hposition.2
  have hsorted := h.sorted
  rw [← hsplit, pairwise_append, pairwise_cons] at hsorted
  have hbefore : ∀ y ∈ sorted.take (k * n), key y ≤ key r := by
    intro y hy
    rw [hkey]
    exact hsorted.2.2 y hy x mem_cons_self
  -- smaller rows are all before it
  have hsmaller : ((sorted.take (k * n)).filter (key · < key r)).Perm
      (rows.filter (key · < key r)) := by
    have hnone : (x :: after).filter (key · < key r) = [] := by
      rw [filter_eq_nil_iff]
      intro y hy
      rcases mem_cons.mp hy with rfl | hy
      · simp [hkey]
      · simpa [hkey] using hsorted.2.1.1 y hy
    have hfilter := h.perm.filter (key · < key r)
    rwa [← hsplit, filter_append, hnone, append_nil] at hfilter
  -- the others have the same key, and if there are any the boundary is inside the group
  have hsame : ((sorted.take (k * n)).filter (fun y => !decide (key y < key r))).map f =
      List.replicate (k * n - rows.countP (key · < key r)) (f r) := by
    have hcount : ((sorted.take (k * n)).filter (fun y => !decide (key y < key r))).length =
        k * n - rows.countP (key · < key r) := by
      have hparts := (filter_append_perm (key · < key r) (sorted.take (k * n))).length_eq
      rw [length_append, hlength, hsmaller.length_eq, ← countP_eq_length_filter] at hparts
      omega
    rw [← hcount, eq_replicate_iff]
    refine ⟨length_map _, ?_⟩
    intro e he
    obtain ⟨y, hy, rfl⟩ := mem_map.mp he
    have hpos : 0 < k * n - rows.countP (key · < key r) := hcount ▸ length_pos_of_mem hy
    rw [mem_filter] at hy
    have hykey : key r = key y := by
      apply le_antisymm
      · simpa using hy.2
      · exact hbefore y hy.1
    have hrows : y ∈ rows := h.perm.subset (mem_of_mem_take hy.1)
    exact (huniform k r hr y hrows hykey (by omega) hupTo).symm
  have hparts := filter_append_perm (key · < key r) (sorted.take (k * n))
  refine (hparts.symm.map f).trans ?_
  rw [map_append, hsame]
  exact (hsmaller.map f).append_right _

/-- The rows before a page boundary look alike in any two orders. -/
theorem IsOrder.take_perm_take {sorted' : List R} (huniform : Uniform key f rows n)
    (h : IsOrder key rows sorted) (h' : IsOrder key rows sorted') (k : Nat) :
    ((sorted.take (k * n)).map f).Perm ((sorted'.take (k * n)).map f) := by
  by_cases hlt : k * n < sorted.length
  · -- both are what comes before the key at the boundary
    have hr : sorted[k * n] ∈ rows := h.perm.subset (getElem_mem hlt)
    have hsplit : sorted.take (k * n) ++ sorted[k * n] :: sorted.drop (k * n + 1) = sorted := by
      rw [← drop_eq_getElem_cons hlt, take_append_drop]
    have hposition := (hsplit.symm ▸ h : IsOrder key rows
      (sorted.take (k * n) ++ sorted[k * n] :: sorted.drop (k * n + 1))).position
    rw [length_take_of_le (Nat.le_of_lt hlt)] at hposition
    exact (h.take_perm huniform hr hposition.1 hposition.2).trans
      (h'.take_perm huniform hr hposition.1 hposition.2).symm
  · have hlt' : ¬k * n < sorted'.length := by rwa [h'.perm.length_eq, ← h.perm.length_eq]
    rw [take_of_length_le (Nat.le_of_not_lt hlt), take_of_length_le (Nat.le_of_not_lt hlt')]
    exact (h.perm.trans h'.perm.symm).map f

/-- Pages in any orders together look like the rows before their end. -/
theorem pagesFrom_perm_take (huniform : Uniform key f rows n)
    (horders : ∀ i, IsOrder key rows (orders i)) (count : Nat) (h : IsOrder key rows sorted) :
    ((pagesFrom n orders count 0).map f).Perm ((sorted.take (count * n)).map f) := by
  induction count generalizing sorted with
  | zero => rw [Nat.zero_mul, take_zero]; rfl
  | succ count ih =>
    -- the last page continues what its own order has before it
    have hlast : pagesFrom n orders 1 (0 + count) =
        ((orders count).drop (count * n)).take n := by
      rw [Nat.zero_add, pagesFrom, pagesFrom, append_nil]
    have htake : (orders count).take ((count + 1) * n) =
        (orders count).take (count * n) ++ ((orders count).drop (count * n)).take n := by
      rw [Nat.succ_mul, take_add]
    rw [pagesFrom_append, hlast, map_append]
    refine ((ih (horders count)).append_right _).trans ?_
    rw [← map_append, ← htake]
    exact (horders count).take_perm_take huniform h (count + 1)

/-- If rows that a boundary can separate look alike, everything is seen once. -/
theorem pagesFrom_perm (hn : 0 < n) (huniform : Uniform key f rows n)
    (horders : ∀ i, IsOrder key rows (orders i)) :
    ((pagesFrom n orders (rows.length / n + 1) 0).map f).Perm (rows.map f) := by
  have h := pagesFrom_perm_take huniform horders (rows.length / n + 1) (horders 0)
  rw [take_of_length_le ((horders 0).perm.length_eq ▸ length_le_mul rows hn)] at h
  exact h.trans ((horders 0).perm.map f)

/-! ### Rows that can be told apart -/

private theorem exists_sorted (key : R → K) (l : List R) : ∃ s, IsOrder key l s := by
  refine ⟨l.mergeSort fun a b => key a ≤ key b, mergeSort_perm _ _, ?_⟩
  have hsorted : (l.mergeSort fun a b => key a ≤ key b).Pairwise fun a b =>
      decide (key a ≤ key b) = true := by
    apply pairwise_mergeSort
    · intro a b c hab hbc
      rw [decide_eq_true_eq] at hab hbc ⊢
      exact le_trans hab hbc
    · intro a b
      simpa using le_total (key a) (key b)
  exact hsorted.imp of_decide_eq_true

/-- The rows with one key may come in any order between the others. -/
private theorem exists_group (key : R → K) (rows : List R) (v : K) :
    ∃ smaller larger, smaller.length = rows.countP (key · < v) ∧
      ∀ same, same.Perm (rows.filter (key · = v)) →
        IsOrder key rows (smaller ++ (same ++ larger)) := by
  obtain ⟨smaller, hsmaller⟩ := exists_sorted key (rows.filter (key · < v))
  obtain ⟨larger, hlarger⟩ := exists_sorted key (rows.filter (v < key ·))
  refine ⟨smaller, larger, by rw [hsmaller.perm.length_eq, countP_eq_length_filter], ?_⟩
  intro same hsame
  have hlt : ∀ x ∈ smaller, key x < v := by
    intro x hx
    simpa using (mem_filter.mp (hsmaller.perm.subset hx)).2
  have hgt : ∀ x ∈ larger, v < key x := by
    intro x hx
    simpa using (mem_filter.mp (hlarger.perm.subset hx)).2
  have heq : ∀ x ∈ same, key x = v := by
    intro x hx
    simpa using (mem_filter.mp (hsame.subset hx)).2
  constructor
  · -- smaller, equal and larger rows are all there are
    have hrest : (same ++ larger).Perm (rows.filter fun x => !decide (key x < v)) := by
      have hparts := filter_append_perm (key · = v) (rows.filter fun x => !decide (key x < v))
      rw [filter_filter, filter_filter] at hparts
      have hsame' : (rows.filter fun x => decide (key x = v) && !decide (key x < v)) =
          rows.filter (key · = v) := by
        apply filter_congr
        intro x _
        by_cases hx : key x = v <;> simp [hx]
      have hlarger' : (rows.filter fun x => !decide (key x = v) && !decide (key x < v)) =
          rows.filter (v < key ·) := by
        apply filter_congr
        intro x _
        rw [Bool.eq_iff_iff]
        simp only [Bool.and_eq_true, Bool.not_eq_true', decide_eq_false_iff_not,
          decide_eq_true_eq, not_lt]
        exact ⟨fun h => lt_of_le_of_ne h.2 (Ne.symm h.1), fun h => ⟨ne_of_gt h, le_of_lt h⟩⟩
      rw [hsame', hlarger'] at hparts
      exact (hsame.append hlarger.perm).trans hparts
    exact (hsmaller.perm.append hrest).trans (filter_append_perm _ _)
  · rw [pairwise_append, pairwise_append]
    refine ⟨hsmaller.sorted, ⟨?_, hlarger.sorted, ?_⟩, ?_⟩
    · apply pairwise_of_forall_mem_list
      intro x hx y hy
      exact le_of_eq ((heq x hx).trans (heq y hy).symm)
    · intro x hx y hy
      exact le_of_lt (heq x hx ▸ hgt y hy)
    · intro x hx y hy
      rcases mem_append.mp hy with hy | hy
      · exact le_of_lt (heq y hy ▸ hlt x hx)
      · exact le_of_lt (lt_trans (hlt x hx) (hgt y hy))

private theorem countP_le (key : R → K) (rows : List R) (v : K) :
    rows.countP (key · ≤ v) = rows.countP (key · < v) + rows.countP (key · = v) := by
  induction rows with
  | nil => rfl
  | cons x rows ih =>
    simp only [countP_cons, ih, decide_eq_true_eq]
    rcases lt_trichotomy (key x) v with h | h | h
    · rw [if_pos (le_of_lt h), if_pos h, if_neg (ne_of_lt h)]
      omega
    · rw [if_pos (le_of_eq h), if_neg (by rw [h]; exact lt_irrefl v), if_pos h]
      omega
    · rw [if_neg (not_le_of_gt h), if_neg (lt_asymm h), if_neg (ne_of_gt h)]
      omega

/-- An order in which `r` comes right before a boundary and `r'` right after it; with the two
    exchanged it is an order too. -/
private theorem exists_swap {r r' : R} (hr : r ∈ rows) (hr' : r' ∈ rows) (hne : r ≠ r')
    (hkey : key r = key r') {j : Nat} (hbelow : rows.countP (key · < key r) < j)
    (hupTo : j < rows.countP (key · ≤ key r)) :
    ∃ front back, front.length + 1 = j ∧
      IsOrder key rows (front ++ r :: r' :: back) ∧
        IsOrder key rows (front ++ r' :: r :: back) := by
  obtain ⟨smaller, larger, hsmaller, horder⟩ := exists_group key rows (key r)
  -- the rest of the group
  obtain ⟨rest, hrest⟩ : ∃ rest, (r :: r' :: rest).Perm (rows.filter (key · = key r)) := by
    obtain ⟨l₁, l₂, hl⟩ := append_of_mem
      (mem_filter.mpr ⟨hr, decide_eq_true rfl⟩ : r ∈ rows.filter (key · = key r))
    have hmem : r' ∈ l₁ ++ l₂ := by
      have : r' ∈ rows.filter (key · = key r) := mem_filter.mpr ⟨hr', by simpa using hkey.symm⟩
      rw [hl, mem_append, mem_cons] at this
      rw [mem_append]
      rcases this with h | h | h
      · exact .inl h
      · exact absurd h.symm hne
      · exact .inr h
    obtain ⟨l₃, l₄, hl'⟩ := append_of_mem hmem
    refine ⟨l₃ ++ l₄, ?_⟩
    rw [hl]
    refine List.Perm.trans ?_ perm_middle.symm
    rw [hl']
    exact perm_middle.symm.cons r
  have hgroup : rows.countP (key · ≤ key r) = rows.countP (key · < key r) + (rest.length + 2) := by
    have hlen := hrest.length_eq
    rw [length_cons, length_cons, ← countP_eq_length_filter] at hlen
    rw [hlen, countP_le]
  let p := j - smaller.length - 1
  have hfront : (smaller ++ rest.take p).length + 1 = j := by
    rw [length_append, length_take]
    omega
  refine ⟨smaller ++ rest.take p, rest.drop p ++ larger, hfront, ?_, ?_⟩
  · have h := horder (rest.take p ++ r :: r' :: rest.drop p) (by
      refine List.Perm.trans ?_ hrest
      refine perm_middle.trans (List.Perm.cons r ?_)
      refine perm_middle.trans (List.Perm.cons r' ?_)
      rw [take_append_drop])
    simpa using h
  · have h := horder (rest.take p ++ r' :: r :: rest.drop p) (by
      refine List.Perm.trans ?_ hrest
      refine perm_middle.trans ?_
      refine List.Perm.trans (List.Perm.cons r' perm_middle) ?_
      rw [take_append_drop]
      exact List.Perm.swap r r' rest)
    simpa using h

/-- Some orders show one row twice and hide another that looks different. -/
theorem exists_orders (hn : 0 < n) (h : ¬Uniform key f rows n) :
    ∃ orders : Nat → List R, (∀ i, IsOrder key rows (orders i)) ∧
      ¬((pagesFrom n orders (rows.length / n + 1) 0).map f).Perm (rows.map f) := by
  unfold Uniform at h
  push Not at h
  obtain ⟨k, r, hr, r', hr', hkey, hbelow, hupTo, hne⟩ := h
  obtain ⟨front, back, hlength, horder, hswap⟩ :=
    exists_swap hr hr' (fun heq => hne (congrArg f heq)) hkey hbelow hupTo
  -- the pages before the boundary end with `r`, and the next one starts with it again
  refine ⟨fun i => if i < k then front ++ r :: r' :: back else front ++ r' :: r :: back, ?_, ?_⟩
  · intro i
    by_cases hi : i < k
    · simpa only [if_pos hi] using horder
    · simpa only [if_neg hi] using hswap
  · intro hperm
    have hk : k ≤ rows.length / n := by
      rw [Nat.le_div_iff_mul_le hn]
      exact Nat.le_of_lt (Nat.lt_of_lt_of_le hupTo countP_le_length)
    have hcount : rows.length / n + 1 = k + (rows.length / n + 1 - k) := by omega
    rw [hcount, pagesFrom_append,
      pagesFrom_const k 0 (l := front ++ r :: r' :: back) fun i _ hi => if_pos (by omega),
      pagesFrom_const _ (0 + k) (l := front ++ r' :: r :: back) fun i hi _ => if_neg (by omega)]
      at hperm
    have hfirst : ((front ++ r :: r' :: back).drop (0 * n)).take (k * n) = front ++ [r] := by
      rw [Nat.zero_mul, drop_zero, ← hlength, take_length_add_append]
      rfl
    have hsecond : ((front ++ r' :: r :: back).drop ((0 + k) * n)).take
        ((rows.length / n + 1 - k) * n) = r :: back := by
      have hrest : (r :: back).length ≤ (rows.length / n + 1 - k) * n := by
        have hrows := horder.perm.length_eq
        have hall := length_le_mul rows hn
        simp only [length_append, length_cons] at hrows ⊢
        rw [Nat.sub_mul]
        omega
      rw [Nat.zero_add, ← hlength, drop_length_add_append, drop_one, tail_cons,
        take_of_length_le hrest]
    rw [hfirst, hsecond] at hperm
    have hrows := (horder.perm.map f).symm
    have htwice := hperm.trans hrows
    simp only [map_append, map_cons, append_assoc, singleton_append,
      perm_append_left_iff, perm_cons] at htwice
    exact hne (singleton_perm_singleton.mp
      ((perm_append_right_iff (back.map f)).mp htwice))

end OffsetPages
