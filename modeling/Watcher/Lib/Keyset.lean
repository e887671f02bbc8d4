import Mathlib

/-!
# Keyset pagination

A list of rows is fetched page by page: each page holds the first `n` rows, by
some key, of those whose key is past the key of the last row seen. Rows with one
key may come in any order, and in another order each time.

If keys repeat, a page may end between two rows with one key, and then the rest
of these rows is skipped. Nothing else is skipped and nothing is returned twice,
so everything is returned exactly when no multiple of `n` falls inside such a
group (`paginate_perm_iff`).
-/

namespace Keyset

open List

variable {R K : Type _} [LinearOrder K] (key : R → K)

/-- Whether a row comes after the cursor. -/
def past (after : Option K) (r : R) : Bool :=
  match after with
  | none => true
  | some v => v < key r

def remaining (rows : List R) (after : Option K) : List R := rows.filter (past key after)

/-- A page: the first `n` of the remaining rows. -/
def IsPage (rows : List R) (n : Nat) (after : Option K) (page : List R) : Prop :=
  ∃ sorted : List R, sorted.Perm (remaining key rows after) ∧
    sorted.Pairwise (fun a b => key a ≤ key b) ∧ page = sorted.take n

/-- Fetch pages until one is not full. -/
def paginate (n : Nat) (fetch : Nat → Option K → List R) :
    (fuel call : Nat) → Option K → Option (List R)
  | 0, _, _ => none
  | fuel + 1, call, after =>
    let page := fetch call after
    if page.length < n then some page
    else (paginate n fetch fuel (call + 1) (page.getLast?.map key)).map (page ++ ·)

/-- No page ends between two rows with one key. -/
def Aligned (rows : List R) (n : Nat) : Prop :=
  ∀ k, ∀ r ∈ rows, ¬(rows.countP (key · < key r) < k * n ∧ k * n < rows.countP (key · ≤ key r))

variable {key} {rows : List R} {n : Nat} {after : Option K} {page : List R}

/-! ### One page -/

/-- There is always a page to return. -/
theorem exists_isPage (key : R → K) (rows : List R) (n : Nat) (after : Option K) :
    ∃ page, IsPage key rows n after page := by
  have htrans : ∀ a b c : R, decide (key a ≤ key b) = true → decide (key b ≤ key c) = true →
      decide (key a ≤ key c) = true := by
    intro a b c hab hbc
    exact decide_eq_true ((of_decide_eq_true hab).trans (of_decide_eq_true hbc))
  have htotal : ∀ a b : R, (decide (key a ≤ key b) || decide (key b ≤ key a)) = true := by
    intro a b
    simpa using le_total (key a) (key b)
  have hsorted := pairwise_mergeSort htrans htotal (remaining key rows after)
  exact ⟨_, _, mergeSort_perm _ _, hsorted.imp of_decide_eq_true, rfl⟩

/-- How long a page is. -/
theorem IsPage.length (h : IsPage key rows n after page) :
    page.length = min n (remaining key rows after).length := by
  obtain ⟨sorted, hperm, -, rfl⟩ := h
  rw [length_take, hperm.length_eq]

/-- A page that is not full is the last one. -/
theorem IsPage.perm_of_short (h : IsPage key rows n after page) (hshort : page.length < n) :
    page.Perm (remaining key rows after) := by
  have hlength := h.length
  obtain ⟨sorted, hperm, -, rfl⟩ := h
  have hall : sorted.length ≤ n := by
    rw [hperm.length_eq]
    omega
  rw [take_of_length_le hall]
  exact hperm

/-- A row past the cursor is past every smaller one. -/
theorem remaining_past {v : K} (hv : ∀ r : R, v < key r → past key after r = true) :
    remaining key rows (some v) = (remaining key rows after).filter (v < key ·) := by
  unfold remaining
  rw [filter_filter]
  apply filter_congr
  intro r _
  show decide (v < key r) = (decide (v < key r) && past key after r)
  by_cases hr : v < key r
  · rw [hv r hr, Bool.and_true]
  · rw [decide_eq_false hr, Bool.false_and]

/-- What a full page leaves: rows that are not smaller, of which the equal ones are skipped. -/
theorem IsPage.full (h : IsPage key rows n after page) (hn : 0 < n) (hfull : ¬page.length < n) :
    ∃ r rest, page.getLast? = some r ∧ page.length = n ∧
      (page ++ rest).Perm (remaining key rows after) ∧
      (∀ x ∈ page, key x ≤ key r) ∧ (∀ x ∈ rest, key r ≤ key x) ∧
      (remaining key rows (some (key r))).Perm (rest.filter (key r < key ·)) := by
  have hlength := h.length
  obtain ⟨sorted, hperm, hsorted, hpage⟩ := h
  have hne : page ≠ [] := by
    rintro rfl
    exact hfull hn
  obtain ⟨front, r, hr⟩ : ∃ front r, page = front ++ [r] :=
    ⟨page.dropLast, page.getLast hne, (dropLast_append_getLast hne).symm⟩
  have hsplit : page ++ sorted.drop n = sorted := by rw [hpage, take_append_drop]
  rw [← hsplit, pairwise_append] at hsorted
  obtain ⟨hfront, -, hrest⟩ := hsorted
  have hmax : ∀ x ∈ page, key x ≤ key r := by
    intro x hx
    rw [hr, pairwise_append] at hfront
    rw [hr, mem_append, mem_singleton] at hx
    rcases hx with hx | rfl
    · exact hfront.2.2 x hx r (mem_singleton_self r)
    · exact le_refl _
  have hmin : ∀ x ∈ sorted.drop n, key r ≤ key x :=
    fun x hx => hrest r (by rw [hr]; exact mem_append_right _ (mem_singleton_self r)) x hx
  have hperm' : (page ++ sorted.drop n).Perm (remaining key rows after) := by rwa [hsplit]
  refine ⟨r, sorted.drop n, by rw [hr, getLast?_concat], by omega, hperm', hmax, hmin, ?_⟩
  -- the last row of the page is past the cursor
  have hpast : past key after r = true := by
    have hmem : r ∈ remaining key rows after := by
      apply hperm'.subset
      rw [hr]
      simp
    exact (mem_filter.mp hmem).2
  have hlater : ∀ x : R, key r < key x → past key after x = true := by
    intro x hx
    cases after with
    | none => rfl
    | some v =>
      simp only [past, decide_eq_true_eq] at hpast ⊢
      exact lt_trans hpast hx
  rw [remaining_past hlater]
  have hnone : page.filter (key r < key ·) = [] := by
    rw [filter_eq_nil_iff]
    intro x hx
    simpa using hmax x hx
  have := (hperm'.filter (key r < key ·)).symm
  rwa [filter_append, hnone, nil_append] at this

/-! ### All pages -/

section Pages

variable {fetch : Nat → Option K → List R}

theorem paginate_isSome (h : ∀ call after, IsPage key rows n after (fetch call after)) (hn : 0 < n)
    (fuel call : Nat) (hfuel : (remaining key rows after).length < fuel) :
    (paginate key n fetch fuel call after).isSome = true := by
  induction fuel generalizing call after with
  | zero => exact absurd hfuel (Nat.not_lt_zero _)
  | succ fuel ih =>
    rw [paginate]
    split
    · rfl
    · rename_i hfull
      obtain ⟨r, rest, hlast, hlength, hperm, -, -, hnext⟩ := (h call after).full hn hfull
      have hless : (remaining key rows (some (key r))).length < fuel := by
        have h₁ := hperm.length_eq
        have h₂ := hnext.length_eq
        have h₃ := length_filter_le (fun x => decide (key r < key x)) rest
        rw [length_append] at h₁
        omega
      rw [hlast, Option.map_some, Option.isSome_map]
      exact ih (call + 1) hless

/-- Nothing is returned twice. -/
theorem paginate_subperm (h : ∀ call after, IsPage key rows n after (fetch call after)) (hn : 0 < n)
    {fuel call : Nat} {rs : List R} (hrun : paginate key n fetch fuel call after = some rs) :
    ∃ lost, (rs ++ lost).Perm (remaining key rows after) := by
  induction fuel generalizing call after rs with
  | zero => exact nomatch hrun
  | succ fuel ih =>
    rw [paginate] at hrun
    split at hrun
    · rename_i hshort
      obtain rfl := Option.some.inj hrun
      exact ⟨[], by simpa using (h call after).perm_of_short hshort⟩
    · rename_i hfull
      obtain ⟨r, rest, hlast, hlength, hperm, -, -, hnext⟩ := (h call after).full hn hfull
      rw [hlast, Option.map_some] at hrun
      obtain ⟨rs', hrun', rfl⟩ := Option.map_eq_some_iff.mp hrun
      obtain ⟨lost, hlost⟩ := ih hrun'
      -- lost for good is what this page leaves of the last row's group
      have htail := filter_append_perm (fun x => decide (key r < key x)) rest
      refine ⟨lost ++ rest.filter (fun x => !decide (key r < key x)), ?_⟩
      rw [append_assoc, ← append_assoc rs']
      exact (((hlost.trans hnext).append_right _).trans htail).append_left _ |>.trans hperm

theorem countP_le_add_remaining (key : R → K) (rows : List R) (v : K) :
    rows.countP (key · ≤ v) + (remaining key rows (some v)).length = rows.length := by
  have hnot : rows.countP (past key (some v)) = rows.countP fun r => ¬ decide (key r ≤ v) := by
    apply countP_congr
    intro r _
    simp [past]
  rw [remaining, ← countP_eq_length_filter, hnot]
  exact (length_eq_countP_add_countP (key · ≤ v)).symm

/-- The rows before a row of a page: neither this one nor what the page leaves. -/
theorem countP_lt_add {rest : List R} {r : R}
    (hperm : (page ++ rest).Perm (remaining key rows after)) (hr : r ∈ page)
    (hmin : ∀ x ∈ rest, key r ≤ key x) :
    rows.countP (key · < key r) + (1 + rest.length) ≤ rows.length := by
  have hpage : 1 ≤ page.countP fun x => ¬ decide (key x < key r) :=
    countP_pos_iff.mpr ⟨r, hr, by simp⟩
  have hrest : rest.countP (fun x => ¬ decide (key x < key r)) = rest.length := by
    rw [countP_eq_length]
    intro x hx
    simpa using hmin x hx
  have hsub : (page ++ rest).countP (fun x => ¬ decide (key x < key r)) ≤
      rows.countP fun x => ¬ decide (key x < key r) := by
    rw [hperm.countP_eq]
    exact filter_sublist.countP_le
  have hall := length_eq_countP_add_countP (l := rows) (fun x => decide (key x < key r))
  rw [countP_append] at hsub
  omega

/-- A row is not on both sides of the end of a group of equal rows. -/
theorem not_inside_group (r x : R) :
    ¬(rows.countP (key · < key x) < rows.countP (key · ≤ key r) ∧
      rows.countP (key · ≤ key r) < rows.countP (key · ≤ key x)) := by
  rintro ⟨hbelow, hupTo⟩
  by_cases hx : key x ≤ key r
  · have : rows.countP (key · ≤ key x) ≤ rows.countP (key · ≤ key r) := by
      apply countP_mono_left
      intro y _ hy
      simp only [decide_eq_true_eq] at hy ⊢
      exact le_trans hy hx
    omega
  · have : rows.countP (key · ≤ key r) ≤ rows.countP (key · < key x) := by
      apply countP_mono_left
      intro y _ hy
      simp only [decide_eq_true_eq] at hy ⊢
      exact lt_of_le_of_lt hy (not_le.mp hx)
    omega

/-- Whether everything is returned, from a cursor on that `k` full pages led to. -/
theorem paginate_length_iff (h : ∀ call after, IsPage key rows n after (fetch call after))
    (hn : 0 < n) {fuel call k : Nat} {rs : List R}
    (hk : k * n + (remaining key rows after).length = rows.length)
    (hrun : paginate key n fetch fuel call after = some rs) :
    rs.length = (remaining key rows after).length ↔
      ∀ j, k < j → ∀ r ∈ rows,
        ¬(rows.countP (key · < key r) < j * n ∧ j * n < rows.countP (key · ≤ key r)) := by
  induction fuel generalizing call after rs k with
  | zero => exact nomatch hrun
  | succ fuel ih =>
    rw [paginate] at hrun
    split at hrun
    · rename_i hshort
      obtain rfl := Option.some.inj hrun
      have hlength := ((h call after).perm_of_short hshort).length_eq
      refine iff_of_true hlength ?_
      -- the next boundary is behind the last row
      rintro j hj r - ⟨-, hlt⟩
      have hle : rows.countP (key · ≤ key r) ≤ rows.length := countP_le_length
      have hmul : (k + 1) * n ≤ j * n := Nat.mul_le_mul_right n hj
      rw [Nat.add_mul, Nat.one_mul] at hmul
      omega
    · rename_i hfull
      obtain ⟨r, rest, hlast, hlength, hperm, hmax, hmin, hnext⟩ := (h call after).full hn hfull
      rw [hlast, Option.map_some] at hrun
      obtain ⟨rs', hrun', rfl⟩ := Option.map_eq_some_iff.mp hrun
      have hpage := hperm.length_eq
      have hcount := countP_le_add_remaining key rows (key r)
      have hleft := length_filter_le (fun x => decide (key r < key x)) rest
      rw [← hnext.length_eq] at hleft
      rw [length_append] at hpage
      rw [length_append, hlength, ← hpage, hlength]
      by_cases hskip : (remaining key rows (some (key r))).length = rest.length
      · -- no equal rows are left, so the boundary is fine and the next page starts at it
        have hk' : (k + 1) * n + (remaining key rows (some (key r))).length = rows.length := by
          rw [Nat.add_mul, Nat.one_mul]
          omega
        have hiff := ih hk' hrun'
        have hgroup : rows.countP (key · ≤ key r) = (k + 1) * n := by omega
        constructor
        · intro hall j hj x hx
          by_cases hj' : j = k + 1
          · rw [hj', ← hgroup]
            exact not_inside_group r x
          · exact hiff.mp (by omega) j (by omega) x hx
        · intro hall
          have := hiff.mpr fun j hj => hall j (by omega)
          omega
      · -- equal rows are left, and lost
        have hmem : r ∈ fetch call after := mem_of_getLast? hlast
        have hrows : r ∈ rows := by
          have := hperm.subset (mem_append_left rest hmem)
          exact (mem_filter.mp this).1
        obtain ⟨lost, hlost⟩ := paginate_subperm h hn hrun'
        have hlost' := hlost.length_eq
        have hbelow := countP_lt_add hperm hmem hmin
        rw [length_append] at hlost'
        constructor
        · intro hall
          omega
        · intro hall
          refine absurd ⟨?_, ?_⟩ (hall (k + 1) (Nat.lt_succ_self k) r hrows)
          · rw [Nat.add_mul, Nat.one_mul]
            omega
          · rw [Nat.add_mul, Nat.one_mul]
            omega

theorem remaining_none (key : R → K) (rows : List R) : remaining key rows none = rows :=
  filter_eq_self.mpr fun _ _ => rfl

theorem paginate_perm_iff_length (h : ∀ call after, IsPage key rows n after (fetch call after))
    (hn : 0 < n) {fuel : Nat} {rs : List R} (hrun : paginate key n fetch fuel 0 none = some rs) :
    rs.Perm rows ↔ rs.length = rows.length := by
  obtain ⟨lost, hlost⟩ := paginate_subperm h hn hrun
  rw [remaining_none] at hlost
  constructor
  · exact List.Perm.length_eq
  · intro heq
    have hnil : lost = [] := by
      apply eq_nil_of_length_eq_zero
      have := hlost.length_eq
      rw [length_append] at this
      omega
    rwa [hnil, append_nil] at hlost

/-- Everything is returned, exactly once, when no page ends inside a group of equal rows. -/
theorem paginate_perm_iff (h : ∀ call after, IsPage key rows n after (fetch call after))
    (hn : 0 < n) {fuel : Nat} {rs : List R} (hrun : paginate key n fetch fuel 0 none = some rs) :
    rs.Perm rows ↔ Aligned key rows n := by
  have hstart : 0 * n + (remaining key rows none).length = rows.length := by
    rw [remaining_none, Nat.zero_mul, Nat.zero_add]
  have hlength := paginate_length_iff h hn hstart hrun
  rw [remaining_none] at hlength
  rw [paginate_perm_iff_length h hn hrun, hlength, Aligned]
  constructor
  · intro hall k r hr
    cases k with
    | zero => simp
    | succ k => exact hall (k + 1) (Nat.succ_pos k) r hr
  · exact fun hall j _ => hall j

/-- Distinct keys are always aligned. -/
theorem aligned_of_nodup (hnodup : (rows.map key).Nodup) (n : Nat) : Aligned key rows n := by
  intro k r _ hinside
  -- a group of one has no inside
  have hone : rows.countP (key · = key r) ≤ 1 := by
    have hcount := nodup_iff_count_le_one.mp hnodup (key r)
    rw [List.count, countP_map] at hcount
    exact hcount
  have hsplit : rows.countP (key · ≤ key r) ≤
      rows.countP (key · < key r) + rows.countP (key · = key r) := by
    have hfilter := countP_eq_countP_filter_add rows (fun x => decide (key x ≤ key r))
      (fun x => decide (key x < key r))
    have hless : (rows.filter fun x => decide (key x < key r)).countP (key · ≤ key r) ≤
        rows.countP (key · < key r) := by
      rw [countP_eq_length_filter (l := rows)]
      exact countP_le_length
    have hequal : (rows.filter fun x => !decide (key x < key r)).countP (key · ≤ key r) =
        rows.countP (key · = key r) := by
      rw [countP_filter]
      apply countP_congr
      intro x _
      simp only [Bool.and_eq_true, Bool.not_eq_true', decide_eq_true_eq, decide_eq_false_iff_not,
        not_lt]
      exact le_antisymm_iff.symm
    omega
  omega

end Pages

end Keyset
