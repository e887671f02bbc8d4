import Watcher.Lib.Keyset

/-!
# Keyset pagination of rows that change

Each page is of the rows there are when it is fetched. Every key between two
cursors is looked at once, so a row that is there all the time is returned, and
what is returned was there when its page was fetched. As long as keys come from
a finite set the scan ends, since the cursor only moves on.
-/

namespace Keyset

variable {R K : Type _} [LinearOrder K] {key : R → K} {n : Nat}

/-- The key comes after the cursor. -/
def Beyond (after : Option K) (k : K) : Prop := ∀ v ∈ after, v < k

instance (after : Option K) : DecidablePred (Beyond after) :=
  fun k => inferInstanceAs (Decidable (∀ v ∈ after, v < k))

theorem past_iff {after : Option K} {r : R} : past key after r = true ↔ Beyond after (key r) := by
  cases after <;> simp [past, Beyond]

theorem Beyond.trans {after : Option K} {v k : K} (h : Beyond after v)
    (hk : Beyond (some v) k) : Beyond after k :=
  fun w hw => lt_trans (h w hw) (hk v rfl)

/-! ### One page -/

section Page

variable {rows page : List R} {after : Option K}

theorem IsPage.mem (h : IsPage key rows n after page) {r : R} (hr : r ∈ page) :
    r ∈ rows ∧ Beyond after (key r) := by
  obtain ⟨sorted, hperm, -, rfl⟩ := h
  have hmem := List.mem_filter.mp (hperm.subset (List.mem_of_mem_take hr))
  exact ⟨hmem.1, past_iff.mp hmem.2⟩

/-- A page that is not full has all rows after the cursor. -/
theorem IsPage.mem_of_short (h : IsPage key rows n after page) (hshort : page.length < n) {r : R}
    (hr : r ∈ rows) (hpast : Beyond after (key r)) : r ∈ page :=
  (h.perm_of_short hshort).symm.subset (List.mem_filter.mpr ⟨hr, past_iff.mpr hpast⟩)

/-- A full page has a row for each key up to its last one. -/
theorem IsPage.mem_of_full (h : IsPage key rows n after page) (hn : 0 < n)
    (hfull : ¬page.length < n) {r : R} (hr : r ∈ rows) (hpast : Beyond after (key r)) :
    ∃ last, page.getLast? = some last ∧
      (key last < key r ∨ ∃ r' ∈ page, key r' = key r) := by
  obtain ⟨last, rest, hlast, -, hperm, -, hrest, -⟩ := h.full hn hfull
  refine ⟨last, hlast, ?_⟩
  have hmem : r ∈ page ++ rest :=
    hperm.symm.subset (List.mem_filter.mpr ⟨hr, past_iff.mpr hpast⟩)
  cases List.mem_append.mp hmem with
  | inl hpage => exact .inr ⟨r, hpage, rfl⟩
  | inr hrest' =>
    cases lt_or_eq_of_le (hrest r hrest') with
    | inl hlt => exact .inl hlt
    | inr heq => exact .inr ⟨last, List.mem_of_getLast? hlast, heq⟩

end Page

/-! ### All pages -/

section Scan

variable {rowsAt : Nat → List R} {fetch : Nat → Option K → List R}
  (h : ∀ call after, IsPage key (rowsAt call) n after (fetch call after))
include h

/-- What is returned was there when its page was fetched. -/
theorem paginate_mem {fuel call : Nat} {after : Option K} {rs : List R}
    (hrun : paginate key n fetch fuel call after = some rs) {r : R} (hr : r ∈ rs) :
    ∃ i, r ∈ rowsAt i := by
  induction fuel generalizing call after rs with
  | zero => cases hrun
  | succ fuel ih =>
    rw [paginate] at hrun
    split at hrun
    · cases hrun
      exact ⟨call, ((h call after).mem hr).1⟩
    · obtain ⟨later, hlater, rfl⟩ := Option.map_eq_some_iff.mp hrun
      cases List.mem_append.mp hr with
      | inl hpage => exact ⟨call, ((h call after).mem hpage).1⟩
      | inr hr => exact ih hlater hr

/-- A key that is always there is returned. -/
theorem paginate_complete (hn : 0 < n) {k : K} (hk : ∀ i, ∃ r ∈ rowsAt i, key r = k)
    {fuel call : Nat} {after : Option K} (hpast : Beyond after k) {rs : List R}
    (hrun : paginate key n fetch fuel call after = some rs) : ∃ r ∈ rs, key r = k := by
  induction fuel generalizing call after rs with
  | zero => cases hrun
  | succ fuel ih =>
    obtain ⟨r, hr, rfl⟩ := hk call
    rw [paginate] at hrun
    split at hrun
    · rename_i hshort
      cases hrun
      exact ⟨r, (h call after).mem_of_short hshort hr hpast, rfl⟩
    · rename_i hfull
      obtain ⟨later, hlater, rfl⟩ := Option.map_eq_some_iff.mp hrun
      obtain ⟨last, hlast, hcases⟩ := (h call after).mem_of_full hn hfull hr hpast
      rw [hlast, Option.map_some] at hlater
      cases hcases with
      | inl hlt =>
        have hnext : Beyond (some (key last)) (key r) := by
          intro v hv
          cases hv
          exact hlt
        obtain ⟨r', hr', heq⟩ := ih hnext hlater
        exact ⟨r', List.mem_append_right _ hr', heq⟩
      | inr hpage =>
        obtain ⟨r', hr', heq⟩ := hpage
        exact ⟨r', List.mem_append_left _ hr', heq⟩

/-- The cursor moves past at least one of the keys with every full page. -/
theorem paginate_ends (hn : 0 < n) {keys : Finset K}
    (hkeys : ∀ i, ∀ r ∈ rowsAt i, key r ∈ keys) (fuel call : Nat) (after : Option K)
    (hfuel : (keys.filter (Beyond after)).card < fuel) :
    (paginate key n fetch fuel call after).isSome = true := by
  induction fuel generalizing call after with
  | zero => omega
  | succ fuel ih =>
    rw [paginate]
    split
    · rfl
    · rename_i hfull
      obtain ⟨last, rest, hlast, -⟩ := (h call after).full hn hfull
      obtain ⟨hmem, hpast⟩ := (h call after).mem (List.mem_of_getLast? hlast)
      rw [hlast, Option.map_some, Option.isSome_map]
      apply ih
      -- the key of the last row is no longer in front
      have hless : (keys.filter (Beyond (some (key last)))).card <
          (keys.filter (Beyond after)).card := by
        apply Finset.card_lt_card
        rw [Finset.ssubset_iff_of_subset]
        · refine ⟨key last, Finset.mem_filter.mpr ⟨hkeys call last hmem, hpast⟩, ?_⟩
          intro hin
          exact lt_irrefl _ ((Finset.mem_filter.mp hin).2 (key last) rfl)
        · intro k hk
          obtain ⟨hin, hbeyond⟩ := Finset.mem_filter.mp hk
          exact Finset.mem_filter.mpr ⟨hin, hpast.trans hbeyond⟩
      omega

end Scan

end Keyset
