import Mathlib

/-!
# Numerals and separators

A rendering of the digits of a base determines the number, and a separator that
does not occur in what follows it determines where it stands. Together they make
identifiers that are built from numbers and separators uniquely readable from
the right.
-/

namespace Nat

open List

/-- What holds of every digit of a base holds of every character of a numeral. -/
theorem forall_mem_toDigits {b : Nat} (hb : 1 < b) {P : Char → Prop}
    (hP : ∀ d < b, P d.digitChar) (n : Nat) : ∀ c ∈ toDigits b n, P c := by
  induction n using Nat.strongRecOn with
  | ind n ih =>
    rw [toDigits_eq_if hb]
    split
    · next hlt =>
      intro c hc
      rw [mem_singleton.mp hc]
      exact hP n hlt
    · next hge =>
      have hdiv : n / b < n := Nat.div_lt_self (by omega) hb
      intro c hc
      rcases mem_append.mp hc with hc | hc
      · exact ih (n / b) hdiv c hc
      · rw [mem_singleton.mp hc]
        exact hP _ (Nat.mod_lt n (by omega))

/-- A numeral is read digit by digit. -/
theorem foldl_toDigits {b : Nat} (hb : 1 < b) {f : Char → Nat} (hf : ∀ d < b, f d.digitChar = d)
    (n : Nat) : (toDigits b n).foldl (fun m c => b * m + f c) 0 = n := by
  induction n using Nat.strongRecOn with
  | ind n ih =>
    rw [toDigits_eq_if hb]
    split
    · next hlt =>
      rw [foldl_cons, foldl_nil, hf n hlt, Nat.mul_zero, Nat.zero_add]
    · next hge =>
      have hdiv : n / b < n := Nat.div_lt_self (by omega) hb
      rw [foldl_append, ih (n / b) hdiv, foldl_cons, foldl_nil,
        hf _ (Nat.mod_lt n (by omega)), Nat.div_add_mod]

/-- The numeral of a number other than zero does not start with a zero. -/
theorem head?_toDigits {b n : Nat} (hb : 1 < b) (hn : n ≠ 0) :
    ∃ d < b, d ≠ 0 ∧ (toDigits b n).head? = some d.digitChar := by
  induction n using Nat.strongRecOn with
  | ind n ih =>
    rw [toDigits_eq_if hb]
    split
    · next hlt => exact ⟨n, hlt, hn, rfl⟩
    · next hge =>
      have hdiv : n / b < n := Nat.div_lt_self (by omega) hb
      have hne : n / b ≠ 0 := by
        rw [Nat.div_ne_zero_iff]
        omega
      obtain ⟨d, hd, hd0, hhead⟩ := ih (n / b) hdiv hne
      exact ⟨d, hd, hd0, by rw [head?_append, hhead, Option.some_or]⟩

/-- Numerals whose digits are rendered differently are different. -/
theorem toDigits_map_inj {β : Type _} {b : Nat} (hb : 1 < b) {f : Char → β}
    (hf : ∀ d < b, ∀ e < b, f d.digitChar = f e.digitChar → d = e) {n m : Nat}
    (h : (toDigits b n).map f = (toDigits b m).map f) : n = m := by
  induction n using Nat.strongRecOn generalizing m with
  | ind n ih =>
    have hne : ∀ k, ((toDigits b k).map f).length ≠ 0 := by
      intro k hk
      rw [length_map] at hk
      exact toDigits_ne_nil (length_eq_zero_iff.mp hk)
    rw [toDigits_eq_if (n := n) hb, toDigits_eq_if (n := m) hb] at h
    -- one digit on one side and more on the other differ in length
    split at h <;> split at h
    · next hn hm =>
      exact hf n hn m hm (singleton_inj.mp h)
    · have hlen := congrArg List.length h
      simp only [map_append, map_cons, map_nil, length_append, length_singleton] at hlen
      exact absurd (by omega) (hne (m / b))
    · have hlen := congrArg List.length h
      simp only [map_append, map_cons, map_nil, length_append, length_singleton] at hlen
      exact absurd (by omega) (hne (n / b))
    · next hn hm =>
      simp only [map_append, map_cons, map_nil] at h
      obtain ⟨hdiv, hmod⟩ := append_inj' h rfl
      have hdiv' := ih (n / b) (Nat.div_lt_self (by omega) hb) hdiv
      have hmod' := hf _ (Nat.mod_lt n (by omega)) _ (Nat.mod_lt m (by omega))
        (singleton_inj.mp hmod)
      rw [← Nat.div_add_mod n b, ← Nat.div_add_mod m b, hdiv', hmod']

end Nat

namespace List

/-- The last separator of a list splits it in one way only. -/
theorem append_cons_inj_of_notMem_right {α : Type _} {sep : α} {x x' y y' : List α}
    (hy : sep ∉ y) (hy' : sep ∉ y') (h : x ++ sep :: y = x' ++ sep :: y') : x = x' ∧ y = y' := by
  rcases append_eq_append_iff.mp h with ⟨a, rfl, ha⟩ | ⟨a, rfl, ha⟩
  · cases a with
    | nil =>
      rw [nil_append, cons.injEq] at ha
      exact ⟨(append_nil x).symm, ha.2⟩
    | cons c a =>
      -- then the other separator stands in `y`
      rw [cons_append, cons.injEq] at ha
      exact absurd (ha.2 ▸ mem_append_right a mem_cons_self) hy
  · cases a with
    | nil =>
      rw [nil_append, cons.injEq] at ha
      exact ⟨append_nil x', ha.2.symm⟩
    | cons c a =>
      rw [cons_append, cons.injEq] at ha
      exact absurd (ha.2 ▸ mem_append_right a mem_cons_self) hy'

end List
