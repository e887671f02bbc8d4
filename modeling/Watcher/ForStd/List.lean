import Mathlib

/-!
# Looking up elements of changed lists

Core computes `getElem?` of an appended or modified list. Proofs about a table of
objects that are changed one at a time want to know where an element came from.
The same question comes up for intercalated and for replaced lists, and for
histories that grow at their end.
-/

namespace List

variable {α β : Type _}

variable {l : List α} {f : α → α} {i j : Nat} {b a : α} {p : α → Bool} {γ : Type _}

/-- An element of a modified list is one of the old list, or the modified one. -/
theorem getElem?_modify_eq_some :
    (l.modify i f)[j]? = some b ↔ ∃ a, l[j]? = some a ∧ b = if i = j then f a else a := by
  rw [getElem?_modify]
  cases l[j]? with
  | none => simp
  | some a => simp [eq_comm]

/-- An element of `l ++ [a]` is one of `l`, or `a` at its end. -/
theorem getElem?_concat_eq_some :
    (l ++ [a])[j]? = some b ↔ l[j]? = some b ∨ j = l.length ∧ b = a := by
  rw [getElem?_append]
  split
  · rename_i hj
    constructor
    · exact .inl
    · rintro (h | ⟨rfl, -⟩)
      · exact h
      · omega
  · rename_i hj
    have hnone : l[j]? = none := getElem?_eq_none (by omega)
    rw [getElem?_singleton, hnone]
    constructor
    · intro h
      split at h
      · exact .inr ⟨by omega, (Option.some.inj h).symm⟩
      · exact nomatch h
    · rintro (h | ⟨rfl, rfl⟩)
      · exact nomatch h
      · simp

/-- What holds of every element holds after a change to one of them that keeps it. -/
theorem forall_mem_modify {P : α → Prop} (h : ∀ a ∈ l, P a)
    (hf : ∀ a, l[i]? = some a → P a → P (f a)) : ∀ a ∈ l.modify i f, P a := by
  intro b hb
  obtain ⟨j, hj⟩ := mem_iff_getElem?.mp hb
  obtain ⟨a, ha, rfl⟩ := getElem?_modify_eq_some.mp hj
  have hPa := h a (mem_of_getElem? ha)
  split
  · rename_i hij
    exact hf a (hij ▸ ha) hPa
  · exact hPa

theorem forall_mem_concat {P : α → Prop} (h : ∀ b ∈ l, P b) (ha : P a) : ∀ b ∈ l ++ [a], P b := by
  intro b hb
  rcases mem_append.mp hb with hb | hb
  · exact h b hb
  · rw [mem_singleton.mp hb]
    exact ha

/-- A change to one element that `g` does not see. -/
theorem map_modify_of_eq {g : α → β} (h : ∀ a, g (f a) = g a) : (l.modify i f).map g = l.map g := by
  apply ext_getElem?
  intro j
  simp only [getElem?_map, getElem?_modify]
  split
  · cases l[j]? with
    | none => rfl
    | some a => exact congrArg some (h a)
  · simp

/-- A sum over a list of which one element is changed. -/
theorem sum_map_modify (g : α → Nat) (h : l[i]? = some a) :
    ((l.modify i f).map g).sum + g a = (l.map g).sum + g (f a) := by
  induction l generalizing i with
  | nil => exact nomatch h
  | cons b l ih =>
    cases i with
    | zero =>
      rw [getElem?_cons_zero, Option.some.injEq] at h
      subst h
      simp only [modify_zero_cons, map_cons, sum_cons]
      omega
    | succ i =>
      rw [getElem?_cons_succ] at h
      have := ih h
      simp only [modify_succ_cons, map_cons, sum_cons]
      omega

theorem sum_map_le {f g : α → Nat} (h : ∀ a, f a ≤ g a) : (l.map f).sum ≤ (l.map g).sum := by
  induction l with
  | nil => exact Nat.le_refl _
  | cons a l ih =>
    have := h a
    simp only [map_cons, sum_cons]
    omega

/-- An element of a list with one more at its end is this last one or one of the list. -/
theorem concat_eq_append_cons {before after : List α} (h : l ++ [b] = before ++ a :: after) :
    (l = before ∧ b = a ∧ after = []) ∨
      ∃ after', l = before ++ a :: after' ∧ after = after' ++ [b] := by
  rcases eq_nil_or_concat after with rfl | ⟨after', last, rfl⟩
  · obtain ⟨rfl, hb⟩ := append_inj' h rfl
    exact .inl ⟨rfl, singleton_inj.mp hb, rfl⟩
  · rw [concat_eq_append, ← cons_append, ← append_assoc] at h
    obtain ⟨hl, hb⟩ := append_inj' h rfl
    exact .inr ⟨after', hl, by rw [concat_eq_append, singleton_inj.mp hb]⟩

/-- A property of every element and what comes before it. -/
theorem forall_concat_eq_append_cons {P : List α → α → Prop} :
    (∀ before a after, l ++ [b] = before ++ a :: after → P before a) ↔
      (∀ before a after, l = before ++ a :: after → P before a) ∧ P l b := by
  constructor
  · intro h
    refine ⟨?_, h l b [] rfl⟩
    intro before a after heq
    exact h before a (after ++ [b]) (by simp [heq])
  · intro ⟨hall, hlast⟩ before a after heq
    rcases concat_eq_append_cons heq with ⟨rfl, rfl, -⟩ | ⟨after', hl, -⟩
    · exact hlast
    · exact hall before a after' hl

/-- A fact about all elements of a list, from its evaluation on them. -/
theorem forall_mem_of_all {p : α → Prop} [DecidablePred p]
    (h : l.all (fun a => decide (p a)) = true) : ∀ a ∈ l, p a := by
  intro a ha
  exact of_decide_eq_true (all_eq_true.mp h a ha)

/-- An element of an intercalated list is in the separator or in one of the lists. -/
theorem mem_intercalate {sep : List α} {ls : List (List α)} (h : a ∈ sep.intercalate ls) :
    a ∈ sep ∨ ∃ l ∈ ls, a ∈ l := by
  induction ls with
  | nil => exact nomatch h
  | cons l ls ih =>
    cases ls with
    | nil =>
      rw [intercalate_singleton] at h
      exact .inr ⟨l, mem_cons_self, h⟩
    | cons l' ls =>
      rw [intercalate_cons_cons, append_assoc, mem_append, mem_append] at h
      rcases h with h | h | h
      · exact .inr ⟨l, mem_cons_self, h⟩
      · exact .inl h
      · apply (ih h).imp_right
        rintro ⟨k, hk, ha⟩
        exact ⟨k, mem_cons_of_mem l hk, ha⟩

/-- The pieces of a list do not have the separator in them. -/
theorem notMem_of_mem_splitOn [BEq α] [LawfulBEq α] {piece : List α} (h : piece ∈ l.splitOn a) :
    a ∉ piece := by
  unfold splitOn at h
  induction l generalizing piece with
  | nil =>
    rw [splitOnP_nil, mem_singleton] at h
    rw [h]
    exact not_mem_nil
  | cons b l ih =>
    rw [splitOnP_cons_eq_if_modifyHead] at h
    split at h
    · rcases mem_cons.mp h with rfl | h
      · exact not_mem_nil
      · exact ih h
    · rename_i hb
      have hba : b ≠ a := by simpa using hb
      obtain ⟨p, ps, hps⟩ := exists_cons_of_ne_nil (splitOnP_ne_nil (· == a) l)
      rw [hps, modifyHead_cons] at h
      rcases mem_cons.mp h with rfl | h
      · rw [mem_cons, not_or]
        exact ⟨Ne.symm hba, ih (hps ▸ mem_cons_self)⟩
      · exact ih (hps ▸ mem_cons_of_mem p h)

/-- The longest run that satisfies `p`, when it is known where it ends. -/
theorem span_append (hl : ∀ a ∈ l, p a = true) (hb : p b = false) (rest : List α) :
    (l ++ b :: rest).takeWhile p = l ∧ (l ++ b :: rest).dropWhile p = b :: rest := by
  rw [takeWhile_append_of_pos hl, dropWhile_append_of_pos hl]
  simp [hb]

/-- Replacing every element by one or more changes nothing only if every element is replaced by
    itself. -/
theorem flatMap_eq_self_iff {f : α → List α} (hf : ∀ a, f a ≠ []) (l : List α) :
    l.flatMap f = l ↔ ∀ a ∈ l, f a = [a] := by
  have hlength : ∀ l : List α, l.length ≤ (l.flatMap f).length := by
    intro l
    induction l with
    | nil => exact Nat.le_refl _
    | cons a l ih =>
      have := length_pos_iff.mpr (hf a)
      rw [flatMap_cons, length_append, length_cons]
      omega
  induction l with
  | nil => simp
  | cons a l ih =>
    rw [flatMap_cons, forall_mem_cons]
    constructor
    · intro h
      obtain ⟨b, bs, hb⟩ := exists_cons_of_ne_nil (hf a)
      rw [hb, cons_append] at h
      obtain ⟨rfl, htail⟩ := cons.inj h
      -- the rest is at least as long as before, so nothing is left of the first piece
      have hbs : bs = [] := by
        apply eq_nil_of_length_eq_zero
        have := congrArg length htail
        have := hlength l
        rw [length_append] at *
        omega
      rw [hbs, nil_append] at htail
      exact ⟨by rw [hb, hbs], ih.mp htail⟩
    · rintro ⟨ha, hl⟩
      rw [ha, ih.mpr hl]
      rfl

theorem getElem?_lt_length (h : l[j]? = some a) : j < l.length :=
  (getElem?_eq_some_iff.mp h).1

/-- Where keys are distinct, looking one up finds the entry that is there. -/
theorem lookup_eq_some_iff_mem [BEq α] [LawfulBEq α] {l : List (α × β)}
    (h : (l.map Prod.fst).Nodup) {k : α} {b : β} : l.lookup k = some b ↔ (k, b) ∈ l := by
  rw [lookup_eq_some_iff]
  constructor
  · rintro ⟨l₁, l₂, rfl, -⟩
    exact mem_append_right _ mem_cons_self
  · intro hmem
    obtain ⟨l₁, l₂, rfl⟩ := append_of_mem hmem
    refine ⟨l₁, l₂, rfl, fun p hp => ?_⟩
    rw [map_append, map_cons, nodup_append] at h
    rw [bne_iff_ne]
    exact fun heq => h.2.2 p.1 (mem_map_of_mem hp) k mem_cons_self heq.symm

/-- What a list keeps of its elements, by the part of them that is kept. -/
theorem filterMap_map_sublist {δ : Type _} {f : α → Option γ} {g : γ → δ} {k : α → δ}
    (h : ∀ a c, f a = some c → g c = k a) (l : List α) :
    ((l.filterMap f).map g).Sublist (l.map k) := by
  induction l with
  | nil => exact .slnil
  | cons a l ih =>
    cases hf : f a with
    | none =>
      rw [filterMap_cons_none hf, map_cons]
      exact ih.cons _
    | some c =>
      rw [filterMap_cons_some hf, map_cons, map_cons, h a c hf]
      exact ih.cons_cons _

theorem lookup_map_eq_find? [BEq α] {f : γ → α} {g : γ → β} (l : List γ) (k : α) :
    (l.map fun c => (f c, g c)).lookup k = (l.find? fun c => k == f c).map g := by
  induction l with
  | nil => rfl
  | cons c l ih =>
    rw [map_cons, lookup_cons, find?_cons]
    cases k == f c with
    | true => rfl
    | false => exact ih

/-- Finding by a name that `f` keeps, where names are distinct. -/
theorem find?_filterMap_of_nodup {δ : Type _} [DecidableEq δ] {f : α → Option γ} {g : γ → δ}
    {k : α → δ} (hf : ∀ a c, f a = some c → g c = k a) (hl : (l.map k).Nodup) (d : δ) :
    (l.filterMap f).find? (fun c => g c = d) = (l.find? fun a => k a = d).bind f := by
  induction l with
  | nil => rfl
  | cons a l ih =>
    rw [map_cons, nodup_cons] at hl
    have hrest := ih hl.2
    by_cases hd : k a = d
    · rw [find?_cons_of_pos (by simpa using hd), Option.bind_some]
      cases hfa : f a with
      | some c =>
        have hc : g c = d := (hf a c hfa).trans hd
        rw [filterMap_cons_some hfa, find?_cons_of_pos (by simpa using hc)]
      | none =>
        -- nothing else has the name
        have hnone : l.find? (fun b => k b = d) = none := by
          rw [find?_eq_none]
          intro b hb
          have hne : k b ≠ d := fun he => hl.1 (mem_map.mpr ⟨b, hb, he.trans hd.symm⟩)
          simpa using hne
        rw [filterMap_cons_none hfa, hrest, hnone]
        rfl
    · rw [find?_cons_of_neg (by simpa using hd), ← hrest]
      cases hfa : f a with
      | some c =>
        have hc : g c ≠ d := fun he => hd ((hf a c hfa).symm.trans he)
        rw [filterMap_cons_some hfa, find?_cons_of_neg (by simpa using hc)]
      | none => rw [filterMap_cons_none hfa]

/-- What a partial function gives last comes from an element after which it gives nothing. -/
theorem getLast?_filterMap_eq_some_iff {f : α → Option β} {b : β} :
    (l.filterMap f).getLast? = some b ↔
      ∃ before a after, l = before ++ a :: after ∧ f a = some b ∧ ∀ x ∈ after, f x = none := by
  rw [getLast?_filterMap, findSome?_eq_some_iff]
  constructor
  · rintro ⟨after, a, before, hl, ha, hafter⟩
    refine ⟨before.reverse, a, after.reverse, ?_, ha, ?_⟩
    · rw [← reverse_reverse l, hl, reverse_append, reverse_cons, append_assoc, singleton_append]
    · intro x hx
      exact hafter x (mem_reverse.mp hx)
  · rintro ⟨before, a, after, rfl, ha, hafter⟩
    refine ⟨after.reverse, a, before.reverse, ?_, ha, ?_⟩
    · rw [reverse_append, reverse_cons, append_assoc, singleton_append]
    · intro x hx
      exact hafter x (mem_reverse.mp hx)

/-- A predicate that is stronger, and false of an element that the other one counts. -/
theorem countP_lt_countP_of_mem {q : α → Bool} (ha : a ∈ l)
    (hpq : ∀ x ∈ l, p x = true → q x = true) (hq : q a = true) (hp : p a = false) :
    l.countP p < l.countP q := by
  obtain ⟨l₁, l₂, rfl⟩ := append_of_mem ha
  have h₁ : l₁.countP p ≤ l₁.countP q :=
    countP_mono_left fun x hx => hpq x (mem_append_left _ hx)
  have h₂ : l₂.countP p ≤ l₂.countP q :=
    countP_mono_left fun x hx => hpq x (mem_append_right _ (mem_cons_of_mem a hx))
  rw [countP_append, countP_append, countP_cons_of_neg (by simp [hp]), countP_cons_of_pos hq]
  omega

/-- Where no piece is longer than its counterpart, equal results have pieces of equal lengths. -/
theorem length_eq_of_flatMap_eq {f g : α → List β} (hle : ∀ a ∈ l, (f a).length ≤ (g a).length)
    (h : l.flatMap f = l.flatMap g) : ∀ a ∈ l, (f a).length = (g a).length := by
  have hlength : ∀ l : List α, (∀ a ∈ l, (f a).length ≤ (g a).length) →
      (l.flatMap f).length ≤ (l.flatMap g).length ∧
        ((l.flatMap f).length = (l.flatMap g).length → ∀ a ∈ l, (f a).length = (g a).length) := by
    intro l
    induction l with
    | nil => exact fun _ => ⟨Nat.le_refl _, fun _ a ha => nomatch ha⟩
    | cons a l ih =>
      intro hle
      have ha := hle a mem_cons_self
      obtain ⟨hless, heq⟩ := ih fun b hb => hle b (mem_cons_of_mem a hb)
      rw [flatMap_cons, flatMap_cons, length_append, length_append]
      refine ⟨by omega, fun hsum b hb => ?_⟩
      rcases mem_cons.mp hb with rfl | hb
      · omega
      · exact heq (by omega) b hb
  exact (hlength l hle).2 (by rw [h])

/-- In a sorted list, what an upward closed predicate holds of comes last. -/
theorem filter_not_append_filter {R : α → α → Prop} (hl : l.Pairwise R)
    (hp : ∀ a b, R a b → p a = true → p b = true) : l.filter (fun a => !p a) ++ l.filter p = l := by
  induction l with
  | nil => rfl
  | cons a l ih =>
    obtain ⟨ha, hl⟩ := pairwise_cons.mp hl
    cases hpa : p a with
    | false => simp [hpa, ih hl]
    | true =>
      have hall : ∀ b ∈ l, p b = true := fun b hb => hp a b (ha b hb) hpa
      have hnone : l.filter (fun b => !p b) = [] :=
        filter_eq_nil_iff.mpr fun b hb => by simp [hall b hb]
      simp [hpa, hnone, filter_eq_self.mpr hall]

/-- Of a sorted list, what comes from `a` on: `a` itself and what comes after it. -/
theorem filter_eq_cons_filter {R : α → α → Prop} {q : α → Bool} (hl : l.Pairwise R) (ha : a ∈ l)
    (hpa : p a = true) (hqa : q a = false) (hbefore : ∀ b, R b a → p b = false ∧ q b = false)
    (hafter : ∀ b, R a b → p b = q b) : l.filter p = a :: l.filter q := by
  obtain ⟨l₁, l₂, rfl⟩ := append_of_mem ha
  obtain ⟨-, h₂, h₁⟩ := pairwise_append.mp hl
  have hp₁ : l₁.filter p = [] := filter_eq_nil_iff.mpr fun b hb => by
    simp [(hbefore b (h₁ b hb a mem_cons_self)).1]
  have hq₁ : l₁.filter q = [] := filter_eq_nil_iff.mpr fun b hb => by
    simp [(hbefore b (h₁ b hb a mem_cons_self)).2]
  have h₂ : l₂.filter p = l₂.filter q :=
    filter_congr fun b hb => hafter b ((pairwise_cons.mp h₂).1 b hb)
  simp [filter_append, hp₁, hq₁, hpa, hqa, h₂]

end List
