import Watcher.ForStd.List
import Watcher.Spec.MysqlSourceId

/-!
# The changes of a binlog in order, and what is left of it after a position

A process that starts at a boundary reads the rest of the binlog from there on.
That rest is a binlog itself (`Binlog.cutAt`), so what is known of a process that
reads a whole binlog is known of it as well; only the indices of the files are
different.

## Key results

- `Binlog.effects_split`: what precedes a position comes first
- `Binlog.after_effects`: the rest after a position, as a binlog of its own
- `Binlog.before_cutAt`: positions mean the same in both
- `Binlog.nodup_messageIDs`: no two events of a binlog have the same message id
-/

namespace Mysql

open Cdc List

/-! ## Order -/

/-- Not after, in the order of the binlog. -/
def Loc.NotAfter (x y : Loc) : Prop := x.1 < y.1 ∨ x.1 = y.1 ∧ x.2 ≤ y.2

namespace Binlog

variable {b : Binlog}

/-- The effects of a file, in order. -/
private theorem sorted_file (i : Nat) {f : BinlogFile} (hf : f ∈ b.files) :
    (fileEffects i f).Pairwise fun x y => Loc.NotAfter x.1 y.1 := by
  rw [fileEffects, pairwise_append]
  refine ⟨pairwise_replicate.mpr (Or.inr (Or.inr ⟨rfl, Nat.le_refl _⟩)), ?_, ?_⟩
  · rw [txnsEffects, pairwise_flatMap]
    refine ⟨fun t _ => ?_, (b.txns_ordered f hf).imp_of_mem fun {t u} ht _ hle x hx y hy => ?_⟩
    · rw [pairwise_map]
      exact pairwise_of_forall_mem_list fun _ _ _ _ => Or.inr ⟨rfl, Nat.le_refl _⟩
    · -- a transaction ends before the next one starts
      obtain ⟨_, -, rfl⟩ := mem_map.mp hx
      obtain ⟨_, -, rfl⟩ := mem_map.mp hy
      have h₁ := (b.txns_wf f hf t ht).start_lt
      have h₂ := (b.txns_wf f hf t ht).gtidEnd_lt
      exact Or.inr ⟨rfl, by simp only; omega⟩
  · intro x hx y hy
    rw [eq_of_mem_replicate hx]
    obtain ⟨t, -, hloc, -⟩ := mem_txnsEffects hy
    rw [hloc]
    exact Or.inr ⟨rfl, Nat.zero_le _⟩

/-- The listener reads the binlog from its start to its end. -/
theorem effects_sorted (b : Binlog) :
    b.effects.Pairwise fun x y => Loc.NotAfter x.1 y.1 := by
  have hfiles : ∀ i fs, (∀ f ∈ fs, f ∈ b.files) →
      (filesEffects i fs).Pairwise fun x y => Loc.NotAfter x.1 y.1 := by
    intro i fs
    induction fs generalizing i with
    | nil => exact fun _ => List.Pairwise.nil
    | cons f fs ih =>
      intro hfs
      rw [filesEffects, pairwise_append]
      refine ⟨sorted_file i (hfs f mem_cons_self),
        ih (i + 1) fun g hg => hfs g (mem_cons_of_mem f hg), fun x hx y hy => Or.inl ?_⟩
      rw [mem_fileEffects_index hx]
      exact mem_filesEffects_index hy
  exact hfiles 0 b.files fun f hf => hf

/-- What precedes a position comes first. -/
theorem effects_split (b : Binlog) (pos : BinlogPosition) :
    b.effects = b.effects.filter (fun x => b.before x.1 pos) ++ b.after pos b.effects := by
  have hsplit := filter_not_append_filter (p := fun x : Loc × Effect => !b.before x.1 pos)
    b.effects_sorted ?_
  · simp only [Bool.not_not] at hsplit
    exact hsplit.symm
  · intro x y hle hx
    simp only [Bool.not_eq_true', before] at hx ⊢
    split
    · rfl
    · rename_i i hi
      simp only [hi, Bool.or_eq_false_iff, Bool.and_eq_false_imp, decide_eq_false_iff_not,
        decide_eq_true_eq] at hx ⊢
      rcases hle with hle | ⟨hle, hle'⟩ <;> omega

end Binlog

/-! ## The rest of a binlog -/

/-- The file without what starts before a position in it; no switch to it is reported. -/
def BinlogFile.cut (f : BinlogFile) (position : Nat) : BinlogFile :=
  ⟨f.name, 0, f.txns.filter fun t => !decide (t.start < position)⟩

theorem BinlogFile.mem_cut {f : BinlogFile} {position : Nat} {t : BinlogTxn}
    (h : t ∈ (f.cut position).txns) : t ∈ f.txns := (mem_filter.mp h).1

namespace Binlog

variable {b : Binlog} {pre post : List BinlogFile} {f : BinlogFile}

/-- Only the first file may lack its switch, and it is not after another one. -/
theorem mem_others (hsplit : b.files = pre ++ f :: post) {g : BinlogFile} (hg : g ∈ post) :
    g ∈ b.others := by
  have hfiles : b.first :: b.others = pre ++ f :: post := hsplit
  cases pre with
  | nil => rwa [(List.cons.inj hfiles).2]
  | cons p pre =>
    rw [(List.cons.inj hfiles).2]
    exact mem_append_right _ (mem_cons_of_mem f hg)

theorem mem_files (hsplit : b.files = pre ++ f :: post) : f ∈ b.files := by
  rw [hsplit]
  exact mem_append_right _ mem_cons_self

/-- What is left of the binlog from a position in the file `f` on. -/
def cutAt (b : Binlog) (hsplit : b.files = pre ++ f :: post) (position : Nat) : Binlog where
  first := f.cut position
  others := post
  names_nodup := by
    have hnodup : (b.files.map BinlogFile.name).Nodup := b.names_nodup
    rw [hsplit, map_append] at hnodup
    exact (nodup_append.mp hnodup).2.1
  names_ne := by
    refine forall_mem_cons.mpr ⟨b.names_ne f (mem_files hsplit), fun g hg => ?_⟩
    exact b.names_ne g (mem_cons_of_mem _ (mem_others hsplit hg))
  rotated := fun g hg => b.rotated g (mem_others hsplit hg)
  txns_wf := by
    refine forall_mem_cons.mpr ⟨fun t ht => ?_, fun g hg => ?_⟩
    · exact b.txns_wf f (mem_files hsplit) t (BinlogFile.mem_cut ht)
    · exact b.txns_wf g (mem_cons_of_mem _ (mem_others hsplit hg))
  txns_ordered := by
    refine forall_mem_cons.mpr ⟨(b.txns_ordered f (mem_files hsplit)).filter _, fun g hg => ?_⟩
    exact b.txns_ordered g (mem_cons_of_mem _ (mem_others hsplit hg))

/-- The same place when there are `n` more files before it. -/
def shift (n : Nat) (x : Loc × Effect) : Loc × Effect := ((x.1.1 + n, x.1.2), x.2)

theorem filesEffects_shift (n i : Nat) (fs : List BinlogFile) :
    filesEffects (i + n) fs = (filesEffects i fs).map (shift n) := by
  have htxns : ∀ i file txns, txnsEffects (i + n) file txns =
      (txnsEffects i file txns).map (shift n) := by
    intro i file txns
    rw [txnsEffects, txnsEffects, map_flatMap]
    refine congrArg (List.flatMap · txns) (funext fun t => ?_)
    rw [map_map]
    rfl
  induction fs generalizing i with
  | nil => rfl
  | cons f fs ih =>
    rw [filesEffects, filesEffects, map_append, ← ih (i + 1), Nat.add_right_comm, fileEffects,
      fileEffects, map_append, htxns, map_replicate]
    rfl

theorem fileIndex_split (hsplit : b.files = pre ++ f :: post) :
    b.fileIndex f.name = some pre.length :=
  fileIndex_name (by rw [hsplit]; simp)

/-- The rest of a binlog after a position, as a binlog of its own. -/
theorem after_effects (hsplit : b.files = pre ++ f :: post) {position : Nat}
    (hpos : 0 < position) :
    b.after ⟨f.name, position⟩ b.effects =
      (b.cutAt hsplit position).effects.map (shift pre.length) := by
  have hindex := fileIndex_split hsplit
  have hpre : ∀ (j : Nat) (pre' : List BinlogFile), j + pre'.length = pre.length →
      b.after ⟨f.name, position⟩ (filesEffects j (pre' ++ f :: post)) =
        b.after ⟨f.name, position⟩ (filesEffects pre.length (f :: post)) := by
    intro j pre'
    induction pre' generalizing j with
    | nil =>
      intro hj
      rw [← hj]
      rfl
    | cons g pre' ih =>
      -- an earlier file leaves nothing
      intro hj
      rw [length_cons] at hj
      have hnil : b.after ⟨f.name, position⟩ (fileEffects j g) = [] :=
        after_eq_nil hindex fun x hx => by rw [mem_fileEffects_index hx]; omega
      rw [cons_append, filesEffects, after_append, hnil, nil_append]
      exact ih (j + 1) (by omega)
  rw [effects, hsplit, hpre 0 pre (Nat.zero_add _), filesEffects, after_append, fileEffects,
    after_append, after_rotations hindex hpos, nil_append, txnsEffects, after_txns hindex,
    after_eq_self hindex fun x hx => mem_filesEffects_index hx]
  have hcut := filesEffects_shift pre.length 0 (f.cut position :: post)
  rw [Nat.zero_add] at hcut
  rw [show (b.cutAt hsplit position).effects = filesEffects 0 (f.cut position :: post) from rfl,
    ← hcut, filesEffects, fileEffects]
  rfl

/-- A boundary of the rest is a boundary of the whole. -/
theorem IsBoundary.of_cutAt {hsplit : b.files = pre ++ f :: post} {position : Nat}
    {pos : BinlogPosition} (h : (b.cutAt hsplit position).IsBoundary pos) : b.IsBoundary pos := by
  obtain ⟨g, hg, hname, hpos⟩ := h
  rcases mem_cons.mp hg with rfl | hg
  · refine ⟨f, mem_files hsplit, hname, ?_⟩
    rcases hpos with hpos | ⟨t, ht, hpos⟩
    · exact Or.inl hpos
    · exact Or.inr ⟨t, BinlogFile.mem_cut ht, hpos⟩
  · exact ⟨g, mem_cons_of_mem _ (mem_others hsplit hg), hname, hpos⟩

/-- A position in the rest precedes the same things in the whole. -/
theorem before_cutAt {hsplit : b.files = pre ++ f :: post} {position : Nat} {pos : BinlogPosition}
    (h : (b.cutAt hsplit position).IsBoundary pos) (x : Loc × Effect) :
    b.before (shift pre.length x).1 pos = (b.cutAt hsplit position).before x.1 pos := by
  obtain ⟨g, hg, hname, -⟩ := h
  obtain ⟨j, hj⟩ := mem_iff_getElem?.mp hg
  have hcut : (b.cutAt hsplit position).fileIndex pos.file = some j := by
    rw [hname]
    exact fileIndex_name hj
  -- the file is the same, but for what was cut off it
  obtain ⟨g', hj', hname'⟩ : ∃ g', b.files[j + pre.length]? = some g' ∧ g'.name = g.name := by
    rw [hsplit, getElem?_append_right (Nat.le_add_left _ _), Nat.add_sub_cancel]
    cases j with
    | zero =>
      obtain rfl : f.cut position = g := Option.some.inj hj
      exact ⟨f, rfl, rfl⟩
    | succ j => exact ⟨g, hj, rfl⟩
  have hwhole : b.fileIndex pos.file = some (j + pre.length) := by
    rw [hname, ← hname']
    exact fileIndex_name hj'
  show b.before (x.1.1 + pre.length, x.1.2) pos = _
  rw [before, before, hcut, hwhole, Bool.eq_iff_iff]
  simp only [Bool.or_eq_true, Bool.and_eq_true, decide_eq_true_eq]
  omega

end Binlog

/-! ## Message ids -/

/-- The event that the bus is given to publish, if it takes it. -/
def Effect.taken : Effect → Option Event
  | .emit e => if Service.opened.handleEvent e then some e else none
  | .handle _ | .committed _ => none

/-- The message ids of the events that the bus takes. -/
def messageIDsOf (subjectPrefix : GoString) (es : List (Loc × Effect)) : List GoString :=
  (es.filterMap fun x => x.2.taken).map (Nats.messageID subjectPrefix [])

/-- The message ids of a binlog, in order. -/
def Binlog.messageIDs (b : Binlog) (subjectPrefix : GoString) : List GoString :=
  messageIDsOf subjectPrefix b.effects

theorem messageIDsOf_append (subjectPrefix : GoString) (es es' : List (Loc × Effect)) :
    messageIDsOf subjectPrefix (es ++ es') =
      messageIDsOf subjectPrefix es ++ messageIDsOf subjectPrefix es' := by
  rw [messageIDsOf, filterMap_append, map_append]
  rfl

theorem messageIDsOf_shift (subjectPrefix : GoString) (n : Nat) (es : List (Loc × Effect)) :
    messageIDsOf subjectPrefix (es.map (Binlog.shift n)) = messageIDsOf subjectPrefix es := by
  rw [messageIDsOf, filterMap_map]
  rfl

/-- What is left, by the next effect and what is left after it. -/
theorem messageIDsOf_drop {es : List (Loc × Effect)} {n : Nat} {loc : Loc} {eff : Effect}
    (h : es[n]? = some (loc, eff)) (subjectPrefix : GoString) :
    messageIDsOf subjectPrefix (es.drop n) =
      eff.taken.toList.map (Nats.messageID subjectPrefix []) ++
        messageIDsOf subjectPrefix (es.drop (n + 1)) := by
  rw [drop_eq_getElem?_toList_append, h, messageIDsOf_append]
  cases htaken : eff.taken with
  | none => simp [messageIDsOf, htaken]
  | some e => simp [messageIDsOf, htaken]

/-- What the listener does: it records positions, emits events of its own, and passes on the end of
    a transaction, which is not published. -/
theorem Binlog.effect_cases {b : Binlog} {loc : Loc} {eff : Effect} (h : (loc, eff) ∈ b.effects) :
    (∃ pos, eff = .committed pos) ∨ (∃ e, eff = .emit e ∧ ownEvent e = true) ∨
      ∃ e, eff = .handle e ∧ isPublishable e.type = false := by
  obtain ⟨j, f, -, h⟩ := Binlog.mem_filesEffects h
  rw [fileEffects, mem_append] at h
  rcases h with h | h
  · cases eq_of_mem_replicate h
    exact Or.inl ⟨_, rfl⟩
  · obtain ⟨t, -, -, h⟩ := Binlog.mem_txnsEffects h
    rcases mem_cons.mp h with rfl | h
    · exact Or.inl ⟨_, rfl⟩
    · cases hb : t.body with
      | rows events xidReported =>
        simp only [bodyEffects, hb, mem_append, mem_cons, not_mem_nil, or_false] at h
        rcases h with h | rfl | rfl
        · exact Or.inr (Or.inl (mem_rowsEffects h))
        · exact Or.inr (Or.inr ⟨_, rfl, rfl⟩)
        · exact Or.inl ⟨_, rfl⟩
      | ddl schema query =>
        simp only [bodyEffects, hb, mem_cons, not_mem_nil, or_false] at h
        rcases h with rfl | rfl
        · refine Or.inr (Or.inl ⟨_, rfl, ?_⟩)
          simp [ownEvent, ddlID, newEvent, isPublishable, append_assoc]
        · exact Or.inl ⟨_, rfl⟩

theorem Binlog.ownEvent_of_emit {b : Binlog} {loc : Loc} {e : Event}
    (h : (loc, .emit e) ∈ b.effects) : ownEvent e = true := by
  rcases effect_cases h with ⟨pos, hpos⟩ | ⟨e', he', hown⟩ | ⟨e', he', -⟩
  · cases hpos
  · cases he'
    exact hown
  · cases he'

theorem Binlog.publishable_of_handle {b : Binlog} {loc : Loc} {e : Event}
    (h : (loc, .handle e) ∈ b.effects) : isPublishable e.type = false := by
  rcases effect_cases h with ⟨pos, hpos⟩ | ⟨e', he', -⟩ | ⟨e', he', hpub⟩
  · cases hpos
  · cases he'
  · cases he'
    exact hpub

theorem sourceID_ne_nil_of_own {e : Event} (h : ownEvent e = true) : e.sourceID ≠ [] := by
  intro hnil
  rw [ownEvent, hnil] at h
  exact absurd h (by simp [sourcePrefix, ascii])

/-- No two events of a binlog have the same message id. -/
theorem Binlog.nodup_messageIDs (b : Binlog) (subjectPrefix : GoString) :
    (b.messageIDs subjectPrefix).Nodup := by
  have hids : (emittedIDs b.effects).Nodup := by
    rw [emittedIDs_effects]
    exact (Binlog.nodup_names b).map fun _ _ => SourceName.sourceID_inj
  -- the taken events are among the emitted ones
  have htaken : (b.effects.filterMap fun x => x.2.taken).map Event.sourceID =
      emittedIDs (b.effects.filter fun x => x.2.taken.isSome) := by
    rw [emittedIDs, map_filterMap, filterMap_filter]
    refine filterMap_congr fun x _ => ?_
    cases x.2 with
    | emit e =>
      simp only [Effect.taken, Effect.assigned]
      by_cases htake : Service.opened.handleEvent e = true
      · simp [htake]
      · simp [htake]
    | handle e | committed pos => rfl
  have hnodup : ((b.effects.filterMap fun x => x.2.taken).map Event.sourceID).Nodup := by
    rw [htaken]
    exact hids.sublist (filter_sublist.filterMap _)
  -- a message id is the source id after a fixed text
  have hprefixed : b.messageIDs subjectPrefix =
      ((b.effects.filterMap fun x => x.2.taken).map Event.sourceID).map
        (subjectPrefix ++ ascii "/" ++ ·) := by
    rw [messageIDs, messageIDsOf, map_map]
    refine map_congr_left fun e he => ?_
    obtain ⟨⟨loc, eff⟩, hx, htaken⟩ := mem_filterMap.mp he
    cases eff with
    | emit e' =>
      simp only [Effect.taken, Option.ite_none_right_eq_some, Option.some.injEq] at htaken
      obtain ⟨-, rfl⟩ := htaken
      rw [Nats.messageID, if_neg (sourceID_ne_nil_of_own (ownEvent_of_emit hx))]
      rfl
    | handle e' | committed pos => cases htaken
  rw [hprefixed]
  exact hnodup.map fun _ _ h => append_cancel_left h

end Mysql
