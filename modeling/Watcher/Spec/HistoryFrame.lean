import Watcher.Model.HistoryFiles

/-!
# Whether the histories of two tables mix

The history of a table is kept under its key in memory and in the file that the
key names. So the saves of one table are seen in another exactly if both keys name
one file (`unaffected_iff`). Keys are made by joining the names with a dot, and
names may contain dots: `b.c` in `a` and `c` in `a.b` have one key. Keys that
differ name one file only if there are slashes (`historyPath_inj`).

A third table may share the file of the one that is observed, so the two runs are
compared in every key that names this file (`Agree`).
-/

namespace Schema

open List

/-- A schema and a table, of any names. -/
structure TablePair where
  schema : GoString
  table : GoString
  deriving DecidableEq, Repr

def TablePair.key (p : TablePair) : GoString := Schema.key p.schema p.table

/-- Operations of one store. -/
inductive FileOp where
  | save (entry : HistoryEntry) (now : Int) (written : Bool)
  | getHistory (p : TablePair)
  | getLatest (p : TablePair)

/-- The operation saves an entry of the table. -/
def FileOp.saves (p : TablePair) : FileOp → Bool
  | save entry _ _ => (⟨entry.schema, entry.table⟩ : TablePair) = p
  | _ => false

/-- The store and the files. -/
structure FileState where
  store : FileHistoryStore
  files : Files CleanPath

namespace FileState

variable (dir : GoString)

/-- What `GetHistory` returns; nothing if it fails. -/
def history (s : FileState) (p : TablePair) : Option (List HistoryEntry) :=
  (s.store.loadFrom (historyPath dir) s.files p.key).1

/-- What `GetLatest` returns: an error, no entry, or the last one. -/
def latest (s : FileState) (p : TablePair) : Option (Option HistoryEntry) :=
  (s.history dir p).map List.getLast?

def perform (s : FileState) : FileOp → FileState
  | .save entry now written =>
    let (store, files) := s.store.saveTo (historyPath dir) s.files entry now written
    ⟨store, files⟩
  | .getHistory p | .getLatest p =>
    { s with store := (s.store.loadFrom (historyPath dir) s.files p.key).2 }

/-- A new store on these files, after the operations. -/
def run (files : Files CleanPath) (ops : List FileOp) : FileState :=
  ops.foldl (perform dir) ⟨newFileHistoryStore, files⟩

end FileState

/-- What is answered for `p` is the same without the saves of `q`, whatever files there are before
    and whichever writes succeed. -/
def Unaffected (dir : GoString) (p q : TablePair) : Prop :=
  ∀ files ops,
    let without := ops.filter fun op => !op.saves q
    (FileState.run dir files ops).history dir p = (FileState.run dir files without).history dir p ∧
      (FileState.run dir files ops).latest dir p = (FileState.run dir files without).latest dir p

/-! ### Different files -/

variable {dir : GoString}

/-- The states agree in everything that is kept in the file `path`. -/
structure Agree (dir : GoString) (path : CleanPath) (s s' : FileState) : Prop where
  cache : ∀ k, historyPath dir k = path → s.store.cache k = s'.store.cache k
  files : s.files path = s'.files path

variable {path : CleanPath} {s s' : FileState} {k : GoString} {p q : TablePair}

theorem Agree.loadFrom (h : Agree dir path s s') (hk : historyPath dir k = path) :
    (s.store.loadFrom (historyPath dir) s.files k).1 =
      (s'.store.loadFrom (historyPath dir) s'.files k).1 := by
  unfold FileHistoryStore.loadFrom
  rw [h.cache k hk, hk, h.files]
  cases s'.store.cache k with
  | some cached => rfl
  | none =>
    cases s'.files path with
    | none => rfl
    | some content => cases content <;> rfl

/-- A key that is loaded changes nothing but its own cache entry. -/
theorem cache_loadFrom (s : FileState) (k k' : GoString) :
    (s.store.loadFrom (historyPath dir) s.files k).2.cache k' =
      if k' = k then
        (s.store.cache k).or ((s.files (historyPath dir k)).bind fun
          | .broken => none
          | .entries es => some es)
      else s.store.cache k' := by
  unfold FileHistoryStore.loadFrom
  by_cases hk : k' = k
  · subst hk
    rw [if_pos rfl]
    cases hcache : s.store.cache k' with
    | some cached => exact hcache
    | none =>
      cases s.files (historyPath dir k') with
      | none => exact hcache
      | some content =>
        cases content with
        | broken => exact hcache
        | entries es => exact if_pos rfl
  · rw [if_neg hk]
    cases s.store.cache k with
    | some cached => rfl
    | none =>
      cases s.files (historyPath dir k) with
      | none => rfl
      | some content =>
        cases content with
        | broken => rfl
        | entries es => exact if_neg hk

theorem Agree.load (h : Agree dir path s s') (k : GoString) :
    Agree dir path { s with store := (s.store.loadFrom (historyPath dir) s.files k).2 }
      { s' with store := (s'.store.loadFrom (historyPath dir) s'.files k).2 } where
  cache k' hk' := by
    show (s.store.loadFrom (historyPath dir) s.files k).2.cache k' =
      (s'.store.loadFrom (historyPath dir) s'.files k).2.cache k'
    rw [cache_loadFrom, cache_loadFrom]
    by_cases hk : k' = k
    · rw [if_pos hk, if_pos hk, h.cache k (hk ▸ hk'), ← hk, hk', h.files]
    · rw [if_neg hk, if_neg hk, h.cache k' hk']
  files := h.files

/-- A save is seen under its own key and in its own file. -/
theorem cache_save (dir : GoString) (s : FileState) (e : HistoryEntry) (now : Int)
    (written : Bool) (k : GoString) :
    (s.perform dir (.save e now written)).store.cache k =
      if k = key e.schema e.table then some ((s.store.cache k).getD [] ++ [e.stamped now])
      else s.store.cache k := by
  show (if k = key (e.stamped now).schema (e.stamped now).table then _ else _) = _
  rw [HistoryEntry.stamped_schema, HistoryEntry.stamped_table]
  by_cases hk : k = key e.schema e.table
  · rw [if_pos hk, if_pos hk, hk]
  · rw [if_neg hk, if_neg hk]

theorem files_save (dir : GoString) (s : FileState) (e : HistoryEntry) (now : Int) (written : Bool)
    (path : CleanPath) :
    (s.perform dir (.save e now written)).files path =
      if written = true ∧ path = historyPath dir (key e.schema e.table) then
        some (.entries (((s.store.cache (key e.schema e.table)).getD [] ++
          [e.stamped now]).map HistoryEntry.reread))
      else s.files path := by
  show (if written && path = historyPath dir (key (e.stamped now).schema (e.stamped now).table)
    then _ else _) = _
  rw [HistoryEntry.stamped_schema, HistoryEntry.stamped_table]
  simp only [Bool.and_eq_true, decide_eq_true_eq]

theorem Agree.save (h : Agree dir path s s') (e : HistoryEntry) (now : Int) (written : Bool) :
    Agree dir path (s.perform dir (.save e now written))
      (s'.perform dir (.save e now written)) where
  cache k hk := by rw [cache_save, cache_save, h.cache k hk]
  files := by
    rw [files_save, files_save, h.files]
    -- what is written is looked at only if it is written to this path
    by_cases hwrite : written = true ∧ path = historyPath dir (key e.schema e.table)
    · rw [if_pos hwrite, if_pos hwrite, h.cache _ hwrite.2.symm]
    · rw [if_neg hwrite, if_neg hwrite]

/-- A save into another file is not seen. -/
theorem Agree.other_save (h : Agree dir path s s') {e : HistoryEntry}
    (hne : historyPath dir (key e.schema e.table) ≠ path) (now : Int) (written : Bool) :
    Agree dir path (s.perform dir (.save e now written)) s' where
  cache k hk := by
    have hkey : k ≠ key e.schema e.table := by
      intro heq
      rw [heq] at hk
      exact hne hk
    rw [cache_save, if_neg hkey, h.cache k hk]
  files := by
    rw [files_save, if_neg fun hwrite => hne hwrite.2.symm, h.files]

theorem Agree.perform (h : Agree dir path s s') (op : FileOp) :
    Agree dir path (s.perform dir op) (s'.perform dir op) := by
  cases op with
  | save e now written => exact h.save e now written
  | getHistory p => exact h.load p.key
  | getLatest p => exact h.load p.key

theorem Agree.run (hne : historyPath dir p.key ≠ historyPath dir q.key) (ops : List FileOp) :
    ∀ {s s' : FileState}, Agree dir (historyPath dir p.key) s s' →
      Agree dir (historyPath dir p.key) (ops.foldl (FileState.perform dir) s)
        ((ops.filter fun op => !op.saves q).foldl (FileState.perform dir) s') := by
  induction ops with
  | nil => exact fun h => h
  | cons op ops ih =>
    intro s s' h
    cases hsaves : op.saves q with
    | false =>
      rw [filter_cons_of_pos (by simp [hsaves]), foldl_cons, foldl_cons]
      exact ih (h.perform op)
    | true =>
      rw [filter_cons_of_neg (by simp [hsaves]), foldl_cons]
      cases op with
      | save e now written =>
        have hq : (⟨e.schema, e.table⟩ : TablePair) = q := by simpa [FileOp.saves] using hsaves
        apply ih
        apply h.other_save
        rw [← hq] at hne
        exact Ne.symm hne
      | getHistory r => exact nomatch hsaves
      | getLatest r => exact nomatch hsaves

theorem unaffected_of_ne (hne : historyPath dir p.key ≠ historyPath dir q.key) :
    Unaffected dir p q := by
  intro files ops
  have hstart : Agree dir (historyPath dir p.key) ⟨newFileHistoryStore, files⟩
      ⟨newFileHistoryStore, files⟩ := ⟨fun _ _ => rfl, rfl⟩
  have hhistory := (Agree.run hne ops hstart).loadFrom rfl
  exact ⟨hhistory, congrArg (Option.map List.getLast?) hhistory⟩

/-! ### One file -/

/-- An entry of a table, with a timestamp of its own. -/
def TablePair.entry (p : TablePair) : HistoryEntry := ⟨ascii "0/1", p.schema, p.table, [], 1⟩

/-- One save of `q` in an empty directory shows in `p`. -/
theorem history_of_one_file (h : historyPath dir p.key = historyPath dir q.key) :
    ∃ e, (FileState.run dir (fun _ => none) [.save q.entry 0 true]).history dir p = some [e] := by
  have hcache := cache_save dir ⟨newFileHistoryStore, fun _ => none⟩ q.entry 0 true p.key
  have hfiles := files_save dir ⟨newFileHistoryStore, fun _ => none⟩ q.entry 0 true
    (historyPath dir p.key)
  rw [if_pos ⟨rfl, h⟩] at hfiles
  show ∃ e, (FileHistoryStore.loadFrom _ _ _ _).1 = some [e]
  unfold FileHistoryStore.loadFrom FileState.run
  simp only [foldl_cons, foldl_nil]
  by_cases hk : p.key = key q.entry.schema q.entry.table
  · rw [if_pos hk] at hcache
    rw [hcache]
    exact ⟨_, rfl⟩
  · rw [if_neg hk] at hcache
    rw [hcache, hfiles]
    exact ⟨_, rfl⟩

/-- What is answered for a table does not depend on the saves of another one exactly if their keys
    name different files. -/
theorem unaffected_iff (dir : GoString) (p q : TablePair) :
    Unaffected dir p q ↔ historyPath dir p.key ≠ historyPath dir q.key := by
  constructor
  · intro h heq
    obtain ⟨e, he⟩ := history_of_one_file heq
    have hsame := (h (fun _ => none) [.save q.entry 0 true]).1
    have hwithout : [FileOp.save q.entry 0 true].filter (fun op => !op.saves q) = [] := by
      simp [FileOp.saves, TablePair.entry]
    rw [he, hwithout] at hsame
    exact nomatch hsame
  · exact unaffected_of_ne

/-! ### Names without slashes -/

/-- The file of a key without a slash stands in the directory under the key's own name. -/
theorem historyPath_of_slashFree (dir : GoString) (hk : 0x2f ∉ k) :
    (historyPath dir k).elements = (k ++ ascii ".json") ::
      (dir.splitOn 0x2f).foldl (cleanStep (dir.head? = some 0x2f)) [] := by
  have hslash : 0x2f ∉ k ++ ascii ".json" := by
    rw [mem_append, not_or]
    exact ⟨hk, by decide⟩
  have hsplit : (dir ++ 0x2f :: (k ++ ascii ".json")).splitOn 0x2f =
      dir.splitOn 0x2f ++ [k ++ ascii ".json"] := by
    rw [← splitOn_eq_singleton hslash]
    exact splitOnP_append_cons dir (k ++ ascii ".json") (beq_self_eq_true _)
  -- it ends in a letter, so it is none of the elements that are left out
  have hlast : (k ++ ascii ".json").getLast? = some 0x6e := by
    rw [getLast?_append]
    rfl
  have hne : ∀ c : GoString, c.getLast? ≠ some 0x6e → k ++ ascii ".json" ≠ c := by
    intro c hc heq
    exact hc (heq ▸ hlast)
  show ((dir ++ 0x2f :: (k ++ ascii ".json")).splitOn 0x2f).foldl _ [] = _
  rw [hsplit, foldl_append, foldl_cons, foldl_nil,
    cleanStep_name _ _ (hne _ (by decide)) (hne _ (by decide)) (hne _ (by decide))]

/-- Keys without slashes name one file only if they are equal. -/
theorem historyPath_inj {dir k' : GoString} (hk : 0x2f ∉ k) (hk' : 0x2f ∉ k')
    (h : historyPath dir k = historyPath dir k') : k = k' := by
  have helements := congrArg CleanPath.elements h
  rw [historyPath_of_slashFree dir hk, historyPath_of_slashFree dir hk'] at helements
  exact append_cancel_right (List.cons.inj helements).1

/-- The table `b.c` in the schema `a`. -/
def dottedTable : TablePair := ⟨ascii "a", ascii "b.c"⟩

/-- The table `c` in the schema `a.b`. -/
def dottedSchema : TablePair := ⟨ascii "a.b", ascii "c"⟩

/-- What is saved for the one is returned for the other. -/
theorem dotted_mix :
    dottedTable ≠ dottedSchema ∧
    (FileState.run (ascii "/var/history") (fun _ => none)
      [.save dottedSchema.entry 0 true]).history (ascii "/var/history") dottedTable =
        some [dottedSchema.entry] ∧
    ¬Unaffected (ascii "/var/history") dottedTable dottedSchema := by
  refine ⟨by decide, by decide, ?_⟩
  intro h
  have hsame := (h (fun _ => none) [.save dottedSchema.entry 0 true]).1
  exact absurd hsame (by decide)

end Schema
