import Watcher.ForStd.List
import Watcher.Model.SchemaHistory

/-!
# What the schema history remembers

A directory is used by one store after another. The history is exact when
`GetHistory` returns the entries saved for a table since the directory was
created, in order, and `GetLatest` the last of them.

`Save` appends to what the cache holds and never reads the file, so a save in a
new store overwrites the older history unless something read the table first.
`history_exact_iff` says for every sequence of operations that the history is
exact all along if and only if no save is blind in that sense, no two tables
share a file, and no entry that is not UTF-8 goes through a reopen.
-/

namespace Schema

open List

/-- A schema and table name without dots. -/
structure TableName where
  schema : GoString
  table : GoString
  schema_dotFree : 0x2e ∉ schema
  table_dotFree : 0x2e ∉ table
  deriving DecidableEq

/-- The key of the table's entries in the cache. -/
def TableName.key (t : TableName) : GoString := Schema.key t.schema t.table

/-- The file they are written to. -/
def TableName.filePath (t : TableName) : FilePath := Schema.filePath t.key

/-- An entry for a table whose names have no dots. -/
structure NamedEntry extends HistoryEntry where
  schema_dotFree : 0x2e ∉ schema
  table_dotFree : 0x2e ∉ table

/-- The table the entry is for. -/
def NamedEntry.tableName (e : NamedEntry) : TableName :=
  ⟨e.schema, e.table, e.schema_dotFree, e.table_dotFree⟩

variable {t : TableName} {entry : NamedEntry} {now : Int} {T : Set TableName}

theorem TableName.key_inj {t' : TableName} (h : t.key = t'.key) : t = t' := by
  have hparts := Schema.key_inj t.table_dotFree t'.table_dotFree h
  cases t
  cases t'
  simp only [TableName.mk.injEq]
  exact hparts

/-! ### Runs of operations -/

/-- What is asked of the store. -/
inductive Op where
  | save (entry : NamedEntry) (now : Int)
  | getLatest (t : TableName)
  | getHistory (t : TableName)
  /-- A new `FileHistoryStore` on the same directory. -/
  | reopen

/-- The table an operation is about. -/
def Op.table : Op → Option TableName
  | .save entry _ => some entry.tableName
  | .getLatest t | .getHistory t => some t
  | .reopen => none

/-- The store in use and the directory. -/
structure State where
  store : FileHistoryStore
  disk : Disk

namespace State

/-- A fresh directory. -/
def init : State := ⟨newFileHistoryStore, fun _ => none⟩

/-- The state after an operation. -/
def perform (s : State) : Op → State
  | .save entry now =>
    let (store, disk) := s.store.save s.disk entry.toHistoryEntry now
    ⟨store, disk⟩
  | .getLatest t => { s with store := (s.store.getLatest s.disk t.schema t.table).2 }
  | .getHistory t => { s with store := (s.store.getHistory s.disk t.schema t.table).2 }
  | .reopen => { s with store := newFileHistoryStore }

/-- The state after operations on a fresh directory. -/
def after (ops : List Op) : State := ops.foldl perform init

/-- What `GetHistory` returns now. -/
def history (s : State) (t : TableName) : List HistoryEntry :=
  (s.store.getHistory s.disk t.schema t.table).1

/-- What `GetLatest` returns now. -/
def latest (s : State) (t : TableName) : Option HistoryEntry :=
  (s.store.getLatest s.disk t.schema t.table).1

theorem after_snoc (ops : List Op) (op : Op) : after (ops ++ [op]) = (after ops).perform op := by
  simp only [after, foldl_append, foldl_cons, foldl_nil]

/-- `GetLatest` returns the last entry of `GetHistory`. -/
theorem latest_eq (s : State) (t : TableName) : s.latest t = (s.history t).getLast? := rfl

end State

/-- The entries saved for a table, in order. -/
def saved (ops : List Op) (t : TableName) : List HistoryEntry :=
  ops.filterMap fun op =>
    match op with
    | .save entry now => if entry.tableName = t then some (entry.stamped now) else none
    | _ => none

/-- After the operations the store answers for `t` with the entries saved for it. -/
def ExactFor (ops : List Op) (t : TableName) : Prop :=
  (State.after ops).history t = saved ops t ∧
    (State.after ops).latest t = (saved ops t).getLast?

/-! ### When the history is kept -/

/-- `t` was saved before a reopen and nothing has read or saved it since. -/
def Unread (ops : List Op) (t : TableName) : Prop :=
  ∃ before since, ops = before ++ .reopen :: since ∧ saved before t ≠ [] ∧
    ∀ op ∈ since, op.table ≠ some t

/-- The operation `op` after `ops` loses nothing, as far as the tables `T` go: a save is not made
    while its table is unread, and no other table of `T` has the same file; a reopen finds only
    entries that survive JSON. -/
def Keeps (T : Set TableName) (ops : List Op) : Op → Prop
  | .save entry _ =>
    ¬Unread ops entry.tableName ∧
      ∀ t ∈ T, t.filePath = entry.tableName.filePath → t = entry.tableName
  | .reopen => ∀ t ∈ T, ∀ e ∈ saved ops t, e.reread = e
  | .getLatest _ | .getHistory _ => True

/-- Every operation keeps the history. -/
def KeepsAll (T : Set TableName) (ops : List Op) : Prop :=
  ∀ before op rest, ops = before ++ op :: rest → Keeps T before op

theorem saved_snoc_save (ops : List Op) (entry : NamedEntry) (now : Int) (t : TableName) :
    saved (ops ++ [.save entry now]) t =
      if entry.tableName = t then saved ops t ++ [entry.stamped now] else saved ops t := by
  simp only [saved, filterMap_append, filterMap_cons, filterMap_nil]
  by_cases h : entry.tableName = t <;> simp [h]

/-- Nothing else adds one. -/
theorem saved_snoc_other (ops : List Op) (op : Op) (t : TableName)
    (h : ∀ entry now, op ≠ .save entry now) : saved (ops ++ [op]) t = saved ops t := by
  cases op with
  | save entry now => exact absurd rfl (h entry now)
  | getLatest u => simp [saved]
  | getHistory u => simp [saved]
  | reopen => simp [saved]

theorem unread_snoc (ops : List Op) (op : Op) (t : TableName) :
    Unread (ops ++ [op]) t ↔
      op = .reopen ∧ saved ops t ≠ [] ∨ op.table ≠ some t ∧ Unread ops t := by
  constructor
  · rintro ⟨before, since, heq, hsaved, hsince⟩
    rcases concat_eq_append_cons heq with ⟨rfl, rfl, -⟩ | ⟨since', hops, rfl⟩
    · exact .inl ⟨rfl, hsaved⟩
    · refine .inr ⟨hsince op (by simp), before, since', hops, hsaved, ?_⟩
      intro o ho
      exact hsince o (by simp [ho])
  · rintro (⟨rfl, hsaved⟩ | ⟨htable, before, since, rfl, hsaved, hsince⟩)
    · exact ⟨ops, [], rfl, hsaved, by simp⟩
    · refine ⟨before, since ++ [op], by simp, hsaved, ?_⟩
      intro o ho
      rcases mem_append.mp ho with ho | ho
      · exact hsince o ho
      · rw [mem_singleton.mp ho]
        exact htable

theorem keepsAll_snoc (T : Set TableName) (ops : List Op) (op : Op) :
    KeepsAll T (ops ++ [op]) ↔ KeepsAll T ops ∧ Keeps T ops op :=
  forall_concat_eq_append_cons

/-! ### Invariant -/

/-- What cache and file hold for one table after `ops`. -/
structure Holds (ops : List Op) (s : State) (t : TableName) : Prop where
  /-- The file has the saved entries as JSON gives them back. -/
  file : s.disk t.filePath =
    if saved ops t = [] then none else some ((saved ops t).map HistoryEntry.reread)
  /-- The cache has the saved entries, or nothing while the table is unsaved or unread. -/
  cached : saved ops t ≠ [] → ¬Unread ops t → s.store.cache t.key = some (saved ops t)
  uncached : saved ops t = [] ∨ Unread ops t → s.store.cache t.key = none
  /-- What has to come from the file survives JSON. -/
  text : Unread ops t → ∀ e ∈ saved ops t, e.reread = e

theorem not_unread_nil (t : TableName) : ¬Unread [] t := by
  rintro ⟨before, since, heq, -⟩
  simp at heq

/-- A fresh directory holds nothing. -/
theorem Holds.init (t : TableName) : Holds [] State.init t where
  file := rfl
  cached h _ := absurd rfl h
  uncached _ := rfl
  text h := absurd h (not_unread_nil t)

private theorem map_reread_eq {es : List HistoryEntry} (h : ∀ e ∈ es, e.reread = e) :
    es.map HistoryEntry.reread = es := by
  rw [map_congr_left h, map_id']

variable {ops : List Op} {s : State}

/-- A read finds the saved entries. -/
theorem Holds.loadEntries (h : Holds ops s t) :
    (s.store.loadEntries s.disk t.key).1 = saved ops t := by
  unfold FileHistoryStore.loadEntries
  by_cases hsaved : saved ops t = []
  · -- neither cached nor on disk
    have hfile := h.file
    rw [if_pos hsaved] at hfile
    rw [h.uncached (.inl hsaved), show Schema.filePath t.key = t.filePath from rfl, hfile, hsaved]
  · by_cases hunread : Unread ops t
    · have hfile := h.file
      rw [if_neg hsaved, map_reread_eq (h.text hunread)] at hfile
      rw [h.uncached (.inr hunread), show Schema.filePath t.key = t.filePath from rfl, hfile]
    · rw [h.cached hsaved hunread]

theorem Holds.exact (h : Holds ops (State.after ops) t) : ExactFor ops t := by
  have hload : (State.after ops).history t = saved ops t := h.loadEntries
  refine ⟨hload, ?_⟩
  rw [State.latest_eq, hload]

/-- What a read of `u` leaves in the cache for `t`. -/
theorem Holds.loadEntries_cache (h : Holds ops s t) (u : TableName) :
    (s.store.loadEntries s.disk u.key).2.cache t.key =
      if t = u ∧ saved ops t ≠ [] then some (saved ops t) else s.store.cache t.key := by
  by_cases htu : t = u
  · subst htu
    have hload := h.loadEntries
    unfold FileHistoryStore.loadEntries at hload ⊢
    cases hcache : s.store.cache t.key with
    | some es =>
      simp only [hcache] at hload ⊢
      by_cases hsaved : saved ops t = []
      · simp [hsaved]
      · simp [hsaved, hload]
    | none =>
      simp only [hcache] at hload ⊢
      cases hdisk : s.disk (Schema.filePath t.key) with
      | none =>
        simp only [hdisk] at hload ⊢
        simp [← hload, hcache]
      | some es =>
        simp only [hdisk] at hload ⊢
        by_cases hsaved : saved ops t = []
        · -- an unsaved table has no file
          have hfile := h.file
          rw [if_pos hsaved, show t.filePath = Schema.filePath t.key from rfl, hdisk] at hfile
          exact absurd hfile (by simp)
        · simp [hsaved, hload]
  · have hkey : t.key ≠ u.key := fun hk => htu (TableName.key_inj hk)
    unfold FileHistoryStore.loadEntries
    rw [if_neg (fun hc => htu hc.1)]
    split
    · rfl
    · split
      · rfl
      · rw [FileHistoryStore.cache_put, if_neg hkey]

/-- A read of any table. -/
theorem Holds.read (h : Holds ops s t) (u : TableName) (op : Op)
    (hop : op = .getLatest u ∨ op = .getHistory u) :
    Holds (ops ++ [op]) ⟨(s.store.loadEntries s.disk u.key).2, s.disk⟩ t := by
  have hsaved : saved (ops ++ [op]) t = saved ops t :=
    saved_snoc_other ops op t (by rcases hop with rfl | rfl <;> simp)
  have hunread : Unread (ops ++ [op]) t ↔ u ≠ t ∧ Unread ops t := by
    rw [unread_snoc]
    rcases hop with rfl | rfl <;> simp [Op.table]
  have hcache := h.loadEntries_cache u
  constructor
  · rw [hsaved]
    exact h.file
  · intro hne hread
    rw [hsaved] at hne ⊢
    rw [hunread] at hread
    rw [hcache]
    -- the read fills the cache of its own table and leaves the others
    by_cases htu : t = u
    · rw [if_pos ⟨htu, hne⟩]
    · rw [if_neg (fun hc => htu hc.1)]
      exact h.cached hne (fun hu => hread ⟨Ne.symm htu, hu⟩)
  · intro hor
    rw [hsaved, hunread] at hor
    rw [hcache, if_neg]
    · exact h.uncached (hor.imp_right And.right)
    · rintro ⟨rfl, hne⟩
      exact hor.elim hne fun hu => hu.1 rfl
  · intro hu e he
    rw [hsaved] at he
    exact h.text (hunread.mp hu).2 e he

/-- A save of a table that is not unread, with a file of its own. -/
theorem Holds.save (h : Holds ops s t) (hread : ¬Unread ops entry.tableName)
    (hfile : t.filePath = entry.tableName.filePath → t = entry.tableName) :
    Holds (ops ++ [.save entry now]) (s.perform (.save entry now)) t := by
  have hkeyEq : Schema.key entry.schema entry.table = entry.tableName.key := rfl
  by_cases ht : t = entry.tableName
  · subst ht
    -- a table that is not unread has its entries in the cache, from where the save takes them
    have hold : (s.store.cache entry.tableName.key).getD [] = saved ops entry.tableName := by
      by_cases hsaved : saved ops entry.tableName = []
      · rw [h.uncached (.inl hsaved), hsaved]
        rfl
      · rw [h.cached hsaved hread]
        rfl
    have hnew : saved (ops ++ [.save entry now]) entry.tableName =
        saved ops entry.tableName ++ [entry.stamped now] := by
      rw [saved_snoc_save, if_pos rfl]
    have hnow : ¬Unread (ops ++ [.save entry now]) entry.tableName := by
      rw [unread_snoc]
      simp [Op.table]
    constructor
    · rw [hnew, if_neg (by simp)]
      simp only [State.perform, FileHistoryStore.save_disk, hkeyEq, hold]
      exact if_pos rfl
    · intro _ _
      rw [hnew]
      simp only [State.perform, FileHistoryStore.save_cache, hkeyEq, hold, ↓reduceIte]
    · rintro (hnil | hu)
      · exact absurd (hnew.symm.trans hnil) (by simp)
      · exact absurd hu hnow
    · exact fun hu => absurd hu hnow
  · -- another table is not touched
    have hsaved : saved (ops ++ [.save entry now]) t = saved ops t := by
      rw [saved_snoc_save, if_neg (Ne.symm ht)]
    have hunread : Unread (ops ++ [.save entry now]) t ↔ Unread ops t := by
      rw [unread_snoc]
      simp [Op.table, Ne.symm ht]
    have hdisk : (s.perform (.save entry now)).disk t.filePath = s.disk t.filePath := by
      simp only [State.perform, FileHistoryStore.save_disk, hkeyEq]
      exact if_neg fun hp => ht (hfile hp)
    have hcache : (s.perform (.save entry now)).store.cache t.key = s.store.cache t.key := by
      simp only [State.perform, FileHistoryStore.save_cache, hkeyEq]
      exact if_neg fun hk => ht (TableName.key_inj hk)
    constructor
    · rw [hdisk, hsaved]
      exact h.file
    · rw [hsaved, hunread, hcache]
      exact h.cached
    · rw [hsaved, hunread, hcache]
      exact h.uncached
    · rw [hsaved, hunread]
      exact h.text

/-- A reopen when what was saved survives JSON. -/
theorem Holds.reopen (h : Holds ops s t) (htext : ∀ e ∈ saved ops t, e.reread = e) :
    Holds (ops ++ [.reopen]) (s.perform .reopen) t := by
  have hsaved : saved (ops ++ [.reopen]) t = saved ops t :=
    saved_snoc_other ops .reopen t (by simp)
  constructor
  · rw [hsaved]
    exact h.file
  · intro hne hread
    rw [hsaved] at hne
    exact absurd ((unread_snoc ops .reopen t).mpr (.inl ⟨rfl, hne⟩)) hread
  · intro _
    rfl
  · rw [hsaved]
    exact fun _ => htext

/-- One operation that keeps the history. -/
theorem Holds.perform {op : Op} (h : Holds ops s t) (ht : t ∈ T) (hkeeps : Keeps T ops op) :
    Holds (ops ++ [op]) (s.perform op) t := by
  cases op with
  | save entry now => exact h.save hkeeps.1 (hkeeps.2 t ht)
  | getLatest u => exact h.read u _ (.inl rfl)
  | getHistory u => exact h.read u _ (.inr rfl)
  | reopen => exact h.reopen (hkeeps t ht)

theorem KeepsAll.holds (h : KeepsAll T ops) (ht : t ∈ T) : Holds ops (State.after ops) t := by
  induction ops using List.reverseRecOn with
  | nil => exact Holds.init t
  | append_singleton ops op ih =>
    have hsplit := (keepsAll_snoc T ops op).mp h
    rw [State.after_snoc]
    exact (ih hsplit.1).perform ht hsplit.2

/-! ### Nothing less will do -/

/-- A save of an unread table forgets what was saved before. -/
theorem Holds.not_exact_of_unread (h : Holds ops (State.after ops) entry.tableName)
    (hunread : Unread ops entry.tableName) :
    ¬ExactFor (ops ++ [.save entry now]) entry.tableName := by
  intro hexact
  have hhist := hexact.1
  rw [saved_snoc_save, if_pos rfl, State.after_snoc] at hhist
  have hcache : (((State.after ops).perform (.save entry now)).store.cache
      entry.tableName.key) = some [entry.stamped now] := by
    have hkeyEq : Schema.key entry.schema entry.table = entry.tableName.key := rfl
    simp only [State.perform, FileHistoryStore.save_cache, hkeyEq, h.uncached (.inr hunread),
      Option.getD_none, nil_append, ↓reduceIte]
  have hone : ((State.after ops).perform (.save entry now)).history entry.tableName =
      [entry.stamped now] := by
    unfold State.history FileHistoryStore.getHistory FileHistoryStore.loadEntries
    rw [show Schema.key entry.tableName.schema entry.tableName.table = entry.tableName.key from rfl,
      hcache]
  -- the older entries are missing
  obtain ⟨before, since, rfl, hsaved, -⟩ := hunread
  have hlen := congrArg List.length (hone.symm.trans hhist)
  have hpos : saved (before ++ .reopen :: since) entry.tableName ≠ [] := by
    unfold saved at hsaved ⊢
    rw [filterMap_append]
    exact fun hnil => hsaved (append_eq_nil_iff.mp hnil).1
  simp only [length_cons, length_nil, length_append] at hlen
  exact hpos (length_eq_zero_iff.mp (by omega))

/-- A table without entries that shares its file with a saved one is given that one's. -/
theorem Holds.not_exact_of_shared (h : Holds ops (State.after ops) t) (hsaved : saved ops t = [])
    (hpath : t.filePath = entry.tableName.filePath) (hne : t ≠ entry.tableName) :
    ¬ExactFor (ops ++ [.save entry now]) t := by
  intro hexact
  have hhist := hexact.1
  rw [saved_snoc_save, if_neg (Ne.symm hne), hsaved, State.after_snoc] at hhist
  have hkeyEq : Schema.key entry.schema entry.table = entry.tableName.key := rfl
  have hcache : ((State.after ops).perform (.save entry now)).store.cache t.key = none := by
    simp only [State.perform, FileHistoryStore.save_cache, hkeyEq]
    rw [if_neg fun hk => hne (TableName.key_inj hk)]
    exact h.uncached (.inl hsaved)
  unfold State.history FileHistoryStore.getHistory FileHistoryStore.loadEntries at hhist
  rw [show Schema.key t.schema t.table = t.key from rfl, hcache] at hhist
  simp only [State.perform, FileHistoryStore.save_disk, hkeyEq] at hhist
  rw [if_pos (show Schema.filePath t.key = Schema.filePath entry.tableName.key from hpath)] at hhist
  simp at hhist

/-- After a reopen the entries are those of the file. -/
theorem Holds.reread_of_exact (h : Holds ops (State.after ops) t)
    (hexact : ExactFor (ops ++ [.reopen]) t) : ∀ e ∈ saved ops t, e.reread = e := by
  have hhist := hexact.1
  rw [saved_snoc_other ops .reopen t (by simp), State.after_snoc] at hhist
  unfold State.history FileHistoryStore.getHistory FileHistoryStore.loadEntries at hhist
  have hcache : ((State.after ops).perform .reopen).store.cache (Schema.key t.schema t.table) =
    none := rfl
  have hdisk : ((State.after ops).perform .reopen).disk (Schema.filePath
    (Schema.key t.schema t.table)) = (State.after ops).disk t.filePath := rfl
  rw [hcache] at hhist
  simp only [hdisk, h.file] at hhist
  by_cases hsaved : saved ops t = []
  · simp [hsaved]
  · rw [if_neg hsaved] at hhist
    exact map_eq_map_iff.mp (hhist.trans (map_id _).symm)

/-- A saved table has a file of its own. -/
theorem KeepsAll.file_inj (h : KeepsAll T ops) {t' : TableName} (hsaved : saved ops t ≠ [])
    (ht' : t' ∈ T) (hpath : t'.filePath = t.filePath) : t' = t := by
  obtain ⟨e, he⟩ := exists_mem_of_ne_nil _ hsaved
  obtain ⟨op, hop, hsome⟩ := mem_filterMap.mp he
  obtain ⟨before, rest, heq⟩ := append_of_mem hop
  cases op with
  | save entry now =>
    have hname : entry.tableName = t := by
      by_contra hne
      simp [hne] at hsome
    have hkeeps := h before _ rest heq
    rw [← hname]
    exact hkeeps.2 t' ht' (hname ▸ hpath)
  | getLatest u => simp at hsome
  | getHistory u => simp at hsome
  | reopen => simp at hsome

/-- **Main theorem**: for every sequence of operations on the tables `T`, every table of `T` has
    its exact history after every operation if and only if every operation keeps the history. -/
theorem history_exact_iff (T : Set TableName) (ops : List Op)
    (hT : ∀ op ∈ ops, ∀ t, op.table = some t → t ∈ T) :
    (∀ done, done <+: ops → ∀ t ∈ T, ExactFor done t) ↔ KeepsAll T ops := by
  induction ops using List.reverseRecOn with
  | nil =>
    constructor
    · intro _ before op rest heq
      simp at heq
    · intro hkeeps done hdone t ht
      rw [prefix_nil.mp hdone]
      exact (Holds.init t).exact
  | append_singleton ops op ih =>
    have hT' : ∀ o ∈ ops, ∀ t, o.table = some t → t ∈ T :=
      fun o ho => hT o (mem_append_left _ ho)
    rw [keepsAll_snoc]
    constructor
    · intro hexact
      -- up to the last operation by the induction hypothesis, whose histories are shorter
      have hkeeps := (ih hT').mp fun done hdone =>
        hexact done (hdone.trans (prefix_append ops [op]))
      have hlast := hexact (ops ++ [op]) (prefix_refl _)
      refine ⟨hkeeps, ?_⟩
      cases op with
      | save entry now =>
        have hentry : entry.tableName ∈ T := hT (.save entry now) (by simp) _ rfl
        constructor
        · intro hunread
          exact (hkeeps.holds hentry).not_exact_of_unread hunread (hlast _ hentry)
        · intro t ht hpath
          by_contra hne
          by_cases hsaved : saved ops t = []
          · exact (hkeeps.holds ht).not_exact_of_shared hsaved hpath hne (hlast t ht)
          · -- then `t` was saved while the other table had the same file
            exact hne (hkeeps.file_inj hsaved hentry hpath.symm).symm
      | getLatest u => trivial
      | getHistory u => trivial
      | reopen => exact fun t ht => (hkeeps.holds ht).reread_of_exact (hlast t ht)
    · rintro ⟨hkeeps, hop⟩ done hdone t ht
      rcases prefix_concat_iff.mp hdone with rfl | hdone
      · exact (((keepsAll_snoc T ops op).mpr ⟨hkeeps, hop⟩).holds ht).exact
      · exact (ih hT').mpr hkeeps done hdone t ht

/-! ### A table that gains a column over a restart -/

/-- The table of the example. -/
def users : TableName := ⟨ascii "public", ascii "users", by decide, by decide⟩

/-- Its first version. -/
def usersOne : NamedEntry where
  position := ascii "0/1"
  schema := ascii "public"
  table := ascii "users"
  columns := [⟨ascii "id", ascii "int4", 23⟩]
  timestamp := 0
  schema_dotFree := by decide
  table_dotFree := by decide

/-- Its second one, with a new column. -/
def usersTwo : NamedEntry where
  position := ascii "0/2"
  schema := ascii "public"
  table := ascii "users"
  columns := [⟨ascii "id", ascii "int4", 23⟩, ⟨ascii "name", ascii "text", 25⟩]
  timestamp := 0
  schema_dotFree := by decide
  table_dotFree := by decide

/-- Reading the latest version before the first save keeps both. -/
theorem history_exact_readFirst :
    ExactFor [.save usersOne 5, .reopen, .getLatest users, .save usersTwo 6] users := by
  have hkeeps : KeepsAll {users} [.save usersOne 5, .reopen, .getLatest users,
      .save usersTwo 6] := by
    have hfile : ∀ t ∈ ({users} : Set TableName), t.filePath = users.filePath → t = users :=
      fun t ht _ => ht
    have hfirst : ¬Unread [] users := not_unread_nil users
    have hread : ¬Unread [.save usersOne 5, .reopen, .getLatest users] users := by
      rw [show [Op.save usersOne 5, .reopen, .getLatest users] =
        [.save usersOne 5, .reopen] ++ [.getLatest users] from rfl, unread_snoc]
      simp [Op.table]
    have htext : ∀ t ∈ ({users} : Set TableName), ∀ e ∈ saved [.save usersOne 5] t,
        e.reread = e := by
      rintro t rfl
      decide
    have h := (keepsAll_snoc {users} [] (.save usersOne 5)).mpr
      ⟨fun before op rest heq => by simp at heq, hfirst, hfile⟩
    have h := (keepsAll_snoc {users} _ .reopen).mpr ⟨h, htext⟩
    have h := (keepsAll_snoc {users} _ (.getLatest users)).mpr ⟨h, trivial⟩
    exact (keepsAll_snoc {users} _ (.save usersTwo 6)).mpr ⟨h, hread, hfile⟩
  have hT : ∀ op ∈ [Op.save usersOne 5, .reopen, .getLatest users, .save usersTwo 6],
      ∀ t, op.table = some t → t ∈ ({users} : Set TableName) := by
    intro op hop t ht
    simp only [mem_cons, not_mem_nil, or_false] at hop
    rcases hop with rfl | rfl | rfl | rfl
    · exact (Option.some.inj ht).symm
    · exact absurd ht (by simp [Op.table])
    · exact (Option.some.inj ht).symm
    · exact (Option.some.inj ht).symm
  exact (history_exact_iff {users} _ hT).mpr hkeeps _ (prefix_refl _) users rfl

/-- Saved at once after the restart, the second version is all that is left of the history. -/
theorem unread_save_forgets :
    (State.after [.save usersOne 5, .reopen, .save usersTwo 6]).history users =
        [usersTwo.stamped 6] ∧
      saved [.save usersOne 5, .reopen, .save usersTwo 6] users =
        [usersOne.stamped 5, usersTwo.stamped 6] := by
  decide

end Schema
