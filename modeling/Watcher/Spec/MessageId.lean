import Watcher.Model.MysqlListener
import Watcher.Model.PostgresListener
import Watcher.Model.Publisher

/-!
# Message ids are unique

A source id is built from numbers and separators, and a message id puts a
subject prefix before it. The prefix and a binlog file name may contain the
separators themselves, so ids are read from the right: numerals contain neither
`:` nor `/`, and only a Postgres id has a `/` of its own.

## Key results

- `SourceName.sourceID_inj`: a source id determines what it names
- `messageID_inj`: a message id determines the prefix and what it names
-/

open Cdc

/-- What a source id names. -/
inductive SourceName where
  /-- The event with this index in the Postgres transaction at `lsn`. -/
  | pg (lsn : Postgres.LSN) (index : Nat)
  /-- A row of the rows event that ends at `pos`. -/
  | mysqlRow (pos : Mysql.BinlogPosition) (row : Nat)
  /-- The row with this index in the compressed transaction at `pos`. -/
  | mysqlTxn (pos : Mysql.BinlogPosition) (index : Nat)
  /-- The DDL statement that ends at `pos`. -/
  | mysqlDDL (pos : Mysql.BinlogPosition)
  deriving DecidableEq, Repr

namespace SourceName

/-- The id as the listeners build it. -/
def sourceID : SourceName → GoString
  | .pg lsn index => Postgres.Listener.sourceID lsn index
  | .mysqlRow pos row => Mysql.positionID pos.string row
  | .mysqlTxn pos index => Mysql.transactionID pos.string index
  | .mysqlDDL pos => Mysql.ddlID pos

/-- The binlog file name, if there is one, has no slash. -/
def SlashFree : SourceName → Prop
  | .pg _ _ => True
  | .mysqlRow pos _ | .mysqlTxn pos _ | .mysqlDDL pos => 0x2f ∉ pos.file

end SourceName

namespace Nats

open List

/-! ## Numerals -/

/-- What is no digit, as the separators, is in no decimal numeral. -/
private theorem notMem_itoa {b : UInt8} (hb : b ∉ ascii "0123456789") (n : Nat) : b ∉ itoa n :=
  fun h => hb (mem_itoa h)

/-- Nor is it in a hexadecimal one. -/
private theorem notMem_hexUpper {b : UInt8} (hb : b ∉ ascii "0123456789ABCDEF") (n : Nat) :
    b ∉ hexUpper n :=
  fun h => hb (mem_hexUpper h)

/-- A word with a byte that is no digit is not a numeral. -/
private theorem itoa_ne {n : Nat} {w : GoString} {b : UInt8} (hb : b ∈ w)
    (hdigit : b ∉ ascii "0123456789") : itoa n ≠ w :=
  fun h => hdigit (mem_itoa (h ▸ hb))

/-! ## Postgres -/

private theorem lsn_string_inj {a b : Postgres.LSN}
    (hhi : hexUpper (a.toNat / 2 ^ 32) = hexUpper (b.toNat / 2 ^ 32))
    (hlo : hexUpper (a.toNat % 2 ^ 32) = hexUpper (b.toNat % 2 ^ 32)) : a = b := by
  have h₁ := hexUpper_inj hhi
  have h₂ := hexUpper_inj hlo
  -- the two halves make up the number
  apply UInt64.toNat_inj.mp
  omega

/-- What follows the last slash of a Postgres id. -/
private def pgTail (lsn : Postgres.LSN) (index : Nat) : GoString :=
  hexUpper (lsn.toNat % 2 ^ 32) ++ 0x3a :: itoa index

private theorem slash_notMem_pgTail (lsn : Postgres.LSN) (index : Nat) :
    0x2f ∉ pgTail lsn index := by
  simp [pgTail, notMem_hexUpper (b := 0x2f) (by decide), notMem_itoa (b := 0x2f) (by decide)]

/-- A Postgres message id, split at its last slash and, before that, at its last colon. -/
private theorem messageID_pg (p : GoString) (lsn : Postgres.LSN) (index : Nat) :
    p ++ ascii "/" ++ Postgres.Listener.sourceID lsn index =
      ((p ++ ascii "/pg") ++ 0x3a :: hexUpper (lsn.toNat / 2 ^ 32)) ++
        0x2f :: pgTail lsn index := by
  simp [Postgres.Listener.sourceID, Postgres.LSN.string, pgTail, ascii, Char.toUInt8]

/-- The Postgres ids of two subject prefixes. -/
private theorem pg_inj {p p' : GoString} {lsn lsn' : Postgres.LSN} {index index' : Nat}
    (h : p ++ ascii "/" ++ Postgres.Listener.sourceID lsn index =
      p' ++ ascii "/" ++ Postgres.Listener.sourceID lsn' index') :
    p = p' ∧ lsn = lsn' ∧ index = index' := by
  rw [messageID_pg, messageID_pg] at h
  -- at the last slash, then each half at its last colon
  obtain ⟨hhead, htail⟩ := append_cons_inj_of_notMem_right
    (slash_notMem_pgTail lsn index) (slash_notMem_pgTail lsn' index') h
  obtain ⟨hp, hhi⟩ := append_cons_inj_of_notMem_right
    (notMem_hexUpper (by decide) _) (notMem_hexUpper (by decide) _) hhead
  obtain ⟨hlo, hindex⟩ := append_cons_inj_of_notMem_right
    (notMem_itoa (by decide) index) (notMem_itoa (by decide) index') htail
  exact ⟨append_cancel_right hp, lsn_string_inj hhi hlo, itoa_inj hindex⟩

/-! ## MySQL -/

/-- What follows `mysql:` in the id of a row, a row of a compressed transaction or a DDL
    statement, split at its last colon. -/
private def mysqlTail : SourceName → GoString × GoString
  | .pg _ _ => ([], [])
  | .mysqlRow pos row => (pos.file ++ 0x3a :: itoa pos.position, itoa row)
  | .mysqlTxn pos index =>
    ((pos.file ++ 0x3a :: itoa pos.position) ++ 0x3a :: ascii "txn", itoa index)
  | .mysqlDDL pos => (pos.file ++ 0x3a :: itoa pos.position, ascii "ddl")

/-- The name is one of the MySQL listener. -/
private def IsMysql : SourceName → Prop
  | .pg _ _ => False
  | _ => True

/-- Its id, split at the last colon. -/
private theorem sourceID_mysql {name : SourceName} (h : IsMysql name) :
    name.sourceID = ascii "mysql:" ++ ((mysqlTail name).1 ++ 0x3a :: (mysqlTail name).2) := by
  cases name with
  | pg lsn index => exact absurd h id
  | _ =>
    simp [SourceName.sourceID, Mysql.positionID, Mysql.transactionID, Mysql.ddlID,
      Mysql.BinlogPosition.string, Mysql.sourcePrefix, mysqlTail, ascii, Char.toUInt8]

/-- No colon comes after that one. -/
private theorem colon_notMem_mysqlTail (name : SourceName) : 0x3a ∉ (mysqlTail name).2 := by
  cases name with
  | pg lsn index => exact not_mem_nil
  | mysqlRow pos row => exact notMem_itoa (by decide) row
  | mysqlTxn pos index => exact notMem_itoa (by decide) index
  | mysqlDDL pos => exact (by decide : (0x3a : UInt8) ∉ ascii "ddl")

private theorem slash_notMem_mysql {name : SourceName} (h : IsMysql name) (hfree : name.SlashFree) :
    0x2f ∉ name.sourceID := by
  have hslash := notMem_itoa (b := 0x2f) (by decide)
  rw [sourceID_mysql h]
  cases name with
  | pg lsn index => exact absurd h id
  | mysqlRow pos row =>
    have hfile : 0x2f ∉ pos.file := hfree
    simp [mysqlTail, hslash, hfile, ascii, Char.toUInt8]
  | mysqlTxn pos index =>
    have hfile : 0x2f ∉ pos.file := hfree
    simp [mysqlTail, hslash, hfile, ascii, Char.toUInt8]
  | mysqlDDL pos =>
    have hfile : 0x2f ∉ pos.file := hfree
    simp [mysqlTail, hslash, hfile, ascii, Char.toUInt8]

/-- A position is determined by its text: its numeral stands after the last colon. -/
private theorem position_inj {pos pos' : Mysql.BinlogPosition}
    (h : pos.file ++ 0x3a :: itoa pos.position = pos'.file ++ 0x3a :: itoa pos'.position) :
    pos = pos' := by
  obtain ⟨hfile, hnum⟩ := append_cons_inj_of_notMem_right
    (notMem_itoa (by decide) pos.position) (notMem_itoa (by decide) pos'.position) h
  obtain ⟨file, position⟩ := pos
  obtain ⟨file', position'⟩ := pos'
  exact Mysql.BinlogPosition.mk.injEq .. ▸ ⟨hfile, itoa_inj hnum⟩

/-- The word before the last numeral tells a row from a row of a compressed transaction. -/
private theorem position_ne_txn (pos pos' : Mysql.BinlogPosition) :
    pos.file ++ 0x3a :: itoa pos.position ≠
      (pos'.file ++ 0x3a :: itoa pos'.position) ++ 0x3a :: ascii "txn" := by
  intro h
  obtain ⟨-, hnum⟩ := append_cons_inj_of_notMem_right
    (notMem_itoa (by decide) pos.position) (by decide : (0x3a : UInt8) ∉ ascii "txn") h
  exact itoa_ne (b := 0x74) (by decide) (by decide) hnum

private theorem itoa_ne_ddl (n : Nat) : itoa n ≠ ascii "ddl" :=
  itoa_ne (b := 0x64) (by decide) (by decide)

/-- What follows `mysql:` determines the name. -/
private theorem mysqlTail_inj {name name' : SourceName} (h : IsMysql name) (h' : IsMysql name')
    (hhead : (mysqlTail name).1 = (mysqlTail name').1)
    (htail : (mysqlTail name).2 = (mysqlTail name').2) : name = name' := by
  -- the last word tells DDL statements from rows, the word before it the two kinds of rows
  cases name with
  | pg lsn index => exact absurd h id
  | mysqlRow pos row =>
    cases name' with
    | pg lsn index => exact absurd h' id
    | mysqlRow pos' row' => rw [position_inj hhead, itoa_inj htail]
    | mysqlTxn pos' index' => exact absurd hhead (position_ne_txn pos pos')
    | mysqlDDL pos' => exact absurd htail (itoa_ne_ddl row)
  | mysqlTxn pos index =>
    cases name' with
    | pg lsn index => exact absurd h' id
    | mysqlRow pos' row' => exact absurd hhead.symm (position_ne_txn pos' pos)
    | mysqlTxn pos' index' =>
      rw [position_inj (append_cancel_right hhead), itoa_inj htail]
    | mysqlDDL pos' => exact absurd htail (itoa_ne_ddl index)
  | mysqlDDL pos =>
    cases name' with
    | pg lsn index => exact absurd h' id
    | mysqlRow pos' row' => exact absurd htail.symm (itoa_ne_ddl row')
    | mysqlTxn pos' index' => exact absurd htail.symm (itoa_ne_ddl index')
    | mysqlDDL pos' => rw [position_inj hhead]

/-- So does the whole id. -/
private theorem mysql_inj {name name' : SourceName} (h : IsMysql name) (h' : IsMysql name')
    (heq : name.sourceID = name'.sourceID) : name = name' := by
  rw [sourceID_mysql h, sourceID_mysql h'] at heq
  obtain ⟨hhead, htail⟩ := append_cons_inj_of_notMem_right (colon_notMem_mysqlTail name)
    (colon_notMem_mysqlTail name') (append_cancel_left heq)
  exact mysqlTail_inj h h' hhead htail

/-- After the last slash, a Postgres id goes on with a hexadecimal digit, a MySQL id with `m`. -/
private theorem pg_ne_mysql (p p' : GoString) (lsn : Postgres.LSN) (index : Nat)
    {name : SourceName} (h : IsMysql name) (hfree : name.SlashFree) :
    p ++ ascii "/" ++ Postgres.Listener.sourceID lsn index ≠ p' ++ ascii "/" ++ name.sourceID := by
  intro heq
  have hsplit : p' ++ ascii "/" ++ name.sourceID = p' ++ 0x2f :: name.sourceID := by
    simp [ascii, Char.toUInt8]
  rw [messageID_pg, hsplit] at heq
  obtain ⟨-, htail⟩ := append_cons_inj_of_notMem_right
    (slash_notMem_pgTail lsn index) (slash_notMem_mysql h hfree) heq
  obtain ⟨d, ds, hd⟩ := exists_cons_of_ne_nil (hexUpper_ne_nil (lsn.toNat % 2 ^ 32))
  have hhex : d ∈ ascii "0123456789ABCDEF" := mem_hexUpper (hd ▸ mem_cons_self)
  rw [pgTail, hd, sourceID_mysql h] at htail
  have hm : d = 0x6d := (List.cons.inj htail).1
  rw [hm] at hhex
  revert hhex
  decide

/-! ## Message ids -/

/-- Two events with source ids of the forms the listeners build get the same message id only if
    their subject prefixes are equal and their source ids name the same change. -/
theorem messageID_inj (subjectPrefix subjectPrefix' next next' : GoString) (e e' : Event)
    (name name' : SourceName) (he : e.sourceID = name.sourceID)
    (he' : e'.sourceID = name'.sourceID) (hfree : name.SlashFree) (hfree' : name'.SlashFree)
    (h : messageID subjectPrefix next e = messageID subjectPrefix' next' e') :
    subjectPrefix = subjectPrefix' ∧ name = name' := by
  have hne : ∀ n : SourceName, n.sourceID ≠ [] := by
    intro n hn
    cases n <;> simp [SourceName.sourceID, Postgres.Listener.sourceID, Mysql.positionID,
      Mysql.transactionID, Mysql.ddlID, Mysql.sourcePrefix, ascii] at hn
  rw [messageID, messageID, he, he', if_neg (hne name), if_neg (hne name')] at h
  -- a MySQL id has no slash, so the last one stands before it
  have hmysql : ∀ {n n' : SourceName}, IsMysql n → IsMysql n' → n.SlashFree → n'.SlashFree →
      subjectPrefix ++ ascii "/" ++ n.sourceID = subjectPrefix' ++ ascii "/" ++ n'.sourceID →
      subjectPrefix = subjectPrefix' ∧ n = n' := by
    intro n n' hn hn' hf hf' heq
    have hslash : ascii "/" = [0x2f] := rfl
    rw [hslash, append_assoc, append_assoc] at heq
    obtain ⟨hp, hid⟩ := append_cons_inj_of_notMem_right (slash_notMem_mysql hn hf)
      (slash_notMem_mysql hn' hf') heq
    exact ⟨hp, mysql_inj hn hn' hid⟩
  cases name with
  | pg lsn index =>
    cases name' with
    | pg lsn' index' =>
      obtain ⟨hp, hlsn, hindex⟩ := pg_inj h
      exact ⟨hp, by rw [hlsn, hindex]⟩
    | _ => exact absurd h (pg_ne_mysql _ _ lsn index trivial hfree')
  | _ =>
    cases name' with
    | pg lsn' index' => exact absurd h.symm (pg_ne_mysql _ _ lsn' index' trivial hfree)
    | _ => exact hmysql trivial trivial hfree hfree' h

/-- The row event that ends at position 4 of a file whose name has colons and digits. -/
def colonRow : Event :=
  { newEvent .insert [] [] [] [] [] with
    sourceID := (SourceName.mysqlRow ⟨ascii "bin:4.000001", 4⟩ 7).sourceID }

/-- A tenant whose prefix has a slash publishes the row, and publishes it again. -/
theorem messageID_inj_colonRow :
    messageID (ascii "cdc/a") [] colonRow = ascii "cdc/a/mysql:bin:4.000001:4:7" ∧
      ascii "cdc/a" = ascii "cdc/a" ∧ SourceName.mysqlRow ⟨ascii "bin:4.000001", 4⟩ 7 =
        SourceName.mysqlRow ⟨ascii "bin:4.000001", 4⟩ 7 := by
  have hfree : (SourceName.mysqlRow ⟨ascii "bin:4.000001", 4⟩ 7).SlashFree :=
    (by decide : (0x2f : UInt8) ∉ ascii "bin:4.000001")
  exact ⟨by decide, messageID_inj (ascii "cdc/a") (ascii "cdc/a") [] [1] colonRow colonRow _ _ rfl
    rfl hfree hfree (by decide)⟩

end Nats

/-! ## Source ids -/

/-- A source id determines what it names, whatever the file names are. -/
theorem SourceName.sourceID_inj {name name' : SourceName} (h : name.sourceID = name'.sourceID) :
    name = name' := by
  have hne : ∀ (lsn : Postgres.LSN) (index : Nat) {n : SourceName}, Nats.IsMysql n →
      Postgres.Listener.sourceID lsn index ≠ n.sourceID := by
    intro lsn index n hn heq
    -- without a subject prefix the first letter tells the sources apart
    rw [Nats.sourceID_mysql hn] at heq
    exact absurd (List.cons.inj heq).1 (by decide)
  cases name with
  | pg lsn index =>
    cases name' with
    | pg lsn' index' =>
      obtain ⟨-, hlsn, hindex⟩ := Nats.pg_inj (congrArg (([] : GoString) ++ ascii "/" ++ ·) h)
      rw [hlsn, hindex]
    | _ => exact absurd h (hne lsn index trivial)
  | _ =>
    cases name' with
    | pg lsn' index' => exact absurd h.symm (hne lsn' index' trivial)
    | _ => exact Nats.mysql_inj trivial trivial h
