import Mathlib.Data.Int.Notation
import Sunela.Model.Block
import Sunela.Model.Span
import Sunela.Model.Tsort

/-! # The account database

The entries in memory, the lists of free blocks and the operations that change both and the
storage. A pointer to no entry of the tree is dangling, and using it is undefined. -/

namespace Sunela.Database

open Program Storage Span Block Fields Entry Tsort

/-- `struct db_stats`. The total is that of the storage. -/
structure DbStats where
  erased : ℤ
  deleted : ℤ
  empty : ℤ
  invalid : ℤ
  error : ℤ
  data : ℤ
  special : ℤ
  deriving DecidableEq

/-- `struct db`. Besides, `fresh` is the next pointer that has not been used, and `handed`
records the blocks that `get_erased_block` has returned. -/
structure Db where
  generation : UInt32
  stats : DbStats
  erased : Spans
  deleted : Spans
  empty : Spans
  entries : Tree
  dir : Option ℕ
  settingsBlock : Option ℕ
  fresh : ℕ
  handed : List ℕ
  deriving DecidableEq

theorem storageEraseSize_pos : 0 < storageEraseSize := by decide

/-! ## Get an erased block, erasing if needed -/

/-- Erase the first group of a list. `take` is the database with the group taken out. -/
def reclaim (db : Db) (spans : Spans) (take : Spans → Db) : Fw (Bool × Db) :=
  match spanPullEraseBlock spans storageEraseSize storageEraseSize_pos with
  | none => .undef
  | some (none, _) => return (false, db)
  | some (some n, rest) => do
      let db := take rest
      if ← storageEraseBlocks n storageEraseSize then
        return (true, { db with
          stats := { db.stats with erased := db.stats.erased + storageEraseSize } })
      else
        return (false, { db with
          stats := { db.stats with error := db.stats.error + storageEraseSize } })

def reclaimEmpty (db : Db) : Fw (Bool × Db) :=
  reclaim db db.empty fun rest => { db with
    empty := rest, stats := { db.stats with empty := db.stats.empty - storageEraseSize } }

def reclaimDeleted (db : Db) : Fw (Bool × Db) :=
  reclaim db db.deleted fun rest => { db with
    deleted := rest, stats := { db.stats with deleted := db.stats.deleted - storageEraseSize } }

/-- The database after a block has been taken from the list of erased ones. -/
def Db.popped (db : Db) (n : ℕ) (rest : Spans) : Db :=
  { db with
    erased := rest, stats := { db.stats with erased := db.stats.erased - 1 }
    handed := n :: db.handed }

/-- The loop of `get_erased_block`. An erased group is counted, but not put on the list. -/
def erasedLoop (fuel : ℕ) (db : Db) : Fw (Option ℕ × Db) :=
  match fuel with
  | 0 => .halt
  | fuel + 1 =>
      match spanPullOne db.erased with
      | none => .undef
      | some (some n, rest) => return (some n, db.popped n rest)
      | some (none, _) => do
          let (again, db) ← reclaimEmpty db
          if again then erasedLoop fuel db
          else do
            let (again, db) ← reclaimDeleted db
            if again then erasedLoop fuel db
            else return (none, db)

def getErasedBlock (db : Db) : Fw (Option ℕ × Db) :=
  erasedLoop (db.empty.blocks.length + db.deleted.blocks.length + 1) db

/-! ## Storage operations on entries -/

/-- Delete a block and add it to the list of deleted blocks. -/
def discard (env : Env) (db : Db) (n : ℕ) : Fw (Bool × Db) := do
  if ← blockDelete env n then
    match spanAdd db.deleted n 1 Nat.one_pos with
    | none => .undef
    | some deleted =>
        return (true, { db with
          deleted := deleted, stats := { db.stats with deleted := db.stats.deleted + 1 } })
  else return (false, db)

def Db.addData (db : Db) (k : ℤ) : Db :=
  { db with stats := { db.stats with data := db.stats.data + k } }

def writeEntry (env : Env) (db : Db) (de : DbEntry) : Fw (Bool × Db) :=
  if de.block = 0 then .halt
  else
    match encodeFields storageBlockSize de.fields with
    | none => return (false, db)
    | some payload => do
        let ok ← blockWrite env .data de.seq payload de.block
        return (ok, if ok then db.addData 1 else db)

/-- The entry as it is to be written to block `new`. -/
def renewed (new : ℕ) (de : DbEntry) : DbEntry := { de with block := new, seq := de.seq + 1 }

def updateEntry (env : Env) (db : Db) (p new : ℕ) : Fw (Bool × Db) :=
  match find p db.entries with
  | none => .undef
  | some (de, _) => do
      let old := de.block
      let db := { db with entries := modify p (renewed new) db.entries }
      let (ok, db) ← writeEntry env db (renewed new de)
      if !ok then do
        let (_, db) ← discard env db new
        return (false, db)
      else if old ≠ 0 then do
        let (done, db) ← discard env db old
        return (true, if done then db.addData (-1) else db)
      else return (true, db)

def dbEntryDeferUpdate (env : Env) (db : Db) (p : ℕ) (defer : Bool) : Fw (Bool × Db) :=
  match find p db.entries with
  | none => .undef
  | some _ =>
      let finish (db : Db) : Fw (Bool × Db) :=
        return (true, { db with entries := modify p (fun e => { e with defer }) db.entries })
      if defer then finish db
      else do
        let (new, db) ← getErasedBlock db
        match new with
        | none => return (false, db)
        | some new => do
            let (ok, db) ← updateEntry env db p new
            if ok then finish db else return (false, db)

/-! ## Fields -/

def Db.changed (db : Db) : Db := { db with generation := db.generation + 1 }

/-- `db_tsort`. It is an error to leave an entry out. -/
def Db.sorted (db : Db) : Fw Db :=
  match dbTsort db.entries with
  | none => .halt
  | some F => return if F = .nil then db else { db.changed with entries := F }

/-- The name in an identifier: what follows the last NUL. -/
def idName (data : Bytes) : CString :=
  match memrchr 0 data with
  | none => .ofBuffer data
  | some z => .ofBuffer (data.drop (z + 1))

/-- An entry with a field changed. A new identifier brings a new name. -/
def withField (type : UInt8) (data : Bytes) (e : DbEntry) : DbEntry :=
  { e with
    fields := setField e.fields type data
    name := if type = ftId then idName data else e.name }

/-- The part of `db_change_field` that does not touch the storage. -/
def changeField (db : Db) (p : ℕ) (type : UInt8) (data : Bytes) : Fw Db :=
  let db := { db with entries := modify p (withField type data) db.entries }
  if type = ftId ∨ type = ftPrev then db.sorted else return db.changed

/-- A change to an entry, which is stored unless the entry defers updates. -/
def changeEntry (env : Env) (db : Db) (p : ℕ) (change : Db → Fw Db) : Fw (Bool × Db) :=
  match find p db.entries with
  | none => .undef
  | some (de, _) =>
      if de.defer then do
        let db ← change db
        return (true, db)
      else do
        let (new, db) ← getErasedBlock db
        match new with
        | none => return (false, db)
        | some new => do
            let db ← change db
            updateEntry env db p new

def dbChangeField (env : Env) (db : Db) (p : ℕ) (type : UInt8) (data : Bytes) :
    Fw (Bool × Db) :=
  changeEntry env db p fun db => changeField db p type data

def withoutField (i : ℕ) (e : DbEntry) : DbEntry := { e with fields := e.fields.eraseIdx i }

/-- The part of `db_delete_field` that does not touch the storage. -/
def deleteField (db : Db) (p i : ℕ) : Fw Db :=
  let db := { db with entries := modify p (withoutField i) db.entries }
  if db.entries = .nil then return db.changed else db.sorted

/-- The field is given by its place in the list. -/
def dbDeleteField (env : Env) (db : Db) (p i : ℕ) : Fw (Bool × Db) :=
  match find p db.entries with
  | none => .undef
  | some (de, _) =>
      if de.fields.length ≤ i then .undef
      else changeEntry env db p fun db => deleteField db p i

/-! ## Renaming -/

def patchOne (env : Env) (db : Db) (p : ℕ) (newPrefix : Bytes) (oldPrefixLen : ℕ) :
    Fw (Bool × Db) :=
  match find p db.entries with
  | none => .undef
  | some (de, _) =>
      match de.fields with
      | [] => .undef
      | id :: _ =>
          if id.type ≠ ftId ∨ id.data.length < oldPrefixLen then .halt
          else if id.data.length = oldPrefixLen then dbChangeField env db p ftId newPrefix
          else if id.data[oldPrefixLen]? ≠ some 0 then .halt
          else dbChangeField env db p ftId (newPrefix ++ id.data.drop oldPrefixLen)

/-- `patch_recursive` for each entry of a list of siblings. -/
def patchRecursive (env : Env) (newPrefix : Bytes) (oldPrefixLen : ℕ) :
    Tree → Db → Fw (Bool × Db)
  | .nil, db => return (true, db)
  | .node e ch nx, db => do
      let (ok, db) ← patchOne env db e.ptr newPrefix oldPrefixLen
      if !ok then return (false, db)
      else do
        let (ok, db) ← patchRecursive env newPrefix oldPrefixLen ch db
        if !ok then return (false, db)
        else patchRecursive env newPrefix oldPrefixLen nx db

/-- The identifier a renamed entry gets, if the assertions on the old one hold. -/
def renamedId (id : Bytes) (name : CString) : Option Bytes :=
  match memrchr 0 id with
  | none => some name.bytes
  | some z =>
      if 1 < z + 1 ∧ z + 1 < id.length then some (id.take (z + 1) ++ name.bytes) else none

def dbRename (env : Env) (db : Db) (p : ℕ) (name : CString) : Fw (Bool × Db) :=
  match find p db.entries with
  | none => .undef
  | some (de, ch) =>
      match de.fields with
      | [] => .undef
      | id :: _ =>
          if id.type ≠ ftId then .halt
          else
            match renamedId id.data name with
            | none => .halt
            | some newPrefix => patchRecursive env newPrefix id.data.length (.node de ch .nil) db

/-- How many bytes `db_rename` writes past the end of `tmp`: it copies as many bytes to the place
of the name as `tmp` has in all. -/
def renameOverrun (id : Bytes) (name : CString) : ℕ :=
  match memrchr 0 id with
  | none => 0
  | some z =>
      let pos := z + 1
      let newLen := pos + name.bytes.length
      pos + newLen - newLen

/-- `db_rename` where writing past the end of `tmp` is undefined behaviour. `dbRename` is what
comes of it if these bytes do no harm. -/
def dbRenameStrict (env : Env) (db : Db) (p : ℕ) (name : CString) : Fw (Bool × Db) :=
  match find p db.entries with
  | none => .undef
  | some (de, _) =>
      match de.fields with
      | [] => .undef
      | id :: _ =>
          if id.type = ftId ∧ (renamedId id.data name).isSome ∧ renameOverrun id.data name ≠ 0 then
            .undef
          else dbRename env db p name

/-! ## Creation and deletion of entries -/

/-- The identifier of a new entry. -/
def newId (db : Db) (name : CString) : Fw Bytes :=
  match db.dir with
  | none => return name.bytes
  | some d =>
      match find d db.entries with
      | none => .undef
      | some (parent, _) =>
          match parent.fields with
          | [] => .undef
          | id :: _ => if id.type ≠ ftId then .halt else return id.data ++ 0 :: name.bytes

def dbNewEntry (env : Env) (db : Db) (name : CString) : Fw (Option ℕ × Db) := do
  let (new, db) ← getErasedBlock db
  match new with
  | none => return (none, db)
  | some new => do
      let seq ← rndBytes 2
      let id ← newId db name
      let de : DbEntry :=
        { ptr := db.fresh, name, seq := seqOfBytes (seq.getD 0 0) (seq.getD 1 0), block := new
          defer := false, fields := addField [] ftId id }
      let db := { db.changed.changed with
        entries := newEntry db.dir de db.entries, fresh := db.fresh + 1 }
      let db ← db.sorted
      let (ok, db) ← writeEntry env db de
      if ok then return (some de.ptr, db)
      else do
        let (_, db) ← discard env db new
        return (none, db)

def dbDeleteEntry (env : Env) (db : Db) (p : ℕ) : Fw (Bool × Db) :=
  match find p db.entries with
  | none => .undef
  | some (de, _) => do
      let db ← Db.sorted { db with entries := db.entries.remove (DbEntry.is p) }
      let (ok, db) ← discard env db de.block
      return (ok, if ok then db.addData (-1) else db)

/-! ## Directories and settings -/

def dbMkdir (env : Env) (db : Db) (p : ℕ) : Fw Db :=
  match find p db.entries with
  | none => .undef
  | some r =>
      if dbIsDir r ∨ dbIsAccount r then .halt
      else do
        let (_, db) ← dbChangeField env db p ftDir []
        return db

def dbChdir (db : Db) (dir : Option ℕ) : Db := { db with dir }

def Db.addSpecial (db : Db) (k : ℤ) : Db :=
  { db with stats := { db.stats with special := db.stats.special + k } }

def dbUpdateSettings (env : Env) (db : Db) (seq : UInt16) (payload : Bytes) :
    Fw (Bool × Db) := do
  let (new, db) ← getErasedBlock db
  match new with
  | none => return (false, db)
  | some new => do
      if ← blockWrite env .settings seq payload new then
        let db := db.addSpecial 1
        match db.settingsBlock with
        | none => return (true, { db with settingsBlock := some new })
        | some old => do
            let (done, db) ← discard env db old
            let db := if done then db.addSpecial (-1) else db
            return (true, { db with settingsBlock := some new })
      else do
        let (_, db) ← discard env db new
        return (false, db)

end Sunela.Database
