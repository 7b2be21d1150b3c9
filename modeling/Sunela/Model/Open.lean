import Sunela.Model.Db
import Sunela.Model.Settings

/-! # Opening the account database

All blocks are read once. The records of entries are put into the tree by their paths, and
directories that have no record yet are virtual until one is found. -/

namespace Sunela.Database

open Serial Storage Span Block Fields Entry Tsort

/-- What a record says: where it is, its sequence number and path, and its fields in the
order in which they are kept. -/
structure Record where
  block : ℕ
  seq : UInt16
  path : Path
  fields : List DbField
  deriving DecidableEq

/-- The record in a payload, which has to start with an identifier. -/
def parseRecord (block : ℕ) (seq : UInt16) (payload : Bytes) : Option Record :=
  match tlvItem payload with
  | none => none
  | some (id, _) =>
      if id.type ≠ ftId then none
      else some
        { block, seq, path := splitPath id.data
          fields := sortFields (tlvItems payload.length payload) }

/-- A directory without a record of its own. -/
def virtualEntry (ptr : ℕ) (name : CString) : DbEntry :=
  { ptr, name, seq := 0, block := 0, defer := false, fields := [] }

/-- Put a record in its directory. It replaces an entry of the same name, unless the entry
comes from a newer record. -/
def storeRecord (r : Record) (ptr : ℕ) (name : CString) (F : Tree) : Option Tree :=
  match F.child DbEntry.name name with
  | none => some (insertSorted ⟨ptr, name, r.seq, r.block, false, r.fields⟩ F)
  | some (de, _) =>
      let new := { de with block := r.block, seq := r.seq, fields := r.fields }
      if de.block ≠ 0 then
        if Behind 0x8000 r.seq.toNat de.seq.toNat then some F
        else some (F.replaceChild DbEntry.name name new)
      else if de.fields ≠ [] ∨ de.seq ≠ 0 then none
      else some (F.replaceChild DbEntry.name name new)

/-- Walk down the path of a record. The pointers from `fresh` on are unused. -/
def placeRecord (r : Record) (fresh : ℕ) : Path → Tree → Option Tree
  | [], _ => none
  | [name], F => storeRecord r fresh name F
  | dir :: s :: path, F =>
      F.visit DbEntry.name dir (virtualEntry fresh dir) (placeRecord r (fresh + 1) (s :: path))

def Db.addInvalid (db : Db) (k : ℤ) : Db :=
  { db with stats := { db.stats with invalid := db.stats.invalid + k } }

/-- `process_payload` and the count of its result. -/
def processPayload (db : Db) (block : ℕ) (seq : UInt16) (payload : Bytes) : Option Db :=
  match parseRecord block seq payload with
  | none => some (db.addInvalid 1)
  | some r => do
      let F ← placeRecord r db.fresh r.path db.entries
      return { db.addData 1 with entries := F, fresh := db.fresh + r.path.length }

/-- One round of the loop of `db_open_progress`. -/
def openBlock (env : Env) (f : Flash) (s : Db × Settings) (i : ℕ) : Option (Db × Settings) :=
  let (db, st) := s
  let stats := db.stats
  match contents env.c f i with
  | .error => some ({ db with stats := { stats with error := stats.error + 1 } }, st)
  | .deleted => do
      let deleted ← spanAdd db.deleted i 1 Nat.one_pos
      return ({ db with deleted, stats := { stats with deleted := stats.deleted + 1 } }, st)
  | .erased => do
      let erased ← spanAdd db.erased i 1 Nat.one_pos
      return ({ db with erased, stats := { stats with erased := stats.erased + 1 } }, st)
  | .invalid => some (db.addInvalid 1, st)
  | .empty => do
      let empty ← spanAdd db.empty i 1 Nat.one_pos
      return ({ db with empty, stats := { stats with empty := stats.empty + 1 } }, st)
  | .data seq payload => do
      let db ← processPayload db i seq payload
      return (db, st)
  | .settings seq payload =>
      match settingsProcess st seq payload with
      | none => some (db.addInvalid 1, st)
      | some st => some ({ db.addSpecial 1 with settingsBlock := some i }, st)

/-- Give a directory an `ft_dir` field, unless it has one. An entry is a directory if it has
children or no record. -/
def fixEntry (parent : Bool) (e : DbEntry) : DbEntry :=
  if (dbFieldFind e.fields ftDir).isSome then e
  else if parent ∨ e.block = 0 then { e with fields := addField e.fields ftDir [] }
  else e

def fixVirtual : Tree → Tree
  | .nil => .nil
  | .node e ch nx => .node (fixEntry (ch ≠ .nil) e) (fixVirtual ch) (fixVirtual nx)

def dbOpenEmpty : Db :=
  { generation := 0, stats := ⟨0, 0, 0, 0, 0, 0, 0⟩, erased := .null, deleted := .null
    empty := .null, entries := .nil, dir := none, settingsBlock := none, fresh := 0
    handed := [] }

/-- The blocks a database consists of. -/
def dbBlocks (env : Env) : List ℕ :=
  List.range' reservedBlocks (env.storageBlocks - reservedBlocks)

/-- `db_open`, or nothing if an assertion fails. Generations are counted from here on. -/
def dbOpen (env : Env) (st : Settings) (f : Flash) : Option (Db × Settings) := do
  let (db, st) ← (dbBlocks env).foldlM (openBlock env f) (dbOpenEmpty, st)
  let F ← dbTsort db.entries
  return ({ db with entries := fixVirtual F }, st)

end Sunela.Database
