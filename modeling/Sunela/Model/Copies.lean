import Sunela.Model.Db

/-! # The memory copies of a rename

The functions of `db.c` that take part in a rename, with each `memcpy` as a command. A string or
the data of a field is in an object of at least its length. -/

namespace Sunela.Database

open Program Storage Block Fields Entry

variable {α : Type}

/-- Some bytes of an object with `size` bytes. -/
structure ByteRange where
  size : ℕ
  start : ℕ
  len : ℕ
  deriving DecidableEq

def ByteRange.Inside (r : ByteRange) : Prop := r.start + r.len ≤ r.size

instance (r : ByteRange) : Decidable r.Inside := inferInstanceAs (Decidable (_ ≤ _))

structure Copy where
  dst : ByteRange
  src : ByteRange
  deriving DecidableEq

structure Copy.Inside (c : Copy) : Prop where
  dst : c.dst.Inside
  src : c.src.Inside

/-- What the firmware asks of the storage, or a copy in memory. -/
inductive MemCmd where
  | storage (c : Cmd)
  | memcpy (c : Copy)

def MemReply : MemCmd → Type
  | .storage c => Reply c
  | .memcpy _ => Unit

abbrev FwMem := Prog MemCmd MemReply

/-- A copy has no effect on the storage. -/
inductive MemStep (step : Flash → (c : Cmd) → Reply c → Flash → Prop) :
    Flash → (c : MemCmd) → MemReply c → Flash → Prop where
  | storage {f g : Flash} {c : Cmd} {r : Reply c} (h : step f c r g) :
      MemStep step f (.storage c) r g
  | memcpy (f : Flash) (c : Copy) : MemStep step f (.memcpy c) () f

/-- A part that does not copy anything. -/
def onStorage (p : Fw α) : FwMem α := p.expand fun c => Prog.exec (MemCmd.storage c)

/-- The program without its copies. -/
def FwMem.forget (p : FwMem α) : Fw α :=
  p.expand fun c =>
    match c with
    | .storage c => Prog.exec c
    | .memcpy _ => .ret ()

def memcpy (dst src : ByteRange) : FwMem Unit := Prog.exec (MemCmd.memcpy ⟨dst, src⟩)

/-! ## `db_change_field` -/

/-- The copies for a new value of a field. The data are at the beginning of an object of `size`
bytes. -/
def fieldCopies (type : UInt8) (data : Bytes) (size : ℕ) : FwMem Unit := do
  memcpy ⟨data.length, 0, data.length⟩ ⟨size, 0, data.length⟩
  if type = ftId then
    match memrchr 0 data with
    | none => memcpy ⟨data.length + 1, 0, data.length⟩ ⟨size, 0, data.length⟩
    | some z =>
        let nameLen := data.length - (z + 1)
        memcpy ⟨nameLen + 1, 0, nameLen⟩ ⟨size, z + 1, nameLen⟩
  else return ()

def dbChangeFieldMem (env : Env) (db : Db) (p : ℕ) (type : UInt8) (data : Bytes) (size : ℕ) :
    FwMem (Bool × Db) :=
  match find p db.entries with
  | none => .undef
  | some (de, _) =>
      if de.defer then do
        fieldCopies type data size
        let db ← onStorage (changeField db p type data)
        return (true, db)
      else do
        let (new, db) ← onStorage (getErasedBlock db)
        match new with
        | none => return (false, db)
        | some new => do
            fieldCopies type data size
            let db ← onStorage (changeField db p type data)
            onStorage (updateEntry env db p new)

/-! ## `db_rename` -/

/-- `patch_one`. The prefix is in an object of `size` bytes. -/
def patchOneMem (env : Env) (db : Db) (p : ℕ) (newPrefix : Bytes) (size oldPrefixLen : ℕ) :
    FwMem (Bool × Db) :=
  match find p db.entries with
  | none => .undef
  | some (de, _) =>
      match de.fields with
      | [] => .undef
      | id :: _ =>
          if id.type ≠ ftId ∨ id.data.length < oldPrefixLen then .halt
          else if id.data.length = oldPrefixLen then dbChangeFieldMem env db p ftId newPrefix size
          else if id.data[oldPrefixLen]? ≠ some 0 then .halt
          else do
            let rest := id.data.length - oldPrefixLen
            let newLen := rest + newPrefix.length
            memcpy ⟨newLen, 0, newPrefix.length⟩ ⟨size, 0, newPrefix.length⟩
            memcpy ⟨newLen, newPrefix.length, rest⟩ ⟨id.data.length, oldPrefixLen, rest⟩
            dbChangeFieldMem env db p ftId (newPrefix ++ id.data.drop oldPrefixLen) newLen

def patchRecursiveMem (env : Env) (newPrefix : Bytes) (size oldPrefixLen : ℕ) :
    Tree → Db → FwMem (Bool × Db)
  | .nil, db => return (true, db)
  | .node e ch nx, db => do
      let (ok, db) ← patchOneMem env db e.ptr newPrefix size oldPrefixLen
      if !ok then return (false, db)
      else do
        let (ok, db) ← patchRecursiveMem env newPrefix size oldPrefixLen ch db
        if !ok then return (false, db)
        else patchRecursiveMem env newPrefix size oldPrefixLen nx db

/-- `db_rename`. The name is in an object of `size` bytes. -/
def dbRenameMem (env : Env) (db : Db) (p : ℕ) (name : CString) (size : ℕ) : FwMem (Bool × Db) :=
  match find p db.entries with
  | none => .undef
  | some (de, ch) =>
      match de.fields with
      | [] => .undef
      | id :: _ =>
          if id.type ≠ ftId then .halt
          else
            match memrchr 0 id.data with
            | none =>
                patchRecursiveMem env name.bytes size id.data.length (.node de ch .nil) db
            | some z =>
                let pos := z + 1
                let newLen := pos + name.bytes.length
                if 1 < pos ∧ pos < id.data.length then do
                  memcpy ⟨newLen, 0, pos⟩ ⟨id.data.length, 0, pos⟩
                  memcpy ⟨newLen, pos, newLen⟩ ⟨size, 0, newLen⟩
                  patchRecursiveMem env (id.data.take pos ++ name.bytes) newLen id.data.length
                    (.node de ch .nil) db
                else .halt

end Sunela.Database
