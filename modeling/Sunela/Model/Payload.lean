import Sunela.Model.Open

/-! # Reading a record from its payload

The parser of `db.c` with the addresses at which it reads. Only the bytes of the payload can be
read: whatever reads another one has no defined result, nor has a failed assertion or a loop that
does not end within the given number of rounds. -/

namespace Sunela.Database

open Serial Fields Entry

/-- What `tlv_item` returns: the type and length of an item, the address of its value, and that of
the next item. -/
structure TlvAt where
  type : UInt8
  len : ℕ
  q : ℕ
  p : ℕ
  deriving DecidableEq

def tlvItemAt (payload : Bytes) (p : ℕ) : Option (Option TlvAt) :=
  if p + 2 > payload.length then some none
  else do
    let type ← payload[p]?
    if type = ftEnd then return none
    let len ← payload[p + 1]?
    if p + 2 + len.toNat > payload.length then return none
    return some ⟨type, len.toNat, p + 2, p + 2 + len.toNat⟩

/-- `memchr`: the address of the first byte `c` among `n` bytes. -/
def memchrAt (payload : Bytes) (c : UInt8) (q : ℕ) : ℕ → Option (Option ℕ)
  | 0 => some none
  | n + 1 => do
      let b ← payload[q]?
      if b = c then return some q
      memchrAt payload c (q + 1) n

/-- `!strcmp(q, name)` -/
def strcmpAt (payload : Bytes) (q : ℕ) : Bytes → Option Bool
  | [] => do
      let b ← payload[q]?
      return b = 0
  | c :: name => do
      let b ← payload[q]?
      if b = c then strcmpAt payload (q + 1) name else return false

def memcpyAt (payload : Bytes) (q : ℕ) : ℕ → Option Bytes
  | 0 => some []
  | n + 1 => do
      let b ← payload[q]?
      let bs ← memcpyAt payload (q + 1) n
      return b :: bs

/-- `alloc_string`, as functions that expect a string see it. -/
def allocString (payload : Bytes) (q len : ℕ) : Option CString :=
  (memcpyAt payload q len).map CString.ofBuffer

/-- Find the directory whose name begins at `q`, or append a virtual one, and go on in it. -/
def visitAt (payload : Bytes) (q dirLen ptr : ℕ) (change : Tree → Option Tree) :
    Tree → Option Tree
  | .nil => do
      let name ← allocString payload q dirLen
      (change .nil).map fun ch => .node (virtualEntry ptr name) ch .nil
  | .node e ch nx => do
      if ← strcmpAt payload q e.name.bytes then
        (change ch).map fun ch => .node e ch nx
      else
        (visitAt payload q dirLen ptr change nx).map (.node e ch)

/-- The second loop of `process_payload`. -/
def addFieldsAt (payload : Bytes) (p : ℕ) (fields : List DbField) : ℕ → Option (List DbField)
  | 0 => none
  | rounds + 1 => do
      if p = payload.length then return fields
      match ← tlvItemAt payload p with
      | none => return fields
      | some item =>
          let data ← memcpyAt payload item.q item.len
          addFieldsAt payload item.p (addField fields item.type data) rounds

/-- What `process_payload` does once it has the directory and the name. -/
def storeAt (payload : Bytes) (block : ℕ) (seq : UInt16) (ptr : ℕ) (name : CString) (F : Tree) :
    Option Tree := do
  let fields := addFieldsAt payload 0 [] (payload.length + 1)
  match F.child DbEntry.name name with
  | none =>
      let fields ← fields
      return insertSorted ⟨ptr, name, seq, block, false, fields⟩ F
  | some (de, _) =>
      if de.block ≠ 0 then
        if Behind 0x8000 seq.toNat de.seq.toNat then return F
      else if de.fields ≠ [] ∨ de.seq ≠ 0 then none
      let fields ← fields
      return F.replaceChild DbEntry.name name { de with block, seq, fields }

/-- The first loop of `process_payload`, for the `len` bytes of the identifier at `q`. -/
def walkAt (payload : Bytes) (block : ℕ) (seq : UInt16) (q len ptr : ℕ) (F : Tree) :
    ℕ → Option Tree
  | 0 => none
  | rounds + 1 => do
      match ← memchrAt payload 0 q len with
      | none =>
          let name ← allocString payload q len
          storeAt payload block seq ptr name F
      | some z =>
          let dirLen := z - q
          visitAt payload q dirLen ptr
            (fun ch => walkAt payload block seq (z + 1) (len - (dirLen + 1)) (ptr + 1) ch rounds) F

/-- `process_payload`. The pointers from `db.fresh` on are unused. -/
def processPayloadAt (db : Db) (block : ℕ) (seq : UInt16) (payload : Bytes) :
    Option (Bool × Db) := do
  match ← tlvItemAt payload 0 with
  | none => return (false, db)
  | some item =>
      if item.type ≠ ftId then return (false, db)
      let entries ← walkAt payload block seq item.q item.len db.fresh db.entries (item.len + 1)
      let names := splitPath ((payload.drop item.q).take item.len)
      return (true, { db with entries, fresh := db.fresh + names.length })

end Sunela.Database
