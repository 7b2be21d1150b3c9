import Sunela.Model.Block
import Sunela.Model.Dbcrypt
import Sunela.Model.Entry

/-! # Records on their way to the storage

`write_entry` and `block_write` down to `db_encrypt`, for any number of readers. -/

namespace Sunela.Dbcrypt

open Storage Block Fields Entry

variable {nacl : Nacl}

/-- The outcome for a record: it is refused as too large, an assertion fails, or there is a block
to write. -/
inductive Sealing where
  | refused
  | failed
  | block (b : Bytes)
  deriving DecidableEq

/-- `block_write` of a data record, with the nonce and the record key that are drawn. -/
def blockSealing (c : DbCtx nacl) (seq : UInt16) (payload nonce rk : Bytes) : Sealing :=
  if storageBlockSize < headerSize + payload.length then .failed
  else
    match dbEncrypt c (packed 4 seq payload) nonce rk with
    | none => .failed
    | some b => .block b

/-- `write_entry` -/
def entrySealing (c : DbCtx nacl) (de : DbEntry) (nonce rk : Bytes) : Sealing :=
  match encodeFields storageBlockSize de.fields with
  | none => .refused
  | some payload => blockSealing c de.seq payload nonce rk

end Sunela.Dbcrypt
