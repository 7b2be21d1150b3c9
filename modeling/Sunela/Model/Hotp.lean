import Sunela.Model.Operation
import Sunela.Model.RmtDb

/-! # One-time passwords

A tap on the HOTP field of an account shows the code for the counter of the account, and
stores the counter that follows. -/

namespace Sunela.Hotp

open Program Storage Block Fields Entry Database Remote

/-- `hmac_sha1 (res, k, k_size, c, c_size)`, whose result has 20 bytes. -/
abbrev HmacSha1 := Bytes → Bytes → Bytes

/-- `hotp`: four bytes of the hash. The last byte says from where. -/
def hotp (hmacSha1 : HmacSha1) (k c : Bytes) : UInt32 :=
  let hash := hmacSha1 k c
  let i := (hash.getD 19 0 &&& 15).toNat
  (hash.getD i 0 &&& 0x7f).toUInt32 <<< 24 ||| (hash.getD (i + 1) 0).toUInt32 <<< 16 |||
    (hash.getD (i + 2) 0).toUInt32 <<< 8 ||| (hash.getD (i + 3) 0).toUInt32

def hotpN (hmacSha1 : HmacSha1) (k : Bytes) (count : UInt64) (bytes : ℕ) : UInt32 :=
  hotp hmacSha1 k
    ((List.range bytes).map fun i => UInt8.ofNat (count.toNat >>> (8 * (bytes - i - 1))))

def hotp64 (hmacSha1 : HmacSha1) (k : Bytes) (count : UInt64) : UInt32 :=
  hotpN hmacSha1 k count 8

/-- What is on the display after a tap: the code, and the low half of the counter to come. The
counter that the code was computed from goes with it. -/
structure Display where
  counter : UInt64
  code : UInt32
  next : UInt32
  deriving DecidableEq

/-- The loop over the fields: the last secret and the last counter, if every counter has eight
bytes. A field without bytes has no data to point to. -/
def hotpFields (fields : List DbField) : Option (Option Bytes × Option Bytes) :=
  fields.foldlM (fun r f =>
    if f.type = ftHotpSecret then some (if f.data = [] then none else some f.data, r.2)
    else if f.type = ftHotpCounter then
      if f.data.length = 8 then some (r.1, some f.data) else none
    else some r) (none, none)

/-- `set_counter_entry (c, NULL)`: what the list shows as the counter. The list has the first
counter of the account. -/
def setCounterEntry (db : Db) (p : ℕ) : Fw UInt32 :=
  match find p db.entries with
  | none => .undef
  | some (de, _) =>
      match dbFieldFind de.fields ftHotpCounter with
      | none => .halt
      | some f => if f.data.length = 8 then return (le64 f.data).toUInt32 else .halt

/-- `ui_account_tap` on a list of fields. `entry` is the field of the entry that is hit, if
any. -/
def uiAccountTap (env : Env) (hmacSha1 : HmacSha1) (db : Db) (p : ℕ) (entry : Option DbField) :
    Fw (Option Display × Db) :=
  match entry with
  | none => return (none, db)
  | some f =>
      match find p db.entries with
      | none => .undef
      | some (de, _) =>
          match hotpFields de.fields with
          | none => .halt
          | some (some hotpSecret, some hotpCounter) =>
              if f.type ≠ ftHotpSecret then return (none, db)
              else do
                let counter := le64 hotpCounter
                let code := hotp64 hmacSha1 hotpSecret counter % 1000000
                let (_, db) ← dbChangeField env db p ftHotpCounter (bytes64 (counter + 1))
                let next ← setCounterEntry db p
                return (some ⟨counter, code, next⟩, db)
          | some _ => return (none, db)

/-! ## Runs -/

/-- The entry is where the path leads. -/
def Sits (F : Tree) (q : Path) (e : DbEntry) : Prop :=
  ∃ c, c ++ [e] ∈ F.chains ∧ (c ++ [e]).map DbEntry.name = q

/-- The command was to write something other than zeros, and failed. -/
def WriteFails : (c : Cmd) → Reply c → Prop
  | .write _ buf, ok => buf ≠ zeroBlock ∧ ok = false
  | _, _ => False

/-- Any device, or one on which only erasing and deleting can fail. -/
def Writes (torn : Torn) (saved : Prop) : Device := fun f c r g =>
  Step torn f c r g ∧ (saved → ¬ WriteFails c r)

end Sunela.Hotp
