import Sunela.Model.Base32
import Sunela.Model.EntryOps
import Sunela.Model.Fmt
import Sunela.Model.Pages

/-! # The page that edits a field

A field is presented as a text on the page for the entry of texts. When that page returns, the
text is converted back and stored. -/

namespace Sunela.FieldEdit

open Program Storage Block Fields Database Remote UiEntry Fmt Base32

def maxStringLen : ℕ := 64

def maxSecretLen : ℕ := 20

/-- The types whose text is the field itself. -/
def stringTypes : List UInt8 := [ftUser, ftEmail, ftPw, ftPw2, ftComment]

def secretTypes : List UInt8 := [ftHotpSecret, ftTotpSecret]

/-! ## Storing a text -/

/-- What `field_edited` does: `db_change_field` gets a pointer to an object, and a size. -/
inductive Edited where
  | unchanged
  | change (object : Bytes) (size : ℕ)
  | failed
  deriving DecidableEq

/-- A number converted to `unsigned`. -/
def unsigned (n : ℤ) : ℕ := (n % 2 ^ 32).toNat

def edited (type : UInt8) (text : CString) : Edited :=
  if text = .empty then .unchanged
  else if type ∈ stringTypes then .change text.bytes text.bytes.length
  else if type ∈ secretTypes then
    let (len, tmp) := base32Decode maxSecretLen text
    .change tmp (unsigned len)
  else if type = ftHotpCounter then
    match strtoull text with
    | (counter, []) => .change (bytes64 counter) 8
    | _ => .failed
  else .failed

/-- `db_change_field`, which copies `size` bytes of an object. -/
def changeObject (db : Db) (de : ℕ) (type : UInt8) (object : Bytes) (size : ℕ) : Fw Db :=
  if size ≤ object.length then changeField db de type (object.take size) else .undef

def fieldEdited (env : Env) (db : Db) (de : ℕ) (type : UInt8) (text : CString) :
    Fw (Bool × Db) :=
  match edited type text with
  | .unchanged => return (true, db)
  | .change object size => changeEntry env db de fun db => changeObject db de type object size
  | .failed => .halt

/-! ## Presenting a field -/

inductive Fault where
  /-- an assertion fails, or `ABORT` is reached -/
  | failed
  | undefined
  deriving DecidableEq

/-- Write to the beginning of a buffer. -/
def store (buf data : Bytes) : Except Fault Bytes :=
  if data.length ≤ buf.length then .ok (overwrite buf 0 data) else .error .undefined

def copyString (buf : Bytes) : Option DbField → Except Fault Bytes
  | some f => store buf (f.data ++ [0])
  | none => store buf [0]

def copyBase32 (buf : Bytes) : Option DbField → Except Fault Bytes
  | some f => store buf (base32Encode (base32EncodeSize maxSecretLen) f.data).2
  | none => store buf [0]

/-- `copy_decimal`, where the field is copied to a variable of 8 bytes first. -/
def copyDecimal (buf : Bytes) : Option DbField → Except Fault Bytes
  | some f =>
      if 8 < f.data.length then .error .undefined
      else if f.data.length = 8 then store buf (printNumber (le64 f.data).toNat 0 10 ++ [0])
      else .error .failed
  | none => .error .undefined

def validateBase32 (s : CString) : ℤ := if 0 < base32DecodeSize s then 1 else 0

def validateDecimal (s : CString) : ℤ := if (strtoull s).2 = [] then 1 else 0

/-- `c->buf`, which is zeroed before the page opens. -/
def newBuf : Bytes := List.replicate (maxStringLen + 1) 0

/-- The parameters of the page for the text, and the buffer. -/
def presented (type : UInt8) (f : Option DbField) : Except Fault (UiEntryParams × Bytes) :=
  if type ∈ stringTypes then do
    let buf ← copyString newBuf f
    return (⟨⟨maxStringLen, none⟩, uiEntryTextMaps, wiGeneralEntryOps⟩, buf)
  else if type ∈ secretTypes then do
    let buf ← copyBase32 newBuf f
    return (⟨⟨maxStringLen, some validateBase32⟩, uiEntryTextMaps, wiGeneralEntryOps⟩, buf)
  else if type = ftHotpCounter then do
    let buf ← copyDecimal newBuf f
    return (⟨⟨64 / 10 * 3, some validateDecimal⟩, uiEntryDecimalMaps, wiGeneralEntryOps⟩, buf)
  else .error .failed

structure Opened where
  params : UiEntryParams
  page : UiEntryCtx

/-- `ui_field_edit_open`, and the page for the text that it opens. -/
def uiFieldEditOpen (type : UInt8) (fields : List DbField) : Except Fault Opened := do
  let (params, buf) ← presented type (dbFieldFind fields type)
  match uiEntryOpen params buf with
  | none => .error .failed
  | some page => return ⟨params, page⟩

end Sunela.FieldEdit
