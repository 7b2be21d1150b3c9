import Sunela.Model.Accounts
import Sunela.Model.Hotp

/-! # The pages for accounts and folders

The operations of the database that the pages offer: besides those that enter a name, they edit
and delete fields, delete and move entries, and store settings. -/

namespace Sunela.Accounts

open Program Storage Block Entry Fields Database TextEntry Hotp

/-- The types of the fields that `field_edited` stores. -/
def editedTypes : List UInt8 :=
  [ftUser, ftEmail, ftPw, ftPw2, ftComment, ftHotpSecret, ftTotpSecret, ftHotpCounter]

/-- The types of the fields that `delete_field` offers to delete. -/
def deletedTypes : List UInt8 :=
  [ftUser, ftEmail, ftPw, ftPw2, ftHotpSecret, ftTotpSecret, ftComment]

/-- `field_edited`, with the data that it makes of a text that is not empty. -/
def fieldEdited (env : Env) (db : Db) (de : ℕ) (type : UInt8) (data : Bytes) : Fw (Bool × Db) :=
  if type ∈ editedTypes then dbChangeField env db de type data else .halt

/-- `confirm_field_deletion`: the second password takes the place of the first. -/
def confirmFieldDeletion (env : Env) (db : Db) (selected i : ℕ) : Fw (Bool × Db) :=
  match find selected db.entries with
  | none => .undef
  | some (de, _) =>
      match de.fields[i]? with
      | none => .undef
      | some f =>
          match if f.type = ftPw then dbFieldFind de.fields ftPw2 else none with
          | none => dbDeleteField env db selected i
          | some f2 => do
              let (_, db) ← dbEntryDeferUpdate env db selected true
              let (_, db) ← dbChangeField env db selected ftPw f2.data
              let (_, db) ← dbDeleteType env db de ftPw2
              dbEntryDeferUpdate env db selected false

/-- `delete_field`, and its confirmation. -/
def deleteField (env : Env) (db : Db) (selected i : ℕ) : Fw (Bool × Db) :=
  match find selected db.entries with
  | none => .undef
  | some (de, _) =>
      match de.fields[i]? with
      | none => .undef
      | some f =>
          if f.type ∈ deletedTypes then confirmFieldDeletion env db selected i else .halt

/-- The directory in which an entry is. There is none for the top level. -/
def findParent (de : ℕ) (dir : Option ℕ) : Tree → Option ℕ
  | .nil => none
  | .node e ch nx =>
      if e.is de then dir
      else (findParent de (some e.ptr) ch).or (findParent de dir nx)

def dbDirParent (db : Db) : Option ℕ := db.dir.bind fun d => findParent d none db.entries

/-- `confirm_dir_deletion`: the current directory is deleted, and its parent is opened. -/
def confirmDirDeletion (env : Env) (db : Db) : Fw (Bool × Db) :=
  match db.dir with
  | none => .undef
  | some d => do
      let parent := dbDirParent db
      let (ok, db) ← dbDeleteEntry env db d
      return (ok, dbChdir db parent)

/-! ## Actions -/

/-- What the user does on the pages. -/
inductive Action where
  | interaction (i : Interaction)
  | fieldEdited (selected : ℕ) (type : UInt8) (data : Bytes)
  | deleteField (selected i : ℕ)
  | tap (selected : ℕ) (entry : Option DbField)
  | confirmEntryDeletion (selected : ℕ)
  | confirmDirDeletion
  | moveTo (fuel moving e : ℕ)
  | settingsUpdate (seq : UInt16) (payload : Bytes)

def Action.exec (env : Env) (hmacSha1 : HmacSha1) (db : Db) : Action → Fw (Bool × Db)
  | .interaction i => i.exec env db
  | .fieldEdited selected type data => Accounts.fieldEdited env db selected type data
  | .deleteField selected i => Accounts.deleteField env db selected i
  | .tap selected entry => do
      let (_, db) ← uiAccountTap env hmacSha1 db selected entry
      return (true, db)
  | .confirmEntryDeletion selected => dbDeleteEntry env db selected
  | .confirmDirDeletion => Accounts.confirmDirDeletion env db
  | .moveTo fuel moving e => do return (true, ← dbMoveBefore env fuel db moving (some e))
  | .settingsUpdate seq payload => dbUpdateSettings env db seq payload

/-- The page on which this is done can be opened. Only folders without entries are deleted. -/
def Action.Offered (db : Db) : Action → Prop
  | .interaction i => i.Accepted db
  | .fieldEdited selected _ _ => Lists db selected
  | .deleteField selected _ => Lists db selected
  | .tap selected _ => Lists db selected
  | .confirmEntryDeletion selected => Lists db selected
  | .confirmDirDeletion => ∃ d e, db.dir = some d ∧ find d db.entries = some (e, .nil)
  | .moveTo _ _ e => ∃ l, listing db = some l ∧ ∃ r ∈ l, r.1.ptr = e
  | .settingsUpdate _ _ => True

/-- The states that the pages lead to. -/
inductive Acting (device : Device) (env : Env) (hmacSha1 : HmacSha1) (s : State) :
    State → Prop where
  | start : Acting device env hmacSha1 s s
  | next {t u : State} {a : Action} {ok : Bool} (run : Acting device env hmacSha1 s t)
      (offered : a.Offered t.db)
      (ends : Ends device (fun db => a.exec env hmacSha1 db) t ok u) :
      Acting device env hmacSha1 s u

end Sunela.Accounts
