import Sunela.Model.Operation
import Sunela.Model.TextEntry

/-! # The pages that name accounts and folders

A name is entered on a page of its own, which asks the page it was called from whether the
name is valid. When it returns, that page makes the change. -/

namespace Sunela.Accounts

open Program Storage Block Entry Fields Database TextEntry

def maxNameLen : ℕ := 16

/-- The entries of the current directory, unless the pointer to it is dangling. -/
def listing (db : Db) : Option (List (DbEntry × Tree)) :=
  match db.dir with
  | none => some db.entries.siblings
  | some d => (find d db.entries).map fun r => r.2.siblings

/-- `db_iterate`, for a function that only looks at the entries. -/
def dbIterate (db : Db) (fn : DbEntry → Bool) : Option Bool :=
  (listing db).map fun l => l.all fun r => fn r.1

/-- The name of the current directory, if there is one. -/
def dbPwd (db : Db) : Option CString :=
  db.dir.bind fun d => (find d db.entries).map fun r => r.1.name

/-! ## Input validation -/

def validateNewEntry (db : Db) (s : CString) : Option Bool := dbIterate db fun de => de.name ≠ s

def validateDirNameChange (db : Db) (buf : CString) : Option Bool :=
  dbIterate db fun de => some de.ptr = db.dir ∨ de.name ≠ buf

/-- `validate_name_change`, on the page of the account `selected`. -/
def validateNameChange (db : Db) (selected : ℕ) (buf : CString) : Option Bool :=
  dbIterate db fun de => de.ptr = selected ∨ de.name ≠ buf

/-- The parameters with which the page for the name is called. -/
def nameInput (validate : CString → Option Bool) : UiEntryInput where
  maxLen := maxNameLen
  validate s := if validate s = some true then 1 else 0

/-! ## Changes -/

def newEntryName (env : Env) (db : Db) (buf : CString) : Fw (Bool × Db) :=
  if buf = .empty then return (true, db)
  else (Call.newEntry buf).exec env db

def changedDirName (env : Env) (db : Db) (buf : CString) : Fw (Bool × Db) :=
  if buf = .empty ∨ dbPwd db = some buf then return (true, db)
  else
    match db.dir with
    | none => .undef
    | some d => dbRename env db d buf

def changedAccountName (env : Env) (db : Db) (selected : ℕ) (buf : CString) : Fw (Bool × Db) :=
  match find selected db.entries with
  | none => .undef
  | some (de, _) =>
      if buf = .empty ∨ buf = de.name then return (true, db)
      else dbRename env db selected buf

def makeDirectory (env : Env) (db : Db) (selected : ℕ) : Fw (Bool × Db) := do
  let db ← dbMkdir env db selected
  return (true, dbChdir db (some selected))

/-! ## Interactions -/

/-- What the user does on the pages for accounts and folders. The names are those with which
the page for the name returns. -/
inductive Interaction where
  | newEntry (buf : CString)
  | folderRename (buf : CString)
  | accountRename (selected : ℕ) (buf : CString)
  | makeDirectory (selected : ℕ)
  | chdir (dir : Option ℕ)

def Interaction.exec (env : Env) (db : Db) : Interaction → Fw (Bool × Db)
  | .newEntry buf => newEntryName env db buf
  | .folderRename buf => changedDirName env db buf
  | .accountRename selected buf => changedAccountName env db selected buf
  | .makeDirectory selected => Accounts.makeDirectory env db selected
  | .chdir dir => return (true, dbChdir db dir)

/-- The page of an account is opened from the list of the current directory. -/
def Lists (db : Db) (selected : ℕ) : Prop :=
  ∃ l, listing db = some l ∧ ∃ r ∈ l, r.1.ptr = selected ∧ dbIsDir r = false

instance (db : Db) (selected : ℕ) : Decidable (Lists db selected) :=
  decidable_of_iff ((listing db).any fun l => l.any fun r =>
    decide (r.1.ptr = selected ∧ dbIsDir r = false)) (by simp [Lists, Option.any_eq_true])

/-- The name is empty, which gives up the change, or has passed the validation. -/
def Interaction.Accepted (db : Db) : Interaction → Prop
  | .newEntry buf => buf = .empty ∨ validateNewEntry db buf = some true
  | .folderRename buf => buf = .empty ∨ validateDirNameChange db buf = some true
  | .accountRename selected buf =>
      Lists db selected ∧ (buf = .empty ∨ validateNameChange db selected buf = some true)
  | .makeDirectory selected => Lists db selected
  | .chdir _ => True

/-- The states that accepted interactions lead to, as long as they are also `allowed`. -/
inductive Interacting (device : Device) (env : Env) (allowed : Db → Interaction → Prop)
    (s : State) : State → Prop where
  | start : Interacting device env allowed s s
  | next {t u : State} {i : Interaction} {ok : Bool} (run : Interacting device env allowed s t)
      (accepted : i.Accepted t.db) (h : allowed t.db i)
      (ends : Ends device (fun db => i.exec env db) t ok u) : Interacting device env allowed s u

end Sunela.Accounts
