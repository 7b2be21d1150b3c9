import Sunela.Model.Move
import Sunela.Model.Open

/-! # Runs of the database

The operations of `db.h` in any order. The device may behave in any way that `step` allows. -/

namespace Sunela.Database

open Program Storage Block

/-- The functions that request or delete blocks, and those that only look after the tree. -/
inductive Call where
  | newEntry (name : CString)
  | changeField (p : ℕ) (type : UInt8) (data : Bytes)
  | deleteField (p i : ℕ)
  | deleteEntry (p : ℕ)
  | deferUpdate (p : ℕ) (defer : Bool)
  | updateSettings (seq : UInt16) (payload : Bytes)
  | chdir (dir : Option ℕ)
  | tsort

/-- The call with its result. Those that return nothing count as successful. -/
def Call.exec (env : Env) (db : Db) : Call → Fw (Bool × Db)
  | .newEntry name => do
      let (p, db) ← dbNewEntry env db name
      return (p.isSome, db)
  | .changeField p type data => dbChangeField env db p type data
  | .deleteField p i => dbDeleteField env db p i
  | .deleteEntry p => dbDeleteEntry env db p
  | .deferUpdate p defer => dbEntryDeferUpdate env db p defer
  | .updateSettings seq payload => dbUpdateSettings env db seq payload
  | .chdir dir => return (true, dbChdir db dir)
  | .tsort => do return (true, ← db.sorted)

/-- All operations: the calls, and those that are made of them. -/
inductive Op where
  | call (c : Call)
  | mkdir (p : ℕ)
  | rename (p : ℕ) (name : CString)
  | moveAfter (fuel p : ℕ) (after : Option ℕ)
  | moveBefore (fuel p : ℕ) (before : Option ℕ)

def Op.exec (env : Env) (db : Db) : Op → Fw (Bool × Db)
  | .call c => c.exec env db
  | .mkdir p => do return (true, ← dbMkdir env db p)
  | .rename p name => dbRename env db p name
  | .moveAfter fuel p after => do return (true, ← dbMoveAfter env fuel db p after)
  | .moveBefore fuel p before => do return (true, ← dbMoveBefore env fuel db p before)

/-- The database in memory and the storage. -/
structure State where
  db : Db
  flash : Flash

/-- The states that a database can be in right after it has been opened. -/
def Opens (env : Env) (s : State) : Prop :=
  ∃ st st', dbOpen env st s.flash = some (s.db, st')

/-- The behaviour of a device. -/
abbrev Device := Flash → (c : Cmd) → Reply c → Flash → Prop

/-- The program, run on the state, can end with a result and another state. -/
def Ends (device : Device) (p : Db → Fw (Bool × Db)) (s : State) (ok : Bool) (t : State) :
    Prop :=
  Returns device (p s.db) s.flash (ok, t.db) t.flash

/-- The states that can be reached by calls, each made in a state that allows it. -/
inductive Reachable (device : Device) (env : Env) (allowed : State → Call → Prop) (s : State) :
    State → Prop where
  | start : Reachable device env allowed s s
  | next {t u : State} {c : Call} {ok : Bool} (run : Reachable device env allowed s t)
      (h : allowed t c) (ends : Ends device (fun db => c.exec env db) t ok u) :
      Reachable device env allowed s u

end Sunela.Database
