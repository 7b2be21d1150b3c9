import Mathlib.Algebra.Group.Nat.Defs
import Sunela.Model.Operation

/-! # Changes to entries

The operations of `db.h` that add, change or remove entries or their fields. Some of them return
nothing. Here they tell whether they have made the change that is asked for. -/

namespace Sunela.Database

open Program Storage Block Fields Entry

/-- `db_dummy_entry`, with the block that is no block. -/
def dbDummyEntry (db : Db) (name : CString) (prev : Option CString) : Fw (ℕ × Db) :=
  if db.dir.any fun d => (find d db.entries).isNone then .undef
  else
    let fields := match prev with
      | none => []
      | some prev => addField [] ftPrev prev.bytes
    let de : DbEntry :=
      { ptr := db.fresh, name, seq := 0, block := 2 ^ 32 - 1, defer := true, fields }
    let db := { db.changed with entries := newEntry db.dir de db.entries, fresh := db.fresh + 1 }
    return (de.ptr, if prev.isSome then db.changed else db)

/-- `db_mkdir`, with the result of its only change. -/
def dbMkdirDone (env : Env) (db : Db) (p : ℕ) : Fw (Bool × Db) :=
  match find p db.entries with
  | none => .undef
  | some r => if dbIsDir r ∨ dbIsAccount r then .halt else dbChangeField env db p ftDir []

/-- `moveEntry`, with the result of its only change. -/
def moveEntryDone (env : Env) (db : Db) (p : ℕ) (after : Option DbEntry) : Fw (Bool × Db) :=
  match find p db.entries with
  | none => .undef
  | some (e, _) =>
      match after with
      | some a => do
          let (ok, db) ← dbChangeField env db p ftPrev a.name.bytes
          return (ok, ← db.sorted)
      | none =>
          match dbFieldFind e.fields ftPrev with
          | none => return (true, ← db.sorted)
          | some _ => do
              let (ok, db) ← dbDeleteType env db e ftPrev
              return (ok, ← db.sorted)

/-- `db_move_after`. An entry is not moved behind itself. -/
def dbMoveAfterDone (env : Env) (fuel : ℕ) (db : Db) (p : ℕ) (after : Option ℕ) :
    Fw (Bool × Db) :=
  if after = some p then return (false, db)
  else
    let go (a : Option DbEntry) : Fw (Bool × Db) := do
      let db ← moveFollowers env fuel db p
      let db ← moveFollowers2 env fuel db p a
      moveEntryDone env db p a
    match after with
    | none => go none
    | some q =>
        match find q db.entries with
        | none => .undef
        | some (a, _) => go (some a)

/-- The entry behind which `db_move_before` moves, unless its assertion fails. -/
def beforeTarget (db : Db) (before : Option ℕ) : Option (Option ℕ) :=
  if before = db.entries.tops.head?.map DbEntry.ptr then some none
  else
    match before with
    | none => some (db.entries.tops.getLast?.map DbEntry.ptr)
    | some b => (precedes b db.entries.tops).map some

def dbMoveBeforeDone (env : Env) (fuel : ℕ) (db : Db) (p : ℕ) (before : Option ℕ) :
    Fw (Bool × Db) :=
  match beforeTarget db before with
  | none => .halt
  | some after => dbMoveAfterDone env fuel db p after

inductive Edit where
  | newEntry (name : CString)
  | dummyEntry (name : CString) (prev : Option CString)
  | deleteEntry (p : ℕ)
  | rename (p : ℕ) (name : CString)
  | moveAfter (fuel p : ℕ) (after : Option ℕ)
  | moveBefore (fuel p : ℕ) (before : Option ℕ)
  | changeField (p : ℕ) (type : UInt8) (data : Bytes)
  | deleteField (p i : ℕ)
  | mkdir (p : ℕ)

/-- The operation, and whether it has been successful. -/
def Edit.exec (env : Env) (db : Db) : Edit → Fw (Bool × Db)
  | .newEntry name => do
      let (p, db) ← dbNewEntry env db name
      return (p.isSome, db)
  | .dummyEntry name prev => do
      let (_, db) ← dbDummyEntry db name prev
      return (true, db)
  | .deleteEntry p => dbDeleteEntry env db p
  | .rename p name => dbRename env db p name
  | .moveAfter fuel p after => dbMoveAfterDone env fuel db p after
  | .moveBefore fuel p before => dbMoveBeforeDone env fuel db p before
  | .changeField p type data => dbChangeField env db p type data
  | .deleteField p i => dbDeleteField env db p i
  | .mkdir p => dbMkdirDone env db p

/-! ## The results change nothing -/

theorem dbMkdirDone_snd (env : Env) (db : Db) (p : ℕ) :
    Prod.snd <$> dbMkdirDone env db p = dbMkdir env db p := by
  unfold dbMkdirDone dbMkdir
  cases find p db.entries with
  | none => rfl
  | some r =>
      dsimp only
      split
      · rfl
      · rfl

theorem moveEntryDone_snd (env : Env) (db : Db) (p : ℕ) (after : Option DbEntry) :
    Prod.snd <$> moveEntryDone env db p after = moveEntry env db p after := by
  unfold moveEntryDone moveEntry
  cases find p db.entries with
  | none => rfl
  | some r =>
      cases after with
      | some a => simp only [Prog.map_bind, Prog.pure_def, Prog.map_ret, Prog.bind_ret]
      | none =>
          dsimp only
          cases dbFieldFind r.1.fields ftPrev with
          | none => simp only [Prog.map_bind, Prog.pure_def, Prog.map_ret, Prog.bind_ret]
          | some f => simp only [Prog.map_bind, Prog.pure_def, Prog.map_ret, Prog.bind_ret]

theorem dbMoveAfterDone_snd (env : Env) (fuel : ℕ) (db : Db) (p : ℕ) (after : Option ℕ) :
    Prod.snd <$> dbMoveAfterDone env fuel db p after = dbMoveAfter env fuel db p after := by
  unfold dbMoveAfterDone dbMoveAfter
  by_cases hp : after = some p
  · rw [if_pos hp, if_pos hp]
    rfl
  · rw [if_neg hp, if_neg hp]
    cases after with
    | none => simp only [Prog.map_bind, moveEntryDone_snd]
    | some q =>
        dsimp only
        cases find q db.entries with
        | none => rfl
        | some r => simp only [Prog.map_bind, moveEntryDone_snd]

theorem dbMoveBeforeDone_snd (env : Env) (fuel : ℕ) (db : Db) (p : ℕ) (before : Option ℕ) :
    Prod.snd <$> dbMoveBeforeDone env fuel db p before = dbMoveBefore env fuel db p before := by
  unfold dbMoveBeforeDone dbMoveBefore beforeTarget
  by_cases hb : before = db.entries.tops.head?.map DbEntry.ptr
  · rw [if_pos hb, if_pos hb]
    exact dbMoveAfterDone_snd env fuel db p none
  · rw [if_neg hb, if_neg hb]
    cases before with
    | none => exact dbMoveAfterDone_snd env fuel db p _
    | some b =>
        dsimp only
        cases precedes b db.entries.tops with
        | none => rfl
        | some q => exact dbMoveAfterDone_snd env fuel db p (some q)

/-- The operation among those of `db.h`, unless it is only for tests. -/
def Edit.op : Edit → Option Op
  | .newEntry name => some (.call (.newEntry name))
  | .dummyEntry _ _ => none
  | .deleteEntry p => some (.call (.deleteEntry p))
  | .rename p name => some (.rename p name)
  | .moveAfter fuel p after => some (.moveAfter fuel p after)
  | .moveBefore fuel p before => some (.moveBefore fuel p before)
  | .changeField p type data => some (.call (.changeField p type data))
  | .deleteField p i => some (.call (.deleteField p i))
  | .mkdir p => some (.mkdir p)

/-- What the operation does is what it does among the others. -/
theorem Edit.exec_op (env : Env) (db : Db) {e : Edit} {op : Op} (h : e.op = some op) :
    Prod.snd <$> e.exec env db = Prod.snd <$> op.exec env db := by
  cases e with
  | dummyEntry name prev => cases h
  | mkdir p =>
      obtain rfl := Option.some.inj h
      simp only [Edit.exec, Op.exec, dbMkdirDone_snd, Prog.map_bind, Prog.pure_def, Prog.map_ret,
        Prog.bind_ret]
  | moveAfter fuel p after =>
      obtain rfl := Option.some.inj h
      simp only [Edit.exec, Op.exec, dbMoveAfterDone_snd, Prog.map_bind, Prog.pure_def,
        Prog.map_ret, Prog.bind_ret]
  | moveBefore fuel p before =>
      obtain rfl := Option.some.inj h
      simp only [Edit.exec, Op.exec, dbMoveBeforeDone_snd, Prog.map_bind, Prog.pure_def,
        Prog.map_ret, Prog.bind_ret]
  | _ =>
      obtain rfl := Option.some.inj h
      rfl

end Sunela.Database
