import Sunela.Model.Db

/-! # Reordering entries

The order of the top-level entries is changed by rewriting the references in `ft_prev`. The
loops start over after each change, so they are bounded by fuel. -/

namespace Sunela.Database

open Program Storage Block Fields Entry

/-- `is_prev`: the entry directly follows `prev`, or none if there is none. -/
def isPrev (prev : Option DbEntry) (e : DbEntry) : Bool :=
  match prev, dbFieldFind e.fields ftPrev with
  | none, none => true
  | some prev, some f => prev.name.bytes = f.data
  | _, _ => false

/-- The first other entry that follows `prev`. -/
def follower (db : Db) (p : ℕ) (prev : Option DbEntry) : Option DbEntry :=
  db.entries.tops.find? fun e2 => e2.ptr ≠ p ∧ isPrev prev e2

/-- Delete the first field of a type. -/
def dbDeleteType (env : Env) (db : Db) (e : DbEntry) (type : UInt8) : Fw (Bool × Db) :=
  match e.fields.findIdx? fun f => f.type = type with
  | none => .halt
  | some i => dbDeleteField env db e.ptr i

/-- The loop `again`: the followers of an entry follow its predecessor instead. -/
def moveFollowers (env : Env) (fuel : ℕ) (db : Db) (p : ℕ) : Fw Db :=
  match fuel with
  | 0 => .halt
  | fuel + 1 =>
      match find p db.entries with
      | none => .undef
      | some (e, _) =>
          match follower db p (some e) with
          | none => return db
          | some e2 => do
              let (_, db) ← match dbFieldFind e.fields ftPrev with
                | some f => dbChangeField env db e2.ptr ftPrev f.data
                | none => dbDeleteType env db e2 ftPrev
              moveFollowers env fuel db p

/-- The loop `again2`: what follows `after` follows the entry instead. -/
def moveFollowers2 (env : Env) (fuel : ℕ) (db : Db) (p : ℕ) (after : Option DbEntry) : Fw Db :=
  match fuel with
  | 0 => .halt
  | fuel + 1 =>
      match find p db.entries with
      | none => .undef
      | some (e, _) =>
          match follower db p after with
          | none => return db
          | some e2 => do
              let (_, db) ← dbChangeField env db e2.ptr ftPrev e.name.bytes
              moveFollowers2 env fuel db p after

/-- The entry itself follows `after`. -/
def moveEntry (env : Env) (db : Db) (p : ℕ) (after : Option DbEntry) : Fw Db :=
  match find p db.entries with
  | none => .undef
  | some (e, _) =>
      match after with
      | some a => do
          let (_, db) ← dbChangeField env db p ftPrev a.name.bytes
          db.sorted
      | none =>
          match dbFieldFind e.fields ftPrev with
          | none => db.sorted
          | some _ => do
              let (_, db) ← dbDeleteType env db e ftPrev
              db.sorted

def dbMoveAfter (env : Env) (fuel : ℕ) (db : Db) (p : ℕ) (after : Option ℕ) : Fw Db :=
  if after = some p then return db
  else
    let go (a : Option DbEntry) : Fw Db := do
      let db ← moveFollowers env fuel db p
      let db ← moveFollowers2 env fuel db p a
      moveEntry env db p a
    match after with
    | none => go none
    | some q =>
        match find q db.entries with
        | none => .undef
        | some (a, _) => go (some a)

/-- The entry in front of `before` in a list of siblings. -/
def precedes (before : ℕ) : List DbEntry → Option ℕ
  | e :: f :: rest => if f.ptr = before then some e.ptr else precedes before (f :: rest)
  | _ => none

def dbMoveBefore (env : Env) (fuel : ℕ) (db : Db) (p : ℕ) (before : Option ℕ) : Fw Db :=
  if before = db.entries.tops.head?.map DbEntry.ptr then dbMoveAfter env fuel db p none
  else
    match before with
    | none => dbMoveAfter env fuel db p (db.entries.tops.getLast?.map DbEntry.ptr)
    | some b =>
        match precedes b db.entries.tops with
        | none => .halt
        | some q => dbMoveAfter env fuel db p (some q)

end Sunela.Database
