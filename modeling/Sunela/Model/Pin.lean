import Sunela.Model.Open
import Sunela.Model.Secrets

/-! # PIN entry

The checks of a PIN, the count of those that failed, and the pages on which a PIN is entered. -/

namespace Sunela.Pin

open Program Storage Block Database Secrets

def pinEncode (s : Bytes) : UInt32 :=
  s.foldl (fun pin c => pin <<< 4 ||| UInt32.ofInt ((c.toNat : ℤ) - 48)) 0xffffffff

/-! ## Failed attempts -/

/-- The static variables of `pin.c`. Times are in milliseconds. -/
structure Attempts where
  cooldown : UInt32
  attempts : UInt32
  deriving DecidableEq

def pinFreeAttempts : UInt32 := 3

def pinWaitMinS : UInt32 := 60

def pinWaitMaxS : UInt32 := 3600

def pinWaitLog2 : UInt32 := 6

def pinWaitS (attempts : UInt32) : UInt32 :=
  if attempts < pinFreeAttempts then 0
  else if pinFreeAttempts + pinWaitLog2 < attempts then pinWaitMaxS
  else pinWaitMinS <<< (attempts - pinFreeAttempts)

def pinSuccess : Attempts := ⟨0, 0⟩

def pinFail (now : UInt32) (a : Attempts) : Attempts :=
  let attempts := a.attempts + 1
  { attempts
    cooldown := if pinFreeAttempts ≤ attempts then now + pinWaitS attempts * 1000 else a.cooldown }

/-- What is left of the wait. -/
def pinCooldownMs (now : UInt32) (a : Attempts) : UInt32 :=
  if a.cooldown ≤ now then 0 else a.cooldown - now

/-! ## Checks -/

/-- What the checks depend on: the hash functions, the encryption with a master secret, and the
size of the storage. -/
structure Platform where
  hashes : Hashes
  dbcryptInit : Secret → Dbcrypt
  storageBlocks : ℕ

inductive Stage where
  | old
  | new
  | confirm
  deriving DecidableEq

/-- `struct ui_pin_change_ctx` -/
structure PinChangeCtx where
  stage : Stage
  oldPin : UInt32
  newPin : UInt32
  deriving DecidableEq

/-- The variables in memory. There is a context while the page to change the PIN is open. -/
structure Memory where
  vars : Vars
  pins : Attempts
  db : Db
  settings : Settings
  change : Option PinChangeCtx

/-- There is no result if the assertion on the block number fails. -/
def blockValidate (P : Platform) (c : Dbcrypt) (f : Flash) (n : ℕ) : Option Bool :=
  if P.storageBlocks ≤ n then none
  else some ((storageReadBlock f n).bind c.decrypt).isSome

/-- The settings or else the first entry can be decrypted. -/
def validates (P : Platform) (c : Dbcrypt) (f : Flash) (db : Db) : Option Bool := do
  let ok ← match db.settingsBlock with
    | none => some false
    | some n => blockValidate P c f n
  if ok then return true
  else
    match db.entries with
    | .nil => return false
    | .node e _ _ => blockValidate P c f e.block

def pinRevalidate (P : Platform) (f : Flash) (now : UInt32) (m : Memory) (pin : UInt32) :
    Option (Bool × Memory) :=
  match secretsSetup P.hashes f pin with
  | none => some (false, m)
  | some r => do
      let m := { m with vars := { m.vars with padSeq := r.seq } }
      if ← validates P (P.dbcryptInit r.secret) f m.db then return (true, { m with pins := pinSuccess })
      else return (false, { m with pins := pinFail now m.pins })

/-- `pin_change`, with the storage as it is found. -/
def pinChange (P : Platform) (f : Flash) (now : UInt32) (m : Memory) (oldPin newPin : UInt32) :
    Fw (Bool × Memory) :=
  match pinRevalidate P f now m oldPin with
  | none => .halt
  | some (false, m) => return (false, m)
  | some (true, m) =>
      if oldPin = newPin then return (false, m)
      else do
        let (ok, vars) ← secretsChange P.hashes m.vars oldPin newPin
        return (ok, { m with vars })

def acceptPin (P : Platform) (f : Flash) (m : Memory) (pin : UInt32) : Option (Bool × Memory) :=
  match secretsSetupMaster P.hashes f (secretsInit m.vars) pin with
  | (false, vars) => some (false, { m with vars })
  | (true, vars) => do
      let (db, settings) ←
        dbOpen ⟨P.storageBlocks, P.dbcryptInit vars.masterSecret⟩ m.settings f
      let ok := db.stats.data ≠ 0 ∨ db.stats.special ≠ 0 ∨ db.stats.empty ≠ 0
      return (decide ok, { m with vars, db, settings })

/-! ## Pages

A page gets the text that has been entered. An empty one means that the entry was left. -/

def uiPinResume (P : Platform) (f : Flash) (now : UInt32) (m : Memory) (buf : Bytes) :
    Option Memory :=
  if buf = [] then some m
  else do
    let (ok, m) ← acceptPin P f m (pinEncode buf)
    return { m with pins := if ok then pinSuccess else pinFail now m.pins }

/-- The next stage of the change, or none when the page is left. -/
def uiPinChangeResume (P : Platform) (f : Flash) (now : UInt32) (m : Memory) (c : PinChangeCtx)
    (buf : Bytes) : Fw Memory :=
  if buf = [] then return { m with change := none }
  else
    match c.stage with
    | .old =>
        match pinRevalidate P f now m (pinEncode buf) with
        | none => .halt
        | some (false, m) => return { m with change := none }
        | some (true, m) =>
            return { m with change := some { c with stage := .new, oldPin := pinEncode buf } }
    | .new =>
        if c.oldPin = pinEncode buf then return { m with change := none }
        else return { m with change := some { c with stage := .confirm, newPin := pinEncode buf } }
    | .confirm =>
        if pinEncode buf ≠ c.newPin then return { m with change := none }
        else do
          let (_, m) ← pinChange P f now m c.oldPin (pinEncode buf)
          return { m with change := none }

/-- The first stage of both pages for the master secret. -/
def uiMasterResume (P : Platform) (f : Flash) (now : UInt32) (m : Memory) (buf : Bytes) :
    Option Memory :=
  if buf = [] then some m else (pinRevalidate P f now m (pinEncode buf)).map Prod.snd

def uiShowMasterResume (P : Platform) (f : Flash) (now : UInt32) (m : Memory) (buf : Bytes) :
    Option Memory :=
  uiMasterResume P f now m buf

def uiSetMasterResume (P : Platform) (f : Flash) (now : UInt32) (m : Memory) (buf : Bytes) :
    Option Memory :=
  uiMasterResume P f now m buf

/-! ## Submissions -/

/-- A text is submitted on one of the pages. -/
inductive Submission where
  | login (buf : Bytes)
  | change (buf : Bytes)
  | showMaster (buf : Bytes)
  | setMaster (buf : Bytes)

/-- The page is run, unless an assertion fails. -/
def resumed (m : Option Memory) : Fw Memory :=
  match m with
  | none => .halt
  | some m => return m

def Submission.exec (P : Platform) (f : Flash) (now : UInt32) (m : Memory) :
    Submission → Fw Memory
  | .login buf => resumed (uiPinResume P f now m buf)
  | .change buf =>
      match m.change with
      | none => return m
      | some c => uiPinChangeResume P f now m c buf
  | .showMaster buf => resumed (uiShowMasterResume P f now m buf)
  | .setMaster buf => resumed (uiSetMasterResume P f now m buf)

/-- The PIN that the page hands to `pin_revalidate`, if it does. -/
def Submission.revalidated (m : Memory) : Submission → Option UInt32
  | .login _ => none
  | .change buf =>
      if buf = [] then none
      else
        match m.change with
        | none => none
        | some c =>
            match c.stage with
            | .old => some (pinEncode buf)
            | .new => none
            | .confirm => if pinEncode buf = c.newPin then some c.oldPin else none
  | .showMaster buf => if buf = [] then none else some (pinEncode buf)
  | .setMaster buf => if buf = [] then none else some (pinEncode buf)

/-- Whether the PIN is accepted. There is no answer if none is checked. -/
def Submission.accepted (P : Platform) (f : Flash) (now : UInt32) (m : Memory) :
    Submission → Option Bool
  | .login buf => if buf = [] then none else (acceptPin P f m (pinEncode buf)).map Prod.fst
  | s => (s.revalidated m).bind fun pin => (pinRevalidate P f now m pin).map Prod.fst

/-! ## A new device

What the page for a new device does with the PIN once it has been confirmed. -/

/-- The database is accessed with the master secret. -/
def Memory.env (P : Platform) (m : Memory) : Env :=
  ⟨P.storageBlocks, P.dbcryptInit m.vars.masterSecret⟩

/-- `settings_update` -/
def Memory.settingsUpdate (P : Platform) (m : Memory) : Fw (Bool × Memory) := do
  let (settings, payload) := Database.settingsUpdate m.settings
  let (ok, db) ← dbUpdateSettings (m.env P) m.db settings.settingsSeq payload
  return (ok, { m with db, settings })

def pinSet (P : Platform) (m : Memory) (newPin : UInt32) : Fw (Bool × Memory) := do
  let (ok, vars) ← secretsNew P.hashes (secretsInit m.vars) newPin
  return (ok, { m with vars })

/-- `write_new_settings`, with the storage as it is found. -/
def writeNewSettings (P : Platform) (f : Flash) (m : Memory) : Fw (Bool × Memory) :=
  match dbOpen (m.env P) m.settings f with
  | none => .halt
  | some (db, settings) =>
      ({ m with db, settings := settingsReset settings } : Memory).settingsUpdate P

end Sunela.Pin
