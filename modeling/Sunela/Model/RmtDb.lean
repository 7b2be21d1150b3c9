import Sunela.Model.Clock
import Sunela.Model.Db
import Sunela.Model.Rmt

/-! # Database access over the remote interface

The page for remote access polls for requests. A request is answered from the database, and
secrets are shown on the display, if the user agrees. -/

namespace Sunela.Remote

open Program Fields Entry Time

def maxReqLen : ℕ := 256

inductive RdbState where
  | idle
  | req
  | res
  | done
  deriving DecidableEq

/-! ## Operations -/

def rdopNull : UInt8 := 0

def rdopLs : UInt8 := 2

def rdopShow : UInt8 := 4

def rdopReveal : UInt8 := 5

def rdopGetTime : UInt8 := 6

def rdopSetTime : UInt8 := 7

def rdopInvalid : UInt8 := 100

def rdopNotFound : UInt8 := 101

def rdopBusy : UInt8 := 102

/-- The static variables of `rmt-db.c`. The pointers `de` and `f` are the lists that they start.
They dangle once the generation of the database has changed. -/
structure Rdb where
  state : RdbState
  op : UInt8
  generation : UInt32
  de : List DbEntry
  f : List DbField
  deriving DecidableEq

/-! ## The page

What the user sees, and the action that waits for permission. Text made of a secret is given
by the secret, and whether it is encoded as binary data. -/

structure Secret where
  binary : Bool
  data : Bytes
  deriving DecidableEq

inductive Action where
  | reveal (user : Secret)
  | setTime (deltaS : Int64)
  deriving DecidableEq

/-- The question the user is asked. -/
inductive Prompt where
  | reveal (fieldName : String) (name : CString)
  | setTime (deltaS : Int64)
  deriving DecidableEq

inductive Screen where
  | remote
  | prompt (p : Prompt)
  | text (s : Secret)
  deriving DecidableEq

/-- `struct ui_rmt_ctx`, and what is on the display. -/
structure UiRmtCtx where
  revealing : Bool
  action : Option Action
  generation : UInt32
  display : Screen
  deriving DecidableEq

/-- What the main program works with: the page, the database and the clock. -/
structure Host where
  rdb : Rdb
  ui : UiRmtCtx
  db : Database.Db
  timeOffset : Int64

def askPermission (h : Host) (action : Action) (prompt : Prompt) : Host :=
  { h with ui := { h.ui with action := some action, display := .prompt prompt } }

structure UiRmtField where
  de : DbEntry
  f : DbField
  binary : Bool

def fieldName (type : UInt8) : Option String :=
  if type = ftPw then some "password"
  else if type = ftPw2 then some "2nd password"
  else if type = ftHotpSecret then some "HOTP secret"
  else if type = ftTotpSecret then some "TOTP secret"
  else none

def uiRmtReveal (h : Host) (field : UiRmtField) : Bool × Host :=
  if h.ui.action.isSome then (false, h)
  else
    let h := { h with ui := { h.ui with generation := h.db.generation } }
    match fieldName field.f.type with
    | none => (true, h)
    | some name =>
        (true, askPermission h (.reveal ⟨field.binary, field.f.data⟩)
          (.reveal name field.de.name))

def uiRmtSetTime (h : Host) (timeUs : UInt64) (newTime : Int64) : Bool × Host :=
  if h.ui.action.isSome then (false, h)
  else
    match setTimeDelta ⟨timeUs, h.timeOffset⟩ newTime with
    | none => (true, h)
    | some delta => (true, askPermission h (.setTime delta) (.setTime delta))

def showRemote (h : Host) : Host := { h with ui := { h.ui with display := .remote } }

def doActionReveal (h : Host) (user : Secret) : Host :=
  if h.db.generation ≠ h.ui.generation then showRemote h
  else { h with ui := { h.ui with display := .text user, revealing := true } }

/-- `ui_rmt_tap`. The position is in the rectangle of "Yes" or of "No", or in neither. -/
def uiRmtTap (h : Host) (yes : Option Bool) : Host :=
  match h.ui.action with
  | some action =>
      let idle := { h with ui := { h.ui with action := none } }
      match yes with
      | none => h
      | some false => showRemote idle
      | some true =>
          match action with
          | .reveal user => doActionReveal idle user
          | .setTime deltaS =>
              showRemote { idle with
                timeOffset := (doActionSetTime ⟨0, h.timeOffset⟩ deltaS).timeOffset }
  | none =>
      if h.ui.revealing then
        showRemote { h with ui := { h.ui with revealing := false, action := none } }
      else h

/-! ## Requests -/

def Host.withState (h : Host) (state : RdbState) : Host := { h with rdb := { h.rdb with state } }

def Host.withOp (h : Host) (op : UInt8) : Host := { h with rdb := { h.rdb with op } }

/-- The entries from the first of that name on. -/
def fromEntry (h : Host) (name : Bytes) : List DbEntry :=
  h.db.entries.tops.dropWhile fun de => de.name.bytes ≠ name

def le64 (b : Bytes) : UInt64 := b.foldr (fun x n => n * 256 + UInt64.ofNat x.toNat) 0

def bytes64 (t : UInt64) : Bytes := (List.range 8).map fun i => UInt8.ofNat (t.toNat >>> (8 * i))

/-- The types of the fields that can be revealed, and whether they are binary data. -/
def revealed (type : UInt8) : Option Bool :=
  if type = ftPw ∨ type = ftPw2 then some false
  else if type = ftHotpSecret ∨ type = ftTotpSecret then some true
  else none

def startShow (h : Host) (b : Bytes) : Host :=
  let de := fromEntry h (b.drop 1)
  let h := { h with rdb := { h.rdb with de, f := [] } }
  match de with
  | [] => h.withOp rdopNotFound
  | e :: _ => { h with rdb := { h.rdb with f := e.fields } }

def startReveal (h : Host) (b : Bytes) : Host :=
  if b.length < 2 then h.withOp rdopInvalid
  else
    let de := fromEntry h ((b.drop 1).take (b.length - 2))
    let h := { h with rdb := { h.rdb with de } }
    match de with
    | [] => h.withOp rdopNotFound
    | e :: _ =>
        let type := b.getLastD 0
        let f := e.fields.dropWhile fun f => f.type ≠ type
        match f, revealed type with
        | fld :: _, some binary =>
            let (ok, h) := uiRmtReveal { h with rdb := { h.rdb with f } } ⟨e, fld, binary⟩
            if ok then h else h.withOp rdopBusy
        | _, _ => { h with rdb := { h.rdb with f := [], op := rdopNotFound } }

def startSetTime (h : Host) (timeUs : UInt64) (b : Bytes) : Host :=
  if b.length ≠ 9 then h.withOp rdopInvalid
  else
    let (ok, h) := uiRmtSetTime h timeUs (le64 (b.drop 1)).toInt64
    if ok then h else h.withOp rdopBusy

def startLs (h : Host) : Host := { h with rdb := { h.rdb with de := h.db.entries.tops } }

def Host.requested (h : Host) (op : UInt8) : Host :=
  { h with rdb := { h.rdb with state := .req, op, generation := h.db.generation } }

/-- The first block of a request. -/
def startRequest (h : Host) (timeUs : UInt64) (b : Bytes) : Host :=
  let op := b.headD 0
  if op = rdopLs then startLs (h.requested op)
  else if op = rdopShow then startShow (h.requested op) b
  else if op = rdopReveal then startReveal (h.requested op) b
  else if op = rdopGetTime then h.requested op
  else if op = rdopSetTime then startSetTime (h.requested op) timeUs b
  else (h.requested op).withOp rdopInvalid

/-! ## Responses

The result of a poll is none if it stops with `ABORT`. -/

def request (size : ℕ) : App Request := Prog.exec (Call.request size)

def responsev (parts : List Bytes) : App Bool := Prog.exec (Call.responsev parts)

def finish : App Bool := Prog.exec Call.finish

def asyncReset : App Bool := Prog.exec Call.asyncReset

def clearReset : App Unit := Prog.exec Call.clearReset

def ascii (s : String) : Bytes := s.toList.map fun c => UInt8.ofNat c.toNat

/-- The first 10 bytes of the string. -/
def dbChanged : Bytes := 0 :: ascii "DB change"

def badRequest : Bytes := 0 :: ascii "Bad request"

def notFound : Bytes := 0 :: ascii "Not found"

/-- 10 bytes from a string of 5: `after` is what follows its terminator in memory. -/
def busy (after : Bytes) : Bytes := 0 :: ascii "Busy" ++ 0 :: after.take 4

/-- A response of one block. -/
def respond (h : Host) (b : Bytes) : App (Option Host) := do
  if ← responsev [b] then return some (h.withState .done) else return some h

def pollLs (h : Host) : App (Option Host) := do
  if h.rdb.generation ≠ h.db.generation then do
    if ← responsev [dbChanged] then .undef else return some h
  else
    match h.rdb.de with
    | [] => .undef
    | e :: rest => do
        if ← responsev [e.name.bytes] then
          let h := { h with rdb := { h.rdb with de := rest } }
          return some (if rest = [] then h.withState .done else h)
        else return some h

/-- The parts of the response for a field, or nothing if there is none. The types for which
there is no case lead to `ABORT`. -/
def fieldParts (f : DbField) : Option (Option (List Bytes)) :=
  if f.type = ftEnd ∨ f.type = ftId ∨ f.type = ftPrev ∨ f.type = ftDir then some none
  else if f.type = ftUser ∨ f.type = ftEmail ∨ f.type = ftHotpCounter ∨ f.type = ftComment then
    some (some [[f.type], f.data])
  else if (revealed f.type).isSome then some (some [[f.type]])
  else none

def showLoop (h : Host) : List DbField → App (Option Host)
  | [] => return some { h with rdb := { h.rdb with f := [], state := .done } }
  | f :: rest =>
      match fieldParts f with
      | none => return none
      | some none => showLoop h rest
      | some (some parts) => do
          if ← responsev parts then showLoop h rest
          else return some { h with rdb := { h.rdb with f := f :: rest } }

def pollShow (h : Host) : App (Option Host) := do
  if h.rdb.generation ≠ h.db.generation then do
    if ← responsev [dbChanged] then
      if h.rdb.f = [] then return some (h.withState .done) else .undef
    else return some h
  else showLoop h h.rdb.f

def pollRes (after : Bytes) (timeUs : UInt64) (h : Host) : App (Option Host) :=
  if h.rdb.op = rdopLs then pollLs h
  else if h.rdb.op = rdopShow then pollShow h
  else if h.rdb.op = rdopGetTime then
    respond h (1 :: bytes64 (Time.rdopGetTime ⟨timeUs, h.timeOffset⟩))
  else if h.rdb.op = rdopInvalid then respond h badRequest
  else if h.rdb.op = rdopNotFound then respond h notFound
  else if h.rdb.op = rdopBusy then respond h (busy after)
  else if h.rdb.op = rdopNull ∨ h.rdb.op = rdopReveal then return some (h.withState .done)
  else return none

def pollReq (after : Bytes) (timeUs : UInt64) (h : Host) : App (Option Host) := do
  match ← request maxReqLen with
  | .zero => return some h
  | .block _ => return some (h.withOp rdopInvalid)
  | .negative =>
      if (h.rdb.op = rdopLs ∧ h.rdb.de = []) ∨ (h.rdb.op = rdopShow ∧ h.rdb.f = []) ∨
          h.rdb.op = rdopSetTime then
        return some (h.withState .done)
      else pollRes after timeUs (h.withState .res)

def pollIdle (timeUs : UInt64) (h : Host) : App (Option Host) := do
  match ← request maxReqLen with
  | .negative => return some h
  | .zero => return some ((h.withState .req).withOp rdopNull)
  | .block b => return some (startRequest h timeUs b)

def pollEnd (h : Host) : App (Option Host) := do
  if ← finish then return some (h.withState .idle) else return some h

def pollState (after : Bytes) (timeUs : UInt64) (h : Host) : App (Option Host) :=
  match h.rdb.state with
  | .idle => pollIdle timeUs h
  | .req => pollReq after timeUs h
  | .res => pollRes after timeUs h
  | .done => pollEnd h

def rmtDbPoll (after : Bytes) (timeUs : UInt64) (h : Host) : App (Option Host) := do
  if ← asyncReset then do
    clearReset
    pollState after timeUs (h.withState .idle)
  else pollState after timeUs h

def rmtDbInit (s : Rmt) : Rmt := rmtSetReset { rmtOpen s with asyncReset := false }

end Sunela.Remote
