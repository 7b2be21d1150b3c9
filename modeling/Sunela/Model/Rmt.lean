import Sunela.Lib.CString
import Sunela.Lib.Program

/-! # The remote interface

Blocks from and to the host pass through two mailboxes, which share one buffer. The functions
of the host side run in interrupt handlers. They can interrupt the others between any two
accesses to the memory that both sides share. -/

namespace Sunela.Remote

open Program

def rmtMaxLen : ℕ := 256

inductive RmtState where
  | idle
  | req
  | res
  deriving DecidableEq

inductive Side where
  | inbox
  | outbox
  deriving DecidableEq

/-- `struct mbox`, without the buffer. There is no length if it is negative. -/
structure Mbox where
  enabled : Bool
  length : Option ℕ
  deriving DecidableEq

/-- The memory shared with the interrupt handlers: `struct rmt`, and what the function `reset`
uses, which refuses if `strictRmt` is set. -/
structure Rmt where
  state : RmtState
  /-- not NULL -/
  reset : Bool
  inbox : Mbox
  outbox : Mbox
  mboxBuf : Bytes
  asyncReset : Bool
  strictRmt : Bool
  deriving DecidableEq

def Rmt.mbox (s : Rmt) : Side → Mbox
  | .inbox => s.inbox
  | .outbox => s.outbox

def Rmt.withLength (s : Rmt) (m : Side) (n : Option ℕ) : Rmt :=
  match m with
  | .inbox => { s with inbox := { s.inbox with length := n } }
  | .outbox => { s with outbox := { s.outbox with length := n } }

/-- Copy data into a buffer. -/
def overwrite (buf : Bytes) (pos : ℕ) (data : Bytes) : Bytes :=
  buf.take pos ++ data ++ buf.drop (pos + data.length)

/-! ## Accesses to shared memory -/

inductive Access where
  | getState
  | setState (s : RmtState)
  | callReset
  | getEnabled (m : Side)
  | getLength (m : Side)
  | setLength (m : Side) (n : Option ℕ)
  | load (len : ℕ)
  | store (pos : ℕ) (data : Bytes)
  | getAsyncReset
  | clearAsyncReset

abbrev Access.Reply : Access → Type
  | .getState => RmtState
  | .setState _ => Unit
  | .callReset => Bool
  | .getEnabled _ => Bool
  | .getLength _ => Option ℕ
  | .setLength _ _ => Unit
  | .load _ => Bytes
  | .store _ _ => Unit
  | .getAsyncReset => Bool
  | .clearAsyncReset => Unit

/-- The condition `rmt->reset && rmt->reset()`, with `rmt_db_reset` as the function. -/
def rmtDbReset (s : Rmt) : Bool × Rmt :=
  if s.reset = true ∧ s.strictRmt = false then (true, { s with asyncReset := true })
  else (false, s)

def answer (s : Rmt) : (c : Access) → c.Reply × Rmt
  | .getState => (s.state, s)
  | .setState st => ((), { s with state := st })
  | .callReset => rmtDbReset s
  | .getEnabled m => ((s.mbox m).enabled, s)
  | .getLength m => ((s.mbox m).length, s)
  | .setLength m n => ((), s.withLength m n)
  | .load len => (s.mboxBuf.take len, s)
  | .store pos data => ((), { s with mboxBuf := overwrite s.mboxBuf pos data })
  | .getAsyncReset => (s.asyncReset, s)
  | .clearAsyncReset => ((), { s with asyncReset := false })

abbrev Shared (α : Type) := Prog Access Access.Reply α

def getState : Shared RmtState := Prog.exec Access.getState

def setState (st : RmtState) : Shared Unit := Prog.exec (Access.setState st)

def callReset : Shared Bool := Prog.exec Access.callReset

def getEnabled (m : Side) : Shared Bool := Prog.exec (Access.getEnabled m)

def getLength (m : Side) : Shared (Option ℕ) := Prog.exec (Access.getLength m)

def setLength (m : Side) (n : Option ℕ) : Shared Unit := Prog.exec (Access.setLength m n)

def load (len : ℕ) : Shared Bytes := Prog.exec (Access.load len)

def store (pos : ℕ) (data : Bytes) : Shared Unit := Prog.exec (Access.store pos data)

/-! ## Mailboxes -/

def storeParts (pos : ℕ) : List Bytes → Shared Unit
  | [] => return ()
  | data :: parts => do
      store pos data
      storeParts (pos + data.length) parts

/-- The parts are the pairs of pointer and length up to the final NULL. -/
def mboxVdepositv (m : Side) (parts : List Bytes) : Shared Bool := do
  if !(← getEnabled m) then return false
  else if (← getLength m).isSome then return false
  else if rmtMaxLen < parts.flatten.length then .halt
  else do
    storeParts 0 parts
    if (← getLength m).isSome then .halt
    else do
      setLength m (some parts.flatten.length)
      return true

/-- The message, or none for a negative result. A mailbox that is disabled gives an empty
message. -/
def mboxRetrieve (m : Side) (size : ℕ) : Shared (Option Bytes) := do
  let len ← getLength m
  if !(← getEnabled m) then return some []
  else
    match len with
    | none => return none
    | some n =>
        if size < n then .halt
        else do
          let data ← load n
          if (← getLength m) ≠ some n then .halt
          else do
            setLength m none
            return some data

/-! ## Remote interface API -/

/-- The result of `rmt_request`: negative, zero, or the length of a block. -/
inductive Request where
  | negative
  | zero
  | block (b : Bytes)
  deriving DecidableEq

def rmtRequest (size : ℕ) : Shared Request := do
  let st ← getState
  if st = .res then .halt
  else
    match ← mboxRetrieve .inbox size with
    | none => return if (← getState) = .idle then .negative else .zero
    | some [] => do
        setState .res
        return .negative
    | some b => do
        setState .req
        return .block b

def rmtResponsev (parts : List Bytes) : Shared Bool := do
  if (← getState) ≠ .res then .halt
  else mboxVdepositv .outbox parts

def rmtEnd : Shared Bool := do
  if (← getState) ≠ .res then .halt
  else if ← mboxVdepositv .outbox [] then do
    setState .idle
    return true
  else return false

/-! ## Interface to the USB stack -/

def rmtQuery : Shared (Option Bytes) := mboxRetrieve .outbox rmtMaxLen

/-- The protocol reset of `rmt_arrival`. -/
def arrivalReset : Shared Unit := do
  if (← getState) = .res then
    if ← callReset then setState .idle
    else return ()
  else return ()

def rmtArrival (data : Bytes) : Shared Bool := do
  arrivalReset
  if (← getState) = .res then .halt
  else mboxVdepositv .inbox [data]

/-! ## Open and close -/

/-- The memory at the start of the system. -/
def Rmt.boot (strictRmt : Bool) : Rmt :=
  { state := .idle, reset := false, inbox := ⟨false, some 0⟩, outbox := ⟨false, some 0⟩
    mboxBuf := List.replicate rmtMaxLen 0, asyncReset := false, strictRmt }

def rmtOpen (s : Rmt) : Rmt :=
  { s with state := .idle, reset := false, inbox := ⟨true, none⟩, outbox := ⟨true, none⟩ }

def rmtSetReset (s : Rmt) : Rmt := { s with reset := true }

def mboxDisable (m : Mbox) : Option Mbox := if m.enabled then some ⟨false, none⟩ else none

/-- `rmt_close`, unless the assertion of `mbox_disable` fails. -/
def rmtClose (s : Rmt) : Option Rmt :=
  match s.state with
  | .res => (mboxDisable s.outbox).map fun m => { s with outbox := m, state := .idle }
  | _ => (mboxDisable s.inbox).map fun m => { s with inbox := m, state := .idle }

/-! ## Calls

The calls that the application makes, besides its accesses to `async_reset`. -/

inductive Call where
  | request (size : ℕ)
  | responsev (parts : List Bytes)
  | finish
  | asyncReset
  | clearReset

abbrev Call.Reply : Call → Type
  | .request _ => Request
  | .responsev _ => Bool
  | .finish => Bool
  | .asyncReset => Bool
  | .clearReset => Unit

def Call.prog : (c : Call) → Shared c.Reply
  | .request size => rmtRequest size
  | .responsev parts => rmtResponsev parts
  | .finish => rmtEnd
  | .asyncReset => Prog.exec Access.getAsyncReset
  | .clearReset => Prog.exec Access.clearAsyncReset

/-- A program of the application. -/
abbrev App (α : Type) := Prog Call Call.Reply α

end Sunela.Remote
