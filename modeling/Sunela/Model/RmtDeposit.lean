import Sunela.Model.RmtSession

/-! # What is deposited

The functions of `rmt-db.c` that make responses, with the objects that their pointers refer to and
the lengths that go with them. -/

namespace Sunela.Remote

open Program Fields Entry

variable {α : Type}

/-- A pair of pointer and length: the bytes from the pointer to the end of the object. -/
structure Part where
  object : Bytes
  len : ℕ
  deriving DecidableEq

def Part.Inside (p : Part) : Prop := p.len ≤ p.object.length

instance (p : Part) : Decidable p.Inside := inferInstanceAs (Decidable (p.len ≤ p.object.length))

/-- What is read, if `after` follows the object in memory. -/
def Part.read (after : Bytes) (p : Part) : Bytes := (p.object ++ after).take p.len

/-- A response with the pairs up to the final NULL, or any other call. -/
inductive PollCall where
  | response (parts : List Part)
  | other (c : Call)

abbrev PollCall.Reply : PollCall → Type
  | .response _ => Bool
  | .other c => c.Reply

abbrev Poller (α : Type) := Prog PollCall PollCall.Reply α

/-- A part that makes no response. -/
def onWire (p : App α) : Poller α := p.expand fun c => Prog.exec (PollCall.other c)

/-- The program with the bytes that are read. -/
def Poller.reading (after : Bytes) (p : Poller α) : App α :=
  p.expand fun c =>
    match c with
    | .response parts => responsev (parts.map (Part.read after))
    | .other c => Prog.exec c

def response (parts : List Part) : Poller Bool := Prog.exec (PollCall.response parts)

/-! ## Objects -/

/-- A string literal that begins with NUL. -/
def literal (s : String) : Bytes := 0 :: ascii s ++ [0]

/-- A string and its terminator. -/
def stringPart (s : CString) : Part := ⟨s.bytes ++ [0], s.bytes.length⟩

/-- The first byte of the type of a field, which is an integer of at least one byte. -/
def typePart (f : DbField) : Part := ⟨[f.type], 1⟩

/-- The data of a field. The pointer may be NULL if there are none, and then ends the list. -/
def dataPart (f : DbField) : Part := ⟨f.data, f.data.length⟩

/-! ## Polls -/

def respondPart (h : Host) (p : Part) : Poller (Option Host) := do
  if ← response [p] then return some (h.withState .done) else return some h

def pollLsParts (h : Host) : Poller (Option Host) := do
  if h.rdb.generation ≠ h.db.generation then do
    if ← response [⟨literal "DB changed", 10⟩] then .undef else return some h
  else
    match h.rdb.de with
    | [] => .undef
    | e :: rest => do
        if ← response [stringPart e.name] then
          let h := { h with rdb := { h.rdb with de := rest } }
          return some (if rest = [] then h.withState .done else h)
        else return some h

/-- The cases for the types of fields, as in `fieldParts`. -/
def shownParts (f : DbField) : Option (Option (List Part)) :=
  if f.type = ftEnd ∨ f.type = ftId ∨ f.type = ftPrev ∨ f.type = ftDir then some none
  else if f.type = ftUser ∨ f.type = ftEmail ∨ f.type = ftHotpCounter ∨ f.type = ftComment then
    some (some [typePart f, dataPart f])
  else if (revealed f.type).isSome then some (some [typePart f])
  else none

def showLoopParts (h : Host) : List DbField → Poller (Option Host)
  | [] => return some { h with rdb := { h.rdb with f := [], state := .done } }
  | f :: rest =>
      match shownParts f with
      | none => return none
      | some none => showLoopParts h rest
      | some (some parts) => do
          if ← response parts then showLoopParts h rest
          else return some { h with rdb := { h.rdb with f := f :: rest } }

def pollShowParts (h : Host) : Poller (Option Host) := do
  if h.rdb.generation ≠ h.db.generation then do
    if ← response [⟨literal "DB changed", 10⟩] then
      if h.rdb.f = [] then return some (h.withState .done) else .undef
    else return some h
  else showLoopParts h h.rdb.f

def pollResParts (timeUs : UInt64) (h : Host) : Poller (Option Host) :=
  if h.rdb.op = rdopLs then pollLsParts h
  else if h.rdb.op = rdopShow then pollShowParts h
  else if h.rdb.op = rdopGetTime then
    respondPart h ⟨1 :: bytes64 (Time.rdopGetTime ⟨timeUs, h.timeOffset⟩), 8 + 1⟩
  else if h.rdb.op = rdopInvalid then respondPart h ⟨literal "Bad request", 12⟩
  else if h.rdb.op = rdopNotFound then respondPart h ⟨literal "Not found", 10⟩
  else if h.rdb.op = rdopBusy then respondPart h ⟨literal "Busy", 10⟩
  else if h.rdb.op = rdopNull ∨ h.rdb.op = rdopReveal then return some (h.withState .done)
  else return none

def pollReqParts (timeUs : UInt64) (h : Host) : Poller (Option Host) := do
  match ← onWire (request maxReqLen) with
  | .zero => return some h
  | .block _ => return some (h.withOp rdopInvalid)
  | .negative =>
      if (h.rdb.op = rdopLs ∧ h.rdb.de = []) ∨ (h.rdb.op = rdopShow ∧ h.rdb.f = []) ∨
          h.rdb.op = rdopSetTime then
        return some (h.withState .done)
      else pollResParts timeUs (h.withState .res)

def pollStateParts (timeUs : UInt64) (h : Host) : Poller (Option Host) :=
  match h.rdb.state with
  | .idle => onWire (pollIdle timeUs h)
  | .req => pollReqParts timeUs h
  | .res => pollResParts timeUs h
  | .done => onWire (pollEnd h)

def rmtDbPollParts (timeUs : UInt64) (h : Host) : Poller (Option Host) := do
  if ← onWire asyncReset then do
    onWire clearReset
    pollStateParts timeUs (h.withState .idle)
  else pollStateParts timeUs h

/-! ## Runs -/

/-- The states that polls lead to, while the user taps, the page is opened again, and the database
changes. A poll gets any replies that are `allowed`. -/
inductive Visited (allowed : Host → List ((c : PollCall) × c.Reply) → Prop)
    (changes : Host → Database.Db → Prop) (h₀ : Host) : Host → Prop where
  | start : Visited allowed changes h₀ h₀
  | poll {h k : Host} {timeUs : UInt64} {l : List ((c : PollCall) × c.Reply)}
      (run : Visited allowed changes h₀ h)
      (poll : Exchanges (rmtDbPollParts timeUs h) l (.ret (some k))) (ok : allowed h l) :
      Visited allowed changes h₀ k
  | tap {h : Host} (run : Visited allowed changes h₀ h) (yes : Option Bool) :
      Visited allowed changes h₀ (uiRmtTap h yes)
  | opened {h : Host} (run : Visited allowed changes h₀ h) :
      Visited allowed changes h₀ (uiRmtOpen h)
  | change {h : Host} {db : Database.Db} (run : Visited allowed changes h₀ h)
      (ok : changes h db) : Visited allowed changes h₀ { h with db }

end Sunela.Remote
