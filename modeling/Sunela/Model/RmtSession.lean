import Sunela.Model.RmtDb
import Sunela.Model.RmtTransport

/-! # Sessions of the remote interface

What the host, the clock and the user do, one event after the other. -/

namespace Sunela.Remote

open Program Fields Entry

structure Session where
  rmt : Rmt
  host : Host

inductive Event where
  | transfer (data : Bytes)
  | query
  | poll (timeUs : UInt64)
  | tap (yes : Option Bool)

/-- What the host learns: whether a transfer was accepted, or the block it was handed. -/
inductive Output where
  | accepted (ok : Bool)
  | handed (b : Option Bytes)
  | nothing
  deriving DecidableEq

def Event.prog (after : Bytes) (h : Host) : Event → Shared (Output × Option Host)
  | .transfer data => do return (.accepted (← rmtArrival data), some h)
  | .query => do return (.handed (← rmtQuery), some h)
  | .poll timeUs => do return (.nothing, ← (rmtDbPoll after timeUs h).expand Call.prog)
  | .tap yes => return (.nothing, some (uiRmtTap h yes))

inductive Outcome where
  | next (o : Output) (s : Session)
  /-- an assertion of `rmt.c` or `mbox.c` fails -/
  | failed
  | aborted
  | undefined

def outcome : Prog Access Access.Reply (Output × Option Host) × Rmt → Outcome
  | (.ret (o, some h), r) => .next o ⟨r, h⟩
  | (.ret (_, none), _) => .aborted
  | (.undef, _) => .undefined
  | (_, _) => .failed

def Session.step (after : Bytes) (s : Session) (e : Event) : Outcome :=
  outcome (run answer (e.prog after s.host) s.rmt)

/-- What the host learns from a sequence of events. -/
def outputs (after : Bytes) : List Event → Session → List Output
  | [], _ => []
  | e :: events, s =>
      match s.step after e with
      | .next o t => o :: outputs after events t
      | _ => []

/-- The sessions that events lead to, each of them allowed. -/
inductive Reached (after : Bytes) (allowed : Session → Event → Prop) (s : Session) :
    Session → Prop where
  | start : Reached after allowed s s
  | next {t u : Session} {e : Event} {o : Output} (run : Reached after allowed s t)
      (h : allowed t e) (step : t.step after e = .next o u) : Reached after allowed s u

/-! ## Leaving and entering the page -/

def uiRmtOpen (h : Host) : Host :=
  { h with ui := { h.ui with revealing := false, action := none, display := .remote } }

/-- `ui_rmt_close` and then `ui_rmt_open`, unless an assertion fails. -/
def Session.reopen (s : Session) : Option Session :=
  (rmtClose s.rmt).map fun r => ⟨rmtDbInit r, uiRmtOpen s.host⟩

/-! ## Closing the remote interface

The handlers for the host can run between any two accesses of `rmt_close`, and they still run
when it has returned. -/

/-- What the host learns from an event, unless an assertion fails. -/
def handle (s : Rmt) : HostEvent → Option (Output × Rmt)
  | .transfer data =>
      match run answer (rmtArrival data) s with
      | (.ret ok, t) => some (.accepted ok, t)
      | _ => none
  | .query =>
      match run answer rmtQuery s with
      | (.ret b, t) => some (.handed b, t)
      | _ => none

def handleAll : List HostEvent → Rmt → Option (List Output × Rmt)
  | [], s => some ([], s)
  | e :: events, s => do
      let (o, t) ← handle s e
      let (os, u) ← handleAll events t
      return (o :: os, u)

def Rmt.withEnabled (s : Rmt) (m : Side) (on : Bool) : Rmt :=
  match m with
  | .inbox => { s with inbox := { s.inbox with enabled := on } }
  | .outbox => { s with outbox := { s.outbox with enabled := on } }

/-- `mbox_disable`, if the events occur before the length is set. -/
def mboxDisableAmid (m : Side) (events : List HostEvent) (s : Rmt) : Option Rmt :=
  if (s.mbox m).enabled then do
    let (_, t) ← handleAll events (s.withEnabled m false)
    return t.withLength m none
  else none

/-- `rmt_close`, if events occur after the state is read, in `mbox_disable`, and before the state
is set. -/
def rmtCloseAmid (before inside behind : List HostEvent) (s : Rmt) : Option Rmt := do
  let m : Side := if s.state = .res then .outbox else .inbox
  let (_, t) ← handleAll before s
  let u ← mboxDisableAmid m inside t
  let (_, v) ← handleAll behind u
  return { v with state := .idle }

/-- Without events, this is `rmt_close`. -/
theorem rmtCloseAmid_nil (s : Rmt) : rmtCloseAmid [] [] [] s = rmtClose s := by
  obtain ⟨state, reset, ⟨on, len⟩, ⟨on', len'⟩, buf, flag, strict⟩ := s
  cases state with
  | idle => cases on <;> rfl
  | req => cases on <;> rfl
  | res => cases on' <;> rfl

/-- The handlers are those that run while the interface is open. -/
theorem event_handle (w : Wire) (e : HostEvent) :
    (w.event e).map Wire.rmt = (handle w.rmt e).map Prod.snd := by
  cases e with
  | transfer data =>
      rw [Wire.event, handle]
      rcases run answer (rmtArrival data) w.rmt with ⟨_ | _ | _ | _, t⟩
      · rename_i ok
        cases ok <;> rfl
      all_goals rfl
  | query =>
      rw [Wire.event, handle]
      rcases run answer rmtQuery w.rmt with ⟨_ | _ | _ | _, t⟩
      · rename_i b
        cases b <;> rfl
      all_goals rfl

end Sunela.Remote
