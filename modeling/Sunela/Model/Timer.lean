import Mathlib.Algebra.Group.Nat.Defs
import Sunela.Lib.Linked

/-! # Timers

The list of timers, and the calls that go through it. The functions of timers make such calls as
well, while the one that called them waits. -/

namespace Sunela.Timers

open Linked

variable {T F U : Type} [DecidableEq T]

/-- `struct timer`, with the addresses of timers, of functions, and of what they are called
with. -/
structure Timer (T F U : Type) where
  due : UInt32
  fn : Option F
  user : Option U
  next : Option T

structure State (T F U : Type) where
  now : UInt32
  timers : Option T
  timer : T → Timer T F U

/-- The list as it is gone through. -/
def State.links (s : State T F U) : Links T := ⟨s.timers, fun t => (s.timer t).next⟩

def State.write (s : State T F U) (t : T) (v : Timer T F U) : State T F U :=
  { s with timer := Function.update s.timer t v }

/-- Set `*anchor`. -/
def State.setLink (s : State T F U) (anchor p : Option T) : State T F U :=
  match anchor with
  | none => { s with timers := p }
  | some t => s.write t { s.timer t with next := p }

def timerInit (s : State T F U) (t : T) : State T F U := s.write t ⟨0, none, none, none⟩

/-- There is no result if the loop does not end with the fuel. -/
def timerCancel (fuel : ℕ) (s : State T F U) (t : T) : Option (State T F U) := do
  let anchor ← s.links.find (· = t) fuel none
  match s.links.get anchor with
  | none => some s
  | some _ => some (timerInit (s.setLink anchor (s.timer t).next) t)

def timerSet (fuel : ℕ) (s : State T F U) (t : T) (ms : UInt32) (fn : F) (user : Option U) :
    Option (State T F U) := do
  let due := s.now + ms
  let s ← (if (s.timer t).fn.isSome then timerCancel fuel s t else some s)
  let anchor ← s.links.find (fun u => (s.timer u).due > due) fuel none
  let s := s.setLink (some t) (s.links.get anchor)
  let s := s.setLink anchor (some t)
  some (s.write t { s.timer t with due, fn := some fn, user })

/-- A call of the function of a timer. -/
structure Called (T F U : Type) where
  timer : T
  fn : Option F
  user : Option U

/-- `timer_flush`, up to the call of the function, if the timer is in the list. There is no
result either if the assertion fails. -/
def timerFlush (fuel : ℕ) (s : State T F U) (t : T) :
    Option (State T F U × Option (Called T F U)) := do
  let anchor ← s.links.find (· = t) fuel none
  match s.links.get anchor with
  | none => some (s, none)
  | some _ =>
      let fn := (s.timer t).fn
      if fn.isNone then none
      else some (timerInit (s.setLink anchor (s.timer t).next) t, some ⟨t, fn, (s.timer t).user⟩)

/-- A round of the loop of `timer_tick`, up to the call of the function. -/
def tickRound (s : State T F U) : Option (State T F U × Called T F U) :=
  match s.timers with
  | none => none
  | some t =>
      if (s.timer t).due ≤ s.now then
        some (timerInit { s with timers := (s.timer t).next } t,
          ⟨t, (s.timer t).fn, (s.timer t).user⟩)
      else none

/-! ## Runs -/

/-- What has been set, under the position of its event. -/
structure Setting (T F U : Type) where
  timer : T
  due : UInt32
  fn : F
  user : Option U

inductive Event (T F U : Type) where
  | set (x : Setting T F U)
  | cancel (t : T)
  | flushed (c : Called T F U)
  | tick (now : UInt32)
  | fired (c : Called T F U)
  /-- the tick whose event is at the position has ended -/
  | ended (i : ℕ)

/-- What has called the function of a timer. A tick is known by the position of its event. -/
inductive Frame where
  | flush
  | tick (i : ℕ)
  deriving DecidableEq

/-- The state, the calls that wait for the functions of timers, and what has happened so far. -/
structure Machine (T F U : Type) where
  state : State T F U
  frames : List Frame
  events : List (Event T F U)

/-- Time is zero, and all timers are initialised. -/
def Machine.start : Machine T F U := ⟨⟨0, none, fun _ => ⟨0, none, none, none⟩⟩, [], []⟩

/-- What the code that is running does. -/
inductive Call (T F U : Type) where
  | set (t : T) (ms : UInt32) (fn : F) (user : Option U)
  | cancel (t : T)
  | flush (t : T)
  | tick (now : UInt32)
  /-- the function of a timer returns -/
  | leave

/-- Go on with the loop of a tick. -/
def Machine.tickLoop (m : Machine T F U) (i : ℕ) : Machine T F U :=
  match tickRound m.state with
  | some (s, c) => ⟨s, .tick i :: m.frames, m.events ++ [.fired c]⟩
  | none => { m with events := m.events ++ [.ended i] }

/-- A call, up to where it calls the function of a timer or returns. -/
def Machine.exec (fuel : ℕ) (m : Machine T F U) : Call T F U → Option (Machine T F U)
  | .set t ms fn user => do
      let s ← timerSet fuel m.state t ms fn user
      return { m with
        state := s, events := m.events ++ [.set ⟨t, m.state.now + ms, fn, user⟩] }
  | .cancel t => do
      let s ← timerCancel fuel m.state t
      return { m with state := s, events := m.events ++ [.cancel t] }
  | .flush t => do
      match ← timerFlush fuel m.state t with
      | (s, none) => return { m with state := s }
      | (s, some c) => return ⟨s, .flush :: m.frames, m.events ++ [.flushed c]⟩
  | .tick now =>
      let i := m.events.length
      let m := { m with state := { m.state with now }, events := m.events ++ [Event.tick now] }
      some (m.tickLoop i)
  | .leave =>
      match m.frames with
      | [] => some m
      | .flush :: frames => some { m with frames }
      | .tick i :: frames => some (Machine.tickLoop { m with frames } i)

/-- The sum fits 32 bits, delays are positive in the functions of timers, and the clock does not
go backwards. -/
def Machine.Allows (m : Machine T F U) : Call T F U → Prop
  | .set _ ms _ _ => m.state.now.toNat + ms.toNat < 2 ^ 32 ∧ (m.frames ≠ [] → 0 < ms)
  | .tick now => m.state.now ≤ now
  | .cancel _ => True
  | .flush _ => True
  | .leave => True

inductive Reached : Machine T F U → Prop where
  | start : Reached .start
  | step {m m' : Machine T F U} (fuel : ℕ) (c : Call T F U) (h : Reached m) (hc : m.Allows c)
      (hm : m.exec fuel c = some m') : Reached m'

end Sunela.Timers
