import Mathlib.Data.Nat.Notation

/-! # The on/off button

The button as the event loop sees it, one level for each round. The clock counts the rounds. -/

namespace Sunela.Button

def debounceMs : UInt32 := 20

/-- The clock, the variables of `event_loop` and of `button_event`, and whether the device is on.
The calls of `toggle_on_off` are counted. -/
structure Loop where
  now : UInt32
  uptime : UInt32
  buttonDown : Bool
  debounce : UInt32
  isOn : Bool
  toggles : ℕ
  deriving DecidableEq

def Loop.start : Loop := ⟨0, 1, false, 0, false, 0⟩

/-- The device is turned off if it is on, and on if it is not. -/
def toggleOnOff (s : Loop) : Loop := { s with isOn := !s.isOn, toggles := s.toggles + 1 }

def buttonEvent (down : Bool) (s : Loop) : Loop :=
  if s.now < s.debounce then s
  else if !down then { s with debounce := 0 }
  else if s.debounce ≠ 0 then { s with debounce := 0 }
  else { toggleOnOff s with debounce := s.now + debounceMs }

/-- A round of `event_loop`, in which the button is held or not. Timers and other input may turn
the device off at its end. -/
def round (off : Loop → Bool) (s : Loop) (held : Bool) : Loop :=
  let s :=
    if s.buttonDown ≠ held then buttonEvent held { s with buttonDown := !s.buttonDown } else s
  { s with now := s.uptime, uptime := s.uptime + 1, isOn := s.isOn && !off s }

def eventLoop (off : Loop → Bool) (held : List Bool) (s : Loop) : Loop := held.foldl (round off) s

end Sunela.Button
