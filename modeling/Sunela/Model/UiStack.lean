import Mathlib.Data.Nat.Notation
import Mathlib.Logic.Function.Basic

/-! # The stack of pages

The functions of a page can call `ui_call` and the like again. Each of these runs up to where it
calls a page, and goes on when the page returns. -/

namespace Sunela.UiStack

def uiStackSize : ℕ := 10

/-- `struct ui`: the functions that a page has. -/
structure Ui where
  hasOpen : Bool
  hasClose : Bool
  hasResume : Bool
  deriving DecidableEq

/-- What is left to do when a function of a page returns. -/
inductive Frame where
  | switchClose (ui : Ui)
  | callClose (ui : Ui)
  | returnClose
  | emptyClose
  | opened
  | resumed
  deriving DecidableEq

/-- Why the firmware stops. -/
inductive Stop where
  | assertion
  | nullPointer
  /-- an access to `stack` that is not inside of it -/
  | outside
  deriving DecidableEq

/-- The pages of `stack`, which have their contexts next to them, and the functions that have
called a page and not gone on yet, the last one first. -/
structure Stack where
  slots : ℕ → Option Ui
  sp : UInt32
  frames : List Frame

def Stack.start : Stack := ⟨fun _ => none, 0, []⟩

def Stack.access (s : Stack) (i : UInt32) : Except Stop (Option Ui) :=
  if i.toNat < uiStackSize then .ok (s.slots i.toNat) else .error .outside

/-- `current_ui`. The other fields are accessed at the same index. -/
def Stack.currentUi (s : Stack) : Except Stop (Option Ui) := s.access s.sp

def Stack.push (s : Stack) (f : Frame) : Stack := { s with frames := f :: s.frames }

/-- Set the current page and call its `open`, if it has one. -/
def Stack.enter (s : Stack) (ui : Ui) : Except Stop Stack := do
  let _ ← s.currentUi
  let s := { s with slots := Function.update s.slots s.sp.toNat (some ui) }
  return if ui.hasOpen then s.push .opened else s

/-! ## Page selection -/

/-- The rest of `ui_switch`, after `close`. -/
def switchClosed (ui : Ui) (s : Stack) : Except Stop Stack := do
  match ← s.currentUi with
  | none => .error .nullPointer
  | some _ => s.enter ui

def uiSwitch (ui : Ui) (s : Stack) : Except Stop Stack := do
  match ← s.currentUi with
  | none => s.enter ui
  | some page => if page.hasClose then return s.push (.switchClose ui) else switchClosed ui s

/-- The rest of `ui_call`, after `close`. -/
def callClosed (ui : Ui) (s : Stack) : Except Stop Stack :=
  if ¬ s.sp.toNat ≤ uiStackSize then .error .assertion
  else Stack.enter { s with sp := s.sp + 1 } ui

def uiCall (ui : Ui) (s : Stack) : Except Stop Stack := do
  match ← s.currentUi with
  | none => callClosed ui s
  | some page => if page.hasClose then return s.push (.callClose ui) else callClosed ui s

/-- The rest of `ui_return`, after `close`. -/
def returnClosed (s : Stack) : Except Stop Stack := do
  match ← s.currentUi with
  | none => .error .nullPointer
  | some _ =>
      let s := { s with sp := s.sp - 1 }
      match ← s.currentUi with
      | none => .error .nullPointer
      | some page => if page.hasResume then return s.push .resumed else .error .assertion

/-- The names of the current page and of the one below it are printed first. -/
def uiReturn (s : Stack) : Except Stop Stack := do
  match ← s.currentUi with
  | none => .error .nullPointer
  | some page =>
      if s.sp = 0 then .error .assertion
      else
        let _ ← s.access (s.sp - 1)
        if page.hasClose then return s.push .returnClose else returnClosed s

theorem toNat_sub_one {sp : UInt32} (h : sp ≠ 0) : (sp - 1).toNat + 1 = sp.toNat := by
  have hpos : sp.toNat ≠ 0 := fun h0 => h (UInt32.toNat_inj.mp h0)
  have hone : (1 : UInt32) ≤ sp := UInt32.le_iff_toNat_le.mpr (Nat.one_le_iff_ne_zero.mpr hpos)
  rw [UInt32.toNat_sub_of_le _ _ hone]
  exact Nat.sub_add_cancel (Nat.one_le_iff_ne_zero.mpr hpos)

/-- The loop of `ui_empty_stack`. -/
def emptyLoop (s : Stack) : Except Stop Stack :=
  if s.sp = 0 then .ok s
  else do
    let ui ← s.currentUi
    let _ ← s.access (s.sp - 1)
    match ui with
    | none => .error .nullPointer
    | some page =>
        if page.hasClose then return s.push .emptyClose
        else emptyLoop { s with sp := s.sp - 1 }
termination_by s.sp.toNat
decreasing_by
  rename_i h
  have hsub := toNat_sub_one h
  exact Nat.lt_of_succ_le (Nat.le_of_eq hsub)

/-- The rest of a round of the loop, after `close`. -/
def emptyClosed (s : Stack) : Except Stop Stack := do
  match ← s.currentUi with
  | none => .error .nullPointer
  | some _ => emptyLoop { s with sp := s.sp - 1 }

def uiEmptyStack (s : Stack) : Except Stop Stack := if s.sp = 0 then .ok s else emptyLoop s

def Frame.goOn : Frame → Stack → Except Stop Stack
  | switchClose ui => switchClosed ui
  | callClose ui => callClosed ui
  | returnClose => returnClosed
  | emptyClose => emptyClosed
  | opened => .ok
  | resumed => .ok

/-! ## Runs -/

/-- What the code that is running does: it calls one of the functions, handles an event of the
current page, or returns, if it is a function of a page that has been called. -/
inductive Event where
  | switch (ui : Ui)
  | call (ui : Ui)
  | back
  | empty
  | handle
  | leave

def step (s : Stack) : Event → Except Stop Stack
  | .switch ui => uiSwitch ui s
  | .call ui => uiCall ui s
  | .back => uiReturn s
  | .empty => uiEmptyStack s
  | .handle => do
      let _ ← s.currentUi
      return s
  | .leave =>
      match s.frames with
      | [] => .ok s
      | f :: frames => f.goOn { s with frames }

def run (s : Stack) (events : List Event) : Except Stop Stack := events.foldlM step s

end Sunela.UiStack
