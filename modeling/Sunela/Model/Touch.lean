import Mathlib.Algebra.Ring.Int.Defs
import Mathlib.Data.Int.Bitwise
import Sunela.Model.Gfx

/-! # Touch screen

Touches are turned into calls of the current page, which has no lists. -/

namespace Sunela.Touch

open Gfx

def gfxWidth : UInt32 := 240
def gfxHeight : UInt32 := 280
def dragR : ℤ := 10
def longMs : UInt32 := 400
def swipeR : ℤ := 240 / 3
def swipeF : ℤ := 2

inductive UiSwipe where
  | none
  | left
  | right
  | up
  | down
  deriving DecidableEq

abbrev Point := UInt32 × UInt32

/-- The distance along one axis, as signed numbers. -/
def distance (a b : UInt32) : ℤ := signed b.toNat - signed a.toNat

/-- The square of the distance. -/
def square (a b : Point) : ℤ :=
  distance a.1 b.1 * distance a.1 b.1 + distance a.2 b.2 * distance a.2 b.2

/-- The points are far enough apart for dragging. -/
def far (a b : Point) : Bool := square a b ≥ dragR * dragR

def classifySwipe (a b : Point) : UiSwipe :=
  let dx := distance a.1 b.1
  let dy := distance a.2 b.2
  if dx * dx + dy * dy < swipeR * swipeR then .none
  else if dx * dx > swipeF * swipeF * dy * dy then if dx < 0 then .left else .right
  else if dy * dy > swipeF * swipeF * dx * dx then if dy < 0 then .up else .down
  else .none

/-- The calls that a page can receive, with their arguments. -/
inductive Callback where
  | touchDown (p : Point)
  | touchTap (p : Point)
  | touchLong (p : Point)
  | touchMoving (a b : Point) (swipe : UiSwipe)
  | touchTo (a b : Point) (swipe : UiSwipe)
  | touchCancel
  deriving DecidableEq

/-- `struct ui_events`, as far as it is about touches: which functions there are. -/
structure UiEvents where
  touchDown : Bool
  touchTap : Bool
  touchLong : Bool
  touchMoving : Bool
  touchTo : Bool
  touchCancel : Bool

def UiEvents.handles (e : UiEvents) : Callback → Bool
  | .touchDown _ => e.touchDown
  | .touchTap _ => e.touchTap
  | .touchLong _ => e.touchLong
  | .touchMoving .. => e.touchMoving
  | .touchTo .. => e.touchTo
  | .touchCancel => e.touchCancel

/-- The calls that are made. A page need not have events, or all of the functions. -/
def received (e : Option UiEvents) (calls : List Callback) : List Callback :=
  calls.filter fun c => e.any (·.handles c)

/-- The clock, the due time of `long_timer`, if it is set, and the variables of a gesture. -/
structure Screen where
  now : UInt32
  longTimer : Option UInt32
  startMs : UInt32
  start : Point
  last : Point
  dragging : Bool
  isLong : Bool
  deriving DecidableEq

def touchLong (e : Option UiEvents) (s : Screen) : List Callback × Screen :=
  (received e [.touchLong s.start], { s with isLong := true })

/-- `timer_tick`, for this one timer. -/
def timerTick (e : Option UiEvents) (nowMs : UInt32) (s : Screen) : List Callback × Screen :=
  let s := { s with now := nowMs }
  match s.longTimer with
  | some due => if due ≤ s.now then touchLong e { s with longTimer := none } else ([], s)
  | none => ([], s)

def touchDownEvent (e : Option UiEvents) (x y : UInt32) (s : Screen) : List Callback × Screen :=
  let x := if x ≥ gfxWidth then gfxWidth - 1 else x
  let y := if y ≥ gfxHeight then gfxHeight - 1 else y
  (received e [.touchDown (x, y)],
    { s with
      startMs := s.now, start := (x, y), last := (x, y), dragging := false, isLong := false
      longTimer := some (s.now + longMs) })

def movingEvent (e : Option UiEvents) (a b : Point) : List Callback :=
  received e [.touchMoving a b (classifySwipe a b)]

def toEvent (e : Option UiEvents) (a b : Point) : List Callback :=
  received e [.touchTo a b (classifySwipe a b)]

def cancelEvent (e : Option UiEvents) : List Callback := received e [.touchCancel]

/-- A gesture that has come far enough starts to drag. -/
def startDragging (e : Option UiEvents) (isFar : Bool) (s : Screen) : List Callback × Screen :=
  if isFar && !s.dragging then
    (cancelEvent e, { s with longTimer := none, isLong := false, dragging := true })
  else ([], s)

def touchMoveEvent (e : Option UiEvents) (x y : UInt32) (s : Screen) : List Callback × Screen :=
  if x ≥ gfxWidth ∨ y ≥ gfxHeight then ([], s)
  else
    let r := startDragging e (far s.start (x, y)) { s with last := (x, y) }
    (if r.2.dragging then r.1 ++ movingEvent e r.2.start (x, y) else r.1, r.2)

/-- There is no result if the assertion fails. -/
def touchUpEvent (e : Option UiEvents) (s : Screen) : Option (List Callback × Screen) :=
  let s := { s with longTimer := none }
  if s.isLong then
    if s.dragging then none else some ([], { s with isLong := false })
  else if far s.start s.last then some (toEvent e s.start s.last, s)
  else if s.dragging then some (cancelEvent e, s)
  else some (received e [.touchTap s.start], s)

/-! ## Gestures -/

/-- What can happen while the screen is touched. -/
inductive Event where
  | move (x y : UInt32)
  | tick (nowMs : UInt32)

def Event.exec (e : Option UiEvents) : Event → Screen → List Callback × Screen
  | move x y => touchMoveEvent e x y
  | tick nowMs => timerTick e nowMs

/-- Events one after the other, with all the calls that are made. -/
def events (e : Option UiEvents) : List Event → Screen → List Callback × Screen
  | [], s => ([], s)
  | ev :: evs, s =>
      let (calls, s) := ev.exec e s
      let (rest, s) := events e evs s
      (calls ++ rest, s)

/-- A gesture on a page: where the screen is touched, what happens until it is released, and the
ticks between this gesture and the next. -/
structure Gesture where
  page : Option UiEvents
  x : UInt32
  y : UInt32
  during : List Event
  after : List UInt32

def Gesture.exec (g : Gesture) (s : Screen) : Option (List Callback × Screen) := do
  let (down, s) := touchDownEvent g.page g.x g.y s
  let (during, s) := events g.page g.during s
  let (up, s) ← touchUpEvent g.page s
  let (after, s) := events g.page (g.after.map .tick) s
  return (down ++ during ++ up ++ after, s)

/-- The calls of each of several gestures. -/
def gestures : List Gesture → Screen → Option (List (List Callback))
  | [], _ => some []
  | g :: gs, s => do
      let (calls, s) ← g.exec s
      let rest ← gestures gs s
      return calls :: rest

end Sunela.Touch
