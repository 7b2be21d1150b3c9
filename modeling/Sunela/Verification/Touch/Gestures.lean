import Sunela.Model.Touch

/-! # The calls of a gesture

Whatever happens while the screen is touched, a page is called in one of a few orders. -/

namespace Sunela.Touch

open Gfx

def Callback.IsMoving (c : Callback) : Prop := ∃ a b swipe, c = .touchMoving a b swipe

def Callback.IsTo (c : Callback) : Prop := ∃ a b swipe, c = .touchTo a b swipe

/-- The calls while a gesture drags: it may have been a long press before. -/
inductive Dragging : List Callback → Prop where
  | first {p : Point} {c : Callback} (h : c.IsMoving) : Dragging [.touchDown p, .touchCancel, c]
  | afterLong {p q : Point} {c : Callback} (h : c.IsMoving) :
      Dragging [.touchDown p, .touchLong q, .touchCancel, c]
  | next {calls : List Callback} {c : Callback} (h : Dragging calls) (hc : c.IsMoving) :
      Dragging (calls ++ [c])

/-- The sequences of calls that a gesture can make. -/
inductive Sequence : List Callback → Prop where
  | tap {p q : Point} : Sequence [.touchDown p, .touchTap q]
  | long {p q : Point} : Sequence [.touchDown p, .touchLong q]
  | drag {calls : List Callback} {c : Callback} (h : Dragging calls)
      (hc : c.IsTo ∨ c = .touchCancel) : Sequence (calls ++ [c])

variable {e : Option UiEvents} {s : Screen} {calls : List Callback}

theorem received_append (a b : List Callback) :
    received e (a ++ b) = received e a ++ received e b :=
  List.filter_append _ _

/-- What has been called so far, and what the variables say about it. -/
inductive Phase : List Callback → Screen → Prop where
  | pressed {s : Screen} {p : Point} (hd : s.dragging = false) (hl : s.isLong = false)
      (hnear : far s.start s.last = false) : Phase [.touchDown p] s
  | long {s : Screen} {p q : Point} (hd : s.dragging = false) (hl : s.isLong = true)
      (ht : s.longTimer = none) (hnear : far s.start s.last = false) :
      Phase [.touchDown p, .touchLong q] s
  | dragged {s : Screen} {calls : List Callback} (hd : s.dragging = true) (hl : s.isLong = false)
      (ht : s.longTimer = none) (h : Dragging calls) : Phase calls s

/-- A call goes on with the gesture. -/
def Extends (e : Option UiEvents) (calls : List Callback) (r : List Callback × Screen) : Prop :=
  ∃ more, r.1 = received e more ∧ Phase (calls ++ more) r.2

theorem Phase.stay (h : Phase calls s) : Extends e calls ([], s) :=
  ⟨[], rfl, by rwa [List.append_nil]⟩

theorem Phase.clock (h : Phase calls s) (nowMs : UInt32) :
    Phase calls { s with now := nowMs } := by
  cases h with
  | pressed hd hl hnear => exact .pressed hd hl hnear
  | long hd hl ht hnear => exact .long hd hl ht hnear
  | dragged hd hl ht h => exact .dragged hd hl ht h

/-- The timer can only expire before anything else has happened. -/
theorem Phase.timer {due : UInt32} (h : Phase calls s) (ht : s.longTimer = some due) :
    ∃ p, calls = [.touchDown p] ∧ s.dragging = false ∧
      far s.start s.last = false := by
  cases h with
  | pressed hd hl hnear => exact ⟨_, rfl, hd, hnear⟩
  | long hd hl hn hnear => exact absurd (hn.symm.trans ht) nofun
  | dragged hd hl hn h => exact absurd (hn.symm.trans ht) nofun

theorem Phase.tick (h : Phase calls s) (nowMs : UInt32) :
    Extends e calls (timerTick e nowMs s) := by
  cases ht : s.longTimer with
  | none =>
      have htick : timerTick e nowMs s = ([], { s with now := nowMs }) := by
        simp only [timerTick, ht]
      rw [htick]
      exact (h.clock nowMs).stay
  | some due =>
      by_cases hdue : due ≤ nowMs
      · have htick : timerTick e nowMs s =
            touchLong e { s with now := nowMs, longTimer := none } := by
          simp only [timerTick, ht, if_pos hdue]
        obtain ⟨p, rfl, hd, hnear⟩ := h.timer ht
        rw [htick]
        exact ⟨[.touchLong s.start], rfl, .long hd rfl rfl hnear⟩
      · have htick : timerTick e nowMs s = ([], { s with now := nowMs }) := by
          simp only [timerTick, ht, if_neg hdue]
        rw [htick]
        exact (h.clock nowMs).stay

theorem moving_isMoving (a b : Point) :
    (Callback.touchMoving a b (classifySwipe a b)).IsMoving := ⟨a, b, _, rfl⟩

theorem move_inside {x y : UInt32} {r : List Callback × Screen}
    (hin : ¬ (x ≥ gfxWidth ∨ y ≥ gfxHeight))
    (hr : startDragging e (far s.start (x, y))
      { s with last := (x, y) } = r) :
    touchMoveEvent e x y s =
      (if r.2.dragging then r.1 ++ movingEvent e r.2.start (x, y) else r.1, r.2) := by
  rw [← hr, touchMoveEvent, if_neg hin]

/-- Once the gesture drags, each move is passed on. -/
theorem Dragging.move {x y : UInt32} (h : Dragging calls) (hd : s.dragging = true)
    (hl : s.isLong = false) (ht : s.longTimer = none)
    (hin : ¬ (x ≥ gfxWidth ∨ y ≥ gfxHeight)) : Extends e calls (touchMoveEvent e x y s) := by
  have hstart : startDragging e (far s.start (x, y))
      { s with last := (x, y) } = ([], { s with last := (x, y) }) := by
    rw [startDragging, if_neg]
    simp [hd]
  rw [move_inside hin hstart, if_pos hd]
  exact ⟨[_], rfl, .dragged hd hl ht (h.next (moving_isMoving _ _))⟩

/-- A gesture that does not drag yet may start to. -/
theorem Phase.start_drag {x y : UInt32} (h : Phase calls s) (hd : s.dragging = false)
    (hfar : far s.start (x, y) = true) (hin : ¬ (x ≥ gfxWidth ∨ y ≥ gfxHeight)) :
    Extends e calls (touchMoveEvent e x y s) := by
  have hstart : startDragging e (far s.start (x, y))
      { s with last := (x, y) } = (cancelEvent e,
      { s with last := (x, y), longTimer := none, isLong := false, dragging := true }) := by
    rw [startDragging, if_pos]
    rw [hfar, hd]
    rfl
  rw [move_inside hin hstart, if_pos rfl]
  refine ⟨[.touchCancel, .touchMoving s.start (x, y) (classifySwipe s.start (x, y))],
    (received_append [_] [_]).symm, ?_⟩
  cases h with
  | pressed hd hl hnear => exact .dragged rfl rfl rfl (.first (moving_isMoving _ _))
  | long hd hl ht hnear => exact .dragged rfl rfl rfl (.afterLong (moving_isMoving _ _))
  | dragged hd' hl ht h => exact absurd (hd.symm.trans hd') nofun

/-- Small movements are suppressed. -/
theorem Phase.small_move {x y : UInt32} (h : Phase calls s) (hd : s.dragging = false)
    (hnear : far s.start (x, y) = false) (hin : ¬ (x ≥ gfxWidth ∨ y ≥ gfxHeight)) :
    Extends e calls (touchMoveEvent e x y s) := by
  have hstart : startDragging e (far s.start (x, y))
      { s with last := (x, y) } = ([], { s with last := (x, y) }) := by
    rw [startDragging, hnear, if_neg]
    exact Bool.false_ne_true
  rw [move_inside hin hstart, if_neg (by rw [hd]; exact Bool.false_ne_true)]
  cases h with
  | pressed hd hl _ => exact (Phase.pressed (s := { s with last := (x, y) }) hd hl hnear).stay
  | long hd hl ht _ => exact (Phase.long (s := { s with last := (x, y) }) hd hl ht hnear).stay
  | dragged hd' hl ht h => exact absurd (hd.symm.trans hd') nofun

theorem Phase.move (h : Phase calls s) (x y : UInt32) :
    Extends e calls (touchMoveEvent e x y s) := by
  by_cases hin : x ≥ gfxWidth ∨ y ≥ gfxHeight
  · have hmove : touchMoveEvent e x y s = ([], s) := if_pos hin
    rw [hmove]
    exact h.stay
  · cases hd : s.dragging with
    | false =>
        cases hfar : far s.start (x, y) with
        | true => exact h.start_drag hd hfar hin
        | false => exact h.small_move hd hfar hin
    | true =>
        cases h with
        | pressed hd' hl hnear => exact absurd (hd'.symm.trans hd) nofun
        | long hd' hl ht hnear => exact absurd (hd'.symm.trans hd) nofun
        | dragged hd hl ht h => exact h.move hd hl ht hin

theorem Phase.exec (h : Phase calls s) (ev : Event) : Extends e calls (ev.exec e s) := by
  cases ev with
  | move x y => exact h.move x y
  | tick nowMs => exact h.tick nowMs

theorem Phase.during (e : Option UiEvents) (evs : List Event) (h : Phase calls s) :
    Extends e calls (Touch.events e evs s) := by
  induction evs generalizing calls s with
  | nil => exact h.stay
  | cons ev evs ih =>
      obtain ⟨more, hmore, hphase⟩ := h.exec (e := e) ev
      obtain ⟨rest, hrest, hphase'⟩ := ih hphase
      refine ⟨more ++ rest, ?_, by rwa [← List.append_assoc]⟩
      rw [received_append, ← hmore, ← hrest]
      rfl

/-- When the screen is released, the gesture is complete. -/
theorem Phase.up (h : Phase calls s) :
    ∃ more s', touchUpEvent e s = some (received e more, s') ∧ s'.longTimer = none ∧
      Sequence (calls ++ more) := by
  cases h with
  | pressed hd hl hnear =>
      refine ⟨[.touchTap s.start], { s with longTimer := none }, ?_, rfl, .tap⟩
      rw [touchUpEvent, if_neg (by simp [hl]), if_neg (by simp [hnear]), if_neg (by simp [hd])]
  | long hd hl ht hnear =>
      refine ⟨[], { s with longTimer := none, isLong := false }, ?_, rfl, .long⟩
      rw [touchUpEvent, if_pos hl, if_neg (by simp [hd])]
      rfl
  | dragged hd hl ht h =>
      by_cases hfar : far s.start s.last = true
      · refine ⟨[_], { s with longTimer := none }, ?_, rfl,
          .drag h (.inl ⟨s.start, s.last, classifySwipe s.start s.last, rfl⟩)⟩
        rw [touchUpEvent, if_neg (by simp [hl]), if_pos hfar]
        rfl
      · refine ⟨[.touchCancel], { s with longTimer := none }, ?_, rfl, .drag h (.inr rfl)⟩
        rw [touchUpEvent, if_neg (by simp [hl]), if_neg hfar, if_pos hd]
        rfl

/-- The coordinates are moved into the screen. -/
theorem down_phase (x y : UInt32) :
    ∃ p, (touchDownEvent e x y s).1 = received e [.touchDown p] ∧
      Phase [.touchDown p] (touchDownEvent e x y s).2 := by
  have hself : ∀ p : Point, far p p = false := by
    intro p
    simp only [far, square, distance, Int.sub_self]
    decide
  exact ⟨_, rfl, .pressed rfl rfl (hself _)⟩

/-- Between gestures, the timer is not set. -/
theorem ticks_none (after : List UInt32) (h : s.longTimer = none) :
    (Touch.events e (after.map .tick) s).1 = [] := by
  induction after generalizing s with
  | nil => rfl
  | cons nowMs after ih =>
      have htick : timerTick e nowMs s = ([], { s with now := nowMs }) := by
        simp only [timerTick, h]
      rw [List.map_cons, Touch.events, Event.exec, htick]
      exact ih h

theorem Gesture.exec_sequence (g : Gesture) (s : Screen) :
    ∃ calls s', g.exec s = some (received g.page calls, s') ∧ Sequence calls := by
  obtain ⟨p, hdown, hphase⟩ := down_phase (e := g.page) (s := s) g.x g.y
  obtain ⟨more, hmore, hphase'⟩ := hphase.during g.page g.during
  obtain ⟨last, s', hup, htimer, hseq⟩ := hphase'.up (e := g.page)
  refine ⟨_, (Touch.events g.page (g.after.map .tick) s').2, ?_, hseq⟩
  simp only [Gesture.exec, hup, Option.bind_eq_bind, Option.bind_some]
  rw [ticks_none g.after htimer, List.append_nil, received_append, received_append, ← hdown,
    ← hmore]
  rfl

/-- The calls of each gesture, as far as its page has functions for them, follow the grammar, and
the assertion holds. -/
theorem gestures_sequences (gs : List Gesture) (s : Screen) :
    ∃ logs, gestures gs s = some logs ∧
      List.Forall₂ (fun g log => ∃ calls, Sequence calls ∧ log = received g.page calls) gs logs := by
  induction gs generalizing s with
  | nil => exact ⟨[], rfl, .nil⟩
  | cons g gs ih =>
      obtain ⟨calls, s', hexec, hseq⟩ := g.exec_sequence s
      obtain ⟨logs, hlogs, hall⟩ := ih s'
      refine ⟨received g.page calls :: logs, ?_, .cons ⟨calls, hseq, rfl⟩ hall⟩
      rw [gestures, hexec]
      simp only [Option.bind_eq_bind, Option.bind_some, hlogs]
      rfl

end Sunela.Touch
