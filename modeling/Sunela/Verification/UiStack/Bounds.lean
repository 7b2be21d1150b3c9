import Mathlib.Tactic.Common
import Sunela.Model.UiStack

/-! # The bounds of the stack of pages

What keeps the accesses inside of the stack, over whole runs. -/

namespace Sunela.UiStack

variable {s s' : Stack} {ui page : Ui} {i : UInt32} {e : Event} {r : Except Stop Stack}

/-- The stack pointer of a state that is reached. -/
def Stack.Inside (s : Stack) : Prop := s.sp.toNat < uiStackSize

/-- There is room for another page. -/
def Stack.Room (s : Stack) : Prop := s.sp.toNat + 1 < uiStackSize

/-- A function has stayed inside the stack. -/
structure Stays (r : Except Stop Stack) : Prop where
  inside : r ≠ .error .outside
  next : ∀ s', r = .ok s' → s'.Inside

theorem Stays.ok (h : s.Inside) : Stays (.ok s) where
  inside := nofun
  next s' hs := by
    cases hs
    exact h

theorem Stays.error {stop : Stop} (h : stop ≠ .outside) : Stays (.error stop) where
  inside hs := by
    cases hs
    exact h rfl
  next _ hs := nomatch hs

theorem Stays.ite {c : Prop} [Decidable c] {a b : Except Stop Stack} (ha : Stays a)
    (hb : Stays b) : Stays (if c then a else b) := by
  split
  · exact ha
  · exact hb

theorem ok_bind {α β : Type} (a : α) (f : α → Except Stop β) :
    (Except.ok a >>= f) = f a := rfl

theorem error_bind {α β : Type} (stop : Stop) (f : α → Except Stop β) :
    (Except.error stop >>= f) = .error stop := rfl

theorem access_inside (h : i.toNat < uiStackSize) : s.access i = .ok (s.slots i.toNat) := if_pos h

theorem access_outside (h : ¬ i.toNat < uiStackSize) : s.access i = .error .outside := if_neg h

theorem Stack.Inside.currentUi (h : s.Inside) : s.currentUi = .ok (s.slots s.sp.toNat) :=
  access_inside h

theorem Stack.Inside.enter (h : s.Inside) (ui : Ui) : Stays (s.enter ui) := by
  rw [Stack.enter, h.currentUi, ok_bind]
  dsimp only
  split
  · exact .ok h
  · exact .ok h

theorem Stack.Inside.switchClosed (h : s.Inside) (ui : Ui) : Stays (switchClosed ui s) := by
  rw [UiStack.switchClosed, h.currentUi, ok_bind]
  cases s.slots s.sp.toNat with
  | none => exact .error nofun
  | some page => exact h.enter ui

theorem Stack.Inside.uiSwitch (h : s.Inside) (ui : Ui) : Stays (uiSwitch ui s) := by
  rw [UiStack.uiSwitch, h.currentUi, ok_bind]
  cases s.slots s.sp.toNat with
  | none => exact h.enter ui
  | some page => exact .ite (.ok h) (h.switchClosed ui)

/-! ## Calls -/

theorem toNat_add_one {sp : UInt32} (h : sp.toNat < uiStackSize) :
    (sp + 1).toNat = sp.toNat + 1 := by
  have hlt : sp.toNat < 10 := h
  rw [UInt32.toNat_add]
  exact Nat.mod_eq_of_lt (by
    have hone : (1 : UInt32).toNat = 1 := rfl
    omega)

theorem callClosed_eq (h : s.Inside) (ui : Ui) :
    callClosed ui s = Stack.enter { s with sp := s.sp + 1 } ui :=
  if_neg (not_not.mpr (Nat.le_of_lt h))

theorem Stack.Inside.callClosed (h : s.Inside) (hr : s.Room) (ui : Ui) :
    Stays (callClosed ui s) := by
  rw [callClosed_eq h]
  apply Stack.Inside.enter
  rw [Stack.Inside, toNat_add_one h]
  exact hr

/-- The assertion lets the stack pointer leave the stack. -/
theorem Stack.Inside.callClosed_outside (h : s.Inside) (hr : ¬ s.Room) (ui : Ui) :
    UiStack.callClosed ui s = .error .outside := by
  have hsp : ¬ (s.sp + 1).toNat < uiStackSize := by
    rw [toNat_add_one h]
    exact hr
  rw [callClosed_eq h, Stack.enter, Stack.currentUi, access_outside hsp, error_bind]

/-! ## Returns -/

/-- The page below, if there is one. -/
theorem Stack.Inside.below (h : s.Inside) (hsp : s.sp ≠ 0) :
    Stack.Inside { s with sp := s.sp - 1 } := by
  have hsub := toNat_sub_one hsp
  have hlt : (s.sp - 1).toNat < s.sp.toNat := by omega
  exact Nat.lt_trans hlt h

theorem below_outside (hsp : s.sp = 0) :
    Stack.currentUi { s with sp := s.sp - 1 } = .error .outside := by
  have hwraps : ¬ (0 - 1 : UInt32).toNat < uiStackSize := by decide
  rw [hsp]
  exact access_outside hwraps

theorem Stack.Inside.returnClosed (h : s.Inside) (hsp : s.sp ≠ 0) : Stays (returnClosed s) := by
  rw [UiStack.returnClosed, h.currentUi, ok_bind]
  cases s.slots s.sp.toNat with
  | none => exact .error nofun
  | some page =>
      have hbelow := h.below hsp
      dsimp only
      rw [hbelow.currentUi, ok_bind]
      cases s.slots (s.sp - 1).toNat with
      | none => exact .error nofun
      | some page => exact .ite (.ok hbelow) (.error nofun)

theorem Stack.Inside.uiReturn (h : s.Inside) : Stays (uiReturn s) := by
  rw [UiStack.uiReturn, h.currentUi, ok_bind]
  cases s.slots s.sp.toNat with
  | none => exact .error nofun
  | some page =>
      dsimp only
      by_cases hsp : s.sp = 0
      · rw [if_pos hsp]
        exact .error nofun
      · have hbelow : s.access (s.sp - 1) = _ := access_inside (h.below hsp)
        rw [if_neg hsp, hbelow, ok_bind]
        exact .ite (.ok h) (h.returnClosed hsp)

theorem Stack.Inside.emptyLoop (h : s.Inside) : Stays (emptyLoop s) := by
  generalize hn : s.sp.toNat = n
  induction n generalizing s with
  | zero =>
      rw [UiStack.emptyLoop, if_pos (UInt32.toNat_inj.mp hn)]
      exact .ok h
  | succ n ih =>
      have hsp : s.sp ≠ 0 := fun h0 => by simp [h0] at hn
      have hbelow : s.access (s.sp - 1) = _ := access_inside (h.below hsp)
      have hsub := toNat_sub_one hsp
      rw [UiStack.emptyLoop, if_neg hsp, h.currentUi, ok_bind, hbelow, ok_bind]
      cases s.slots s.sp.toNat with
      | none => exact .error nofun
      | some page =>
          have hn : (s.sp - 1).toNat = n := by omega
          exact .ite (.ok h) (ih (h.below hsp) hn)

theorem Stack.Inside.emptyClosed (h : s.Inside) (hsp : s.sp ≠ 0) : Stays (emptyClosed s) := by
  rw [UiStack.emptyClosed, h.currentUi, ok_bind]
  cases s.slots s.sp.toNat with
  | none => exact .error nofun
  | some page => exact (h.below hsp).emptyLoop

/-- A page that has been left by its own `close` is left once more. -/
theorem closed_outside (h : s.Inside) (hsp : s.sp = 0) (hp : s.slots 0 = some page) :
    returnClosed s = .error .outside ∧ emptyClosed s = .error .outside := by
  have hslot : s.slots s.sp.toNat = some page := by rwa [hsp]
  constructor
  · rw [returnClosed, h.currentUi, ok_bind, hslot]
    dsimp only
    rw [below_outside hsp, error_bind]
  · have hne : s.sp - 1 ≠ 0 := by
      rw [hsp]
      decide
    rw [emptyClosed, h.currentUi, ok_bind, hslot]
    dsimp only
    rw [emptyLoop, if_neg hne, below_outside hsp, error_bind]

/-! ## Runs -/

/-- A step finds room for the page that it calls, and no page has left the stack from its own
`close`. -/
def Fits (s : Stack) : Event → Prop
  | .call _ => s.Room ∨ ∃ page, s.slots s.sp.toNat = some page ∧ page.hasClose = true
  | .leave =>
      match s.frames with
      | .callClose _ :: _ => s.Room
      | .returnClose :: _ => s.sp ≠ 0 ∨ s.slots 0 = none
      | .emptyClose :: _ => s.sp ≠ 0 ∨ s.slots 0 = none
      | _ => True
  | _ => True

theorem closed_stays (h : s.Inside) (hf : s.sp ≠ 0 ∨ s.slots 0 = none) :
    Stays (returnClosed s) ∧ Stays (emptyClosed s) := by
  by_cases hsp : s.sp = 0
  · have hslot : s.slots s.sp.toNat = none := by
      rw [hsp]
      exact hf.resolve_left (not_not.mpr hsp)
    constructor
    · rw [returnClosed, h.currentUi, ok_bind, hslot]
      exact .error nofun
    · rw [emptyClosed, h.currentUi, ok_bind, hslot]
      exact .error nofun
  · exact ⟨h.returnClosed hsp, h.emptyClosed hsp⟩

theorem Stack.Inside.uiCall (h : s.Inside) (ui : Ui) :
    uiCall ui s = .ok (s.push (.callClose ui)) ∨ uiCall ui s = UiStack.callClosed ui s := by
  rw [UiStack.uiCall, h.currentUi, ok_bind]
  cases s.slots s.sp.toNat with
  | none => exact .inr rfl
  | some page =>
      by_cases hc : page.hasClose = true
      · exact .inl (if_pos hc)
      · exact .inr (if_neg hc)

theorem Stack.Inside.step (h : s.Inside) (hf : Fits s e) : Stays (step s e) := by
  cases e with
  | switch ui => exact h.uiSwitch ui
  | call ui =>
      rcases hf with hr | ⟨page, hp, hc⟩
      · rcases h.uiCall ui with hcall | hcall
        · exact (congrArg Stays hcall).mpr (.ok h)
        · exact (congrArg Stays hcall).mpr (h.callClosed hr ui)
      · have hcall : UiStack.uiCall ui s = .ok (s.push (.callClose ui)) := by
          rw [UiStack.uiCall, h.currentUi, ok_bind, hp]
          exact if_pos hc
        exact (congrArg Stays hcall).mpr (.ok h)
  | back => exact h.uiReturn
  | empty => exact .ite (.ok h) h.emptyLoop
  | handle =>
      rw [UiStack.step, h.currentUi, ok_bind]
      exact .ok h
  | leave =>
      cases hframes : s.frames with
      | nil =>
          have hstep : UiStack.step s .leave = .ok s := by simp only [UiStack.step, hframes]
          rw [hstep]
          exact .ok h
      | cons f frames =>
          have hstep : UiStack.step s .leave = f.goOn { s with frames := frames } := by
            simp only [UiStack.step, hframes]
          have hi : Stack.Inside { s with frames := frames } := h
          simp only [Fits, hframes] at hf
          rw [hstep]
          cases f with
          | switchClose ui => exact hi.switchClosed ui
          | callClose ui => exact hi.callClosed hf ui
          | returnClose => exact (closed_stays hi hf).1
          | emptyClose => exact (closed_stays hi hf).2
          | opened => exact .ok hi
          | resumed => exact .ok hi

theorem Stack.Inside.leave_outside (h : s.Inside) (hf : ¬ Fits s .leave) :
    UiStack.step s .leave = .error .outside := by
  have hpage : ¬ (s.sp ≠ 0 ∨ s.slots 0 = none) →
      s.sp = 0 ∧ ∃ page, s.slots 0 = some page := by
    intro hn
    exact ⟨not_not.mp fun hsp => hn (.inl hsp),
      Option.ne_none_iff_exists'.mp fun hslot => hn (.inr hslot)⟩
  cases hframes : s.frames with
  | nil =>
      simp only [Fits, hframes] at hf
      exact absurd trivial hf
  | cons f frames =>
      have hstep : UiStack.step s .leave = f.goOn { s with frames := frames } := by
        simp only [UiStack.step, hframes]
      have hi : Stack.Inside { s with frames := frames } := h
      simp only [Fits, hframes] at hf
      rw [hstep]
      cases f with
      | switchClose ui => exact absurd trivial hf
      | callClose ui => exact hi.callClosed_outside hf ui
      | returnClose =>
          obtain ⟨hsp, page, hp⟩ := hpage hf
          exact (closed_outside hi hsp hp).1
      | emptyClose =>
          obtain ⟨hsp, page, hp⟩ := hpage hf
          exact (closed_outside hi hsp hp).2
      | opened => exact absurd trivial hf
      | resumed => exact absurd trivial hf

theorem Stack.Inside.step_outside (h : s.Inside) (hf : ¬ Fits s e) :
    UiStack.step s e = .error .outside := by
  cases e with
  | call ui =>
      simp only [Fits, not_or, not_exists, not_and] at hf
      obtain ⟨hr, hc⟩ := hf
      have hcall : UiStack.uiCall ui s = UiStack.callClosed ui s := by
        rw [UiStack.uiCall, h.currentUi, ok_bind]
        cases hp : s.slots s.sp.toNat with
        | none => rfl
        | some page => exact if_neg (hc page hp)
      exact hcall.trans (h.callClosed_outside hr ui)
  | leave => exact h.leave_outside hf
  | switch ui => exact absurd trivial hf
  | back => exact absurd trivial hf
  | empty => exact absurd trivial hf
  | handle => exact absurd trivial hf

/-- Each step of a run fits. -/
def Meets (s : Stack) : List Event → Prop
  | [] => True
  | e :: events => Fits s e ∧ ∀ s', step s e = .ok s' → Meets s' events

theorem Stack.Inside.run (h : s.Inside) (events : List Event) :
    UiStack.run s events ≠ .error .outside ↔ Meets s events := by
  induction events generalizing s with
  | nil => exact iff_of_true nofun trivial
  | cons e events ih =>
      rw [UiStack.run, List.foldlM_cons, Meets]
      by_cases hf : Fits s e
      · have hstays := h.step hf
        cases hs : UiStack.step s e with
        | ok s' =>
            have hrest := ih (hstays.next s' hs)
            rw [ok_bind]
            refine hrest.trans ⟨fun hm => ⟨hf, ?_⟩, fun hm => hm.2 s' rfl⟩
            intro s'' hs''
            cases hs''
            exact hm
        | error stop =>
            rw [hs] at hstays
            refine iff_of_true ?_ ⟨hf, nofun⟩
            exact hstays.inside
      · rw [h.step_outside hf, error_bind]
        exact iff_of_false (fun hn => hn rfl) fun hm => hf hm.1

/-- A run accesses the stack only inside of it, or an assertion stops it before, if and only if
each of its steps fits. -/
theorem run_inside_iff (events : List Event) :
    run .start events ≠ .error .outside ↔ Meets .start events := by
  have hstart : Stack.start.Inside := show (0 : UInt32).toNat < uiStackSize by decide
  exact hstart.run events

/-- The assertion does not stop the tenth of ten calls. -/
theorem tenCalls_outside :
    run .start (List.replicate 10 (.call ⟨false, false, false⟩)) = .error .outside :=
  rfl

end Sunela.UiStack
