import Mathlib.Logic.Relation
import Sunela.Lib.Program

/-! # Programs that are interrupted

A handler may run any number of times before each command of a program. What no run of the
handler changes is stable, and can be relied on between two commands. -/

namespace Sunela.Program

open Relation

variable {C : Type} {R : C → Type} {S α β : Type} {env : S → S → Prop}
  {answer : S → (c : C) → R c × S} {I : S → Prop} {stop : Prop} {s t : S}

def Stable (env : S → S → Prop) (P : S → Prop) : Prop := ∀ s t, P s → env s t → P t

theorem Stable.star {P : S → Prop} (h : Stable env P) (hs : P s) (ht : ReflTransGen env s t) :
    P t := by
  induction ht with
  | refl => exact hs
  | tail _ hstep ih => exact h _ _ ih hstep

/-- The handler runs a number of times, and then the command is carried out. -/
def Preempted (env : S → S → Prop) (answer : S → (c : C) → R c × S) (s : S) (c : C) (r : R c)
    (t : S) : Prop :=
  ∃ u, ReflTransGen env s u ∧ (r, t) = answer u c

/-- While the program runs, `I` holds. It may stop early only if `stop` allows it. -/
def interrupted (env : S → S → Prop) (answer : S → (c : C) → R c × S) (I : S → Prop)
    (stop : Prop) : Contract C R S where
  step := Preempted env answer
  call s _ := I s
  halt _ s := I s ∧ stop
  undef _ := False

/-- Rely on a stable assertion before a command. -/
theorem wp_stable {P : S → Prop} (hP : Stable env P) (hI : ∀ s, P s → I s) {c : C}
    {next : R c → Prog C R α} {Q : α → S → Prop} (hs : P s)
    (h : ∀ u, P u → wp (interrupted env answer I stop) (next (answer u c).1) Q (answer u c).2) :
    wp (interrupted env answer I stop) (.call c next) Q s := by
  refine ⟨hI s hs, fun r t ht => ?_⟩
  obtain ⟨u, hu, heq⟩ := ht
  obtain ⟨rfl, rfl⟩ := Prod.mk.inj heq
  exact h u (hP.star hs hu)

/-- The handler may run before any command. -/
theorem wp_interrupt {c : C} {next : R c → Prog C R α} {Q : α → S → Prop} (hI : Stable env I)
    (h : wp (interrupted env answer I stop) (.call c next) Q s) (hstep : env s t) :
    wp (interrupted env answer I stop) (.call c next) Q t := by
  refine ⟨hI s t h.1 hstep, fun r u hu => ?_⟩
  obtain ⟨v, hv, heq⟩ := hu
  exact h.2 r u ⟨v, .head hstep hv, heq⟩

/-- The command may be carried out at once. -/
theorem wp_proceed {c : C} {next : R c → Prog C R α} {Q : α → S → Prop}
    (h : wp (interrupted env answer I stop) (.call c next) Q s) :
    wp (interrupted env answer I stop) (next (answer s c).1) Q (answer s c).2 :=
  h.2 _ _ ⟨s, .refl, rfl⟩

end Sunela.Program
