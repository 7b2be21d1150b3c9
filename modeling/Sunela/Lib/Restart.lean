import Mathlib.Data.Nat.Notation
import Sunela.Lib.Program

/-! # Loops that start over

A loop that looks for something to do, does it, and starts over. The rounds are bounded by fuel,
and running out of it counts as stopping early. -/

namespace Sunela.Program

variable {C : Type} {R : C → Type} {S α : Type}

/-- What `step` finds to do is done, and the search starts over until it finds nothing. -/
def restart (step : α → Option (Prog C R α)) (fuel : ℕ) (a : α) : Prog C R α :=
  match fuel with
  | 0 => .halt
  | fuel + 1 =>
      match step a with
      | none => .ret a
      | some p => p >>= restart step fuel

variable {step : α → Option (Prog C R α)} {K : Contract C R S} {I : α → Prop} {a : α} {s : S}

/-- If every round keeps the invariant and lowers the measure, then the loop ends with nothing
left to do. -/
theorem wp_restart {m : α → ℕ}
    (hround : ∀ a s p, I a → step a = some p → wp K p (fun b _ => I b ∧ m b < m a) s)
    {fuel : ℕ} (hfuel : m a < fuel) (h : I a) :
    wp K (restart step fuel a) (fun b _ => I b ∧ step b = none) s := by
  induction fuel generalizing a s with
  | zero => exact absurd hfuel (Nat.not_lt_zero _)
  | succ fuel ih =>
      unfold restart
      cases hstep : step a with
      | none => exact ⟨h, hstep⟩
      | some p =>
          simp only [wp_bind]
          apply wp_mono (hround a s p h hstep)
          intro b t hb
          apply ih _ hb.1
          omega

/-- Where it may run forever, the loop still keeps an invariant. -/
theorem wp_restart_unbounded (hhalt : ∀ i s, K.halt i s)
    (hround : ∀ a s p, I a → step a = some p → wp K p (fun b _ => I b) s) {fuel : ℕ} (h : I a) :
    wp K (restart step fuel a) (fun b _ => I b ∧ step b = none) s := by
  induction fuel generalizing a s with
  | zero => exact hhalt 0 s
  | succ fuel ih =>
      unfold restart
      cases hstep : step a with
      | none => exact ⟨h, hstep⟩
      | some p =>
          simp only [wp_bind]
          exact wp_mono (hround a s p h hstep) fun b t hb => ih hb

/-- If the loop cannot be left unless `P` holds, and no round establishes `P`, then `P` holds
already where the loop starts. -/
theorem restart_needs {P : α → Prop} {Q : α → S → Prop} (hhalt : ∀ i s, ¬ K.halt i s)
    (hend : ∀ a s, I a → step a = none → Q a s → P a)
    (hround : ∀ a s p, I a → step a = some p → wp K p (fun b _ => I b → P b) s → P a)
    {fuel : ℕ} (h : I a) (hw : wp K (restart step fuel a) Q s) : P a := by
  induction fuel generalizing a s with
  | zero => exact absurd hw (hhalt 0 s)
  | succ fuel ih =>
      unfold restart at hw
      cases hstep : step a with
      | none =>
          rw [hstep] at hw
          exact hend a s h hstep hw
      | some p =>
          simp only [hstep, wp_bind] at hw
          apply hround a s p h hstep
          exact wp_mono hw fun b t hb hI => ih hI hb

end Sunela.Program
