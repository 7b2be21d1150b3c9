import Mathlib.Algebra.GroupWithZero.Nat
import Mathlib.Algebra.Order.BigOperators.Group.List
import Mathlib.Data.Int.Order.Basic

/-! # Rows below each other

Rows of given heights fill a column from its top on, without gaps. -/

namespace Rows

variable {heights : List ℕ} {h i n : ℕ} {p : ℤ}

/-- Where row `i` begins. -/
def top (heights : List ℕ) (i : ℕ) : ℕ := (heights.take i).sum

/-- Row `i` has position `p`. -/
def Holds (heights : List ℕ) (i : ℕ) (p : ℤ) : Prop :=
  i < heights.length ∧ top heights i ≤ p ∧ p < top heights (i + 1)

/-- The first row that ends below `p`. -/
def rowAt : List ℕ → ℤ → Option ℕ
  | [], _ => none
  | h :: heights, p => if p < h then some 0 else (rowAt heights (p - h)).map (· + 1)

@[simp]
theorem top_zero : top heights 0 = 0 := by rw [top, List.take_zero, List.sum_nil]

@[simp]
theorem top_cons_succ : top (h :: heights) (i + 1) = h + top heights i := by
  rw [top, List.take_succ_cons, List.sum_cons, top]

theorem not_holds_nil : ¬ Holds [] i p := fun hi => Nat.not_lt_zero i hi.1

theorem holds_cons_zero : Holds (h :: heights) 0 p ↔ 0 ≤ p ∧ p < h := by
  simp [Holds]

theorem holds_cons_succ : Holds (h :: heights) (i + 1) p ↔ Holds heights i (p - h) := by
  simp only [Holds, List.length_cons, top_cons_succ]
  omega

theorem Holds.nonneg (hi : Holds heights i p) : 0 ≤ p := by
  have hle := hi.2.1
  omega

/-- The rows are numbered from `k` on. -/
theorem exists_holds_cons {k : ℕ} : (∃ j, i = k + j ∧ Holds (h :: heights) j p) ↔
    (i = k ∧ 0 ≤ p ∧ p < h) ∨ ∃ j, i = k + 1 + j ∧ Holds heights j (p - h) := by
  constructor
  · intro hex
    obtain ⟨j, rfl, hj⟩ := hex
    cases j with
    | zero => exact .inl ⟨rfl, holds_cons_zero.mp hj⟩
    | succ j => exact .inr ⟨j, by omega, holds_cons_succ.mp hj⟩
  · intro hor
    rcases hor with ⟨rfl, hp⟩ | ⟨j, rfl, hj⟩
    · exact ⟨0, rfl, holds_cons_zero.mpr hp⟩
    · exact ⟨j + 1, by omega, holds_cons_succ.mpr hj⟩

/-- Going through the rows from the first one on finds the row of a position. -/
theorem rowAt_eq_some (hp : 0 ≤ p) : rowAt heights p = some i ↔ Holds heights i p := by
  induction heights generalizing i p with
  | nil => exact iff_of_false nofun not_holds_nil
  | cons h heights ih =>
      rw [rowAt]
      by_cases hh : p < h
      · rw [if_pos hh, Option.some_inj]
        cases i with
        | zero => exact iff_of_true rfl (holds_cons_zero.mpr ⟨hp, hh⟩)
        | succ i =>
            refine iff_of_false nofun fun hi => ?_
            have hle := (holds_cons_succ.mp hi).nonneg
            omega
      · rw [if_neg hh]
        cases i with
        | zero =>
            refine iff_of_false ?_ fun hi => hh (holds_cons_zero.mp hi).2
            intro hi
            obtain ⟨j, -, hj⟩ := Option.map_eq_some_iff.mp hi
            exact Nat.succ_ne_zero j hj
        | succ i =>
            have hrest : 0 ≤ p - h := by omega
            rw [holds_cons_succ, ← ih hrest, Option.map_eq_some_iff]
            simp

/-- The rows have all positions from the top down to the end of the last row. -/
theorem exists_holds : (∃ i, Holds heights i p) ↔ 0 ≤ p ∧ p < heights.sum := by
  induction heights generalizing p with
  | nil =>
      refine iff_of_false (fun hi => hi.elim fun _ => not_holds_nil) ?_
      simp
  | cons h heights ih =>
      have hrest := @ih (p - h)
      rw [List.sum_cons]
      constructor
      · intro hi
        cases hi with
        | intro i hi =>
            cases i with
            | zero =>
                have hfirst := holds_cons_zero.mp hi
                omega
            | succ i =>
                have hlater := hrest.mp ⟨i, holds_cons_succ.mp hi⟩
                omega
      · intro hp
        by_cases hh : p < h
        · exact ⟨0, holds_cons_zero.mpr ⟨hp.1, hh⟩⟩
        · have hlater : 0 ≤ p - h ∧ p - h < heights.sum := by omega
          cases hrest.mpr hlater with
          | intro i hi => exact ⟨i + 1, holds_cons_succ.mpr hi⟩

end Rows
