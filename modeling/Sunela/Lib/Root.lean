import Mathlib.Tactic.Ring
import Mathlib.Tactic.Linarith

/-! # Square roots digit by digit

The binary digits of the root of a number, the highest first. -/

namespace Sunela.Root

/-- `p` is the root of `n`, cut to a multiple of `2 ^ k`. -/
structure Cut (n k p : ℕ) : Prop where
  dvd : 2 ^ k ∣ p
  le : p ^ 2 ≤ n
  lt : n < (p + 2 ^ k) ^ 2

variable {n k p x : ℕ}

theorem square_add (p k : ℕ) : (p + 2 ^ k) ^ 2 = p * 2 ^ (k + 1) + 4 ^ k + p ^ 2 := by
  rw [show (4 : ℕ) ^ k = 2 ^ k * 2 ^ k by rw [← Nat.mul_pow], Nat.pow_succ]
  ring

/-- The next digit can be seen from what is left of the number. -/
theorem digit_iff (hx : x + p ^ 2 = n) :
    p * 2 ^ (k + 1) + 4 ^ k ≤ x ↔ (p + 2 ^ k) ^ 2 ≤ n := by
  rw [square_add, ← hx]
  exact (Nat.add_le_add_iff_right).symm

theorem Cut.one (h : Cut n (k + 1) p) (hdigit : (p + 2 ^ k) ^ 2 ≤ n) : Cut n k (p + 2 ^ k) where
  dvd := (Nat.dvd_add_right (dvd_trans (pow_dvd_pow 2 k.le_succ) h.dvd)).mpr dvd_rfl
  le := hdigit
  lt := by
    rw [Nat.add_assoc, ← Nat.mul_two, ← Nat.pow_succ]
    exact h.lt

theorem Cut.zero (h : Cut n (k + 1) p) (hdigit : n < (p + 2 ^ k) ^ 2) : Cut n k p where
  dvd := dvd_trans (pow_dvd_pow 2 k.le_succ) h.dvd
  le := h.le
  lt := hdigit

/-- The root of a number below `4 ^ b` has `b` digits, which leaves room for the next one. -/
theorem Cut.room {b : ℕ} (h : Cut n k p) (hk : k ≤ b) (hn : n < 4 ^ b) : p + 2 ^ k ≤ 2 ^ b := by
  have hp : p < 2 ^ b := by
    have hsquare : p ^ 2 < (2 ^ b) ^ 2 := by
      calc p ^ 2 ≤ n := h.le
        _ < 4 ^ b := hn
        _ = (2 ^ b) ^ 2 := by rw [← Nat.pow_mul, Nat.mul_comm, Nat.pow_mul]
    exact lt_of_pow_lt_pow_left₀ 2 (Nat.zero_le _) hsquare
  obtain ⟨q, rfl⟩ := h.dvd
  obtain ⟨j, rfl⟩ := Nat.exists_eq_add_of_le hk
  rw [Nat.pow_add] at hp ⊢
  have hq : q + 1 ≤ 2 ^ j := Nat.lt_of_mul_lt_mul_left hp
  calc 2 ^ k * q + 2 ^ k = 2 ^ k * (q + 1) := by ring
    _ ≤ 2 ^ k * 2 ^ j := Nat.mul_le_mul_left _ hq

end Sunela.Root
