import Sunela.Lib.Root
import Sunela.Model.Imath

/-! # Integer square roots

The second loop of `isqrt` finds one digit of the root a round. -/

namespace Sunela.Imath

open Root

variable {n d : UInt32} {s : Round} {k p : ℕ}

/-- The first loop ends with a power of four, or with zero. -/
theorem highestPower_spec {j : ℕ} (hd : d.toNat = 4 ^ j / 4) (hn : n.toNat < 4 ^ j) :
    ∃ k ≤ j, (highestPower n d).toNat = 4 ^ k / 4 ∧ n.toNat < 4 ^ k ∧
      (highestPower n d).toNat ≤ n.toNat := by
  induction j generalizing d with
  | zero =>
      have hzero : d.toNat = 0 := hd
      refine ⟨0, Nat.le_refl 0, ?_⟩
      rw [highestPower, if_neg fun h => by
        have hlt := UInt32.lt_iff_toNat_lt.mp h
        omega]
      exact ⟨hd, hn, by omega⟩
  | succ j ih =>
      have hpow : d.toNat = 4 ^ j := by
        rw [hd, Nat.pow_succ, Nat.mul_div_cancel _ (by decide)]
      rw [highestPower]
      by_cases h : d > n
      · rw [if_pos h]
        have hlt := UInt32.lt_iff_toNat_lt.mp h
        obtain ⟨k, hk, hrest⟩ := ih (d := d >>> 2) (by rw [toNat_shiftRight_two, hpow]) (by omega)
        exact ⟨k, Nat.le_succ_of_le hk, hrest⟩
      · rw [if_neg h]
        exact ⟨j + 1, Nat.le_refl _, hd, hn, UInt32.le_iff_toNat_le.mp (UInt32.not_lt.mp h)⟩

/-- Before the digit `k - 1` is found: the root so far is in `c`, and `x` is what is left. -/
structure Found (n : ℕ) (k p : ℕ) (s : Round) : Prop where
  cut : Cut n k p
  le : k ≤ 16
  d : s.d.toNat = 4 ^ k / 4
  c : s.c.toNat = p * 2 ^ k
  x : s.x.toNat + p ^ 2 = n

/-- The sums and the difference of a round do not wrap around. -/
structure Fits (s : Round) : Prop where
  sum : s.c.toNat + s.d.toNat < 2 ^ 32
  difference : s.c + s.d ≤ s.x → s.c.toNat + s.d.toNat ≤ s.x.toNat
  root : (s.c >>> 1).toNat + s.d.toNat < 2 ^ 32

theorem toNat_shiftRight_one (c : UInt32) : (c >>> 1).toNat = c.toNat / 2 := by
  rw [UInt32.toNat_shiftRight, Nat.shiftRight_eq_div_pow]
  rfl

theorem Found.fits (h : Found n.toNat k p s) : Fits s := by
  have hroom := h.cut.room h.le n.toNat_lt
  have hsum : s.c.toNat + s.d.toNat < 2 ^ 32 := by
    rw [h.c, h.d]
    calc p * 2 ^ k + 4 ^ k / 4 < p * 2 ^ k + 4 ^ k :=
          Nat.add_lt_add_left (Nat.div_lt_self (Nat.pow_pos (by decide)) (by decide)) _
      _ = (p + 2 ^ k) * 2 ^ k := by
          rw [Nat.add_mul, ← Nat.mul_pow]
      _ ≤ 2 ^ 16 * 2 ^ 16 := Nat.mul_le_mul hroom (Nat.pow_le_pow_right (by decide) h.le)
  constructor
  · exact hsum
  · intro hle
    have hn := UInt32.le_iff_toNat_le.mp hle
    rwa [UInt32.toNat_add, Nat.mod_eq_of_lt hsum] at hn
  · rw [toNat_shiftRight_one]
    omega

/-- A round finds one more digit. -/
theorem Found.next (h : Found n.toNat (k + 1) p s) : ∃ p', Found n.toNat k p' s.next := by
  have hfits := h.fits
  have hd : s.d.toNat = 4 ^ k := by
    rw [h.d, Nat.pow_succ, Nat.mul_div_cancel _ (by decide)]
  have hsum : (s.c + s.d).toNat = p * 2 ^ (k + 1) + 4 ^ k := by
    rw [UInt32.toNat_add, Nat.mod_eq_of_lt hfits.sum, h.c, hd]
  have hc : (s.c >>> 1).toNat = p * 2 ^ k := by
    rw [toNat_shiftRight_one, h.c, Nat.pow_succ, ← Nat.mul_assoc, Nat.mul_div_cancel _ (by decide)]
  have hdigit := digit_iff (k := k) h.x
  by_cases hle : s.x ≥ s.c + s.d
  · have hx : p * 2 ^ (k + 1) + 4 ^ k ≤ s.x.toNat := hsum ▸ UInt32.le_iff_toNat_le.mp hle
    have hsquare : (p + 2 ^ k) ^ 2 = p * 2 ^ (k + 1) + 4 ^ k + p ^ 2 := square_add p k
    refine ⟨p + 2 ^ k, h.cut.one (hdigit.mp hx), Nat.le_of_succ_le h.le, ?_, ?_, ?_⟩
    · rw [Round.next_d, toNat_shiftRight_two, hd]
    · have hroot := hfits.root
      simp only [Round.next, if_pos hle]
      rw [UInt32.toNat_add, Nat.mod_eq_of_lt hroot, hc, hd, Nat.add_mul, ← Nat.mul_pow]
    · simp only [Round.next, if_pos hle]
      rw [UInt32.toNat_sub_of_le _ _ hle, hsum, hsquare]
      have hleft := h.x
      omega
  · have hx : ¬ p * 2 ^ (k + 1) + 4 ^ k ≤ s.x.toNat := fun hn =>
      hle (UInt32.le_iff_toNat_le.mpr (hsum ▸ hn))
    refine ⟨p, h.cut.zero (by
      rw [hdigit] at hx
      omega), Nat.le_of_succ_le h.le, ?_, ?_, ?_⟩
    · rw [Round.next_d, toNat_shiftRight_two, hd]
    · rw [Round.next, if_neg hle]
      exact hc
    · rw [Round.next, if_neg hle]
      exact h.x

theorem Found.loop (h : Found n.toNat k p s) :
    (isqrtLoop s).toNat ^ 2 ≤ n.toNat ∧ n.toNat < ((isqrtLoop s).toNat + 1) ^ 2 := by
  induction k generalizing p s with
  | zero =>
      have hd : s.d = 0 := UInt32.toNat_inj.mp h.d
      have hc : s.c.toNat = p := by
        rw [h.c]
        omega
      rw [isqrtLoop, if_neg (not_not.mpr hd), hc]
      exact ⟨h.cut.le, h.cut.lt⟩
  | succ k ih =>
      have hd : s.d ≠ 0 := by
        intro hz
        have hpow := h.d
        rw [hz, Nat.pow_succ, Nat.mul_div_cancel _ (by decide)] at hpow
        exact absurd hpow.symm (Nat.pow_pos (by decide)).ne'
      obtain ⟨p', hp'⟩ := h.next
      rw [isqrtLoop, if_pos hd]
      exact ih hp'

theorem start_found (n : UInt32) : ∃ k, Found n.toNat k 0 (.start n) := by
  obtain ⟨k, hk, hd, hn, -⟩ := highestPower_spec (n := n) (d := (1 : UInt32) <<< 30) (j := 16) rfl
    n.toNat_lt
  refine ⟨k, ⟨Nat.dvd_zero _, Nat.zero_le _, ?_⟩, hk, hd, ?_, Nat.add_zero _⟩
  · rw [Nat.zero_add, ← Nat.pow_mul, Nat.mul_comm, Nat.pow_mul]
    exact hn
  · rw [Nat.zero_mul]
    rfl

/-- The rounds of the second loop. -/
inductive Reached (n : UInt32) : Round → Prop where
  | start : Reached n (.start n)
  | next {s : Round} (h : Reached n s) (hd : s.d ≠ 0) : Reached n s.next

theorem Reached.found (h : Reached n s) : ∃ k p, Found n.toNat k p s := by
  induction h with
  | start =>
      obtain ⟨k, hk⟩ := start_found n
      exact ⟨k, 0, hk⟩
  | next _ hd ih =>
      obtain ⟨k, p, hk⟩ := ih
      cases k with
      | zero => exact absurd (UInt32.toNat_inj.mp hk.d) hd
      | succ k =>
          obtain ⟨p', hp'⟩ := hk.next
          exact ⟨k, p', hp'⟩

/-- The result is the root, rounded down, and no number of any round wraps around. -/
theorem isqrt_root (n : UInt32) :
    ((isqrt n).toNat ^ 2 ≤ n.toNat ∧ n.toNat < ((isqrt n).toNat + 1) ^ 2) ∧
      ∀ s, Reached n s → Fits s := by
  obtain ⟨k, hk⟩ := start_found n
  refine ⟨hk.loop, ?_⟩
  intro s hs
  obtain ⟨k, p, hp⟩ := hs.found
  exact hp.fits

example : isqrt 4294967295 = 65535 := by decide +kernel

end Sunela.Imath
