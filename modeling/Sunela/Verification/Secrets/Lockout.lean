import Mathlib.Algebra.Group.Nat.Defs
import Sunela.Model.Pin

/-! # The wait after wrong PINs

The deadline is compared with a clock of 32 bits, so a wait is kept only while the clock does
not wrap. The ninth wait is longer than the longest that is meant. -/

namespace Sunela.Pin

/-- What was entered. -/
inductive Entered where
  | wrong
  | right
  deriving DecidableEq

/-- The clock, when some milliseconds have passed since it was zero for the first time. -/
def clock (t : ℕ) : UInt32 := UInt32.ofNat t

/-- The failed attempts after PINs that were entered at some times, the last one first. -/
def attemptsAfter : List (ℕ × Entered) → Attempts
  | [] => ⟨0, 0⟩
  | (t, .wrong) :: l => pinFail (clock t) (attemptsAfter l)
  | (_, .right) :: _ => pinSuccess

/-- The number of failures in a row. -/
def failures : List (ℕ × Entered) → ℕ
  | (_, .wrong) :: l => failures l + 1
  | _ => 0

/-- The wait that starts with the `k`-th failure, in milliseconds. -/
def waitMs (k : ℕ) : ℕ := (pinWaitS (UInt32.ofNat k)).toNat * 1000

def maxWaitMs : ℕ := pinWaitMaxS.toNat * 1000

/-- The times do not decrease, and none is after `u`. -/
def Ordered : ℕ → List (ℕ × Entered) → Prop
  | _, [] => True
  | u, (t, _) :: l => t ≤ u ∧ Ordered t l

/-- A failure at `t` starts the wait that it should, seen until `u`. -/
structure Waits (t u : ℕ) (l : List (ℕ × Entered)) : Prop where
  cooldown : ∀ T, t ≤ T → T ≤ u →
    (pinCooldownMs (clock T) (attemptsAfter ((t, .wrong) :: l)) ≠ 0 ↔
      T < t + waitMs (failures l + 1))
  limit : waitMs (failures l + 1) ≤ maxWaitMs
  monotone : waitMs (failures l) ≤ waitMs (failures l + 1)
  lasts : pinCooldownMs (clock t) (attemptsAfter l) ≤
    pinCooldownMs (clock t) (attemptsAfter ((t, .wrong) :: l))

/-- Every failure from the third in a row on starts the wait that it should, until the next PIN
is entered, or until `u`. -/
def OnSchedule : ℕ → List (ℕ × Entered) → Prop
  | _, [] => True
  | u, (t, .wrong) :: l => (pinFreeAttempts.toNat ≤ failures l + 1 → Waits t u l) ∧ OnSchedule t l
  | _, (t, .right) :: l => OnSchedule t l

/-- No nine failures in a row, and from each failure that starts a wait until its end and the
next PIN, the clock does not wrap. -/
def Unwrapped : ℕ → List (ℕ × Entered) → Prop
  | _, [] => True
  | u, (t, .wrong) :: l =>
      (pinFreeAttempts.toNat ≤ failures l + 1 → failures l + 1 ≠ 9 ∧
        t % 2 ^ 32 + waitMs (failures l + 1) < 2 ^ 32 ∧ u / 2 ^ 32 = t / 2 ^ 32) ∧ Unwrapped t l
  | _, (t, .right) :: l => Unwrapped t l

instance decidableOrdered : ∀ u l, Decidable (Ordered u l)
  | _, [] => isTrue trivial
  | _, (t, _) :: l =>
      have := decidableOrdered t l
      inferInstanceAs (Decidable (_ ∧ _))

instance decidableUnwrapped : ∀ u l, Decidable (Unwrapped u l)
  | _, [] => isTrue trivial
  | _, (t, .wrong) :: l =>
      have := decidableUnwrapped t l
      inferInstanceAs (Decidable ((_ → _ ≠ _ ∧ _ < _ ∧ _ = _) ∧ _))
  | _, (t, .right) :: l => decidableUnwrapped t l

/-! ## Waits -/

theorem waitMs_values : waitMs 2 = 0 ∧ waitMs 3 = 60000 ∧ waitMs 4 = 120000 ∧ waitMs 5 = 240000 ∧
    waitMs 6 = 480000 ∧ waitMs 7 = 960000 ∧ waitMs 8 = 1920000 ∧ waitMs 9 = 3840000 := by
  decide

theorem maxWaitMs_eq : maxWaitMs = 3600000 := by decide

/-- Up to the eighth failure the waits are as they are meant to be. -/
theorem waitMs_upTo {k : ℕ} (h3 : 3 ≤ k) (h8 : k ≤ 8) :
    0 < waitMs k ∧ waitMs k ≤ maxWaitMs ∧ waitMs (k - 1) ≤ waitMs k := by
  obtain ⟨w2, w3, w4, w5, w6, w7, w8, -⟩ := waitMs_values
  have hm := maxWaitMs_eq
  have hk : k = 3 ∨ k = 4 ∨ k = 5 ∨ k = 6 ∨ k = 7 ∨ k = 8 := by omega
  rcases hk with rfl | rfl | rfl | rfl | rfl | rfl <;> simp only [Nat.reduceSub] <;> omega

theorem clock_toNat (t : ℕ) : (clock t).toNat = t % 2 ^ 32 := UInt32.toNat_ofNat'

theorem attemptsAfter_attempts (l : List (ℕ × Entered)) :
    (attemptsAfter l).attempts = UInt32.ofNat (failures l) := by
  induction l with
  | nil => rfl
  | cons a l ih =>
      obtain ⟨t, e⟩ := a
      cases e with
      | right => rfl
      | wrong =>
          show (attemptsAfter l).attempts + 1 = _
          rw [ih]
          simp [failures, UInt32.ofNat_add]

/-- Before the third failure there is no wait. -/
theorem attemptsAfter_free (l : List (ℕ × Entered)) (h : failures l < 3) :
    (attemptsAfter l).cooldown = 0 := by
  induction l with
  | nil => rfl
  | cons a l ih =>
      obtain ⟨t, e⟩ := a
      cases e with
      | right => rfl
      | wrong =>
          have hl : failures l < 2 := by
            simp only [failures] at h
            omega
          have hfree : ¬ pinFreeAttempts ≤ (attemptsAfter l).attempts + 1 := by
            have ha := attemptsAfter_attempts l
            have hk : failures l = 0 ∨ failures l = 1 := by omega
            rcases hk with hk | hk <;> rw [ha, hk] <;> decide
          have hc : (attemptsAfter ((t, .wrong) :: l)).cooldown = (attemptsAfter l).cooldown :=
            if_neg hfree
          rw [hc]
          exact ih (by omega)

/-- From the third failure on there is a deadline. -/
theorem attemptsAfter_wrong {t : ℕ} {l : List (ℕ × Entered)} (h3 : 3 ≤ failures l + 1)
    (h9 : failures l + 1 ≤ 9) :
    (attemptsAfter ((t, .wrong) :: l)).cooldown.toNat =
      (t % 2 ^ 32 + waitMs (failures l + 1)) % 2 ^ 32 := by
  have ha : (attemptsAfter l).attempts + 1 = UInt32.ofNat (failures l + 1) := by
    rw [attemptsAfter_attempts, UInt32.ofNat_add]
    rfl
  have hk : failures l + 1 = 3 ∨ failures l + 1 = 4 ∨ failures l + 1 = 5 ∨ failures l + 1 = 6 ∨
      failures l + 1 = 7 ∨ failures l + 1 = 8 ∨ failures l + 1 = 9 := by omega
  have hfree : pinFreeAttempts ≤ (attemptsAfter l).attempts + 1 ∧
      (pinWaitS ((attemptsAfter l).attempts + 1) * 1000).toNat = waitMs (failures l + 1) := by
    rw [ha]
    rcases hk with hk | hk | hk | hk | hk | hk | hk <;> rw [hk] <;> decide
  have hc : (attemptsAfter ((t, .wrong) :: l)).cooldown =
      clock t + pinWaitS ((attemptsAfter l).attempts + 1) * 1000 := if_pos hfree.1
  rw [hc, UInt32.toNat_add, clock_toNat, hfree.2]

theorem pinCooldownMs_toNat (now : UInt32) (a : Attempts) :
    (pinCooldownMs now a).toNat = a.cooldown.toNat - now.toNat := by
  unfold pinCooldownMs
  split
  · next h =>
      have := UInt32.le_iff_toNat_le.mp h
      show 0 = _
      omega
  · next h =>
      have hle : now ≤ a.cooldown := by
        rw [UInt32.le_iff_toNat_le] at h ⊢
        omega
      exact UInt32.toNat_sub_of_le _ _ hle

theorem pinCooldownMs_ne_zero (now : UInt32) (a : Attempts) :
    pinCooldownMs now a ≠ 0 ↔ now.toNat < a.cooldown.toNat := by
  have h := pinCooldownMs_toNat now a
  rw [ne_eq, ← UInt32.toNat_inj, h]
  show ¬ _ = 0 ↔ _
  omega

/-! ## The schedule -/

/-- The number of failures never exceeds eight. -/
theorem failures_le {u : ℕ} {l : List (ℕ × Entered)} (h : Unwrapped u l) : failures l ≤ 8 := by
  induction l generalizing u with
  | nil => exact Nat.zero_le _
  | cons a l ih =>
      obtain ⟨t, e⟩ := a
      cases e with
      | right => exact Nat.zero_le _
      | wrong =>
          obtain ⟨hw, hl⟩ := h
          have hle := ih hl
          by_cases hk : 3 ≤ failures l + 1
          · have hne := (hw hk).1
            show failures l + 1 ≤ 8
            omega
          · show failures l + 1 ≤ 8
            omega

/-- The deadline before a failure is not after that of the failure. -/
theorem cooldown_le {t : ℕ} {l : List (ℕ × Entered)} (h : Unwrapped t l) (ho : Ordered t l)
    (h3 : 3 ≤ failures l + 1) (h8 : failures l + 1 ≤ 8) :
    (attemptsAfter l).cooldown.toNat ≤ t % 2 ^ 32 + waitMs (failures l + 1) := by
  by_cases hl : failures l < 3
  · rw [attemptsAfter_free l hl]
    exact Nat.zero_le _
  · cases l with
    | nil => simp [failures] at hl
    | cons a l =>
        obtain ⟨t', e⟩ := a
        cases e with
        | right => simp [failures] at hl
        | wrong =>
            have hk : failures ((t', .wrong) :: l) = failures l + 1 := rfl
            rw [hk] at hl h8 ⊢
            obtain ⟨hw, -⟩ := h
            obtain ⟨-, hlt, hperiod⟩ := hw (by show 3 ≤ _; omega)
            have hcool := @attemptsAfter_wrong t' l (by omega) (by omega)
            have hmono := (@waitMs_upTo (failures l + 1 + 1) (by omega) h8).2.2
            have hle : t' ≤ t := ho.1
            rw [hcool, Nat.mod_eq_of_lt hlt]
            simp only [Nat.add_sub_cancel] at hmono
            omega

/-- The schedule is kept exactly if nine failures in a row do not happen, and the clock does not
wrap while a wait is on or before the next PIN is entered. -/
theorem onSchedule_iff {u : ℕ} {l : List (ℕ × Entered)} (ho : Ordered u l) :
    OnSchedule u l ↔ Unwrapped u l := by
  induction l generalizing u with
  | nil => exact Iff.rfl
  | cons a l ih =>
      obtain ⟨t, e⟩ := a
      obtain ⟨htu, ho⟩ := ho
      cases e with
      | right => exact ih ho
      | wrong =>
          simp only [OnSchedule, Unwrapped]
          rw [ih ho]
          refine and_congr_left fun hun => forall_congr' fun h3 => ?_
          have hle := failures_le hun
          have h3' : 3 ≤ failures l + 1 := h3
          have hcool := @attemptsAfter_wrong t l h3' (by omega)
          have hm := maxWaitMs_eq
          constructor
          · intro hw
            have hne : failures l + 1 ≠ 9 := by
              intro he
              have hlimit := hw.limit
              rw [he] at hlimit
              have := waitMs_values
              omega
            have hwait := @waitMs_upTo (failures l + 1) h3' (by omega)
            have hdeadline : t % 2 ^ 32 + waitMs (failures l + 1) < 2 ^ 32 := by
              have hc := (hw.cooldown t (Nat.le_refl t) htu).mpr (by omega)
              rw [pinCooldownMs_ne_zero, clock_toNat, hcool] at hc
              omega
            refine ⟨hne, hdeadline, ?_⟩
            by_contra hperiod
            have hc := (hw.cooldown ((t / 2 ^ 32 + 1) * 2 ^ 32) (by omega) (by omega)).mp
            rw [pinCooldownMs_ne_zero, clock_toNat, hcool, Nat.mod_eq_of_lt hdeadline] at hc
            have := hc (by omega)
            omega
          · rintro ⟨hne, hdeadline, hperiod⟩
            have hwait := @waitMs_upTo (failures l + 1) h3' (by omega)
            refine ⟨fun T htT hTu => ?_, hwait.2.1, hwait.2.2, ?_⟩
            · rw [pinCooldownMs_ne_zero, clock_toNat, hcool, Nat.mod_eq_of_lt hdeadline]
              omega
            · have hbefore := cooldown_le hun ho h3' (by omega)
              rw [UInt32.le_iff_toNat_le, pinCooldownMs_toNat, pinCooldownMs_toNat, clock_toNat,
                hcool, Nat.mod_eq_of_lt hdeadline]
              omega

/-- Three failures within the free wait of four seconds. -/
theorem onSchedule_iff_three : OnSchedule 65000 [(4000, .wrong), (2000, .wrong), (1000, .wrong)] :=
  (onSchedule_iff (by decide)).mpr (by decide)

/-- Nine failures, one a second. -/
def nineFailures : List (ℕ × Entered) := (List.range 9).map fun i => (9000 - 1000 * i, .wrong)

/-- Three failures at the end of the range of the clock. -/
def lateFailures : List (ℕ × Entered) := List.replicate 3 (4294967295, .wrong)

/-- The wait after nine failures is longer than the longest that is meant. There is no wait
after three of them before the clock wraps. -/
theorem onSchedule_iff_fails :
    Ordered 9000 nineFailures ∧ ¬ OnSchedule 9000 nineFailures ∧
    Ordered 4294967295 lateFailures ∧ ¬ OnSchedule 4294967295 lateFailures ∧
    pinCooldownMs (clock 4294967295) (attemptsAfter lateFailures) = 0 := by
  have hnine : ¬ waitMs 9 ≤ maxWaitMs := by decide
  have hlate : pinCooldownMs (clock 4294967295) (attemptsAfter lateFailures) = 0 := by
    decide +kernel
  refine ⟨by decide, fun h => hnine (h.1 (by decide)).limit, by decide +kernel, fun h => ?_, hlate⟩
  have hc := ((h.1 (by decide)).cooldown 4294967295 (Nat.le_refl _) (Nat.le_refl _)).mpr
  exact hc (Nat.lt_add_of_pos_right (by decide)) hlate

end Sunela.Pin
