import Mathlib.Algebra.Group.Int.Defs
import Sunela.Model.Clock

/-! # The clock of one-time codes

The time shown to the user and the time reported to the host are the same. The counter of
one-time codes adds the offset, which is in seconds, to the microseconds. -/

namespace Sunela.Time

/-- The sum of counter and offset stays within 64 bits, the offset is at most one period of
30 seconds, and it leads from the current period into the same period whether its unit is the
microsecond or the second. -/
structure SamePeriod (c : Clock) : Prop where
  atLeast : -30 ≤ c.timeOffset.toInt
  atMost : c.timeOffset.toInt ≤ 30
  nonneg : 0 ≤ (c.timeUs.toNat : ℤ) + c.timeOffset.toInt
  fits : (c.timeUs.toNat : ℤ) + c.timeOffset.toInt < 2 ^ 64
  later : 0 ≤ c.timeOffset.toInt →
    (c.timeUs.toNat : ℤ) % 30000000 / 1000000 + c.timeOffset.toInt < 30 ∨
      30000000 ≤ (c.timeUs.toNat : ℤ) % 30000000 + c.timeOffset.toInt
  earlier : c.timeOffset.toInt < 0 →
    (c.timeUs.toNat : ℤ) % 30000000 + c.timeOffset.toInt < 0 ∨
      0 ≤ (c.timeUs.toNat : ℤ) % 30000000 / 1000000 + c.timeOffset.toInt

/-! ## Machine integers -/

theorem toUInt64_toNat (x : Int64) : (x.toUInt64.toNat : ℤ) = x.toInt % 2 ^ 64 := by
  have hx : x.toInt = x.toUInt64.toBitVec.toInt := rfl
  have hn : x.toUInt64.toNat = x.toUInt64.toBitVec.toNat := rfl
  have hlt := x.toUInt64.toBitVec.isLt
  rw [hx, hn, BitVec.toInt_eq_toNat_cond]
  split <;> omega

theorem toInt64_toInt (x : UInt64) :
    x.toInt64.toInt = ((x.toNat : ℤ) + 2 ^ 63) % 2 ^ 64 - 2 ^ 63 := by
  have hx : x.toInt64.toInt = x.toBitVec.toInt := rfl
  have hn : x.toNat = x.toBitVec.toNat := rfl
  have hlt := x.toBitVec.isLt
  rw [hx, hn, BitVec.toInt_eq_toNat_cond]
  split <;> omega

theorem showTotp_toNat (c : Clock) :
    ((showTotp c).toNat : ℤ) =
      ((c.timeUs.toNat : ℤ) + c.timeOffset.toInt % 2 ^ 64) % 2 ^ 64 / 1000000 / 30 := by
  have h := toUInt64_toNat c.timeOffset
  simp only [showTotp, UInt64.toNat_div, UInt64.toNat_add, UInt64.reduceToNat]
  omega

theorem showTime_toInt (c : Clock) :
    (showTime c).toInt =
      ((c.timeUs.toNat : ℤ) / 1000000 + c.timeOffset.toInt % 2 ^ 64 + 2 ^ 63) % 2 ^ 64
        - 2 ^ 63 := by
  have h := toUInt64_toNat c.timeOffset
  simp only [showTime, toInt64_toInt, UInt64.toNat_div, UInt64.toNat_add, UInt64.reduceToNat]
  omega

/-! ## The counter -/

/-- The periods of the two sums are the same only if neither of them wraps around. -/
theorem small_of_period {us off x y : ℤ} (h0 : 0 ≤ us) (h1 : us < 2 ^ 64) (hlo : -2 ^ 63 ≤ off)
    (hhi : off < 2 ^ 63) (hx : x = (us + off % 2 ^ 64) % 2 ^ 64)
    (hy : y = (us / 1000000 + off % 2 ^ 64 + 2 ^ 63) % 2 ^ 64 - 2 ^ 63)
    (h : x / 1000000 / 30 = y / 30) :
    (-30 ≤ off ∧ off ≤ 30) ∧ 0 ≤ us + off ∧ us + off < 2 ^ 64 := by
  have hoff : -30 ≤ off ∧ off ≤ 30 := by omega
  exact ⟨hoff, by omega⟩

/-- Small offsets leave both sums as they are. -/
theorem sums_of_small {us off : ℤ} (hlo : -30 ≤ off) (hhi : off ≤ 30) (hn : 0 ≤ us + off)
    (hf : us + off < 2 ^ 64) :
    (us + off % 2 ^ 64) % 2 ^ 64 = us + off ∧
      (us / 1000000 + off % 2 ^ 64 + 2 ^ 63) % 2 ^ 64 - 2 ^ 63 = us / 1000000 + off := by
  constructor <;> omega

/-- The host and the user learn the same time, and the counter is that of this time exactly
if the unit of the offset does not matter. -/
theorem showTotp_iff (c : Clock) :
    (showTime c).toUInt64 = rdopGetTime c ∧
      (((showTotp c).toNat : ℤ) = (showTime c).toInt / 30 ↔ SamePeriod c) := by
  refine ⟨rfl, ?_⟩
  have hus : (c.timeUs.toNat : ℤ) < 2 ^ 64 := by exact_mod_cast c.timeUs.toNat_lt
  have h0 : 0 ≤ (c.timeUs.toNat : ℤ) := by omega
  have hlo := c.timeOffset.le_toInt
  have hhi := c.timeOffset.toInt_lt
  rw [showTotp_toNat, showTime_toInt]
  constructor
  · intro h
    obtain ⟨⟨hlow, hhigh⟩, hnonneg, hfits⟩ := small_of_period h0 hus hlo hhi rfl rfl h
    obtain ⟨hx, hy⟩ := sums_of_small hlow hhigh hnonneg hfits
    rw [hx, hy] at h
    refine ⟨hlow, hhigh, hnonneg, hfits, ?_, ?_⟩
    · intro hoff
      omega
    · intro hoff
      omega
  · rintro ⟨hlow, hhigh, hnonneg, hfits, hlater, hearlier⟩
    obtain ⟨hx, hy⟩ := sums_of_small hlow hhigh hnonneg hfits
    rw [hx, hy]
    by_cases hoff : 0 ≤ c.timeOffset.toInt
    · have hl := hlater hoff
      omega
    · have he := hearlier (by omega)
      omega

/-- After the time has been set, the codes are those of another time. -/
theorem showTotp_set :
    OffsetReached 1700000000 ∧
      ((showTotp ⟨5000000, 1700000000⟩).toNat : ℤ) ≠
        (showTime ⟨5000000, 1700000000⟩).toInt / 30 := by
  refine ⟨?_, by decide⟩
  exact @OffsetReached.accepted 0 1700000000 .start 0 1700000000 (by decide)

end Sunela.Time
