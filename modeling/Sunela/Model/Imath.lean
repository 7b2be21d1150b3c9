import Mathlib.Data.Nat.Notation

/-! # Integer math functions -/

namespace Sunela.Imath

/-- A shift by two bits makes a number smaller. -/
theorem toNat_shiftRight_two (d : UInt32) : (d >>> 2).toNat = d.toNat / 4 := by
  rw [UInt32.toNat_shiftRight, Nat.shiftRight_eq_div_pow]
  rfl

theorem shiftRight_lt {d : UInt32} (h : 0 < d.toNat) : (d >>> 2).toNat < d.toNat := by
  rw [toNat_shiftRight_two]
  omega

/-! ## isqrt -/

/-- The first loop, which ends with the highest power of four that is not above `n`. -/
def highestPower (n d : UInt32) : UInt32 :=
  if d > n then highestPower n (d >>> 2) else d
termination_by d.toNat
decreasing_by
  rename_i h
  exact shiftRight_lt (Nat.zero_lt_of_lt (UInt32.lt_iff_toNat_lt.mp h))

/-- The variables of the second loop. -/
structure Round where
  x : UInt32
  c : UInt32
  d : UInt32
  deriving DecidableEq

def Round.next (s : Round) : Round :=
  if s.x ≥ s.c + s.d then ⟨s.x - (s.c + s.d), (s.c >>> 1) + s.d, s.d >>> 2⟩
  else ⟨s.x, s.c >>> 1, s.d >>> 2⟩

theorem Round.next_d (s : Round) : s.next.d = s.d >>> 2 := by
  rw [Round.next]
  split <;> rfl

def isqrtLoop (s : Round) : UInt32 :=
  if s.d ≠ 0 then isqrtLoop s.next else s.c
termination_by s.d.toNat
decreasing_by
  rw [Round.next_d]
  apply shiftRight_lt
  rename_i h
  exact Nat.pos_of_ne_zero fun h0 => h (UInt32.toNat_inj.mp h0)

def Round.start (n : UInt32) : Round := ⟨n, 0, highestPower n ((1 : UInt32) <<< 30)⟩

def isqrt (n : UInt32) : UInt32 := isqrtLoop (.start n)

end Sunela.Imath
