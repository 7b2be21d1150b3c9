import Mathlib.Order.Bounds.Basic
import Sunela.Lib.Bits

/-! # Padding of messages

Messages as FIPS 180 pads them to blocks of 512 bits, given as their bits. -/

namespace Sunela.Padding

open Bits

/-- A one, then the fewest zeros that will do, then the length as a number of 64 bits. -/
structure Padded (m p : List Bool) (zeros : ℕ) : Prop where
  bits : p = m ++ true :: List.replicate zeros false ++ bits 64 m.length
  least : IsLeast {k | (m.length + 1 + k) % 512 = 448} zeros

variable {m p : List Bool} {zeros : ℕ}

theorem Padded.of_lt (hp : p = m ++ true :: List.replicate zeros false ++ Bits.bits 64 m.length)
    (hmod : (m.length + 1 + zeros) % 512 = 448) (hlt : zeros < 512) : Padded m p zeros where
  bits := hp
  least := by
    refine ⟨hmod, ?_⟩
    intro k hk
    have hk : (m.length + 1 + k) % 512 = 448 := hk
    omega

/-- A padded message has the length of a number of blocks. -/
theorem Padded.length (h : Padded m p zeros) : p.length % 512 = 0 := by
  have hmod : (m.length + 1 + zeros) % 512 = 448 := h.least.1
  rw [h.bits]
  simp only [List.length_append, List.length_cons, List.length_replicate, bits_length]
  omega

end Sunela.Padding
