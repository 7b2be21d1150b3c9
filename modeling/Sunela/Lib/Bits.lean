import Mathlib.Data.Nat.Bitwise

/-! # Bits of numbers

The bits of a number of fixed width, the most significant first, and the stream of bits that
a list of such numbers is. -/

namespace Sunela.Bits

/-- The `w` low bits of a number. -/
def bits : ℕ → ℕ → List Bool
  | 0, _ => []
  | w + 1, n => n.testBit w :: bits w n

/-- The stream of bits of a list of numbers of width `w`. -/
def stream (w : ℕ) (l : List ℕ) : List Bool := l.flatMap (bits w)

@[simp] theorem bits_length (w n : ℕ) : (bits w n).length = w := by
  induction w with
  | zero => rfl
  | succ w ih => simp [bits, ih]

@[simp] theorem bits_zero (n : ℕ) : bits 0 n = [] := rfl

theorem bits_congr {w m n : ℕ} (h : ∀ i < w, m.testBit i = n.testBit i) :
    bits w m = bits w n := by
  induction w with
  | zero => rfl
  | succ w ih =>
      simp only [bits]
      rw [h w (by omega), ih fun i hi => h i (by omega)]

theorem testBit_of_bits {w m n : ℕ} (h : bits w m = bits w n) :
    ∀ i < w, m.testBit i = n.testBit i := by
  induction w with
  | zero => simp
  | succ w ih =>
      intro i hi
      obtain ⟨hw, hl⟩ := List.cons.inj h
      rcases Nat.lt_succ_iff_lt_or_eq.mp hi with hlt | rfl
      · exact ih hl i hlt
      · exact hw

/-- Numbers that fit the width are told apart by their bits. -/
theorem bits_inj {w m n : ℕ} (hm : m < 2 ^ w) (hn : n < 2 ^ w) (h : bits w m = bits w n) :
    m = n := by
  apply Nat.eq_of_testBit_eq
  intro i
  by_cases hi : i < w
  · exact testBit_of_bits h i hi
  · have hle : 2 ^ w ≤ 2 ^ i := Nat.pow_le_pow_right (by omega) (by omega)
    rw [Nat.testBit_lt_two_pow (by omega), Nat.testBit_lt_two_pow (by omega)]

/-- Bits above the width do not matter. -/
theorem bits_mod {w k : ℕ} (h : w ≤ k) (n : ℕ) : bits w (n % 2 ^ k) = bits w n := by
  apply bits_congr
  intro i hi
  simp [Nat.testBit_mod_two_pow, show i < k by omega]

theorem bits_of_zero (w : ℕ) : bits w 0 = List.replicate w false := by
  induction w with
  | zero => rfl
  | succ w ih => rw [bits, Nat.zero_testBit, ih, List.replicate_succ]

theorem bits_append (a b n : ℕ) : bits (a + b) n = bits a (n >>> b) ++ bits b n := by
  induction a with
  | zero => simp
  | succ a ih =>
      rw [show a + 1 + b = (a + b) + 1 by omega]
      simp only [bits, ih, Nat.testBit_shiftRight, List.cons_append]
      rw [Nat.add_comm b a]

/-- The first bits are those of the shifted number. -/
theorem bits_take {k w : ℕ} (h : k ≤ w) (n : ℕ) : (bits w n).take k = bits k (n >>> (w - k)) := by
  have hw : w = k + (w - k) := by omega
  have ha := bits_append k (w - k) n
  rw [← hw] at ha
  rw [ha, List.take_left' (bits_length _ _)]

theorem bits_drop {k w : ℕ} (h : k ≤ w) (n : ℕ) : (bits w n).drop k = bits (w - k) n := by
  have hw : w = k + (w - k) := by omega
  have ha := bits_append k (w - k) n
  rw [← hw] at ha
  rw [ha, List.drop_left' (bits_length _ _)]

/-- New bits appended to a number that has none of them yet. -/
theorem bits_shiftLeft_or {a b m k : ℕ} (h : a = 0 ∨ k < 2 ^ b) :
    bits (a + b) (m <<< b ||| k) = bits a m ++ bits b k := by
  rw [bits_append]
  congr 1
  · rcases h with rfl | h
    · rfl
    · apply bits_congr
      intro i _
      have hk : k.testBit (b + i) = false :=
        Nat.testBit_lt_two_pow (Nat.lt_of_lt_of_le h (Nat.pow_le_pow_right (by omega) (by omega)))
      simp [Nat.testBit_shiftRight, Nat.testBit_or, Nat.testBit_shiftLeft, hk]
  · apply bits_congr
    intro i hi
    simp [Nat.testBit_or, Nat.testBit_shiftLeft, show ¬ b ≤ i by omega]

/-! ## Streams -/

@[simp] theorem stream_nil (w : ℕ) : stream w [] = [] := rfl

@[simp] theorem stream_cons (w n : ℕ) (l : List ℕ) :
    stream w (n :: l) = bits w n ++ stream w l := rfl

@[simp] theorem stream_append (w : ℕ) (l m : List ℕ) :
    stream w (l ++ m) = stream w l ++ stream w m := List.flatMap_append

@[simp] theorem stream_length (w : ℕ) (l : List ℕ) : (stream w l).length = w * l.length := by
  induction l with
  | nil => rfl
  | cons n l ih =>
      rw [stream_cons, List.length_append, bits_length, ih, List.length_cons, Nat.mul_succ,
        Nat.add_comm]

/-- A stream determines the numbers in it. -/
theorem stream_inj {w : ℕ} {l m : List ℕ} (hl : ∀ n ∈ l, n < 2 ^ w) (hm : ∀ n ∈ m, n < 2 ^ w)
    (hlen : l.length = m.length) (h : stream w l = stream w m) : l = m := by
  induction l generalizing m with
  | nil => exact (List.length_eq_zero_iff.mp hlen.symm).symm
  | cons n l ih =>
      cases m with
      | nil => simp at hlen
      | cons k m =>
          simp only [stream_cons] at h
          obtain ⟨hb, hs⟩ := List.append_inj h (by simp)
          rw [bits_inj (hl n (by simp)) (hm k (by simp)) hb,
            ih (fun x hx => hl x (by simp [hx])) (fun x hx => hm x (by simp [hx]))
              (by simpa using hlen) hs]

end Sunela.Bits
