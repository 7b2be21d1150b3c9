import Mathlib.Algebra.BigOperators.Ring.Finset
import Mathlib.Data.List.Induction
import Mathlib.Data.Nat.Digits.Defs
import Mathlib.Data.ZMod.Basic

/-! # Numbers in limbs

Carrying, and multiplication modulo a number to which a power of the base is congruent to
something small. Limbs may be larger than digits. -/

namespace Sunela.Limbs

variable {b : ℕ}

/-! ## Carrying -/

/-- The digits, and what is carried out of them. -/
def carry (b u : ℕ) : List ℕ → List ℕ × ℕ
  | [] => ([], u)
  | h :: hs =>
      let rest := carry b ((u + h) / b) hs
      ((u + h) % b :: rest.1, rest.2)

@[simp] theorem carry_length (u : ℕ) (hs : List ℕ) : (carry b u hs).1.length = hs.length := by
  induction hs generalizing u with
  | nil => rfl
  | cons h hs ih => rw [carry, List.length_cons, ih, List.length_cons]

theorem carry_lt (hb : 0 < b) (u : ℕ) (hs : List ℕ) : ∀ d ∈ (carry b u hs).1, d < b := by
  induction hs generalizing u with
  | nil => exact fun d hd => absurd hd List.not_mem_nil
  | cons h hs ih =>
      intro d hd
      rcases List.mem_cons.mp hd with rfl | hd
      · exact Nat.mod_lt _ hb
      · exact ih _ d hd

/-- The value stays the same. -/
theorem carry_value (u : ℕ) (hs : List ℕ) :
    Nat.ofDigits b (carry b u hs).1 + b ^ hs.length * (carry b u hs).2 =
      u + Nat.ofDigits b hs := by
  induction hs generalizing u with
  | nil => simp [carry, Nat.ofDigits]
  | cons h hs ih =>
      have hrest := ih ((u + h) / b)
      have hdiv := Nat.mod_add_div (u + h) b
      simp only [carry, Nat.ofDigits_cons, List.length_cons, pow_succ]
      calc (u + h) % b + b * Nat.ofDigits b (carry b ((u + h) / b) hs).1 +
            b ^ hs.length * b * (carry b ((u + h) / b) hs).2
          = (u + h) % b + b * (Nat.ofDigits b (carry b ((u + h) / b) hs).1 +
              b ^ hs.length * (carry b ((u + h) / b) hs).2) := by ring
        _ = (u + h) % b + b * ((u + h) / b) + b * Nat.ofDigits b hs := by rw [hrest]; ring
        _ = u + (h + b * Nat.ofDigits b hs) := by omega

theorem carry_digits (hb : 1 < b) (u : ℕ) (hs : List ℕ) :
    Nat.ofDigits b (carry b u hs).1 = (u + Nat.ofDigits b hs) % b ^ hs.length := by
  have hvalue := @carry_value b u hs
  have hlt := Nat.ofDigits_lt_base_pow_length hb (carry_lt (Nat.lt_trans Nat.one_pos hb) u hs)
  rw [carry_length] at hlt
  rw [← hvalue, Nat.add_mul_mod_self_left, Nat.mod_eq_of_lt hlt]

/-! ## Values as sums -/

theorem ofDigits_eq_sum (l : List ℕ) :
    Nat.ofDigits b l = ∑ i ∈ Finset.range l.length, l.getD i 0 * b ^ i := by
  induction l with
  | nil => rfl
  | cons d l ih =>
      rw [Nat.ofDigits_cons, ih, List.length_cons, Finset.sum_range_succ', Finset.mul_sum]
      simp only [List.getD_cons_succ, List.getD_cons_zero, pow_zero, mul_one, pow_succ]
      rw [add_comm]
      congr 1
      exact Finset.sum_congr rfl fun i _ => by ring

/-- Masks of digits are those of a number. -/
theorem and_digits {k x y : ℕ} (hx : x < 2 ^ k) (hy : y < 2 ^ k) (m n : ℕ) :
    (x + 2 ^ k * m) &&& (y + 2 ^ k * n) = (x &&& y) + 2 ^ k * (m &&& n) := by
  have hxy : x &&& y < 2 ^ k := Nat.and_lt_two_pow x hy
  apply Nat.eq_of_testBit_eq
  intro i
  rw [Nat.testBit_and, Nat.add_comm x, Nat.add_comm y, Nat.add_comm (x &&& y),
    Nat.testBit_two_pow_mul_add _ hx, Nat.testBit_two_pow_mul_add _ hy,
    Nat.testBit_two_pow_mul_add _ hxy]
  split <;> rw [Nat.testBit_and]

theorem ofDigits_and {k : ℕ} {l l' : List ℕ} (hl : ∀ d ∈ l, d < 2 ^ k) (hl' : ∀ d ∈ l', d < 2 ^ k)
    (h : l.length = l'.length) :
    Nat.ofDigits (2 ^ k) (List.zipWith (· &&& ·) l l') =
      Nat.ofDigits (2 ^ k) l &&& Nat.ofDigits (2 ^ k) l' := by
  induction l generalizing l' with
  | nil => rw [List.eq_nil_of_length_eq_zero h.symm, List.zipWith_nil_left, Nat.ofDigits_nil,
      Nat.and_self]
  | cons d l ih =>
      cases l' with
      | nil => cases h
      | cons d' l' =>
          have hrest := ih (fun d hd => hl d (List.mem_cons_of_mem _ hd))
            (fun d hd => hl' d (List.mem_cons_of_mem _ hd)) (Nat.succ.inj h)
          rw [List.zipWith_cons_cons, Nat.ofDigits_cons, Nat.ofDigits_cons, Nat.ofDigits_cons,
            hrest, and_digits (hl d List.mem_cons_self) (hl' d' List.mem_cons_self)]

/-- The value of a polynomial, from its highest coefficient on. -/
theorem foldl_eq_ofDigits (r : ℕ) (coefficients : List ℕ) :
    coefficients.foldl (fun a c => (a + c) * r) 0 = Nat.ofDigits r (0 :: coefficients.reverse) := by
  induction coefficients using List.reverseRecOn with
  | nil => simp [Nat.ofDigits]
  | append_singleton coefficients c ih =>
      rw [List.foldl_append, List.foldl_cons, List.foldl_nil, ih, List.reverse_append]
      simp only [List.reverse_singleton, List.singleton_append, Nat.ofDigits_cons]
      ring

theorem foldl_modEq {p r a b : ℕ} (h : a ≡ b [MOD p]) (coefficients : List ℕ) :
    coefficients.foldl (fun a c => (a + c) * r) a ≡
      coefficients.foldl (fun a c => (a + c) * r) b [MOD p] := by
  induction coefficients generalizing a b with
  | nil => exact h
  | cons c coefficients ih => exact ih ((h.add_right c).mul_right r)

/-! ## Products -/

section Product

variable {R : Type*} [CommSemiring R]

/-- Position `i` of a product in which what is beyond the last position comes back, times `c`. -/
def foldedProduct (n : ℕ) (c : R) (h r : ℕ → R) (i : ℕ) : R :=
  ∑ j ∈ Finset.range n, h j * if j ≤ i then r (i - j) else c * r (i + n - j)

/-- The share of one position of a factor. -/
theorem foldedProduct_row {n j : ℕ} {x c : R} (hx : x ^ n = c) (hj : j < n) (r : ℕ → R) :
    ∑ i ∈ Finset.range n, (if j ≤ i then r (i - j) else c * r (i + n - j)) * x ^ i =
      x ^ j * ∑ k ∈ Finset.range n, r k * x ^ k := by
  obtain ⟨m, rfl⟩ := Nat.exists_eq_add_of_le hj.le
  have hlow : ∑ i ∈ Finset.range j,
      (if j ≤ i then r (i - j) else c * r (i + (j + m) - j)) * x ^ i =
        x ^ j * ∑ i ∈ Finset.range j, r (m + i) * x ^ (m + i) := by
    rw [Finset.mul_sum]
    refine Finset.sum_congr rfl fun i hi => ?_
    have hij := Finset.mem_range.mp hi
    rw [if_neg (by omega), show i + (j + m) - j = m + i by omega, ← hx]
    ring
  have hhigh : ∑ i ∈ Finset.range m,
      (if j ≤ j + i then r (j + i - j) else c * r (j + i + (j + m) - j)) * x ^ (j + i) =
        x ^ j * ∑ i ∈ Finset.range m, r i * x ^ i := by
    rw [Finset.mul_sum]
    refine Finset.sum_congr rfl fun i _ => ?_
    rw [if_pos (Nat.le_add_right j i), Nat.add_sub_cancel_left]
    ring
  rw [Finset.sum_range_add, hlow, hhigh, ← mul_add, add_comm (∑ i ∈ Finset.range j, _),
    ← Finset.sum_range_add, add_comm m j]

/-- Where `x ^ n` is `c`, this is the product. -/
theorem foldedProduct_value {n : ℕ} {x c : R} (hx : x ^ n = c) (h r : ℕ → R) :
    ∑ i ∈ Finset.range n, foldedProduct n c h r i * x ^ i =
      (∑ j ∈ Finset.range n, h j * x ^ j) * ∑ k ∈ Finset.range n, r k * x ^ k := by
  simp only [foldedProduct, Finset.sum_mul]
  rw [Finset.sum_comm]
  refine Finset.sum_congr rfl fun j hj => ?_
  simp only [mul_assoc (h j)]
  rw [← Finset.mul_sum, foldedProduct_row hx (Finset.mem_range.mp hj)]

end Product

/-- The product of two numbers modulo `p`, from their limbs. -/
theorem foldedProduct_modEq {n c p : ℕ} (hb : b ^ n ≡ c [MOD p]) {h r : List ℕ}
    (hh : h.length = n) (hr : r.length = n) :
    Nat.ofDigits b ((List.range n).map (foldedProduct n c (h.getD · 0) (r.getD · 0))) ≡
      Nat.ofDigits b h * Nat.ofDigits b r [MOD p] := by
  have hpow : ((b : ZMod p)) ^ n = c := by
    have hcast := (ZMod.natCast_eq_natCast_iff _ _ _).mpr hb
    push_cast at hcast
    exact hcast
  apply (ZMod.natCast_eq_natCast_iff _ _ _).mp
  have hvalue := foldedProduct_value hpow (fun j => ((h.getD j 0 : ℕ) : ZMod p))
    (fun k => ((r.getD k 0 : ℕ) : ZMod p))
  rw [ofDigits_eq_sum, ofDigits_eq_sum, ofDigits_eq_sum, hh, hr, List.length_map,
    List.length_range]
  push_cast
  rw [← hvalue]
  refine Finset.sum_congr rfl fun i hi => ?_
  rw [List.getD_eq_getElem?_getD, List.getElem?_map,
    List.getElem?_range (Finset.mem_range.mp hi), Option.map_some, Option.getD_some]
  congr 1
  simp only [foldedProduct]
  push_cast
  rfl

end Sunela.Limbs
