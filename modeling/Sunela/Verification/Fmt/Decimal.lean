import Mathlib.Data.List.TakeWhile
import Mathlib.Data.Nat.Digits.Lemmas
import Sunela.Model.Fmt

/-! # Decimal numbers

A number that has been printed is read back. -/

namespace Sunela.Fmt

variable {v : ℕ}

/-! ## Digits -/

theorem digit_fin : ∀ d : Fin 10, (digit d).toNat = 48 + d.val := by decide

theorem digit_toNat {d : ℕ} (h : d < 10) : (digit d).toNat = 48 + d := digit_fin ⟨d, h⟩

theorem isDigit_digit {d : ℕ} (h : d < 10) : isDigit (digit d) = true := by
  have hd : ∀ i : Fin 10, isDigit (digit i) = true := by decide
  exact hd ⟨d, h⟩

theorem digitsOf_lt {d : ℕ} (h : d ∈ digitsOf v 10) : d < 10 := by
  rw [digitsOf] at h
  split at h
  · obtain rfl := List.mem_singleton.mp h
    decide
  · exact Nat.digits_lt_base (by decide) (List.mem_reverse.mp h)

theorem digitsOf_ne_nil : digitsOf v 10 ≠ [] := by
  rw [digitsOf]
  split
  · exact List.cons_ne_nil _ _
  · next hv => simpa [Nat.digits_eq_nil_iff_eq_zero] using hv

theorem digitsOf_length {k : ℕ} (hk : 0 < k) (h : v < 10 ^ k) : (digitsOf v 10).length ≤ k := by
  rw [digitsOf]
  split
  · exact hk
  · rw [List.length_reverse]
    exact (Nat.digits_length_le_iff (by decide) v).mpr h

theorem valueOf_map {l : List ℕ} (h : ∀ d ∈ l, d < 10) (n : ℕ) :
    valueOf n (l.map digit) = l.foldl (fun n d => n * 10 + d) n := by
  induction l generalizing n with
  | nil => rfl
  | cons d l ih =>
      rw [List.map_cons, valueOf, List.foldl_cons, List.foldl_cons, digit_toNat (h d (by simp)),
        Nat.add_sub_cancel_left]
      exact ih (fun e he => h e (by simp [he])) _

theorem valueOf_digitsOf (v : ℕ) : valueOf 0 ((digitsOf v 10).map digit) = v := by
  rw [valueOf_map fun d hd => digitsOf_lt hd]
  by_cases hv : v = 0
  · rw [digitsOf, if_pos hv, hv]
    rfl
  · rw [digitsOf, if_neg hv, List.foldl_reverse]
    have hof := Nat.ofDigits_digits 10 v
    rw [Nat.ofDigits_eq_foldr] at hof
    calc _ = (Nat.digits 10 v).foldr (fun d n => d + 10 * n) 0 := by
          congr 1
          funext d n
          omega
      _ = v := hof

/-! ## Texts -/

theorem printNumber_eq (v : ℕ) : printNumber v 0 10 = (digitsOf v 10).map digit := by
  rw [printNumber, Nat.zero_sub, List.replicate_zero, List.nil_append]

theorem isDigit_printNumber : ∀ ch ∈ printNumber v 0 10, isDigit ch = true := by
  intro ch hch
  rw [printNumber_eq] at hch
  obtain ⟨d, hd, rfl⟩ := List.mem_map.mp hch
  exact isDigit_digit (digitsOf_lt hd)

theorem printNumber_nulFree : 0 ∉ printNumber v 0 10 := fun h =>
  absurd (isDigit_printNumber 0 h) (by decide)

theorem printNumber_ne_nil : printNumber v 0 10 ≠ [] := by
  rw [printNumber_eq]
  exact fun h => digitsOf_ne_nil (List.map_eq_nil_iff.mp h)

theorem printNumber_length {k : ℕ} (hk : 0 < k) (h : v < 10 ^ k) :
    (printNumber v 0 10).length ≤ k := by
  rw [printNumber_eq, List.length_map]
  exact digitsOf_length hk h

/-- Digits are neither blanks nor signs. -/
theorem sign_of_digits {s : Bytes} (h : ∀ ch ∈ s, isDigit ch = true) :
    sign (s.dropWhile isSpace) = (false, s) := by
  cases s with
  | nil => rfl
  | cons ch s =>
      have hch := h ch (by simp)
      have hspace : isSpace ch = false := by
        simp only [isDigit, isSpace, Bool.and_eq_true, decide_eq_true_eq, Bool.or_eq_false_iff,
          Bool.and_eq_false_iff, decide_eq_false_iff_not, UInt8.le_iff_toNat_le] at hch ⊢
        refine ⟨fun he => ?_, .inr fun hle => ?_⟩
        · rw [he] at hch
          exact absurd hch.1 (by decide)
        · exact absurd (Nat.le_trans hch.1 hle) (by decide)
      have hminus : ch ≠ 45 := by
        rintro rfl
        exact absurd hch (by decide)
      have hplus : ch ≠ 43 := by
        rintro rfl
        exact absurd hch (by decide)
      rw [List.dropWhile_cons_of_neg (by simp [hspace]), sign, if_neg hminus, if_neg hplus]

/-- A number of 64 bits that has been printed is read back. -/
theorem strtoull_printNumber {s : CString} (h : v < 2 ^ 64) (hs : s.bytes = printNumber v 0 10) :
    strtoull s = (UInt64.ofNat v, []) := by
  have hdigits := @isDigit_printNumber v
  have htake : (printNumber v 0 10).takeWhile isDigit = printNumber v 0 10 :=
    List.takeWhile_eq_self_iff.mpr hdigits
  have hdrop : (printNumber v 0 10).dropWhile isDigit = [] :=
    List.dropWhile_eq_nil_iff.mpr hdigits
  have hvalue : valueOf 0 (printNumber v 0 10) = v := by rw [printNumber_eq, valueOf_digitsOf]
  rw [strtoull, hs, sign_of_digits hdigits]
  simp only [htake, hdrop, hvalue]
  rw [if_neg printNumber_ne_nil, if_neg (Nat.not_le_of_lt h), if_neg Bool.false_ne_true]

/-! ## Numbers of a width -/

variable {w k : ℕ}

theorem isDigit_padded : ∀ ch ∈ printNumber v k 10, isDigit ch = true := by
  intro ch hch
  obtain ⟨d, hd, rfl⟩ := List.mem_map.mp hch
  apply isDigit_digit
  rcases List.mem_append.mp hd with hd | hd
  · rw [List.eq_of_mem_replicate hd]
    decide
  · exact digitsOf_lt hd

/-- Zeros in front do not count. -/
theorem valueOf_printNumber (v k : ℕ) : valueOf 0 (printNumber v k 10) = v := by
  have hzeros : ∀ n, valueOf 0 ((List.replicate n 0).map digit) = 0 := by
    intro n
    induction n with
    | zero => rfl
    | succ n ih => exact ih
  rw [printNumber, List.map_append, valueOf, List.foldl_append]
  exact (congrArg (valueOf · _) (hzeros _)).trans (valueOf_digitsOf v)

theorem printNumber_inj (h : printNumber v k 10 = printNumber w k 10) : v = w := by
  rw [← valueOf_printNumber v k, h, valueOf_printNumber]

theorem le_printNumber_length (v k : ℕ) : k ≤ (printNumber v k 10).length := by
  simp only [printNumber, List.length_map, List.length_append, List.length_replicate]
  omega

theorem printNumber_width (hk : 0 < k) : (printNumber v k 10).length = k ↔ v < 10 ^ k := by
  have hlength : (printNumber v k 10).length =
      k - (digitsOf v 10).length + (digitsOf v 10).length := by simp [printNumber]
  rw [hlength]
  constructor
  · intro h
    have hle : (digitsOf v 10).length ≤ k := by omega
    rw [digitsOf] at hle
    split at hle
    · next hv =>
        rw [hv]
        exact Nat.pow_pos (by decide)
    · rw [List.length_reverse] at hle
      exact Nat.lt_of_lt_of_le (Nat.lt_base_pow_length_digits (by decide))
        (Nat.pow_le_pow_right (by decide) hle)
  · intro h
    have hle := digitsOf_length hk h
    omega

end Sunela.Fmt
