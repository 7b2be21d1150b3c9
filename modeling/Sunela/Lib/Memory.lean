import Mathlib.Data.Int.Notation
import Mathlib.Data.Nat.Notation
import Mathlib.Logic.Function.Basic
import Mathlib.Logic.Nontrivial.Basic
import Mathlib.Tactic.Ring

/-! # Flat memory

A sequence of cells without end on either side, counted loops that write to it, and the cells
that they leave as they are. -/

namespace Sunela.Memory

/-- Memory as an array without bounds. -/
abbrev Mem (α : Type) := ℤ → α

variable {α S : Type} {P Q : ℤ → Prop} {m m' m'' : Mem α}

/-- The body of a loop over `0`, …, `n - 1`. -/
def loop (n : ℕ) (body : ℕ → S → S) (s : S) : S :=
  match n with
  | 0 => s
  | n + 1 => body n (loop n body s)

@[simp] theorem loop_zero (body : ℕ → S → S) (s : S) : loop 0 body s = s := rfl

@[simp] theorem loop_succ (n : ℕ) (body : ℕ → S → S) (s : S) :
    loop (n + 1) body s = body n (loop n body s) := rfl

/-- Copying `n` cells that are all read, from `src`, before the first is written. -/
def memmove (dst : ℤ) (src : Mem α) (p : ℤ) (n : ℕ) (m : Mem α) : Mem α := fun i =>
  if dst ≤ i ∧ i < dst + n then src (p + (i - dst)) else m i

/-- Only cells that satisfy `P` change. -/
def ChangesOnly (P : ℤ → Prop) (m m' : Mem α) : Prop := ∀ i, ¬ P i → m' i = m i

theorem ChangesOnly.refl : ChangesOnly P m m := fun _ _ => rfl

theorem ChangesOnly.trans (h : ChangesOnly P m m') (h' : ChangesOnly P m' m'') :
    ChangesOnly P m m'' := fun i hi => (h' i hi).trans (h i hi)

theorem ChangesOnly.mono (h : ChangesOnly P m m') (hP : ∀ i, P i → Q i) :
    ChangesOnly Q m m' := fun i hi => h i fun hp => hi (hP i hp)

theorem changesOnly_update [DecidableEq ℤ] (i : ℤ) (a : α) :
    ChangesOnly (· = i) m (Function.update m i a) := fun _ hj => Function.update_of_ne hj a m

theorem changesOnly_memmove (dst : ℤ) (src : Mem α) (p : ℤ) (n : ℕ) :
    ChangesOnly (fun i => dst ≤ i ∧ i < dst + n) m (memmove dst src p n m) := fun _ hi =>
  if_neg hi

/-- A loop changes the cells that one of its rounds changes. -/
theorem changesOnly_loop {P : ℕ → ℤ → Prop} {n : ℕ} {body : ℕ → Mem α → Mem α}
    (h : ∀ k < n, ∀ m, ChangesOnly (P k) m (body k m)) :
    ChangesOnly (fun i => ∃ k < n, P k i) m (loop n body m) := by
  induction n with
  | zero => exact .refl
  | succ n ih =>
      have hrest := ih fun k hk => h k (Nat.lt_succ_of_lt hk)
      apply (hrest.mono fun i hi => ?_).trans ((h n (Nat.lt_succ_self n) _).mono fun i hi => ?_)
      · obtain ⟨k, hk, hp⟩ := hi
        exact ⟨k, Nat.lt_succ_of_lt hk, hp⟩
      · exact ⟨n, Nat.lt_succ_self n, hi⟩

/-! ## Painting -/

/-- The cells that satisfy `P` have the value `a` afterwards, and no other cell changes. -/
structure Paints (P : ℤ → Prop) (a : α) (m m' : Mem α) : Prop where
  painted : ∀ i, P i → m' i = a
  changesOnly : ChangesOnly P m m'

variable {a : α}

theorem paints_update [DecidableEq ℤ] (i : ℤ) : Paints (· = i) a m (Function.update m i a) where
  painted _ hj := by rw [hj, Function.update_self]
  changesOnly := changesOnly_update i a

theorem Paints.congr (h : Paints P a m m') (hP : ∀ i, P i ↔ Q i) : Paints Q a m m' where
  painted i hi := h.painted i ((hP i).mpr hi)
  changesOnly := h.changesOnly.mono fun i => (hP i).mp

/-- What has been painted stays when more is painted in the same way. -/
theorem Paints.trans (h : Paints P a m m') (h' : Paints Q a m' m'') :
    Paints (fun i => P i ∨ Q i) a m m'' where
  painted i hi := by
    by_cases hq : Q i
    · exact h'.painted i hq
    · rw [h'.changesOnly i hq, h.painted i (hi.resolve_right hq)]
  changesOnly i hi := by
    rw [h'.changesOnly i fun hq => hi (.inr hq), h.changesOnly i fun hp => hi (.inl hp)]

/-- A loop paints what its rounds paint. -/
theorem paints_loop {P : ℕ → ℤ → Prop} {n : ℕ} {body : ℕ → Mem α → Mem α}
    (h : ∀ k < n, ∀ m, Paints (P k) a m (body k m)) :
    Paints (fun i => ∃ k < n, P k i) a m (loop n body m) := by
  induction n with
  | zero => exact ⟨fun i ⟨k, hk, _⟩ => absurd hk (Nat.not_lt_zero k), .refl⟩
  | succ n ih =>
      have hrest := ih fun k hk => h k (Nat.lt_succ_of_lt hk)
      apply (hrest.trans (h n (Nat.lt_succ_self n) _)).congr
      intro i
      constructor
      · rintro (⟨k, hk, hp⟩ | hp)
        · exact ⟨k, Nat.lt_succ_of_lt hk, hp⟩
        · exact ⟨n, Nat.lt_succ_self n, hp⟩
      · rintro ⟨k, hk, hp⟩
        rcases Nat.lt_succ_iff_lt_or_eq.mp hk with hlt | rfl
        · exact .inl ⟨k, hlt, hp⟩
        · exact .inr hp

/-- What is painted in every memory is known from what is painted. -/
theorem paints_unique [Nontrivial α] {f : Mem α → Mem α} (hP : ∀ m, Paints P a m (f m))
    (hQ : ∀ m, Paints Q a m (f m)) (i : ℤ) : P i ↔ Q i := by
  obtain ⟨b, hb⟩ := exists_ne a
  have hPi := hP fun _ => b
  have hQi := hQ fun _ => b
  constructor
  · intro hi
    by_contra hn
    exact hb ((hQi.changesOnly i hn).symm.trans (hPi.painted i hi))
  · intro hi
    by_contra hn
    exact hb ((hPi.changesOnly i hn).symm.trans (hQi.painted i hi))

/-- Cells between two bounds cannot all be moved by the same distance and stay among
themselves. -/
theorem shift_eq_zero {lo hi d : ℤ} (hne : ∃ i, P i) (hP : ∀ i, P i → lo ≤ i ∧ i < hi)
    (hd : ∀ i, P i → P (i + d)) : d = 0 := by
  obtain ⟨i, hi0⟩ := hne
  have hmoved : ∀ k : ℕ, P (i + k * d) := by
    intro k
    induction k with
    | zero => simpa using hi0
    | succ k ih =>
        have hnext := hd _ ih
        rwa [show i + k * d + d = i + ((k + 1 : ℕ) : ℤ) * d by push_cast; ring] at hnext
  by_contra hne
  have hfar := hP _ (hmoved (hi - lo).toNat)
  have hnear := hP i hi0
  have hk : ((hi - lo).toNat : ℤ) = hi - lo := Int.toNat_of_nonneg (by omega)
  rw [hk] at hfar
  rcases Int.lt_or_gt_of_ne hne with hneg | hpos
  · have hle : (hi - lo) * d ≤ (hi - lo) * (-1) :=
      Int.mul_le_mul_of_nonneg_left (by omega) (by omega)
    omega
  · have hle : (hi - lo) * 1 ≤ (hi - lo) * d :=
      Int.mul_le_mul_of_nonneg_left (by omega) (by omega)
    omega

end Sunela.Memory
