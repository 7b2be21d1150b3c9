import Mathlib.Algebra.Group.Nat.Defs
import Mathlib.Data.List.Perm.Basic
import Mathlib.Data.Nat.Notation
import Mathlib.Order.Lattice
import Mathlib.Tactic.Linarith

/-! # Sorting by going back and forth

Neighbours that are not in order are swapped, and each swap goes back by one position. The
position is between the elements `before` it, the nearest one first, and those `after` it. -/

namespace Sunela.Gnome

open List

variable {α κ : Type} [LinearOrder κ] {key : α → κ} {a b : α} {l before after r : List α}
  {fuel : ℕ}

def sort (key : α → κ) : ℕ → List α → List α → Option (List α)
  | fuel + 1, before, a :: b :: after =>
      if key a > key b then
        match before with
        | c :: before => sort key fuel before (c :: b :: a :: after)
        | [] => sort key fuel [] (b :: a :: after)
      else sort key fuel (a :: before) (b :: after)
  | 0, _, _ :: _ :: _ => none
  | _, before, after => some (before.reverse ++ after)

theorem sort_swap (h : key a > key b) :
    sort key (fuel + 1) before (a :: b :: after) =
      sort key fuel before.tail (before.head?.toList ++ b :: a :: after) := by
  cases before <;> exact if_pos h

theorem sort_next (h : ¬ key a > key b) :
    sort key (fuel + 1) before (a :: b :: after) = sort key fuel (a :: before) (b :: after) := by
  cases before <;> exact if_neg h

/-- The pairs that are not in order. -/
def inversions (key : α → κ) : List α → ℕ
  | [] => 0
  | a :: l => l.countP (fun b => key a > key b) + inversions key l

/-! ## Termination -/

theorem inversions_le : 2 * inversions key l + l.length ≤ l.length * l.length := by
  induction l with
  | nil => simp [inversions]
  | cons a l ih =>
      have hcount : l.countP (fun b => key a > key b) ≤ l.length := countP_le_length
      simp only [inversions, length_cons]
      nlinarith only [ih, hcount]

/-- Each swap removes an inversion. -/
theorem inversions_swap (h : key a > key b) :
    inversions key (l ++ a :: b :: r) = inversions key (l ++ b :: a :: r) + 1 := by
  induction l with
  | nil =>
      have hba : ¬ key b > key a := not_lt_of_gt h
      simp only [nil_append, inversions, countP_cons, h, hba, decide_true, decide_false, if_true]
      simp only [Bool.false_eq_true, if_false]
      omega
  | cons c l ih =>
      have hperm : l ++ a :: b :: r ~ l ++ b :: a :: r := (Perm.swap b a r).append_left l
      simp only [cons_append, inversions, hperm.countP_eq, ih]
      omega

/-! ## Order -/

/-- The elements up to the position are in order. -/
def Ordered (key : α → κ) (before after : List α) : Prop :=
  (before.reverse ++ after.take 1).Pairwise (key · ≤ key ·)

theorem Ordered.back {c : α} (h : Ordered key (c :: before) (a :: b :: after)) :
    Ordered key before (c :: b :: a :: after) := by
  simp only [Ordered, reverse_cons, append_assoc, take_succ_cons, take_zero] at h ⊢
  exact h.sublist ((Sublist.refl _).append (by simp))

theorem Ordered.forth (h : Ordered key before (a :: b :: after)) (hab : key a ≤ key b) :
    Ordered key (a :: before) (b :: after) := by
  simp only [Ordered, take_succ_cons, take_zero, reverse_cons] at h ⊢
  refine pairwise_append.mpr ⟨h, pairwise_singleton _ _, fun c hc d hd => ?_⟩
  obtain rfl := mem_singleton.mp hd
  rcases mem_append.mp hc with hc | hc
  · exact le_trans ((pairwise_append.mp h).2.2 c hc a (mem_singleton_self a)) hab
  · rw [mem_singleton.mp hc]
    exact hab

/-! ## Sorting -/

theorem sort_done (h : after.length ≤ 1) (ho : Ordered key before after) :
    sort key fuel before after = some (before.reverse ++ after) ∧
      (before.reverse ++ after).Pairwise (key · ≤ key ·) := by
  rw [Ordered, take_of_length_le h] at ho
  refine ⟨?_, ho⟩
  cases after with
  | nil => simp [sort]
  | cons a after =>
      cases after with
      | nil => simp [sort]
      | cons b after => simp at h

/-- What is left to do shrinks with each step. -/
theorem sort_run (hfuel : 2 * inversions key (before.reverse ++ after) + after.length ≤ fuel + 1)
    (ho : Ordered key before after) :
    ∃ l, sort key fuel before after = some l ∧ l ~ before.reverse ++ after ∧
      l.Pairwise (key · ≤ key ·) := by
  induction fuel generalizing before after with
  | zero =>
      obtain ⟨hs, hp⟩ := @sort_done _ _ _ key before after 0 (by omega) ho
      exact ⟨_, hs, .refl _, hp⟩
  | succ fuel ih =>
      by_cases hlen : after.length ≤ 1
      · obtain ⟨hs, hp⟩ := sort_done hlen ho
        exact ⟨_, hs, .refl _, hp⟩
      obtain ⟨a, b, after, rfl⟩ : ∃ a b r, after = a :: b :: r := by
        cases after with
        | nil => simp at hlen
        | cons a after =>
            cases after with
            | nil => simp at hlen
            | cons b after => exact ⟨a, b, after, rfl⟩
      simp only [length_cons] at hfuel
      by_cases h : key a > key b
      · rw [inversions_swap h] at hfuel
        have hperm : before.reverse ++ b :: a :: after ~ before.reverse ++ a :: b :: after :=
          (Perm.swap a b after).append_left _
        cases before with
        | nil =>
            obtain ⟨l, hs, hl, hp⟩ := @ih [] (b :: a :: after)
              (by simp only [length_cons]; omega) (pairwise_singleton _ _)
            exact ⟨l, (sort_swap h).trans hs, hl.trans hperm, hp⟩
        | cons c before =>
            have hmove : (c :: before).reverse ++ b :: a :: after =
                before.reverse ++ c :: b :: a :: after := by simp
            rw [hmove] at hfuel hperm
            obtain ⟨l, hs, hl, hp⟩ := @ih before (c :: b :: a :: after)
              (by simp only [length_cons]; omega) ho.back
            exact ⟨l, (sort_swap h).trans hs, hl.trans hperm, hp⟩
      · have hmove : before.reverse ++ a :: b :: after = (a :: before).reverse ++ b :: after := by
          simp
        rw [hmove] at hfuel ⊢
        obtain ⟨l, hs, hl, hp⟩ := @ih (a :: before) (b :: after)
          (by simp only [length_cons]; omega) (ho.forth (le_of_not_gt h))
        exact ⟨l, (sort_next h).trans hs, hl, hp⟩

theorem sort_sorts (hfuel : l.length * l.length ≤ fuel) :
    ∃ l', sort key fuel [] l = some l' ∧ l' ~ l ∧ l'.Pairwise (key · ≤ key ·) := by
  apply sort_run
  · have hle := @inversions_le _ _ _ key l
    rw [reverse_nil, nil_append]
    omega
  · cases l with
    | nil => exact Pairwise.nil
    | cons a l => exact pairwise_singleton _ _

end Sunela.Gnome
