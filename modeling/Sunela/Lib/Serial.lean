import Mathlib.Data.List.Perm.Basic
import Mathlib.Data.List.Induction

/-! # Serial numbers and last-writer-wins folds

Serial numbers wrap around at `2 * h`. Two of them are compared by the half circle they lie
in, which agrees with an order only inside a window of less than `h` numbers. -/

namespace Sunela.Serial

/-- `s` is a number from before `t`: it lies in the half circle that ends at `t`. -/
def Behind (h s t : ℕ) : Prop := h ≤ (s + 2 * h - t) % (2 * h)

instance (h s t : ℕ) : Decidable (Behind h s t) := inferInstanceAs (Decidable (_ ≤ _))

/-- The distance from `base` up to `s`. -/
def offset (h base s : ℕ) : ℕ := (s + 2 * h - base) % (2 * h)

private theorem mod_of_lt_two_mul {x m : ℕ} (hx : x < 2 * m) :
    x % m = if x < m then x else x - m := by
  split
  · next h => exact Nat.mod_eq_of_lt h
  · next h =>
      rw [Nat.mod_eq_sub_mod (Nat.le_of_not_lt h), Nat.mod_eq_of_lt (by omega)]

/-- Inside a window the half-circle comparison is the order of the offsets. -/
theorem behind_iff_offset_lt {h base s t : ℕ} (hb : base < 2 * h) (hs : s < 2 * h)
    (ht : t < 2 * h) (ws : offset h base s < h) (wt : offset h base t < h) :
    Behind h s t ↔ offset h base s < offset h base t := by
  unfold offset at *
  unfold Behind
  rw [mod_of_lt_two_mul (by omega)] at ws wt ⊢
  rw [mod_of_lt_two_mul (by omega), mod_of_lt_two_mul (by omega)]
  split_ifs at ws wt ⊢ <;> omega

theorem offset_inj {h base s t : ℕ} (hb : base < 2 * h) (hs : s < 2 * h) (ht : t < 2 * h)
    (he : offset h base s = offset h base t) : s = t := by
  unfold offset at he
  rw [mod_of_lt_two_mul (by omega), mod_of_lt_two_mul (by omega)] at he
  split_ifs at he <;> omega

/-! ## Last writer wins -/

section Latest

variable {α : Type*} (behind : α → α → Prop) [DecidableRel behind]

/-- A newcomer replaces what is held unless it is behind it. -/
def keep : Option α → α → Option α
  | none, r => some r
  | some a, r => if behind r a then some a else some r

/-- What is left of a list after each item has come in, in order. -/
def latest (rs : List α) : Option α := rs.foldl (keep behind) none

@[simp] theorem latest_nil : latest behind [] = none := rfl

theorem latest_append_singleton (rs : List α) (r : α) :
    latest behind (rs ++ [r]) = keep behind (latest behind rs) r := by
  simp [latest, List.foldl_append]

theorem keep_eq_or (o : Option α) (r : α) : keep behind o r = o ∨ keep behind o r = some r := by
  cases o with
  | none => exact .inr rfl
  | some a =>
      simp only [keep]
      split
      · exact .inl rfl
      · exact .inr rfl

theorem keep_ne_none (o : Option α) (r : α) : keep behind o r ≠ none := by
  cases o with
  | none => simp [keep]
  | some a =>
      simp only [keep]
      split <;> simp

/-- What is left depends on nothing but the comparison. -/
theorem latest_map {β : Type*} {behind' : β → β → Prop} [DecidableRel behind'] (g : α → β)
    (h : ∀ r s, behind' (g r) (g s) ↔ behind r s) (rs : List α) :
    latest behind' (rs.map g) = (latest behind rs).map g := by
  induction rs using List.reverseRecOn with
  | nil => rfl
  | append_singleton rs r ih =>
      rw [List.map_append, List.map_singleton, latest_append_singleton,
        latest_append_singleton, ih]
      cases latest behind rs with
      | none => rfl
      | some a =>
          simp only [Option.map_some, keep, h]
          split <;> rfl

theorem latest_eq_none {rs : List α} : latest behind rs = none ↔ rs = [] := by
  constructor
  · intro h
    rcases rs.eq_nil_or_concat with rfl | ⟨init, r, rfl⟩
    · rfl
    · rw [List.concat_eq_append, latest_append_singleton] at h
      exact absurd h (keep_ne_none behind _ r)
  · rintro rfl
    rfl

theorem latest_mem {rs : List α} {a : α} (h : latest behind rs = some a) : a ∈ rs := by
  induction rs using List.reverseRecOn generalizing a with
  | nil => simp at h
  | append_singleton rs r ih =>
      rw [latest_append_singleton] at h
      rcases keep_eq_or behind (latest behind rs) r with hk | hk
      · rw [hk] at h
        exact List.mem_append_left _ (ih h)
      · rw [hk] at h
        obtain rfl := Option.some.inj h
        simp

/-- An item that all others are behind is left, wherever it comes in. -/
theorem latest_eq_of_behind {rs : List α} {a : α} (ha : a ∈ rs)
    (h : ∀ r ∈ rs, r ≠ a → behind r a ∧ ¬ behind a r) : latest behind rs = some a := by
  induction rs using List.reverseRecOn with
  | nil => simp at ha
  | append_singleton rs x ih =>
      have hrs : ∀ r ∈ rs, r ≠ a → behind r a ∧ ¬ behind a r := fun r hr =>
        h r (List.mem_append_left _ hr)
      rw [latest_append_singleton]
      by_cases hx : x = a
      · subst hx
        cases hl : latest behind rs with
        | none => rfl
        | some b =>
            by_cases hb : b = x
            · subst hb
              simp [keep]
            · simp only [keep, (hrs b (latest_mem behind hl) hb).2, if_false]
      · have hmem : a ∈ rs := by simpa [Ne.symm hx] using ha
        rw [ih hmem hrs]
        simp only [keep, (h x (by simp) hx).1, if_true]

/-- Where `behind` is the strict order of a rank, the item that is left has the largest. -/
theorem latest_max {rs : List α} (rank : α → ℕ)
    (hr : ∀ r ∈ rs, ∀ s ∈ rs, behind r s ↔ rank r < rank s) {a : α}
    (h : latest behind rs = some a) : ∀ r ∈ rs, rank r ≤ rank a := by
  induction rs using List.reverseRecOn generalizing a with
  | nil => simp
  | append_singleton rs x ih =>
      have hrs : ∀ r ∈ rs, ∀ s ∈ rs, behind r s ↔ rank r < rank s := fun r h s h' =>
        hr r (List.mem_append_left _ h) s (List.mem_append_left _ h')
      rw [latest_append_singleton] at h
      intro r hmem
      cases hl : latest behind rs with
      | none =>
          obtain rfl := (latest_eq_none behind).mp hl
          obtain rfl : x = a := by simpa [hl, keep] using h
          simp_all
      | some b =>
          have hb : b ∈ rs ++ [x] := List.mem_append_left _ (latest_mem behind hl)
          have hx := hr x (by simp) b hb
          have hmax := ih hrs hl
          simp only [hl, keep] at h
          split at h
          · next hbehind =>
              obtain rfl := Option.some.inj h
              rcases List.mem_append.mp hmem with hm | hm
              · exact hmax r hm
              · rw [List.mem_singleton.mp hm]
                exact Nat.le_of_lt (hx.mp hbehind)
          · next hbehind =>
              obtain rfl := Option.some.inj h
              have hbx : rank b ≤ rank x := Nat.le_of_not_lt fun hlt => hbehind (hx.mpr hlt)
              rcases List.mem_append.mp hmem with hm | hm
              · exact Nat.le_trans (hmax r hm) hbx
              · obtain rfl := List.mem_singleton.mp hm
                exact Nat.le_refl _

/-- Items of different rank may come in in any order. -/
theorem latest_perm {rs rs' : List α} (hp : rs.Perm rs') (rank : α → ℕ)
    (hr : ∀ r ∈ rs, ∀ s ∈ rs, behind r s ↔ rank r < rank s)
    (hinj : ∀ r ∈ rs, ∀ s ∈ rs, rank r = rank s → r = s) :
    latest behind rs = latest behind rs' := by
  cases h : latest behind rs with
  | none =>
      obtain rfl := (latest_eq_none behind).mp h
      rw [List.nil_perm.mp hp, latest_nil]
  | some a =>
      cases h' : latest behind rs' with
      | none =>
          obtain rfl := (latest_eq_none behind).mp h'
          rw [List.perm_nil.mp hp] at h
          simp at h
      | some b =>
          have ha := latest_mem behind h
          have hb := hp.mem_iff.mpr (latest_mem behind h')
          have hr' : ∀ r ∈ rs', ∀ s ∈ rs', behind r s ↔ rank r < rank s := fun r h s h' =>
            hr r (hp.mem_iff.mpr h) s (hp.mem_iff.mpr h')
          have hab := latest_max behind rank hr h b hb
          have hba := latest_max behind rank hr' h' a (hp.mem_iff.mp ha)
          rw [hinj a ha b hb (Nat.le_antisymm hba hab)]

end Latest

end Sunela.Serial
