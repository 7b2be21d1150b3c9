import Mathlib.Tactic.Ring
import Mathlib.Tactic.Linarith
import Sunela.Model.Gfx

/-! # The damage rectangle

Whatever is drawn, the damage covers each pixel that has changed since the last reset. -/

namespace Sunela.Gfx

open Memory

variable {da da' : GfxDrawable} {x y w h px py : ℤ}

/-! ## One axis -/

theorem clipAxis_self {clip size : ℤ} (hw : 0 < w) (hl : clip ≤ x) (hr : x + w ≤ clip + size) :
    clipAxis clip size x w = some (x, w) := by
  simp only [clipAxis]
  rw [if_neg (by omega), if_neg (by omega), if_neg (by omega)]
  simp only
  rw [if_neg (by omega)]

/-- What is left by clipping lies inside the clip rectangle. -/
theorem clipAxis_inside {clip size x' w' : ℤ} (h : clipAxis clip size x w = some (x', w')) :
    clip ≤ x' ∧ x' + w' ≤ clip + size := by
  simp only [clipAxis] at h
  split at h
  · cases h
  · split at h
    · cases h
    · simp only [Option.some.injEq, Prod.mk.injEq] at h
      obtain ⟨rfl, rfl⟩ := h
      split <;> split <;> simp_all

/-- The damage grows so as to cover what was drawn, and goes on covering what it did. -/
theorem growAxis_covers {rx rw i : ℤ}
    (h : (rx ≤ i ∧ i < rx + rw) ∨ (x ≤ i ∧ i < x + w)) :
    (growAxis rx rw x w).1 ≤ i ∧ i < (growAxis rx rw x w).1 + (growAxis rx rw x w).2 := by
  simp only [growAxis]
  split <;> split <;> simp_all <;> omega

theorem growAxis_inside {rx rw size : ℤ} (hr : 0 ≤ rx ∧ 0 < rw ∧ rx + rw ≤ size)
    (hx : 0 ≤ x ∧ 0 < w ∧ x + w ≤ size) :
    0 ≤ (growAxis rx rw x w).1 ∧ 0 < (growAxis rx rw x w).2 ∧
      (growAxis rx rw x w).1 + (growAxis rx rw x w).2 ≤ size := by
  simp only [growAxis]
  split <;> split <;> simp_all <;> omega

/-! ## Damage -/

/-- A rectangle that is not empty lies inside the drawable. -/
structure Inside (da : GfxDrawable) (r : GfxRect) : Prop where
  horizontal : 0 ≤ r.x ∧ 0 < r.w ∧ r.x + r.w ≤ da.w
  vertical : 0 ≤ r.y ∧ 0 < r.h ∧ r.y + r.h ≤ da.h

/-- What `damage` does: it grows the damage by the rectangle, and changes nothing else. -/
structure Damaged (da : GfxDrawable) (r : GfxRect) (da' : GfxDrawable) : Prop where
  fb : da'.fb = da.fb
  w : da'.w = da.w
  h : da'.h = da.h
  clipping : da'.clipping = da.clipping
  clip : da'.clip = da.clip
  kept : da.changed = true → da'.changed = true ∧
    ∀ px py, da.damage.Has px py → da'.damage.Has px py
  covers : ∀ px py, r.Has px py → da'.changed = true ∧ da'.damage.Has px py
  inside : (da.changed = true → Inside da da.damage) → da'.changed = true → Inside da' da'.damage

theorem GfxRect.not_has_of_empty {r : GfxRect} (he : r.w ≤ 0 ∨ r.h ≤ 0) : ¬ r.Has px py := by
  rintro ⟨hx, hy⟩
  omega

theorem damaged_of_empty {r : GfxRect} (he : r.w ≤ 0 ∨ r.h ≤ 0) : Damaged da r da where
  fb := rfl
  w := rfl
  h := rfl
  clipping := rfl
  clip := rfl
  kept hc := ⟨hc, fun _ _ hp => hp⟩
  covers _ _ hp := absurd hp (GfxRect.not_has_of_empty he)
  inside hi := hi

/-- The rectangle that is recorded is a part of the drawable, or no assertion is reached. -/
theorem damage_cases (hclip : da.clipped ⟨x, y, w, h⟩ = some ⟨x, y, w, h⟩)
    (hd : damage da x y w h = some da') :
    ((w ≤ 0 ∨ h ≤ 0) ∧ da' = da) ∨ (Inside da ⟨x, y, w, h⟩ ∧
      da' = { da with
        changed := true
        damage := if da.changed then da.damage.grow ⟨x, y, w, h⟩ else ⟨x, y, w, h⟩ }) := by
  unfold damage at hd
  by_cases he : w ≤ 0 ∨ h ≤ 0
  · rw [if_pos he] at hd
    exact .inl ⟨he, (Option.some.inj hd).symm⟩
  · rw [if_neg he, hclip] at hd
    simp only at hd
    split at hd
    · cases hd
    split at hd
    · cases hd
    split at hd
    · cases hd
    next h0 h1 h2 =>
      rw [not_not] at h0 h2
      rw [if_neg (by omega)] at hd
      right
      constructor
      · exact ⟨⟨h0.1, by simp only; omega, h2.1⟩, ⟨h0.2, by simp only; omega, h2.2⟩⟩
      · by_cases hc : da.changed = true
        · simp only [hc, Bool.not_true, Bool.false_eq_true, if_false, Option.some.injEq] at hd
          rw [if_pos hc, ← hd]
        · simp only [hc, Bool.not_false, if_true, Option.some.injEq] at hd
          rw [if_neg hc, ← hd]

/-- A rectangle that clipping leaves as it is has been recorded, if no assertion fails. -/
theorem damage_damaged (hclip : da.clipped ⟨x, y, w, h⟩ = some ⟨x, y, w, h⟩)
    (hd : damage da x y w h = some da') : Damaged da ⟨x, y, w, h⟩ da' := by
  rcases damage_cases hclip hd with ⟨he, rfl⟩ | ⟨hin, rfl⟩
  · exact damaged_of_empty he
  · exact {
      fb := rfl
      w := rfl
      h := rfl
      clipping := rfl
      clip := rfl
      kept := fun hc => by
        refine ⟨rfl, fun px py hp => ?_⟩
        simp only [hc, if_true]
        exact ⟨growAxis_covers (.inl hp.1), growAxis_covers (.inl hp.2)⟩
      covers := fun px py hp => by
        refine ⟨rfl, ?_⟩
        by_cases hc : da.changed = true
        · simp only [hc, if_true]
          exact ⟨growAxis_covers (.inr hp.1), growAxis_covers (.inr hp.2)⟩
        · simp only [hc, Bool.false_eq_true, if_false]
          exact hp
      inside := fun hi _ => by
        by_cases hc : da.changed = true
        · simp only [hc, if_true]
          exact ⟨growAxis_inside (hi hc).horizontal hin.horizontal,
            growAxis_inside (hi hc).vertical hin.vertical⟩
        · simp only [hc, Bool.false_eq_true, if_false]
          exact ⟨hin.horizontal, hin.vertical⟩ }

/-- While nothing is clipped, every rectangle is recorded. -/
theorem damage_unclipped (hclip : da.clipping = false) (hd : damage da x y w h = some da') :
    Damaged da ⟨x, y, w, h⟩ da' :=
  damage_damaged (by simp [GfxDrawable.clipped, hclip]) hd

/-! ## Pixels -/

/-- The pixel is one of the drawable. -/
structure OnScreen (da : GfxDrawable) (px py : ℤ) : Prop where
  horizontal : 0 ≤ px ∧ px < da.w
  vertical : 0 ≤ py ∧ py < da.h

/-- Two positions within their rows are the same only if the rows are. -/
theorem row_col_unique {n p q a b : ℤ} (ha : 0 ≤ a ∧ a < n) (hb : 0 ≤ b ∧ b < n)
    (h : p * n + a = q * n + b) : p = q ∧ a = b := by
  have hn : 0 < n := by omega
  have hp : (p * n + a) / n = p := by
    rw [Int.add_comm, Int.add_mul_ediv_right _ _ hn.ne', Int.ediv_eq_zero_of_lt ha.1 ha.2,
      Int.zero_add]
  have hq : (q * n + b) / n = q := by
    rw [Int.add_comm, Int.add_mul_ediv_right _ _ hn.ne', Int.ediv_eq_zero_of_lt hb.1 hb.2,
      Int.zero_add]
  have hpq : p = q := by rw [← hp, h, hq]
  subst hpq
  exact ⟨rfl, by omega⟩

theorem unsigned_of_lt {n : ℤ} (h0 : 0 ≤ n) (h : n < 2 ^ 32) : unsigned n = n :=
  Int.emod_eq_of_lt h0 h

theorem signed_of_mem {n : ℤ} (h : -2 ^ 31 ≤ n ∧ n < 2 ^ 31) : signed n = n := by
  apply Int.bmod_eq_of_le <;> omega

theorem signed_of_lt {n : ℤ} (h0 : 0 ≤ n) (h : n < 2 ^ 31) : signed n = n := by
  apply Int.bmod_eq_of_le <;> omega

/-- The start of a row of the drawable is its address. -/
theorem unsigned_row (hy : 0 ≤ y ∧ y ≤ da.h) : unsigned (y * da.w) = y * da.w := by
  have hfit : (da.h : ℤ) * da.w < 2 ^ 31 := by
    have := da.fits.2.2
    rw [Nat.mul_comm] at this
    exact_mod_cast this
  have hle : y * da.w ≤ da.h * da.w := Int.mul_le_mul_of_nonneg_right hy.2 (Int.natCast_nonneg _)
  exact unsigned_of_lt (Int.mul_nonneg hy.1 (Int.natCast_nonneg _)) (by omega)

/-- The address lies in row `k` of a rectangle of which each row has `n` pixels. -/
def InRow (da : GfxDrawable) (p : ℤ) (n : ℕ) (k : ℕ) (i : ℤ) : Prop :=
  p + k * da.w ≤ i ∧ i < p + k * da.w + n

/-- A change in the rows of a rectangle inside the drawable is a change inside it. -/
theorem has_of_inRow {n m k : ℕ} (hx : 0 ≤ x ∧ x + n ≤ da.w) (hk : k < m)
    (hp : OnScreen da px py) (hi : InRow da (y * da.w + x) n k (py * da.w + px)) :
    (⟨x, y, n, m⟩ : GfxRect).Has px py := by
  obtain ⟨h1, h2⟩ := hi
  obtain ⟨j, hj⟩ : ∃ j, py * da.w + px = (y + k) * da.w + (x + j) :=
    ⟨py * da.w + px - (y + k) * da.w - x, by omega⟩
  have hdist : (y + k) * (da.w : ℤ) = y * da.w + k * da.w := Int.add_mul _ _ _
  have hj0 : 0 ≤ j ∧ j < n := by omega
  obtain ⟨hy, hxj⟩ := row_col_unique hp.horizontal (by omega) hj
  refine ⟨?_, ?_⟩ <;> simp only <;> omega

/-! ## Drawing -/

/-- A call that changes pixels only within a rectangle, and records it. -/
def Draws (da da' : GfxDrawable) : Prop :=
  ∃ r fb, Damaged { da with fb := fb } r da' ∧ ∀ px py, OnScreen da px py →
    fb (py * da.w + px) ≠ da.fb (py * da.w + px) → r.Has px py

/-- What is recorded covers what was drawn, if only pixels of the rectangle were changed. -/
theorem draws_of_damage {fb : Mem GfxColor}
    (hclip : 0 < w → 0 < h → da.clipped ⟨x, y, w, h⟩ = some ⟨x, y, w, h⟩)
    (hempty : w ≤ 0 ∨ h ≤ 0 → ∀ px py, OnScreen da px py →
      fb (py * da.w + px) = da.fb (py * da.w + px))
    (hdraw : Inside da ⟨x, y, w, h⟩ → ∀ px py, OnScreen da px py →
      fb (py * da.w + px) ≠ da.fb (py * da.w + px) → (⟨x, y, w, h⟩ : GfxRect).Has px py)
    (hd : damage { da with fb := fb } x y w h = some da') : Draws da da' := by
  refine ⟨⟨x, y, w, h⟩, fb, ?_⟩
  by_cases he : w ≤ 0 ∨ h ≤ 0
  · have hnone : damage { da with fb := fb } x y w h = some { da with fb := fb } := if_pos he
    rw [hnone] at hd
    obtain rfl := Option.some.inj hd
    exact ⟨damaged_of_empty he, fun px py hp hne => absurd (hempty he px py hp) hne⟩
  · have hc := hclip (by omega) (by omega)
    have hc' : GfxDrawable.clipped { da with fb := fb } ⟨x, y, w, h⟩ = some ⟨x, y, w, h⟩ := hc
    refine ⟨damage_damaged hc' hd, ?_⟩
    rcases damage_cases hc' hd with ⟨he', -⟩ | ⟨hin, -⟩
    · exact absurd he' he
    · exact hdraw ⟨hin.horizontal, hin.vertical⟩

/-- The rows of a rectangle are filled, and nothing else. -/
theorem fillRows_paints (da : GfxDrawable) (p : ℤ) (w h : ℕ) (color : GfxColor) :
    Paints (fun i => ∃ k < h, InRow da p w k i) color da.fb (fillRows da p w h color) := by
  unfold fillRows
  rw [Int.toNat_natCast, Int.toNat_natCast]
  apply paints_loop
  intro k _ fb
  have hrow := @paints_loop _ fb color _ w
    (fun ix fb => Function.update fb (p + k * da.w + ix) color)
    fun ix _ m => paints_update (p + k * da.w + ix)
  apply hrow.congr
  intro i
  constructor
  · rintro ⟨ix, hix, rfl⟩
    constructor <;> omega
  · rintro ⟨h1, h2⟩
    exact ⟨(i - (p + k * da.w)).toNat, by omega, by omega⟩

theorem clipped_clipped {r r' : GfxRect} (h : da.clipped r = some r') (hw : 0 < r'.w)
    (hh : 0 < r'.h) : da.clipped r' = some r' := by
  unfold GfxDrawable.clipped at h ⊢
  by_cases hc : da.clipping = true
  · rw [if_pos hc] at h ⊢
    obtain ⟨⟨x', w'⟩, hx, h⟩ := Option.bind_eq_some_iff.mp h
    obtain ⟨⟨y', h'⟩, hy, h⟩ := Option.bind_eq_some_iff.mp h
    obtain rfl := Option.some.inj h
    have hx' := clipAxis_inside hx
    have hy' := clipAxis_inside hy
    simp only [clipAxis_self hw hx'.1 hx'.2, clipAxis_self hh hy'.1 hy'.2]
    rfl
  · rw [if_neg hc]

/-- Filling a rectangle inside the drawable gives its pixels the colour, and no others. -/
theorem fillRows_pixel {n m : ℕ} {color : GfxColor} (hx : 0 ≤ x ∧ x + n ≤ da.w)
    (hp : OnScreen da px py) :
    fillRows da (y * da.w + x) n m color (py * da.w + px) =
      if (⟨x, y, n, m⟩ : GfxRect).Has px py then color else da.fb (py * da.w + px) := by
  have hpaints := fillRows_paints da (y * da.w + x) n m color
  by_cases hr : (⟨x, y, n, m⟩ : GfxRect).Has px py
  · rw [if_pos hr]
    obtain ⟨⟨h1, h2⟩, h3, h4⟩ := hr
    simp only at h1 h2 h3 h4
    apply hpaints.painted
    refine ⟨(py - y).toNat, by omega, ?_⟩
    have hrow : y * da.w + ((py - y).toNat : ℤ) * da.w = py * da.w := by
      rw [← Int.add_mul]
      congr 1
      omega
    constructor <;> omega
  · rw [if_neg hr]
    apply hpaints.changesOnly
    rintro ⟨k, hk, hi⟩
    exact hr (has_of_inRow hx hk hp hi)

/-- A filled rectangle is drawn within what clipping leaves of it. -/
theorem gfxRectXy_draws {color : GfxColor} (hd : gfxRectXy da x y w h color = some da') :
    da' = da ∨ Draws da da' := by
  unfold gfxRectXy at hd
  by_cases he : w ≤ 0 ∨ h ≤ 0
  · rw [if_pos he] at hd
    exact .inl (Option.some.inj hd).symm
  · rw [if_neg he] at hd
    cases hclip : da.clipped ⟨x, y, w, h⟩ with
    | none =>
        rw [hclip] at hd
        exact .inl (Option.some.inj hd).symm
    | some r =>
        obtain ⟨x, y, w, h⟩ := r
        rw [hclip] at hd
        simp only at hd
        split at hd
        · cases hd
        split at hd
        · cases hd
        split at hd
        · cases hd
        next hpos _ _ =>
          obtain ⟨hw0, hh0⟩ := not_not.mp hpos
          obtain ⟨n, rfl⟩ := Int.eq_ofNat_of_zero_le hw0
          obtain ⟨m, rfl⟩ := Int.eq_ofNat_of_zero_le hh0
          right
          apply draws_of_damage _ _ _ hd
          · intro hw hh
            exact clipped_clipped hclip hw hh
          · intro hempty px py _
            apply (fillRows_paints da _ n m color).changesOnly
            rintro ⟨k, hk, h1, h2⟩
            omega
          · intro hin px py hp hne
            have hrow : unsigned (y * da.w) = y * da.w :=
              unsigned_row ⟨hin.vertical.1, by have := hin.vertical; simp only at this; omega⟩
            rw [hrow, fillRows_pixel ⟨hin.horizontal.1, hin.horizontal.2.2⟩ hp] at hne
            by_contra hr
            exact hne (if_neg hr)

end Sunela.Gfx
