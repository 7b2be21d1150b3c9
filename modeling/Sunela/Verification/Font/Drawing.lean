import Mathlib.Tactic.Linarith
import Sunela.Verification.Font.Glyph
import Sunela.Verification.Gfx.Damage

/-! # Glyphs are drawn as they were converted -/

namespace Sunela.Text

open Gfx Memory Cvtfont

/-! ## One row -/

/-- The pixel is not hidden by clipping. -/
def Shows (da : GfxDrawable) (px py : ℤ) : Prop := da.clipping = true → da.clip.Has px py

/-- The pixels of `P` have been drawn, all of them on the drawable, and nothing else has. -/
structure Drew (P : ℤ → ℤ → Prop) (color : GfxColor) (da da' : GfxDrawable) : Prop where
  w : da'.w = da.w
  h : da'.h = da.h
  clipping : da'.clipping = da.clipping
  clip : da'.clip = da.clip
  onScreen : ∀ px py, P px py → OnScreen da px py
  paints : Paints (fun i => ∃ px py, P px py ∧ i = py * da.w + px) color da.fb da'.fb

variable {da da' : GfxDrawable} {P Q : ℤ → ℤ → Prop} {color : GfxColor} {x y w h px py : ℤ}

theorem Drew.refl (da : GfxDrawable) (hP : ∀ px py, ¬ P px py) : Drew P color da da where
  w := rfl
  h := rfl
  clipping := rfl
  clip := rfl
  onScreen px py hp := absurd hp (hP px py)
  paints := ⟨fun _ ⟨px, py, hp, _⟩ => absurd hp (hP px py), .refl⟩

theorem Drew.trans {da'' : GfxDrawable} (hd : Drew P color da da') (hd' : Drew Q color da' da'') :
    Drew (fun px py => P px py ∨ Q px py) color da da'' where
  w := hd'.w.trans hd.w
  h := hd'.h.trans hd.h
  clipping := hd'.clipping.trans hd.clipping
  clip := hd'.clip.trans hd.clip
  onScreen px py hp := by
    rcases hp with hp | hp
    · exact hd.onScreen px py hp
    · have hon := hd'.onScreen px py hp
      exact ⟨hd.w ▸ hon.horizontal, hd.h ▸ hon.vertical⟩
  paints := by
    apply (hd.paints.trans hd'.paints).congr
    intro i
    rw [hd.w]
    constructor
    · rintro (⟨px, py, hp, hi⟩ | ⟨px, py, hp, hi⟩)
      · exact ⟨px, py, .inl hp, hi⟩
      · exact ⟨px, py, .inr hp, hi⟩
    · rintro ⟨px, py, hp | hp, hi⟩
      · exact .inl ⟨px, py, hp, hi⟩
      · exact .inr ⟨px, py, hp, hi⟩

theorem Drew.congr (hd : Drew P color da da') (hPQ : ∀ px py, P px py ↔ Q px py) :
    Drew Q color da da' where
  w := hd.w
  h := hd.h
  clipping := hd.clipping
  clip := hd.clip
  onScreen px py hq := hd.onScreen px py ((hPQ px py).mpr hq)
  paints := hd.paints.congr fun i => by simp only [hPQ]

theorem clipAxis_none {clip size i : ℤ} (hc : clipAxis clip size x w = none) :
    ¬ ((x ≤ i ∧ i < x + w) ∧ clip ≤ i ∧ i < clip + size) := by
  simp only [clipAxis] at hc
  split at hc
  · omega
  · split at hc
    · omega
    · cases hc

/-- Clipping keeps what lies in both ranges. -/
theorem clipAxis_some {clip size i x' w' : ℤ} (hc : clipAxis clip size x w = some (x', w')) :
    (x' ≤ i ∧ i < x' + w') ↔ (x ≤ i ∧ i < x + w) ∧ clip ≤ i ∧ i < clip + size := by
  simp only [clipAxis] at hc
  split at hc
  · cases hc
  · split at hc
    · cases hc
    · simp only [Option.some.injEq, Prod.mk.injEq] at hc
      obtain ⟨rfl, rfl⟩ := hc
      split <;> split <;> simp_all <;> omega

theorem clipped_none (hc : da.clipped ⟨x, y, w, h⟩ = none) :
    ¬ ((⟨x, y, w, h⟩ : GfxRect).Has px py ∧ Shows da px py) := by
  rintro ⟨⟨hx, hy⟩, hs⟩
  unfold GfxDrawable.clipped at hc
  by_cases hclip : da.clipping = true
  · rw [if_pos hclip] at hc
    obtain ⟨hsx, hsy⟩ := hs hclip
    cases hcx : clipAxis da.clip.x da.clip.w x w with
    | none => exact clipAxis_none hcx ⟨hx, hsx⟩
    | some a =>
        cases hcy : clipAxis da.clip.y da.clip.h y h with
        | none => exact clipAxis_none hcy ⟨hy, hsy⟩
        | some b => simp [hcx, hcy] at hc
  · rw [if_neg hclip] at hc
    cases hc

theorem clipped_some {r : GfxRect} (hc : da.clipped ⟨x, y, w, h⟩ = some r) :
    r.Has px py ↔ (⟨x, y, w, h⟩ : GfxRect).Has px py ∧ Shows da px py := by
  unfold GfxDrawable.clipped at hc
  by_cases hclip : da.clipping = true
  · rw [if_pos hclip] at hc
    obtain ⟨⟨x', w'⟩, hx, hc⟩ := Option.bind_eq_some_iff.mp hc
    obtain ⟨⟨y', h'⟩, hy, hc⟩ := Option.bind_eq_some_iff.mp hc
    obtain rfl := Option.some.inj hc
    simp only [GfxRect.Has, Shows, hclip, forall_const, clipAxis_some hx, clipAxis_some hy]
    tauto
  · rw [if_neg hclip] at hc
    obtain rfl := Option.some.inj hc
    simp [Shows, hclip]

/-- The box lies inside the drawable, and the clip rectangle, if any, is not inside out. -/
structure Boxed (da : GfxDrawable) (r : GfxRect) : Prop where
  horizontal : 0 ≤ r.x ∧ r.x + r.w ≤ da.w
  vertical : 0 ≤ r.y ∧ r.y + r.h ≤ da.h
  clip : da.clipping = true → 0 ≤ da.clip.w ∧ 0 ≤ da.clip.h

/-- Clipping leaves a part of a rectangle. -/
theorem clipAxis_part {clip size x' w' : ℤ} (hsize : 0 ≤ size) (hw : 0 < w)
    (hc : clipAxis clip size x w = some (x', w')) :
    x ≤ x' ∧ x' < x + w ∧ 0 ≤ w' ∧ x' + w' ≤ x + w := by
  simp only [clipAxis] at hc
  split at hc
  · cases hc
  · split at hc
    · cases hc
    · simp only [Option.some.injEq, Prod.mk.injEq] at hc
      obtain ⟨rfl, rfl⟩ := hc
      split <;> split <;> simp_all <;> omega

theorem clipped_boxed {r : GfxRect} (hw : 0 < w) (hh : 0 < h)
    (hb : Boxed da ⟨x, y, w, h⟩) (hc : da.clipped ⟨x, y, w, h⟩ = some r) :
    (0 ≤ r.x ∧ r.x < da.w ∧ 0 ≤ r.w ∧ r.x + r.w ≤ da.w) ∧
      0 ≤ r.y ∧ r.y < da.h ∧ 0 ≤ r.h ∧ r.y + r.h ≤ da.h := by
  obtain ⟨hx, hy, hclip'⟩ := hb
  simp only at hx hy
  unfold GfxDrawable.clipped at hc
  by_cases hclip : da.clipping = true
  · rw [if_pos hclip] at hc
    obtain ⟨⟨x', w'⟩, hcx, hc⟩ := Option.bind_eq_some_iff.mp hc
    obtain ⟨⟨y', h'⟩, hcy, hc⟩ := Option.bind_eq_some_iff.mp hc
    obtain rfl := Option.some.inj hc
    have hpx := clipAxis_part (hclip' hclip).1 hw hcx
    have hpy := clipAxis_part (hclip' hclip).2 hh hcy
    simp only at hpx hpy ⊢
    omega
  · rw [if_neg hclip] at hc
    obtain rfl := Option.some.inj hc
    simp only
    omega

/-- A rectangle inside the drawable is filled. -/
theorem fillRows_drew (da : GfxDrawable) (x y : ℤ) (n m : ℕ) (color : GfxColor) :
    Paints (fun i => ∃ px py, (⟨x, y, n, m⟩ : GfxRect).Has px py ∧ i = py * da.w + px) color da.fb
      (fillRows da (y * da.w + x) n m color) := by
  apply (fillRows_paints da (y * da.w + x) n m color).congr
  intro i
  constructor
  · rintro ⟨k, hk, hlo, hhi⟩
    have hrow : (y + k) * (da.w : ℤ) = y * da.w + k * da.w := Int.add_mul _ _ _
    refine ⟨i - (y + k) * da.w, y + k, ⟨?_, ?_⟩, by omega⟩
    · simp only
      omega
    · simp only
      omega
  · rintro ⟨px, py, ⟨hpx, hpy⟩, rfl⟩
    simp only at hpx hpy
    refine ⟨(py - y).toNat, by omega, ?_⟩
    have hrow : y * da.w + ((py - y).toNat : ℤ) * da.w = py * da.w := by
      rw [← Int.add_mul]
      congr 1
      omega
    constructor <;> omega

/-- If no assertion fails, the pixels that show are filled. -/
theorem gfxRectXy_drew (hw : 0 < w) (hh : 0 < h) (hd : gfxRectXy da x y w h color = some da') :
    Drew (fun px py => (⟨x, y, w, h⟩ : GfxRect).Has px py ∧ Shows da px py) color da da' := by
  unfold gfxRectXy at hd
  rw [if_neg (by omega)] at hd
  cases hc : da.clipped ⟨x, y, w, h⟩ with
  | none =>
      rw [hc] at hd
      obtain rfl := Option.some.inj hd
      exact .refl da fun px py => clipped_none hc
  | some r =>
      obtain ⟨x', y', w', h'⟩ := r
      rw [hc] at hd
      simp only at hd
      split at hd
      · cases hd
      split at hd
      · cases hd
      split at hd
      · cases hd
      next hpos _ _ =>
        obtain ⟨hw0, hh0⟩ := not_not.mp hpos
        obtain ⟨n, rfl⟩ := Int.eq_ofNat_of_zero_le hw0
        obtain ⟨m, rfl⟩ := Int.eq_ofNat_of_zero_le hh0
        by_cases he : (n : ℤ) ≤ 0 ∨ (m : ℤ) ≤ 0
        · have hnone : ∀ px py, ¬ ((⟨x, y, w, h⟩ : GfxRect).Has px py ∧ Shows da px py) := by
            intro px py hp
            exact GfxRect.not_has_of_empty he ((clipped_some hc).mpr hp)
          have hsame : fillRows da (unsigned (y' * da.w) + x') n m color = da.fb := by
            funext i
            apply (fillRows_paints da _ n m color).changesOnly
            rintro ⟨k, hk, h1, h2⟩
            omega
          rw [hsame, damage, if_pos he] at hd
          obtain rfl := Option.some.inj hd
          exact .refl da hnone
        · have hclip := clipped_clipped hc (show 0 < (n : ℤ) by omega) (show 0 < (m : ℤ) by omega)
          have hclip' : GfxDrawable.clipped { da with
              fb := fillRows da (unsigned (y' * da.w) + x') n m color } ⟨x', y', n, m⟩ =
              some ⟨x', y', n, m⟩ := hclip
          rcases damage_cases hclip' hd with ⟨he', -⟩ | ⟨hin, rfl⟩
          · exact absurd he' he
          · have hx := hin.horizontal
            have hy := hin.vertical
            simp only at hx hy
            have hrow : unsigned (y' * da.w) = y' * da.w := unsigned_row ⟨hy.1, by omega⟩
            have hpaints := fillRows_drew da x' y' n m color
            rw [← hrow] at hpaints
            refine ⟨rfl, rfl, rfl, rfl, ?_, ?_⟩
            · intro px py hp
              obtain ⟨h1, h2⟩ := (clipped_some hc).mpr hp
              simp only at h1 h2
              exact ⟨by omega, by omega⟩
            · apply hpaints.congr
              intro i
              simp only [clipped_some hc]

/-- No assertion fails inside the drawable. -/
theorem gfxRectXy_boxed (hw : 0 < w) (hh : 0 < h) (hb : Boxed da ⟨x, y, w, h⟩) :
    gfxRectXy da x y w h color ≠ none := by
  unfold gfxRectXy
  rw [if_neg (by omega)]
  cases hc : da.clipped ⟨x, y, w, h⟩ with
  | none => simp
  | some r =>
      obtain ⟨hx, hy⟩ := clipped_boxed hw hh hb hc
      obtain ⟨x', y', w', h'⟩ := r
      simp only at hx hy ⊢
      rw [if_neg (by omega), if_neg (by omega), if_neg (by omega)]
      by_cases he : w' ≤ 0 ∨ h' ≤ 0
      · rw [damage, if_pos he]
        simp
      · have hclip := clipped_clipped hc (show 0 < w' by omega) (show 0 < h' by omega)
        have hclip' : GfxDrawable.clipped { da with
            fb := fillRows da (unsigned (y' * da.w) + x') w' h' color } ⟨x', y', w', h'⟩ =
            some ⟨x', y', w', h'⟩ := hclip
        rw [damage, if_neg he, hclip']
        simp only
        rw [if_neg (by omega), if_neg (by omega), if_neg (by omega), if_neg (by omega)]
        split <;> simp

theorem Drew.boxed {r : GfxRect} (hd : Drew P color da da') : Boxed da' r ↔ Boxed da r := by
  constructor
  · rintro ⟨hx, hy, hclip⟩
    rw [hd.w] at hx
    rw [hd.h] at hy
    rw [hd.clipping, hd.clip] at hclip
    exact ⟨hx, hy, hclip⟩
  · rintro ⟨hx, hy, hclip⟩
    refine ⟨?_, ?_, ?_⟩
    · rw [hd.w]
      exact hx
    · rw [hd.h]
      exact hy
    · rw [hd.clipping, hd.clip]
      exact hclip

theorem Drew.shows (hd : Drew P color da da') : Shows da' px py ↔ Shows da px py := by
  rw [Shows, Shows, hd.clipping, hd.clip]

/-! ## Runs -/

/-- How a computation ends: with a result, or with an assertion that fails. -/
def Ends {α : Type} (Q : α → Prop) (bad : Prop) : Except Fault α → Prop
  | .ok a => Q a
  | .error fault => fault = .assertion ∧ bad

theorem Ends.bind {α β : Type} {Q : α → Prop} {Q' : β → Prop} {bad : Prop} {e : Except Fault α}
    {f : α → Except Fault β} (he : Ends Q bad e) (hf : ∀ a, Q a → Ends Q' bad (f a)) :
    Ends Q' bad (e >>= f) := by
  cases e with
  | ok a => exact hf a he
  | error fault => exact he

theorem Ends.mono {α : Type} {Q Q' : α → Prop} {bad bad' : Prop} {e : Except Fault α}
    (he : Ends Q bad e) (hQ : ∀ a, Q a → Q' a) (hbad : bad → bad') : Ends Q' bad' e := by
  cases e with
  | ok a => exact hQ a he
  | error fault => exact ⟨he.1, hbad he.2⟩

variable {x0 y0 : ℤ} {c : Character} {pen : Pen} {on : Bool} {n k : ℕ} {l l' : List Bool}

/-- The pixels of a list, from position `k` on in rows of `w` pixels, that are set and show. -/
def Lit (x0 y0 : ℤ) (w k : ℕ) (l : List Bool) (da : GfxDrawable) (px py : ℤ) : Prop :=
  ∃ j, l[j]? = some true ∧ px = x0 + ((k + j) % w : ℕ) ∧ py = y0 + ((k + j) / w : ℕ) ∧
    Shows da px py

theorem lit_append {w : ℕ} : Lit x0 y0 w k (l ++ l') da px py ↔
    Lit x0 y0 w k l da px py ∨ Lit x0 y0 w (k + l.length) l' da px py := by
  constructor
  · rintro ⟨j, hj, hrest⟩
    by_cases hlt : j < l.length
    · rw [List.getElem?_append_left hlt] at hj
      exact .inl ⟨j, hj, hrest⟩
    · rw [List.getElem?_append_right (by omega)] at hj
      refine .inr ⟨j - l.length, hj, ?_⟩
      rw [Nat.add_assoc, Nat.add_sub_cancel' (by omega)]
      exact hrest
  · rintro (⟨j, hj, hrest⟩ | ⟨j, hj, hrest⟩)
    · have hlt : j < l.length := (List.getElem?_eq_some_iff.mp hj).1
      exact ⟨j, by rw [List.getElem?_append_left hlt]; exact hj, hrest⟩
    · refine ⟨l.length + j, ?_, ?_⟩
      · rw [List.getElem?_append_right (by omega), Nat.add_sub_cancel_left]
        exact hj
      · rw [← Nat.add_assoc]
        exact hrest

theorem not_lit_false {w : ℕ} : ¬ Lit x0 y0 w k (List.replicate n false) da px py := by
  rintro ⟨j, hj, -⟩
  rw [List.getElem?_replicate] at hj
  split at hj <;> simp at hj

theorem Drew.lit {w : ℕ} (hd : Drew P color da da') :
    Lit x0 y0 w k l da' px py ↔ Lit x0 y0 w k l da px py := by
  simp only [Lit, hd.shows]

/-- The positions of the pen. -/
def Pen.at (pen : Pen) (w : ℕ) : ℕ := w * pen.y + pen.x

/-- A run within one row is a rectangle of this row. -/
theorem lit_row {w : ℕ} (hx : pen.x + n ≤ w) :
    Lit x0 y0 w (pen.at w) (List.replicate n true) da px py ↔
      (⟨x0 + pen.x, y0 + pen.y, n, 1⟩ : GfxRect).Has px py ∧ Shows da px py := by
  have hpos : ∀ j < n, (pen.at w + j) % w = pen.x + j ∧ (pen.at w + j) / w = pen.y := by
    intro j hj
    have hlt : pen.x + j < w := by omega
    rw [Pen.at, Nat.add_assoc, Nat.mul_add_mod, Nat.mod_eq_of_lt hlt, Nat.mul_add_div (by omega),
      Nat.div_eq_of_lt hlt]
    exact ⟨rfl, rfl⟩
  constructor
  · rintro ⟨j, hj, rfl, rfl, hs⟩
    rw [List.getElem?_replicate] at hj
    split at hj
    · next hlt =>
        obtain ⟨h1, h2⟩ := hpos j hlt
        refine ⟨⟨?_, ?_⟩, hs⟩
        · simp only [h1]
          omega
        · simp only [h2]
          omega
    · cases hj
  · rintro ⟨⟨hpx, hpy⟩, hs⟩
    simp only at hpx hpy
    obtain ⟨h1, h2⟩ := hpos (px - (x0 + pen.x)).toNat (by omega)
    refine ⟨(px - (x0 + pen.x)).toNat, ?_, ?_, ?_, hs⟩
    · rw [List.getElem?_replicate, if_pos (by omega)]
    · rw [h1]
      omega
    · rw [h2]
      omega

/-- The box has coordinates that are integers of 32 bits. -/
structure Placed (x0 y0 : ℤ) (w h : ℕ) : Prop where
  left : -2 ^ 31 ≤ x0
  right : x0 + w ≤ 2 ^ 31
  top : -2 ^ 31 ≤ y0
  bottom : y0 + h ≤ 2 ^ 31

theorem row_ends {w h : ℕ} (hp : Placed x0 y0 w h) (hx : pen.x + n ≤ w) (hy : pen.y < h)
    (hn : on = true → 0 < n) :
    Ends (fun pen' => (pen'.x = pen.x ∧ pen'.y = pen.y) ∧
        Drew (Lit x0 y0 w (pen.at w) (List.replicate n on) pen.da) color pen.da pen'.da)
      (¬ Boxed pen.da ⟨x0, y0, w, h⟩) (pen.row x0 y0 on n color) := by
  obtain ⟨hleft, hright, htop, hbottom⟩ := hp
  cases on with
  | false => exact ⟨⟨rfl, rfl⟩, .refl _ fun _ _ => not_lit_false⟩
  | true =>
      have hpos := hn rfl
      have hsx : signed (x0 + pen.x) = x0 + pen.x := signed_of_mem (by omega)
      have hsy : signed (y0 + pen.y) = y0 + pen.y := signed_of_mem (by omega)
      simp only [Pen.row, if_true, hsx, hsy]
      cases hd : gfxRectXy pen.da (x0 + pen.x) (y0 + pen.y) n 1 color with
      | none =>
          refine ⟨rfl, fun hb => ?_⟩
          have hbox : Boxed pen.da ⟨x0 + pen.x, y0 + pen.y, n, 1⟩ := by
            obtain ⟨h1, h2, hclip⟩ := hb
            simp only at h1 h2
            refine ⟨?_, ?_, hclip⟩
            · simp only
              omega
            · simp only
              omega
          exact gfxRectXy_boxed (by omega) Int.one_pos hbox hd
      | some da =>
          refine ⟨⟨rfl, rfl⟩, ?_⟩
          apply (gfxRectXy_drew (by omega) Int.one_pos hd).congr
          intro px py
          exact (lit_row hx).symm

theorem Drew.append {w : ℕ} {da'' : GfxDrawable}
    (hd : Drew (Lit x0 y0 w k l da) color da da')
    (hd' : Drew (Lit x0 y0 w (k + l.length) l' da') color da' da'') :
    Drew (Lit x0 y0 w k (l ++ l') da) color da da'' := by
  apply (hd.trans hd').congr
  intro px py
  rw [lit_append, hd.lit]

/-- The rows that a run fills up are drawn, and what is left of it does not reach the end of a
row. -/
theorem rowLoop_ends {w h more fuel : ℕ} (hp : Placed x0 y0 w h) (hx : pen.x < w)
    (hk : pen.at w + more ≤ w * h) (hfuel : more < fuel) :
    Ends (fun r => r.2.x + r.1 < w ∧ r.1 ≤ more ∧ r.2.at w + r.1 = pen.at w + more ∧
        Drew (Lit x0 y0 w (pen.at w) (List.replicate (more - r.1) on) pen.da) color pen.da r.2.da)
      (¬ Boxed pen.da ⟨x0, y0, w, h⟩) (rowLoop fuel x0 y0 w on color more pen) := by
  induction fuel generalizing more pen with
  | zero => omega
  | succ fuel ih =>
      simp only [rowLoop]
      by_cases hlong : pen.x + more ≥ w
      · rw [if_pos hlong]
        have hy : pen.y < h := by
          by_contra hy
          have hle : w * h ≤ w * pen.y := Nat.mul_le_mul_left w (by omega)
          rw [Pen.at] at hk
          omega
        refine (row_ends (n := w - pen.x) hp (by omega) hy fun _ => by omega).bind ?_
        rintro pen' ⟨⟨-, hy'⟩, hd⟩
        let next : Pen := { pen' with x := 0, y := pen'.y + 1 }
        have hat : next.at w = pen.at w + (w - pen.x) := by
          simp only [next, Pen.at, hy', Nat.mul_add]
          omega
        have hmore : next.at w + (more - (w - pen.x)) = pen.at w + more := by
          rw [hat]
          omega
        have hnext : Ends _ (¬ Boxed next.da ⟨x0, y0, w, h⟩)
            (rowLoop fuel x0 y0 w on color (more - (w - pen.x)) next) :=
          @ih next (more - (w - pen.x)) (Nat.zero_lt_of_lt hx) (by rw [hmore]; exact hk) (by omega)
        refine hnext.mono ?_ fun hb hbox => hb (hd.boxed.mpr hbox)
        rintro r ⟨hx', hle, hat', hd'⟩
        refine ⟨hx', by omega, hat'.trans hmore, ?_⟩
        have hsplit : List.replicate (more - r.1) on = List.replicate (w - pen.x) on ++
            List.replicate (more - (w - pen.x) - r.1) on := by
          rw [← List.replicate_add]
          congr 1
          omega
        rw [hsplit]
        apply hd.append
        rw [List.length_replicate, ← hat]
        exact hd'
      · rw [if_neg hlong]
        refine ⟨show pen.x + more < w by omega, Nat.le_refl _, rfl, .refl _ ?_⟩
        rintro px py ⟨j, hj, -⟩
        simp at hj

/-- One round of the main loop draws a run. -/
theorem round_ends {more fuel : ℕ} (hp : Placed x0 y0 c.w.toNat c.h.toNat)
    (hx : pen.x < c.w.toNat) (hk : pen.at c.w.toNat + more ≤ c.w.toNat * c.h.toNat)
    (hfuel : c.w.toNat * c.h.toNat < fuel) :
    Ends (fun pen' => pen'.x < c.w.toNat ∧ pen'.at c.w.toNat = pen.at c.w.toNat + more ∧
        Drew (Lit x0 y0 c.w.toNat (pen.at c.w.toNat) (List.replicate more on) pen.da) color
          pen.da pen'.da)
      (¬ Boxed pen.da ⟨x0, y0, c.w.toNat, c.h.toNat⟩) (do
        let (more, pen) ← rowLoop fuel x0 y0 c.w.toNat on color more pen
        let pen ← pen.row x0 y0 (on && more ≠ 0) more color
        return { pen with x := pen.x + more }) := by
  refine (rowLoop_ends hp hx hk (by omega)).bind ?_
  rintro ⟨left, pen'⟩ ⟨hx', hle, hat, hd⟩
  simp only at hx' hle hat hd ⊢
  have hdrop : List.replicate left on = List.replicate left (on && left ≠ 0) := by
    cases left with
    | zero => rfl
    | succ left => simp
  have hon : (on && left ≠ 0) = true → 0 < left := by
    intro h
    simp only [Bool.and_eq_true, decide_eq_true_eq] at h
    exact Nat.pos_of_ne_zero h.2
  have hdone : ∀ pen'' : Pen, pen''.x = pen'.x → pen''.y = pen'.y →
      Drew (Lit x0 y0 c.w.toNat (pen'.at c.w.toNat) (List.replicate left on) pen'.da) color
        pen'.da pen''.da →
      pen''.x + left < c.w.toNat ∧
        Pen.at { pen'' with x := pen''.x + left } c.w.toNat = pen.at c.w.toNat + more ∧
        Drew (Lit x0 y0 c.w.toNat (pen.at c.w.toNat) (List.replicate more on) pen.da) color
          pen.da pen''.da := by
    intro pen'' h1 h2 hd'
    refine ⟨by omega, ?_, ?_⟩
    · rw [← hat]
      simp only [Pen.at, h1, h2]
      omega
    · have hsplit : List.replicate more on =
          List.replicate (more - left) on ++ List.replicate left on := by
        rw [← List.replicate_add]
        congr 1
        omega
      rw [hsplit]
      apply hd.append
      rw [List.length_replicate, show pen.at c.w.toNat + (more - left) = pen'.at c.w.toNat by omega]
      exact hd'
  by_cases hleft : left = 0
  · subst hleft
    simp only [ne_eq, not_true_eq_false, decide_false, Bool.and_false]
    refine hdone pen' rfl rfl (.refl _ ?_)
    rintro px py ⟨j, hj, -⟩
    simp at hj
  · have hy : pen'.y < c.h.toNat := by
      by_contra hy
      have hle : c.w.toNat * c.h.toNat ≤ c.w.toNat * pen'.y := Nat.mul_le_mul_left _ (by omega)
      rw [Pen.at] at hat
      omega
    refine Ends.bind ((row_ends hp (by omega) hy hon).mono (fun _ h => h) ?_) ?_
    · exact fun hb hbox => hb (hd.boxed.mpr hbox)
    · rintro pen'' ⟨⟨h1, h2⟩, hd'⟩
      rw [← hdrop] at hd'
      exact hdone pen'' h1 h2 hd'

theorem charLoop_round {on' : Bool} {more fuel : ℕ} {r r' : Reader}
    (hnext : nextSpan fuel c.bits on r = .ok ((on', more), r')) (hx : pen.x ≠ c.w.toNat)
    (hy : pen.y ≠ c.h.toNat) :
    charLoop fuel x0 y0 c color (n + 1) on r pen = (do
      let (more, pen) ← rowLoop fuel x0 y0 c.w.toNat on' color more pen
      let pen ← pen.row x0 y0 (on' && more ≠ 0) more color
      return { pen with x := pen.x + more } : Except Fault Pen) >>=
        charLoop fuel x0 y0 c color n (!on') r' := by
  rw [charLoop, if_pos ⟨hx, hy⟩, hnext]
  simp only [bind_assoc, pure_bind]
  rfl

/-- The main loop draws the pixels of its runs, and stops at the end of the last row. -/
theorem charLoop_ends {spans : List (Bool × ℕ)} {r : Reader}
    (hp : Placed x0 y0 c.w.toNat c.h.toNat) (hsup : Supplies c.bits on r spans)
    (hpos : ∀ s ∈ spans, 0 < s.2) :
    ∃ N, ∀ pen fuel n, N ≤ fuel → spans.length < n → pen.x < c.w.toNat →
      pen.at c.w.toNat + (expand spans).length = c.w.toNat * c.h.toNat →
      Ends (Drew (Lit x0 y0 c.w.toNat (pen.at c.w.toNat) (expand spans) pen.da) color pen.da)
        (¬ Boxed pen.da ⟨x0, y0, c.w.toNat, c.h.toNat⟩)
        (charLoop fuel x0 y0 c color n on r pen) := by
  induction hsup with
  | nil =>
      refine ⟨0, fun pen fuel n _ hn hx hk => ?_⟩
      have hw : 0 < c.w.toNat := Nat.zero_lt_of_lt hx
      obtain ⟨n, rfl⟩ := Nat.exists_eq_add_of_lt hn
      have hend : pen.y = c.h.toNat := by
        have hdiv := congrArg (· / c.w.toNat) hk
        simp only [expand, List.flatMap_nil, List.length_nil, Nat.add_zero, Pen.at] at hdiv
        rw [Nat.mul_add_div hw, Nat.div_eq_of_lt hx, Nat.mul_div_cancel_left _ hw] at hdiv
        exact hdiv
      simp only [charLoop, hend, ne_eq, not_true_eq_false, and_false, if_false]
      refine .refl _ ?_
      rintro px py ⟨j, hj, -⟩
      simp [expand] at hj
  | @cons on r r' span spans k hnext hrest ih =>
      obtain ⟨on', more⟩ := span
      have hmore : 0 < more := hpos (on', more) (by simp)
      obtain ⟨N, hN⟩ := ih fun s hs => hpos s (by simp [hs])
      refine ⟨k + N + c.w.toNat * c.h.toNat + 1, fun pen fuel n hfuel hn hx hk => ?_⟩
      obtain ⟨n, rfl⟩ : ∃ m, n = m + 1 := ⟨n - 1, by omega⟩
      rw [expand_cons, List.length_append, List.length_replicate] at hk
      have hy : pen.y < c.h.toNat := by
        by_contra hy
        have hle : c.w.toNat * c.h.toNat ≤ c.w.toNat * pen.y := Nat.mul_le_mul_left _ (by omega)
        rw [Pen.at] at hk
        omega
      have hround := @round_ends color x0 y0 c pen on' more fuel hp hx (by omega) (by omega)
      rw [charLoop_round (hnext fuel (by omega)) hx.ne hy.ne]
      apply hround.bind
      rintro pen' ⟨hx', hat, hd⟩
      refine (hN pen' fuel n (by omega) (by simpa using hn) hx' (by omega)).mono ?_ ?_
      · intro da' hd'
        rw [expand_cons]
        apply hd.append
        rw [List.length_replicate, ← hat]
        exact hd'
      · exact fun hb hbox => hb (hd.boxed.mpr hbox)

/-! ## Glyphs -/

/-- The pixel is one of the glyph that are set, with its top left corner at the position. -/
def Sets (g : Glyph) (x0 y0 px py : ℤ) : Prop :=
  ∃ x y : ℕ, x < g.w ∧ y < g.h ∧ g.pixel x y = true ∧ px = x0 + x ∧ py = y0 + y

/-- `text_char` draws the pixels of the glyph that are set, as far as they show, and nothing
else. It never reads past the end of the data, its loops end, and no assertion fails if the glyph
is inside the drawable. -/
def Drawn (g : Glyph) (font : Font) (ch : UInt16) (da : GfxDrawable) (x1 y1 : ℤ)
    (color : GfxColor) : Prop :=
  ∃ N, ∀ fuel, N ≤ fuel →
    Ends (fun r => r.1 = UInt8.ofNat g.advance ∧
        Drew (fun px py => Sets g (x1 + g.ox) (y1 - (g.oy + g.h - 1)) px py ∧ Shows da px py)
          color da r.2)
      (¬ Boxed da ⟨x1 + g.ox, y1 - (g.oy + g.h - 1), g.w, g.h⟩)
      (textChar fuel da x1 y1 font ch color)

theorem lit_pixels {g : Glyph} : Lit x0 y0 g.w 0 g.pixels da px py ↔
    Sets g x0 y0 px py ∧ Shows da px py := by
  constructor
  · rintro ⟨j, hj, hpx, hpy, hs⟩
    rw [g.pixels_eq, List.getElem?_map] at hj
    obtain ⟨i, hi, hpixel⟩ := Option.map_eq_some_iff.mp hj
    obtain ⟨hlt, rfl⟩ := List.getElem?_eq_some_iff.mp hi
    rw [List.getElem_range] at hpixel
    rw [List.length_range] at hlt
    rw [Nat.zero_add] at hpx hpy
    have hw : 0 < g.w := Nat.pos_of_lt_mul_right hlt
    exact ⟨⟨j % g.w, j / g.w, Nat.mod_lt _ hw, Nat.div_lt_of_lt_mul hlt, hpixel, hpx, hpy⟩, hs⟩
  · rintro ⟨⟨x, y, hx, hy, hpixel, hpx, hpy⟩, hs⟩
    have hmod : (g.w * y + x) % g.w = x := by rw [Nat.mul_add_mod, Nat.mod_eq_of_lt hx]
    have hdiv : (g.w * y + x) / g.w = y := by
      rw [Nat.mul_add_div (by omega), Nat.div_eq_of_lt hx, Nat.add_zero]
    have hlt : g.w * y + x < g.w * g.h := by
      have hle : g.w * (y + 1) ≤ g.w * g.h := Nat.mul_le_mul_left _ hy
      rw [Nat.mul_succ] at hle
      omega
    refine ⟨g.w * y + x, ?_, ?_, ?_, hs⟩
    · rw [g.pixels_eq, List.getElem?_map, List.getElem?_range hlt, Option.map_some, hmod, hdiv,
        hpixel]
    · rw [Nat.zero_add, hmod, hpx]
    · rw [Nat.zero_add, hdiv, hpy]

theorem not_sets {g : Glyph} (h : g.w = 0 ∨ g.h = 0) : ¬ Sets g x0 y0 px py := by
  rintro ⟨x, y, hx, hy, -⟩
  omega

/-- The fields of a character are those of its glyph, cut to their types. -/
theorem character_fields (g : Glyph) :
    (character g).w = UInt8.ofNat g.w ∧ (character g).h = UInt8.ofNat g.h ∧
      (character g).ox = Int8.ofInt g.ox ∧ (character g).oy = Int8.ofInt g.oy ∧
      (character g).advance = UInt8.ofNat g.advance := by
  unfold character
  split <;> exact ⟨rfl, rfl, rfl, rfl, rfl⟩

theorem charLoop_empty {fuel : ℕ} {r : Reader} (h : c.w.toNat = 0) (hfuel : 0 < fuel) :
    charLoop fuel x0 y0 c color fuel on r ⟨0, 0, da⟩ = .ok da := by
  obtain ⟨n, rfl⟩ := Nat.exists_eq_add_of_lt hfuel
  rw [charLoop, if_neg fun hne => hne.1 h.symm]
  rfl

/-- Nothing is drawn for a character that has no columns. -/
theorem textChar_empty {font : Font} {ch : UInt16} {x1 y1 : ℤ} {fuel : ℕ}
    (hfont : fontFindChar font ch = some c) (h : c.w.toNat = 0) (hfuel : 0 < fuel) :
    textChar fuel da x1 y1 font ch color = .ok (c.advance, da) := by
  unfold textChar
  rw [hfont]
  simp only [charLoop_empty h hfuel]
  split <;> rfl

theorem Drawn.drew {g : Glyph} {font : Font} {ch : UInt16} {x1 y1 : ℤ} {r : UInt8 × GfxDrawable}
    (hd : Drawn g font ch da x1 y1 color)
    (hr : ∀ fuel, 0 < fuel → textChar fuel da x1 y1 font ch color = .ok r) :
    Drew (fun px py => Sets g (x1 + g.ox) (y1 - (g.oy + g.h - 1)) px py ∧ Shows da px py) color
      da r.2 := by
  obtain ⟨N, hN⟩ := hd
  have hends := hN (N + 1) (Nat.le_succ N)
  rw [hr (N + 1) (Nat.succ_pos N)] at hends
  exact hends.2

/-- Glyphs whose sizes and offsets fit into the fields of a character are drawn. -/
theorem textChar_draws (g : Glyph) (font : Font) (ch : UInt16) (da : GfxDrawable) (x1 y1 : ℤ)
    (color : GfxColor) (hfont : fontFindChar font ch = some (character g))
    (hw : g.w < 2 ^ 8) (hh : g.h < 2 ^ 8) (hox : -2 ^ 7 ≤ g.ox ∧ g.ox < 2 ^ 7)
    (hoy : -2 ^ 7 ≤ g.oy ∧ g.oy < 2 ^ 7) (hpatch : (0, 0) ∉ g.patch)
    (hp : Placed (x1 + g.ox) (y1 - (g.oy + g.h - 1)) g.w g.h) :
    Drawn g font ch da x1 y1 color := by
  obtain ⟨hcw, hch, hcx, hcy, hca⟩ := character_fields g
  have hw' : (character g).w.toNat = g.w := by
    rw [hcw]
    exact UInt8.toNat_ofNat_of_lt' hw
  have hh' : (character g).h.toNat = g.h := by
    rw [hch]
    exact UInt8.toNat_ofNat_of_lt' hh
  have hx' : (character g).ox.toInt = g.ox := by
    rw [hcx]
    exact Int8.toInt_ofInt_of_le hox.1 hox.2
  have hy' : (character g).oy.toInt = g.oy := by
    rw [hcy]
    exact Int8.toInt_ofInt_of_le hoy.1 hoy.2
  by_cases hw0 : g.w = 0
  · refine ⟨1, fun fuel hfuel => ?_⟩
    rw [textChar_empty hfont (hw'.trans hw0) hfuel]
    exact ⟨hca, .refl da fun _ _ h => not_sets (.inl hw0) h.1⟩
  by_cases hh0 : g.h = 0
  · refine ⟨0, fun fuel _ => ?_⟩
    have hlines : g.lines = [] := List.length_eq_zero_iff.mp (g.lines_length.trans hh0)
    have hbits : (character g).bits = 0 := by simp [character, hlines]
    rw [textChar, hfont]
    simp only [hbits, if_true]
    exact ⟨hca, .refl da fun _ _ h => not_sets (.inr hh0) h.1⟩
  have hwpos : 0 < g.w := Nat.pos_of_ne_zero hw0
  have hhpos : 0 < g.h := Nat.pos_of_ne_zero hh0
  have hsize : g.w * g.h < 2 ^ 16 - 1 := by
    have hle : g.w * g.h ≤ 255 * 255 := Nat.mul_le_mul (by omega) (by omega)
    omega
  obtain ⟨hbits, spans, hpos, hexpand, hsup⟩ := character_supplies hwpos hhpos hpatch hsize
  rw [← hw', ← hh'] at hp
  obtain ⟨N, hN⟩ := @charLoop_ends color _ _ (character g) _ spans _ hp hsup hpos
  refine ⟨N + spans.length + 1, fun fuel hfuel => ?_⟩
  have hlen : Pen.at ⟨0, 0, da⟩ (character g).w.toNat + (expand spans).length =
      (character g).w.toNat * (character g).h.toNat := by
    rw [hexpand, g.pixels_length, hw', hh', Pen.at, Nat.mul_zero, Nat.zero_add]
    exact Nat.zero_add _
  have hloop := hN ⟨0, 0, da⟩ fuel fuel (by omega) (by omega) (by rw [hw']; exact hwpos) hlen
  rw [textChar, hfont]
  simp only [hbits, if_false, hx', hy', hh']
  rw [hh', hw', hexpand] at hloop
  apply hloop.bind
  intro da' hd
  refine ⟨hca, hd.congr fun px py => ?_⟩
  exact lit_pixels

def canvas : GfxDrawable := gfxDaInit 8 4 (fun _ => 0) ⟨0, 0, 0, 0⟩ ⟨0, 0, 0, 0⟩ (by decide)

/-- A corner of three pixels, of which one is patched. -/
def cornerGlyph : Glyph where
  code := 65
  w := 2
  h := 2
  ox := 1
  oy := -1
  advance := 3
  lines := [[0x80], [0x80]]
  patch := [(1, 1)]
  lines_length := rfl
  line_length := by decide

theorem cornerGlyph_found :
    fontFindChar [character cornerGlyph] 65 = some (character cornerGlyph) := by rfl

theorem textChar_draws_corner :
    Drawn cornerGlyph [character cornerGlyph] 65 canvas 3 1 1 := by
  have hp : Placed (3 + cornerGlyph.ox) (1 - (cornerGlyph.oy + cornerGlyph.h - 1)) cornerGlyph.w
      cornerGlyph.h := ⟨by decide, by decide, by decide, by decide⟩
  exact textChar_draws cornerGlyph [character cornerGlyph] 65 canvas 3 1 1 cornerGlyph_found
    (by decide) (by decide) (by decide) (by decide) (by decide) hp

/-- A line of 256 pixels. The width of its character is zero. -/
def wideGlyph : Glyph where
  code := 45
  w := 256
  h := 1
  ox := 0
  oy := 0
  advance := 255
  lines := [List.replicate 32 255]
  patch := []
  lines_length := rfl
  line_length := by simp

/-- A glyph of more than 255 columns loses its pixels. -/
theorem textChar_draws_fails : ¬ Drawn wideGlyph [character wideGlyph] 45 canvas 0 0 1 := by
  intro hdrawn
  have hfont : fontFindChar [character wideGlyph] 45 = some (character wideGlyph) := by
    have hcode : (character wideGlyph).code = 45 := by
      unfold character
      split <;> rfl
    simp [fontFindChar, hcode]
  have hw : (character wideGlyph).w.toNat = 0 := by
    rw [(character_fields wideGlyph).1]
    rfl
  have hd := hdrawn.drew fun fuel hfuel => textChar_empty hfont hw hfuel
  have hset : Sets wideGlyph (0 + wideGlyph.ox) (0 - (wideGlyph.oy + wideGlyph.h - 1)) 0 0 :=
    ⟨0, 0, by decide, by decide, by decide, rfl, rfl⟩
  have hpixel := hd.paints.1 0 ⟨0, 0, ⟨hset, fun h => by cases h⟩, rfl⟩
  exact absurd hpixel (by decide)

end Sunela.Text
