import Sunela.Verification.Font.Drawing

/-! # Clipped drawing

When a rectangle or a disc is drawn as far as it is inside the clip rectangle, and nothing
else. -/

namespace Sunela.Gfx

open Memory Text

variable {da da' : GfxDrawable} {clip : GfxRect} {x y w h px py : ℤ} {color : GfxColor}

/-- The drawing paints what is inside of the clip rectangle, whatever the memory contains. -/
def DrawsClipped (P : ℤ → ℤ → Prop) (color : GfxColor) (da : GfxDrawable)
    (draw : GfxDrawable → Option GfxDrawable) : Prop :=
  ∀ fb, ∃ da', draw { da with fb } = some da' ∧ Paints
    (fun i => ∃ px py, (P px py ∧ da.clip.Has px py) ∧ i = py * da.w + px) color fb da'.fb

/-- A clip rectangle that `gfx_clip` accepts. -/
structure Clips (da : GfxDrawable) : Prop where
  clipping : da.clipping = true
  left : 0 ≤ da.clip.x
  top : 0 ≤ da.clip.y
  right : da.clip.x + da.clip.w ≤ da.w
  bottom : da.clip.y + da.clip.h ≤ da.h

theorem gfxClip_clips (hc : gfxClip da (some clip) = some da') : Clips da' := by
  rw [gfxClip] at hc
  split at hc
  · cases hc
  split at hc
  · cases hc
  split at hc
  · cases hc
  next hpos hsize =>
    obtain rfl := Option.some.inj hc
    obtain ⟨hx, hy⟩ := not_not.mp hpos
    obtain ⟨hw, hh⟩ := not_not.mp hsize
    exact ⟨rfl, hx, hy, hw, hh⟩

/-- The clip rectangle is not inside out. -/
def Upright (da : GfxDrawable) : Prop := 0 ≤ da.clip.w ∧ 0 ≤ da.clip.h

/-- The box and the clip rectangle pass each other, as far as `damage` can tell. -/
def Passes (da : GfxDrawable) (x y w h : ℤ) : Prop :=
  x ≥ da.clip.x + da.clip.w ∨ x + w ≤ da.clip.x ∨ y ≥ da.clip.y + da.clip.h ∨ y + h ≤ da.clip.y

theorem clipAxis_of {clip size : ℤ} (hlo : x < clip + size) (hhi : clip < x + w) :
    clipAxis clip size x w =
      some (max x clip, min (x + w) (clip + size) - max x clip) := by
  rw [clipAxis, if_neg (by omega), if_neg (by omega)]
  simp only [Option.some.injEq, Prod.mk.injEq]
  constructor
  · split <;> omega
  · split <;> split <;> omega

theorem clipAxis_passes {clip size : ℤ} (hp : x ≥ clip + size ∨ x + w ≤ clip) :
    clipAxis clip size x w = none := by
  rw [clipAxis]
  by_cases hlo : x ≥ clip + size
  · rw [if_pos hlo]
  · rw [if_neg hlo, if_pos (hp.resolve_left hlo)]

theorem clipped_passes (hc : Clips da) (hp : Passes da x y w h) :
    da.clipped ⟨x, y, w, h⟩ = none := by
  rw [GfxDrawable.clipped, if_pos hc.clipping]
  by_cases hx : x ≥ da.clip.x + da.clip.w ∨ x + w ≤ da.clip.x
  · rw [clipAxis_passes hx]
    rfl
  · have hy : y ≥ da.clip.y + da.clip.h ∨ y + h ≤ da.clip.y := by
      rw [Passes] at hp
      omega
    rw [clipAxis_passes hy]
    cases clipAxis da.clip.x da.clip.w x w <;> rfl

/-- The part of a box that is inside the clip rectangle. -/
def part (da : GfxDrawable) (x y w h : ℤ) : GfxRect where
  x := max x da.clip.x
  y := max y da.clip.y
  w := min (x + w) (da.clip.x + da.clip.w) - max x da.clip.x
  h := min (y + h) (da.clip.y + da.clip.h) - max y da.clip.y

theorem clipped_part (hc : Clips da) (hp : ¬ Passes da x y w h) :
    da.clipped ⟨x, y, w, h⟩ = some (part da x y w h) := by
  rw [Passes] at hp
  have hx : clipAxis da.clip.x da.clip.w x w = _ := clipAxis_of (by omega) (by omega)
  have hy : clipAxis da.clip.y da.clip.h y h = _ := clipAxis_of (by omega) (by omega)
  rw [GfxDrawable.clipped, if_pos hc.clipping, hx, hy]
  rfl

/-! ## Damage -/

theorem damage_fb (hd : damage da x y w h = some da') : da'.fb = da.fb := by
  rw [damage] at hd
  split at hd
  · exact congrArg GfxDrawable.fb (Option.some.inj hd).symm
  split at hd
  · exact congrArg GfxDrawable.fb (Option.some.inj hd).symm
  split at hd
  · cases hd
  split at hd
  · cases hd
  split at hd
  · cases hd
  split at hd
  · exact congrArg GfxDrawable.fb (Option.some.inj hd).symm
  split at hd
  · cases hd
    rfl
  · cases hd
    rfl

theorem ite_none_ne_none {α : Type} {c : Prop} [Decidable c] {o : Option α} :
    (if c then none else o) ≠ none ↔ ¬ c ∧ o ≠ none := by
  by_cases hc : c
  · simp [hc]
  · simp [hc]

theorem ite_some_ne_none {α : Type} {c : Prop} [Decidable c] {a : α} {o : Option α} :
    (if c then some a else o) ≠ none ↔ c ∨ o ≠ none := by
  by_cases hc : c
  · simp [hc]
  · simp [hc]

/-- When no assertion of `damage` fails. -/
theorem damage_ne_none (hc : Clips da) (hw : 0 < w) (hh : 0 < h) :
    damage da x y w h ≠ none ↔ Passes da x y w h ∨ Upright da := by
  have hempty : ¬ (w ≤ 0 ∨ h ≤ 0) := by omega
  by_cases hp : Passes da x y w h
  · rw [damage, if_neg hempty, clipped_passes hc hp]
    exact iff_of_true (Option.some_ne_none da) (.inl hp)
  · rw [damage, if_neg hempty, clipped_part hc hp]
    obtain ⟨-, hleft, htop, hright, hbottom⟩ := hc
    simp only [hp, false_or, ite_none_ne_none, ite_some_ne_none]
    simp only [part, Upright, ne_eq, reduceCtorEq, not_false_eq_true, or_true, and_true]
    simp only [Passes, not_or] at hp
    omega

theorem damage_upright (hc : Clips da) (hu : Upright da) : damage da x y w h ≠ none := by
  by_cases he : w ≤ 0 ∨ h ≤ 0
  · rw [damage, if_pos he]
    exact Option.some_ne_none da
  · exact (damage_ne_none hc (by omega) (by omega)).mpr (.inr hu)

/-! ## Rectangles -/

/-- When a rectangle is drawn: the clip rectangle is not inside out, and does not begin beyond
the last column or row, unless the rectangle is empty or passes it. -/
def RectFits (da : GfxDrawable) (x y w h : ℤ) : Prop :=
  (w ≤ 0 ∨ h ≤ 0) ∨ Passes da x y w h ∨ Upright da ∧ da.clip.x < da.w ∧ da.clip.y < da.h

theorem gfxRectXy_ne_none (hc : Clips da) :
    gfxRectXy da x y w h color ≠ none ↔ RectFits da x y w h := by
  rw [RectFits]
  by_cases he : w ≤ 0 ∨ h ≤ 0
  · rw [gfxRectXy, if_pos he]
    exact iff_of_true (Option.some_ne_none da) (.inl he)
  by_cases hp : Passes da x y w h
  · rw [gfxRectXy, if_neg he, clipped_passes hc hp]
    exact iff_of_true (Option.some_ne_none da) (.inr (.inl hp))
  rw [gfxRectXy, if_neg he, clipped_part hc hp]
  have hdamage : Upright da → ∀ fb x y w h, damage { da with fb } x y w h ≠ none :=
    fun hu fb _ _ _ _ => damage_upright (Clips.mk hc.1 hc.2 hc.3 hc.4 hc.5) hu
  obtain ⟨-, hleft, htop, hright, hbottom⟩ := hc
  simp only [he, hp, false_or, ite_none_ne_none]
  simp only [part, Passes, not_or] at hp ⊢
  constructor
  · rintro ⟨hsize, hx, hy, -⟩
    rw [Upright]
    omega
  · rintro ⟨hu, hx, hy⟩
    have hsize := hu
    rw [Upright] at hsize
    exact ⟨by omega, by omega, by omega, hdamage hu _ _ _ _ _⟩

/-- A rectangle is drawn as far as it is inside the clip rectangle, if no assertion fails. -/
theorem gfxRectXy_drawsClipped (hc : Clips da) :
    DrawsClipped (GfxRect.Has ⟨x, y, w, h⟩) color da (gfxRectXy · x y w h color) ↔
      RectFits da x y w h := by
  have hfb : ∀ fb, Clips { da with fb } := fun fb => ⟨hc.1, hc.2, hc.3, hc.4, hc.5⟩
  constructor
  · intro hd
    obtain ⟨da', hsome, -⟩ := hd da.fb
    exact (gfxRectXy_ne_none hc).mp (hsome ▸ Option.some_ne_none da')
  · intro hfits fb
    obtain ⟨da', hsome⟩ := Option.ne_none_iff_exists'.mp
      ((gfxRectXy_ne_none (hfb fb)).mpr hfits)
    refine ⟨da', hsome, ?_⟩
    by_cases he : w ≤ 0 ∨ h ≤ 0
    · rw [gfxRectXy, if_pos he] at hsome
      obtain rfl := Option.some.inj hsome
      exact ⟨fun i ⟨_, _, hp, _⟩ => absurd hp.1 (GfxRect.not_has_of_empty he), .refl⟩
    · have hdrew := gfxRectXy_drew (by omega) (by omega) hsome
      exact hdrew.paints.congr fun i => by simp only [Shows, hc.clipping, forall_const]

/-! ## Discs -/

theorem discRow_paints (da : GfxDrawable) (x lo : ℤ) (n : ℕ) (dy2 r2 : ℤ) (color : GfxColor)
    (p : ℤ) (fb : Mem GfxColor) :
    Paints (fun a => ∃ i < n, (shownAt da.clipping da.clip.x da.clip.w (x + (lo + i)) = true ∧
        (lo + i) * (lo + i) + dy2 < r2) ∧ a = p + i) color fb
      (discRow da x lo n dy2 r2 color p fb) := by
  apply paints_loop
  intro i _ m
  dsimp only
  split
  next hs => exact (paints_update (p + i)).congr fun a => (and_iff_right hs).symm
  next hs => exact ⟨fun a ha => absurd ha.1 hs, .refl⟩

/-- Where the rows of `gfx_disc` are drawn from. -/
def discStart (da : GfxDrawable) (y lo : ℤ) (n : ℕ) (skip p : ℤ) : ℕ → ℤ
  | 0 => p
  | k + 1 => discStart da y lo n skip p k + skip +
      if shownAt da.clipping da.clip.y da.clip.h (y + (lo + k)) then n else 0

/-- A pixel of row `k`, if the row is drawn from `p` on. -/
def RowPixel (da : GfxDrawable) (x y lo r2 : ℤ) (n k : ℕ) (p a : ℤ) : Prop :=
  shownAt da.clipping da.clip.y da.clip.h (y + (lo + k)) = true ∧ ∃ i < n,
    (shownAt da.clipping da.clip.x da.clip.w (x + (lo + i)) = true ∧
      (lo + i) * (lo + i) + (lo + k) * (lo + k) < r2) ∧ a = p + i

theorem discLoop_paints (da : GfxDrawable) (x y lo skip r2 : ℤ) (color : GfxColor) (p : ℤ)
    (n m : ℕ) :
    let rows := loop m (fun i (s : ℤ × Mem GfxColor) =>
      let dy := lo + i
      if shownAt da.clipping da.clip.y da.clip.h (y + dy) then
        (s.1 + n + skip, discRow da x lo n (dy * dy) r2 color s.1 s.2)
      else (s.1 + skip, s.2)) (p, da.fb)
    rows.1 = discStart da y lo n skip p m ∧
      Paints (fun a => ∃ k < m, RowPixel da x y lo r2 n k (discStart da y lo n skip p k) a) color
        da.fb rows.2 := by
  induction m with
  | zero => exact ⟨rfl, fun a ⟨k, hk, _⟩ => absurd hk (Nat.not_lt_zero k), .refl⟩
  | succ m ih =>
      obtain ⟨hp, hpaints⟩ := ih
      simp only [loop_succ, discStart] at hp hpaints ⊢
      by_cases hs : shownAt da.clipping da.clip.y da.clip.h (y + (lo + m)) = true
      · simp only [if_pos hs]
        refine ⟨by rw [hp]; ring, ?_⟩
        apply (hpaints.trans (discRow_paints da x lo n _ r2 color _ _)).congr
        intro a
        rw [hp]
        constructor
        · rintro (⟨k, hk, ha⟩ | ha)
          · exact ⟨k, Nat.lt_succ_of_lt hk, ha⟩
          · exact ⟨m, Nat.lt_succ_self m, hs, ha⟩
        · rintro ⟨k, hk, ha⟩
          rcases Nat.lt_succ_iff_lt_or_eq.mp hk with hlt | rfl
          · exact .inl ⟨k, hlt, ha⟩
          · exact .inr ha.2
      · simp only [if_neg hs]
        refine ⟨by rw [hp]; simp, hpaints.congr fun a => ?_⟩
        constructor
        · rintro ⟨k, hk, ha⟩
          exact ⟨k, Nat.lt_succ_of_lt hk, ha⟩
        · rintro ⟨k, hk, ha⟩
          rcases Nat.lt_succ_iff_lt_or_eq.mp hk with hlt | rfl
          · exact ⟨k, hlt, ha⟩
          · exact absurd ha.1 hs

/-- The pixel is one of the disc. -/
def InDisc (x y : ℤ) (r : UInt32) (px py : ℤ) : Prop :=
  (px - x) * (px - x) + (py - y) * (py - y) < (r.toNat : ℤ) * r.toNat + r.toNat

/-- The sums and squares of a disc fit an `int`. -/
structure DiscFits (x y : ℤ) (r : UInt32) : Prop where
  squares : 2 * (r.toNat * r.toNat) < 2 ^ 31
  horizontal : -2 ^ 31 ≤ x - r.toNat ∧ x + r.toNat + 1 < 2 ^ 31
  vertical : -2 ^ 31 ≤ y - r.toNat ∧ y + r.toNat + 1 < 2 ^ 31

theorem DiscFits.radius {r : UInt32} (hf : DiscFits x y r) : r.toNat < 2 ^ 15 := by
  by_contra hr
  have hle : 2 ^ 15 * 2 ^ 15 ≤ r.toNat * r.toNat := Nat.mul_le_mul (by omega) (by omega)
  have hsq := hf.squares
  omega

/-- Where `gfx_disc` starts. -/
def discOrigin (da : GfxDrawable) (x y r : ℤ) : ℤ :=
  unsigned (unsigned (y - r) * da.w) + x - r

/-- Where `gfx_disc` draws the row at `py` from, and where it should. -/
def discShift (da : GfxDrawable) (x y r py : ℤ) : ℤ :=
  discStart da y (-r) (2 * r + 1).toNat (unsigned (da.w - 2 * r - 1)) (discOrigin da x y r)
    (py - y + r).toNat - (py * da.w + (x - r))

theorem gfxDisc_clipping (hc : da.clipping = true) {r : UInt32} (hf : DiscFits x y r) :
    gfxDisc da x y r color = damage { da with
      fb := (discRows da x y (-r.toNat) r.toNat (unsigned (da.w - 2 * r.toNat - 1))
        (r.toNat * r.toNat + r.toNat) color (discOrigin da x y r.toNat)).2 }
      (x - r.toNat) (y - r.toNat) (2 * r.toNat + 1) (2 * r.toNat + 1) := by
  have hr := hf.radius
  obtain ⟨-, hx, hy⟩ := hf
  rw [gfxDisc]
  simp only [hc, Bool.not_true, Bool.false_eq_true, false_and, if_false]
  have hneg : signed (-(r.toNat : ℤ)) = -r.toNat := signed_of_mem (by omega)
  have hpos : signed (r.toNat : ℤ) = r.toNat := signed_of_mem (by omega)
  have hleft : signed (x - r.toNat) = x - r.toNat := signed_of_mem (by omega)
  have htop : signed (y - r.toNat) = y - r.toNat := signed_of_mem (by omega)
  have hsize : signed (2 * (r.toNat : ℤ) + 1) = 2 * r.toNat + 1 := signed_of_mem (by omega)
  rw [hneg, hpos, hleft, htop, hsize, discOrigin]

theorem shownAt_iff {clip size i : ℤ} :
    shownAt true clip size i = true ↔ clip ≤ i ∧ i < clip + size := by
  simp [shownAt]

theorem offset_bounds {d e r : ℤ} (hr : 0 ≤ r) (hd : d * d + e * e < r * r + r) :
    -r ≤ d ∧ d ≤ r := by
  have he : 0 ≤ e * e := mul_self_nonneg e
  constructor
  · by_contra hlt
    nlinarith
  · by_contra hlt
    nlinarith

theorem InDisc.bounds {r : UInt32} (hd : InDisc x y r px py) :
    (-(r.toNat : ℤ) ≤ px - x ∧ px - x ≤ r.toNat) ∧ -(r.toNat : ℤ) ≤ py - y ∧ py - y ≤ r.toNat := by
  have hr : (0 : ℤ) ≤ r.toNat := Int.natCast_nonneg _
  refine ⟨offset_bounds hr hd, @offset_bounds _ (px - x) _ hr ?_⟩
  rw [Int.add_comm]
  exact hd

/-- The pixels that `gfx_disc` draws. -/
theorem gfxDisc_paints (hc : Clips da) {r : UInt32} :
    Paints (fun a => ∃ px py, (InDisc x y r px py ∧ da.clip.Has px py) ∧
        a = py * da.w + px + discShift da x y r.toNat py) color da.fb
      (discRows da x y (-r.toNat) r.toNat (unsigned (da.w - 2 * r.toNat - 1))
        (r.toNat * r.toNat + r.toNat) color (discOrigin da x y r.toNat)).2 := by
  have hn : (r.toNat : ℤ) - -r.toNat + 1 = 2 * r.toNat + 1 := by ring
  have h := (discLoop_paints da x y (-r.toNat) (unsigned (da.w - 2 * r.toNat - 1))
    (r.toNat * r.toNat + r.toNat) color (discOrigin da x y r.toNat)
    (2 * (r.toNat : ℤ) + 1).toNat (2 * (r.toNat : ℤ) + 1).toNat).2
  rw [discRows, hn]
  apply h.congr
  intro a
  simp only [RowPixel, hc.clipping, shownAt_iff, discShift, InDisc, GfxRect.Has]
  constructor
  · rintro ⟨k, hk, hrow, i, hi, ⟨hcol, hdisc⟩, rfl⟩
    have hx : x + (-(r.toNat : ℤ) + i) - x = -r.toNat + i := by ring
    have hy : y + (-(r.toNat : ℤ) + k) - y = -r.toNat + k := by ring
    refine ⟨x + (-r.toNat + i), y + (-r.toNat + k), ⟨?_, hcol, hrow⟩, ?_⟩
    · rw [hx, hy]
      exact hdisc
    · rw [hy, show (-(r.toNat : ℤ) + k + r.toNat).toNat = k by omega]
      ring
  · rintro ⟨px, py, ⟨hdisc, hcol, hrow⟩, rfl⟩
    obtain ⟨hx, hy⟩ := InDisc.bounds hdisc
    have hi : ((px - x + r.toNat).toNat : ℤ) = px - x + r.toNat := Int.toNat_of_nonneg (by omega)
    have hk : ((py - y + r.toNat).toNat : ℤ) = py - y + r.toNat := Int.toNat_of_nonneg (by omega)
    refine ⟨(py - y + r.toNat).toNat, by omega, ?_, (px - x + r.toNat).toNat, by omega,
      ⟨?_, ?_⟩, ?_⟩
    · rw [hk]
      omega
    · rw [hi]
      omega
    · rw [hi, hk]
      have hdx : -(r.toNat : ℤ) + (px - x + r.toNat) = px - x := by ring
      have hdy : -(r.toNat : ℤ) + (py - y + r.toNat) = py - y := by ring
      rw [hdx, hdy]
      exact hdisc
    · rw [hi]
      ring

/-! ## Where the rows are drawn -/

/-- The number of rows from `top` on that the clip rectangle hides above it. -/
def hiddenRows (da : GfxDrawable) (top : ℤ) : ℤ := max 0 (da.clip.y - top)

/-- A hidden row moves on by the skip only. -/
theorem discStart_eq (hc : Clips da) (y lo : ℤ) (n : ℕ) (skip p : ℤ) {k : ℕ}
    (hk : y + lo + k ≤ da.clip.y + da.clip.h) :
    discStart da y lo n skip p k =
      p + k * skip + n * (k - min (k : ℤ) (hiddenRows da (y + lo))) := by
  induction k with
  | zero =>
      have hmin : min ((0 : ℕ) : ℤ) (hiddenRows da (y + lo)) = 0 := by
        rw [hiddenRows]
        omega
      rw [discStart, hmin]
      simp
  | succ k ih =>
      have hk' : y + lo + k ≤ da.clip.y + da.clip.h := by omega
      rw [discStart, ih hk', hc.clipping]
      by_cases hs : hiddenRows da (y + lo) ≤ k
      · have hrow : da.clip.y ≤ y + (lo + k) ∧ y + (lo + k) < da.clip.y + da.clip.h := by
          rw [hiddenRows] at hs
          omega
        rw [if_pos (shownAt_iff.mpr hrow), min_eq_right hs,
          min_eq_right (show hiddenRows da (y + lo) ≤ (k + 1 : ℕ) by omega)]
        push_cast
        ring
      · have hrow : ¬ (da.clip.y ≤ y + (lo + k) ∧ y + (lo + k) < da.clip.y + da.clip.h) := by
          rw [hiddenRows] at hs
          omega
        rw [if_neg (mt shownAt_iff.mp hrow), min_eq_left (show (k : ℤ) ≤ hiddenRows da (y + lo) by
          omega), min_eq_left (show ((k + 1 : ℕ) : ℤ) ≤ hiddenRows da (y + lo) by omega)]
        push_cast
        ring

/-- By how much a value changes when it becomes an unsigned one. -/
def wrap (n : ℤ) : ℤ := unsigned n - n

theorem wrap_of_neg {n : ℤ} (h : n < 0) (hlo : -2 ^ 32 ≤ n) : wrap n = 2 ^ 32 := by
  rw [wrap, unsigned]
  omega

theorem wrap_of_nonneg {n : ℤ} (h : 0 ≤ n) (hhi : n < 2 ^ 32) : wrap n = 0 := by
  rw [wrap, unsigned]
  omega

theorem discShift_eq (hc : Clips da) {r : UInt32} (hd : InDisc x y r px py)
    (hp : da.clip.Has px py) :
    discShift da x y r.toNat py = (unsigned (unsigned (y - r.toNat) * da.w) -
        (y - r.toNat) * da.w) + (py - y + r.toNat) * wrap (da.w - 2 * r.toNat - 1) -
        (2 * r.toNat + 1) * hiddenRows da (y - r.toNat) := by
  obtain ⟨-, hy⟩ := hd.bounds
  have hrow := hp.2
  have hk : ((py - y + r.toNat).toNat : ℤ) = py - y + r.toNat := Int.toNat_of_nonneg (by omega)
  have hn : ((2 * (r.toNat : ℤ) + 1).toNat : ℤ) = 2 * r.toNat + 1 := Int.toNat_of_nonneg (by omega)
  have hmin : min (py - y + r.toNat) (hiddenRows da (y - r.toNat)) =
      hiddenRows da (y - r.toNat) := by
    rw [hiddenRows]
    omega
  rw [discShift, discStart_eq hc _ _ _ _ _ (by omega), hk, hn, ← sub_eq_add_neg, hmin, discOrigin,
    wrap]
  ring

/-- The clip rectangle is inside of the frame buffer. -/
theorem Clips.inside (hc : Clips da) (hp : da.clip.Has px py) :
    0 ≤ py * da.w + px ∧ py * da.w + px < 2 ^ 31 := by
  obtain ⟨-, hleft, htop, hright, hbottom⟩ := hc
  obtain ⟨hx, hy⟩ := hp
  have hfit : (da.h : ℤ) * da.w < 2 ^ 31 := by
    have hsize := da.fits.2.2
    rw [Nat.mul_comm] at hsize
    exact_mod_cast hsize
  have hlow : 0 ≤ py * da.w := Int.mul_nonneg (by omega) (Int.natCast_nonneg _)
  have hhigh : (py + 1) * da.w ≤ da.h * da.w :=
    Int.mul_le_mul_of_nonneg_right (by omega) (Int.natCast_nonneg _)
  rw [Int.add_mul, Int.one_mul] at hhigh
  omega

theorem unsigned_origin (n w : ℤ) : ∃ q, unsigned (unsigned n * w) - n * w = 2 ^ 32 * q := by
  have hn : unsigned n = n - 2 ^ 32 * (n / 2 ^ 32) := Int.emod_def n (2 ^ 32)
  have hp : unsigned (unsigned n * w) =
      unsigned n * w - 2 ^ 32 * (unsigned n * w / 2 ^ 32) := Int.emod_def _ (2 ^ 32)
  refine ⟨-(n / 2 ^ 32) * w - unsigned n * w / 2 ^ 32, ?_⟩
  rw [hp]
  generalize unsigned n * w / 2 ^ 32 = q
  rw [hn]
  ring

theorem hiddenRows_mul_lt {r : UInt32} (hr : r.toNat < 2 ^ 15) {k : ℤ} (hk : 0 < k)
    (hle : k ≤ 2 * r.toNat) :
    0 < (2 * (r.toNat : ℤ) + 1) * k ∧ (2 * (r.toNat : ℤ) + 1) * k < 2 ^ 32 := by
  constructor
  · exact Int.mul_pos (by omega) hk
  · calc (2 * (r.toNat : ℤ) + 1) * k ≤ (2 ^ 16) * k :=
          Int.mul_le_mul_of_nonneg_right (by omega) (by omega)
      _ < 2 ^ 32 := by omega

/-- The row at `py` is drawn where it should be. -/
theorem discShift_eq_zero (hc : Clips da) {r : UInt32} (hf : DiscFits x y r)
    (hd : InDisc x y r px py) (hp : da.clip.Has px py) :
    discShift da x y r.toNat py = 0 ↔
      da.clip.y ≤ y - r.toNat ∧ (2 * r.toNat + 1 ≤ da.w ∨ py = y - r.toNat) := by
  have hr := hf.radius
  obtain ⟨-, hy⟩ := hd.bounds
  have hrow := hp.2
  have hcs := hc
  obtain ⟨-, hleft, htop, hright, hbottom⟩ := hc
  have hfit := da.fits
  rw [discShift_eq hcs hd hp]
  by_cases hhid : da.clip.y ≤ y - r.toNat
  · have hrows : hiddenRows da (y - r.toNat) = 0 := by
      rw [hiddenRows]
      omega
    have horigin : unsigned (unsigned (y - r.toNat) * da.w) = (y - r.toNat) * da.w := by
      have hbound : 0 ≤ y - r.toNat ∧ y - r.toNat ≤ da.h := by omega
      have hstart : unsigned (y - r.toNat) = y - r.toNat := unsigned_of_lt hbound.1 (by omega)
      rw [hstart]
      exact unsigned_row hbound
    rw [horigin, hrows, Int.mul_zero, Int.sub_self, Int.zero_add, Int.sub_zero]
    by_cases hwide : 2 * r.toNat + 1 ≤ da.w
    · rw [wrap_of_nonneg (by omega) (by omega), Int.mul_zero]
      exact iff_of_true rfl ⟨hhid, .inl hwide⟩
    · rw [wrap_of_neg (by omega) (by omega)]
      omega
  · refine iff_of_false ?_ fun h => hhid h.1
    obtain ⟨q, hq⟩ := unsigned_origin (y - r.toNat) da.w
    have hrows : hiddenRows da (y - r.toNat) = da.clip.y - (y - r.toNat) := by
      rw [hiddenRows]
      omega
    have hmul := hiddenRows_mul_lt hr (k := da.clip.y - (y - r.toNat)) (by omega) (by omega)
    rw [hq, hrows]
    by_cases hwide : 2 * r.toNat + 1 ≤ da.w
    · rw [wrap_of_nonneg (by omega) (by omega), Int.mul_zero]
      omega
    · rw [wrap_of_neg (by omega) (by omega)]
      omega

/-- If the pixels are those of the disc, all rows that show are shifted by the same distance. -/
theorem discShift_same (hc : Clips da) {r : UInt32} (hf : DiscFits x y r) {px' py' : ℤ}
    (hd : InDisc x y r px py) (hp : da.clip.Has px py) (hd' : InDisc x y r px' py')
    (hp' : da.clip.Has px' py') (hnear : -2 ^ 31 < discShift da x y r.toNat py ∧
      discShift da x y r.toNat py < 2 ^ 31) (hnear' : -2 ^ 31 < discShift da x y r.toNat py' ∧
      discShift da x y r.toNat py' < 2 ^ 31) :
    discShift da x y r.toNat py = discShift da x y r.toNat py' := by
  have hr := hf.radius
  have hfit := da.fits
  rw [discShift_eq hc hd hp] at hnear ⊢
  rw [discShift_eq hc hd' hp'] at hnear' ⊢
  by_cases hwide : 2 * r.toNat + 1 ≤ da.w
  · rw [wrap_of_nonneg (by omega) (by omega), Int.mul_zero, Int.mul_zero]
  · rw [wrap_of_neg (by omega) (by omega)] at hnear hnear' ⊢
    have hrow : py = py' := by omega
    rw [hrow]

theorem eq_zero_of_drawn (hc : Clips da) {r : UInt32} (hf : DiscFits x y r)
    (hsame : ∀ i, (∃ px py, (InDisc x y r px py ∧ da.clip.Has px py) ∧
        i = py * da.w + px + discShift da x y r.toNat py) ↔
      ∃ px py, (InDisc x y r px py ∧ da.clip.Has px py) ∧ i = py * da.w + px)
    (hd : InDisc x y r px py) (hp : da.clip.Has px py) : discShift da x y r.toNat py = 0 := by
  have hnear : ∀ {px py}, InDisc x y r px py → da.clip.Has px py →
      -2 ^ 31 < discShift da x y r.toNat py ∧ discShift da x y r.toNat py < 2 ^ 31 := by
    intro px py hd hp
    obtain ⟨px', py', ⟨-, hp'⟩, hi⟩ := (hsame _).mp ⟨px, py, ⟨hd, hp⟩, rfl⟩
    have hin := hc.inside hp
    have hin' := hc.inside hp'
    omega
  apply shift_eq_zero (P := fun i => ∃ px py, (InDisc x y r px py ∧ da.clip.Has px py) ∧
    i = py * da.w + px) ⟨_, px, py, ⟨hd, hp⟩, rfl⟩
  · rintro i ⟨px', py', ⟨-, hp'⟩, rfl⟩
    exact hc.inside hp'
  · rintro i ⟨px', py', ⟨hd', hp'⟩, rfl⟩
    rw [← hsame, discShift_same hc hf hd hp hd' hp' (hnear hd hp) (hnear hd' hp')]
    exact ⟨px', py', ⟨hd', hp'⟩, rfl⟩

/-- When a disc is drawn: no assertion fails, and of the rows of the disc that show pixels none
is below a hidden one, nor below another one if the disc is wider than the drawable. -/
def DiscShown (da : GfxDrawable) (x y : ℤ) (r : UInt32) : Prop :=
  (Passes da (x - r.toNat) (y - r.toNat) (2 * r.toNat + 1) (2 * r.toNat + 1) ∨ Upright da) ∧
    ∀ px py, InDisc x y r px py → da.clip.Has px py →
      da.clip.y ≤ y - r.toNat ∧ (2 * r.toNat + 1 ≤ da.w ∨ py = y - r.toNat)

theorem discShift_fb (da : GfxDrawable) (fb : Mem GfxColor) (x y r py : ℤ) :
    discShift { da with fb } x y r py = discShift da x y r py := by
  have hstart : ∀ lo n skip p k, discStart { da with fb } y lo n skip p k =
      discStart da y lo n skip p k := by
    intro lo n skip p k
    induction k with
    | zero => rfl
    | succ k ih => rw [discStart, discStart, ih]
  rw [discShift, discShift, hstart]
  rfl

/-- What `gfx_disc` draws, if no assertion fails. -/
theorem gfxDisc_drawn (hc : Clips da) {r : UInt32} (hf : DiscFits x y r) (fb : Mem GfxColor)
    (hd : gfxDisc { da with fb } x y r color = some da') :
    Paints (fun a => ∃ px py, (InDisc x y r px py ∧ da.clip.Has px py) ∧
      a = py * da.w + px + discShift da x y r.toNat py) color fb da'.fb := by
  have hfb : Clips { da with fb } := ⟨hc.1, hc.2, hc.3, hc.4, hc.5⟩
  have hpaints := @gfxDisc_paints _ x y color hfb r
  rw [gfxDisc_clipping hfb.clipping hf] at hd
  rw [damage_fb hd]
  simp only [discShift_fb] at hpaints
  exact hpaints

theorem gfxDisc_ne_none (hc : Clips da) {r : UInt32} (hf : DiscFits x y r) (fb : Mem GfxColor) :
    gfxDisc { da with fb } x y r color ≠ none ↔
      Passes da (x - r.toNat) (y - r.toNat) (2 * r.toNat + 1) (2 * r.toNat + 1) ∨ Upright da := by
  have hsize : 0 < 2 * (r.toNat : ℤ) + 1 := by omega
  have hfb : ∀ fb, Clips { da with fb } := fun fb => ⟨hc.1, hc.2, hc.3, hc.4, hc.5⟩
  rw [gfxDisc_clipping (hfb fb).clipping hf]
  exact damage_ne_none (hfb _) hsize hsize

theorem gfxColor_nontrivial : Nontrivial GfxColor := ⟨0, 1, by decide⟩

/-- A disc is drawn as far as it is inside the clip rectangle, if no assertion fails and the rows
that show pixels are drawn where they should be. -/
theorem gfxDisc_drawsClipped (hc : Clips da) {r : UInt32} (hf : DiscFits x y r) :
    DrawsClipped (InDisc x y r) color da (gfxDisc · x y r color) ↔ DiscShown da x y r := by
  constructor
  · intro hd
    have hsome : ∀ fb, ∃ da', gfxDisc { da with fb } x y r color = some da' :=
      fun fb => (hd fb).imp fun _ h => h.1
    have hcolors := gfxColor_nontrivial
    have hsame := fun i => paints_unique (f := fun fb => (hsome fb).choose.fb)
      (fun fb => gfxDisc_drawn hc hf fb (hsome fb).choose_spec)
      (fun fb => by
        obtain ⟨da', hda, hpaints⟩ := hd fb
        have heq := Option.some.inj (hda.symm.trans (hsome fb).choose_spec)
        rw [← heq]
        exact hpaints) i
    have hne : gfxDisc { da with fb := da.fb } x y r color ≠ none := by
      obtain ⟨da', hda⟩ := hsome da.fb
      exact hda ▸ Option.some_ne_none da'
    refine ⟨(gfxDisc_ne_none hc hf da.fb).mp hne, fun px py hdisc hp => ?_⟩
    exact (discShift_eq_zero hc hf hdisc hp).mp (eq_zero_of_drawn hc hf hsame hdisc hp)
  · rintro ⟨hpass, hrows⟩ fb
    obtain ⟨da', hda⟩ := Option.ne_none_iff_exists'.mp ((gfxDisc_ne_none hc hf fb).mpr hpass)
    refine ⟨da', hda, (gfxDisc_drawn hc hf fb hda).congr fun a => ?_⟩
    have hzero : ∀ px py, InDisc x y r px py ∧ da.clip.Has px py →
        discShift da x y r.toNat py = 0 := fun px py hp =>
      (discShift_eq_zero hc hf hp.1 hp.2).mpr (hrows px py hp.1 hp.2)
    constructor
    · rintro ⟨px, py, hp, rfl⟩
      exact ⟨px, py, hp, by rw [hzero px py hp, Int.add_zero]⟩
    · rintro ⟨px, py, hp, rfl⟩
      exact ⟨px, py, hp, by rw [hzero px py hp, Int.add_zero]⟩

/-- After `gfx_clip`, rectangles and discs are drawn as far as they are inside the clip rectangle,
and nothing else is, exactly under these conditions. -/
theorem clipped_draws_iff {base : GfxDrawable} (hc : gfxClip base (some clip) = some da) :
    (∀ x y w h color, DrawsClipped (GfxRect.Has ⟨x, y, w, h⟩) color da (gfxRectXy · x y w h color) ↔
      RectFits da x y w h) ∧
    ∀ x y r color, DiscFits x y r →
      (DrawsClipped (InDisc x y r) color da (gfxDisc · x y r color) ↔ DiscShown da x y r) :=
  ⟨fun _ _ _ _ _ => gfxRectXy_drawsClipped (gfxClip_clips hc),
    fun _ _ _ _ hf => gfxDisc_drawsClipped (gfxClip_clips hc) hf⟩

/-- The first three rows of a drawable, without its outer columns. -/
def clippedCanvas : GfxDrawable := { canvas with clip := ⟨2, 0, 4, 3⟩, clipping := true }

theorem clipped_draws_iff_canvas :
    DrawsClipped (GfxRect.Has ⟨-2, -1, 5, 4⟩) 7 clippedCanvas (gfxRectXy · (-2) (-1) 5 4 7) ∧
      DrawsClipped (InDisc 2 1 1) 7 clippedCanvas (gfxDisc · 2 1 1 7) := by
  have hclip : gfxClip canvas (some ⟨2, 0, 4, 3⟩) = some clippedCanvas := rfl
  have hupright : Upright clippedCanvas := ⟨by decide, by decide⟩
  have hfits : DiscFits 2 1 1 := ⟨by decide, by decide, by decide⟩
  obtain ⟨hrect, hdisc⟩ := clipped_draws_iff hclip
  constructor
  · apply (hrect (-2) (-1) 5 4 7).mpr
    exact .inr (.inr ⟨hupright, by decide, by decide⟩)
  · apply (hdisc 2 1 1 7 hfits).mpr
    exact ⟨.inr hupright, fun _ _ _ _ => ⟨by decide, .inl (by decide)⟩⟩

/-- A disc of which the first row is hidden is not drawn where it should be. -/
theorem hiddenRow_displaces : ∃ da, gfxClip canvas (some ⟨0, 1, 8, 3⟩) = some da ∧
    DiscFits 2 1 1 ∧ ¬ DrawsClipped (InDisc 2 1 1) 7 da (gfxDisc · 2 1 1 7) := by
  have hclip : gfxClip canvas (some ⟨0, 1, 8, 3⟩) =
      some { canvas with clip := ⟨0, 1, 8, 3⟩, clipping := true } := rfl
  have hfits : DiscFits 2 1 1 := ⟨by decide, by decide, by decide⟩
  refine ⟨_, hclip, hfits, fun hd => ?_⟩
  have hshown := (gfxDisc_drawsClipped (gfxClip_clips hclip) hfits).mp hd
  exact absurd (hshown.2 2 1 (by unfold InDisc; decide) (by decide)).1 (by decide)

end Sunela.Gfx
