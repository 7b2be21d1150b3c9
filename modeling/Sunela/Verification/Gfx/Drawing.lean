import Sunela.Verification.Gfx.Damage

/-! # Sequences of drawing calls

Each call records what it draws as long as the numbers that it is given are those of a
rectangle. Sizes that wrap around pass the assertions, and what they overwrite is not
recorded. -/

namespace Sunela.Gfx

open Memory

variable {da da' : GfxDrawable} {x y w h px py : ℤ}

theorem signed_neg {n : ℤ} (h0 : 0 ≤ n) (h : n < 2 ^ 31) : signed (-n) = -n := by
  apply Int.bmod_eq_of_le <;> omega

/-! ## Disc -/

theorem discRow_changesOnly {lo dy2 r2 p : ℤ} {n : ℕ} {color : GfxColor} {fb : Mem GfxColor} :
    ChangesOnly (fun i => p ≤ i ∧ i < p + n) fb (discRow da x lo n dy2 r2 color p fb) := by
  have h : ChangesOnly (fun i => ∃ k < n, i = p + (k : ℕ)) fb
      (discRow da x lo n dy2 r2 color p fb) := by
    apply changesOnly_loop
    intro k _ m
    dsimp only
    split
    · exact changesOnly_update (p + k) color
    · exact .refl
  apply h.mono
  rintro i ⟨k, hk, rfl⟩
  omega

/-- While nothing is clipped, each row of a disc starts at the same distance from the last. -/
theorem discRows_unclipped (hc : da.clipping = false) (lo skip r2 : ℤ) (color : GfxColor)
    (p : ℤ) (fb : Mem GfxColor) (n k : ℕ) :
    let rows := loop k (fun i (s : ℤ × Mem GfxColor) =>
      let dy := lo + i
      if shownAt da.clipping da.clip.y da.clip.h (y + dy) then
        (s.1 + n + skip, discRow da x lo n (dy * dy) r2 color s.1 s.2)
      else (s.1 + skip, s.2)) (p, fb)
    rows.1 = p + k * (n + skip) ∧ ChangesOnly
      (fun i => ∃ j < k, p + (j : ℕ) * (n + skip) ≤ i ∧ i < p + (j : ℕ) * (n + skip) + n)
      fb rows.2 := by
  induction k with
  | zero => simp [ChangesOnly.refl]
  | succ k ih =>
      obtain ⟨hp, hfb⟩ := ih
      simp only [loop_succ, shownAt, hc, Bool.not_false, Bool.true_or, if_true] at hp hfb ⊢
      constructor
      · rw [hp]
        push_cast
        ring
      · apply (hfb.mono fun i hi => ?_).trans
          (discRow_changesOnly.mono fun i hi => ?_)
        · obtain ⟨j, hj, hi⟩ := hi
          exact ⟨j, Nat.lt_succ_of_lt hj, hi⟩
        · rw [hp] at hi
          exact ⟨k, Nat.lt_succ_self k, hi⟩

/-- The square around a disc has no more pixels in a row than the drawable. -/
theorem discRows_changesOnly (hc : da.clipping = false) {r : ℤ} (h0 : 0 ≤ r)
    (hw : 2 * r + 1 ≤ da.w) (r2 : ℤ) (color : GfxColor) (p : ℤ) :
    ChangesOnly (fun i => ∃ k < (2 * r + 1).toNat, InRow da p (2 * r + 1).toNat k i) da.fb
      (discRows da x y (signed (-r)) (signed r) (unsigned (da.w - 2 * r - 1)) r2 color p).2 := by
  have hfit := da.fits.1
  have hskip : unsigned (da.w - 2 * r - 1) = da.w - 2 * r - 1 :=
    unsigned_of_lt (by omega) (by omega)
  have hstep : ((2 * r + 1).toNat : ℤ) + (da.w - 2 * r - 1) = da.w := by omega
  rw [signed_neg h0 (by omega), signed_of_lt h0 (by omega), hskip]
  unfold discRows
  rw [show r - -r + 1 = 2 * r + 1 by omega]
  have h := (discRows_unclipped (y := y) (x := x) hc (-r) (da.w - 2 * r - 1) r2 color p da.fb
    (2 * r + 1).toNat (2 * r + 1).toNat).2
  rw [hstep] at h
  exact h

/-- With a radius that is negative as a signed number, no pixel is reached. -/
theorem discRows_wrapped (da : GfxDrawable) (x y : ℤ) {r : ℤ} (h0 : 2 ^ 31 ≤ r) (h : r < 2 ^ 32)
    (skip : ℤ) (color : GfxColor) (p : ℤ) :
    (discRows da x y (signed (-r)) (signed r) skip (r * r + r) color p).2 = da.fb := by
  have hr : signed r = r - 2 ^ 32 := by
    simp only [signed, Int.bmod]
    omega
  by_cases heq : r = 2 ^ 31
  · subst heq
    unfold discRows
    rw [show signed (-2 ^ 31) = -2 ^ 31 by decide, show signed (2 ^ 31) = -2 ^ 31 by decide]
    simp only [discRow]
    rw [show (-2 ^ 31 - -2 ^ 31 + 1 : ℤ).toNat = 1 by decide]
    simp only [loop]
    split <;> simp
  · have hn : signed (-r) = 2 ^ 32 - r := by
      simp only [signed, Int.bmod]
      omega
    unfold discRows
    rw [hr, hn, Int.toNat_eq_zero.mpr (by omega)]
    rfl

/-- A disc lies in the square around it. -/
theorem gfxDisc_draws {r : UInt32} {color : GfxColor} (hc : da.clipping = false)
    (hd : gfxDisc da x y r color = some da') : Draws da da' := by
  unfold gfxDisc at hd
  have h0 : (0 : ℤ) ≤ r.toNat := Int.natCast_nonneg _
  have h32 : (r.toNat : ℤ) < 2 ^ 32 := by have := r.toNat_lt; omega
  generalize (r.toNat : ℤ) = r at hd h0 h32
  simp only at hd
  have hfit := da.fits
  have hopen : (!da.clipping) = true := by simp [hc]
  split at hd
  · cases hd
  split at hd
  · cases hd
  next hx hy =>
    have hx := not_not.mp fun hn => hx ⟨hopen, hn⟩
    have hy := not_not.mp fun hn => hy ⟨hopen, hn⟩
    have hclip : ∀ r, da.clipped r = some r := fun r => by simp [GfxDrawable.clipped, hc]
    by_cases hr : r < 2 ^ 31
    · rw [signed_of_lt h0 hr] at hx hy
      have hstart : unsigned (unsigned (y - r) * da.w) + x - r = (y - r) * da.w + (x - r) := by
        rw [unsigned_of_lt (n := y - r) (by omega) (by omega),
          unsigned_row (y := y - r) (by omega), Int.add_sub_assoc]
      rw [hstart] at hd
      have hrows := discRows_changesOnly (x := x) (y := y) hc h0 (by omega) (r * r + r) color
        ((y - r) * da.w + (x - r))
      apply draws_of_damage (fun _ _ => hclip _) _ _ hd
      · intro he
        rw [signed_of_lt (n := 2 * r + 1) (by omega) (by omega)] at he
        omega
      · intro _ px py hp hne
        by_contra hout
        apply hne
        apply hrows
        rintro ⟨k, hk, hi⟩
        apply hout
        rw [signed_of_lt (n := x - r) (by omega) (by omega),
          signed_of_lt (n := y - r) (by omega) (by omega),
          signed_of_lt (n := 2 * r + 1) (by omega) (by omega)]
        have h2r : ((2 * r + 1).toNat : ℤ) = 2 * r + 1 := by omega
        have hhas := has_of_inRow (x := x - r) (by omega) hk hp hi
        rwa [h2r] at hhas
    · have hrows := discRows_wrapped da x y (by omega : 2 ^ 31 ≤ r) h32
        (unsigned (da.w - 2 * r - 1)) color (unsigned (unsigned (y - r) * da.w) + x - r)
      apply draws_of_damage (fun _ _ => hclip _) _ _ hd
      · intro _ px py _
        rw [hrows]
      · intro _ px py _ hne
        exact absurd (congrFun hrows _) hne

/-! ## Rows of a rectangle -/

/-- Nothing is drawn, or the rows are those of a rectangle that starts at `(x, y)`. -/
def Placed (da : GfxDrawable) (p : ℤ) (n m : ℕ) (x y w h : ℤ) : Prop :=
  (n = 0 ∨ m = 0) ∨
    (p = y * da.w + x ∧ w = n ∧ h = m ∧ 0 ≤ x ∧ x + n ≤ da.w)

/-- A loop over the rows of a rectangle draws inside it, whatever it does to a row. -/
theorem loop_draws {p : ℤ} {n m : ℕ} {body : ℕ → Mem GfxColor → Mem GfxColor}
    (hc : da.clipping = false) (hr : Placed da p n m x y w h)
    (hbody : ∀ k < m, ∀ fb, ChangesOnly (InRow da p n k) fb (body k fb))
    (hd : damage { da with fb := loop m body da.fb } x y w h = some da') : Draws da da' := by
  have hrows := changesOnly_loop (m := da.fb) hbody
  have hclip : da.clipped ⟨x, y, w, h⟩ = some ⟨x, y, w, h⟩ := by simp [GfxDrawable.clipped, hc]
  rcases hr with he | ⟨rfl, rfl, rfl, hx⟩
  · have hsame : ∀ i, loop m body da.fb i = da.fb i := by
      intro i
      apply hrows
      rintro ⟨k, hk, h1, h2⟩
      omega
    apply draws_of_damage (fun _ _ => hclip) _ _ hd
    · exact fun _ px py _ => hsame _
    · exact fun _ px py _ hne => absurd (hsame _) hne
  · have hin : ∀ px py, OnScreen da px py →
        loop m body da.fb (py * da.w + px) ≠ da.fb (py * da.w + px) →
        (⟨x, y, n, m⟩ : GfxRect).Has px py := by
      intro px py hp hne
      by_contra hout
      apply hne
      apply hrows
      rintro ⟨k, hk, hi⟩
      exact hout (has_of_inRow hx hk hp hi)
    apply draws_of_damage (fun _ _ => hclip) _ _ hd
    · intro he px py hp
      by_contra hne
      exact GfxRect.not_has_of_empty he (hin px py hp hne)
    · exact fun _ => hin

theorem signed_natCast {n : ℕ} (h : n < 2 ^ 31) : signed n = n :=
  signed_of_lt (Int.natCast_nonneg n) (by omega)

/-- A sum that does not wrap is the sum of the numbers. -/
theorem toNat_add_of_lt {a b : UInt32} (h : a.toNat + b.toNat < 2 ^ 32) :
    (a + b).toNat = a.toNat + b.toNat := by
  rw [UInt32.toNat_add, Nat.mod_eq_of_lt h]

/-! ## Copying -/

theorem copyRow_changesOnly {image : Source} {dst src transparentColor : ℤ} {n : ℕ}
    {fb : Mem GfxColor} :
    ChangesOnly (fun i => dst ≤ i ∧ i < dst + n) fb
      (copyRow image dst src n transparentColor fb) := by
  unfold copyRow
  split
  · exact changesOnly_memmove dst _ src n
  · have h : ChangesOnly (fun i => ∃ k < n, i = dst + (k : ℕ)) fb
        (loop n (fun x fb =>
          if (image.read fb (src + x)).toNat ≠ transparentColor then
            Function.update fb (dst + x) (image.read fb (src + x))
          else fb) fb) := by
      apply changesOnly_loop
      intro k _ m
      split
      · exact changesOnly_update (dst + k) _
      · exact .refl
    apply h.mono
    rintro i ⟨k, hk, rfl⟩
    omega

/-- A copy is recorded unless its rectangle goes past the last unsigned number. -/
theorem gfxCopy_draws {xt yt xf yf w h : UInt32} {image : Source} {transparentColor : ℤ}
    (hc : da.clipping = false)
    (hfit : w = 0 ∨ h = 0 ∨ (xt.toNat + w.toNat < 2 ^ 32 ∧ yt.toNat + h.toNat < 2 ^ 32))
    (hd : gfxCopy da xt yt image xf yf w h transparentColor = some da') : Draws da da' := by
  unfold gfxCopy at hd
  simp only at hd
  split at hd
  · cases hd
  split at hd
  · cases hd
  split at hd
  · cases hd
  split at hd
  · cases hd
  next hx hy =>
    have hda := da.fits
    refine loop_draws (n := w.toNat) (p := unsigned (yt.toNat * da.w) + xt.toNat) hc ?_ ?_ hd
    · rcases hfit with rfl | rfl | ⟨hxw, hyh⟩
      · exact .inl (.inl rfl)
      · exact .inl (.inr rfl)
      · rw [toNat_add_of_lt hxw] at hx
        rw [toNat_add_of_lt hyh] at hy
        right
        rw [signed_natCast (by omega), signed_natCast (by omega), signed_natCast (by omega),
          signed_natCast (by omega), unsigned_row (by omega)]
        exact ⟨rfl, rfl, rfl, by omega, by omega⟩
    · intro k _ fb
      apply copyRow_changesOnly.mono
      intro i hi
      exact hi

/-! ## Scrolling -/

theorem coloursIn_of_lt {n : ℤ} (h0 : 0 ≤ n) (h : n < 2 ^ 31) : coloursIn n = n.toNat := by
  unfold coloursIn
  rw [unsigned_of_lt h0 (by omega), unsigned_of_lt (by omega) (by omega)]
  omega

/-- A scrolled rectangle is recorded unless it goes past the last unsigned number, or is moved
by more than its width. -/
theorem gfxHscroll_draws {x y w h : UInt32} {dx : ℤ} (hc : da.clipping = false)
    (hfit : dx = 0 ∨ h = 0 ∨ (x.toNat + w.toNat < 2 ^ 32 ∧ y.toNat + h.toNat < 2 ^ 32 ∧
      -(w.toNat : ℤ) ≤ dx ∧ dx ≤ w.toNat))
    (hd : gfxHscroll da x y w h dx = some da') : da' = da ∨ Draws da da' := by
  unfold gfxHscroll at hd
  simp only at hd
  split at hd
  · cases hd
  split at hd
  · cases hd
  split at hd
  · cases hd
  split at hd
  · exact .inl (Option.some.inj hd).symm
  next hx hy _ hne =>
    have hda := da.fits
    right
    split at hd
    · refine loop_draws (n := coloursIn (w.toNat + dx))
        (p := unsigned (y.toNat * da.w) + x.toNat) hc ?_ ?_ hd
      · rcases hfit with h0 | rfl | ⟨hxw, hyh, hlo, hhi⟩
        · exact absurd h0 hne
        · exact .inl (.inr rfl)
        · rw [toNat_add_of_lt hxw] at hx
          rw [toNat_add_of_lt hyh] at hy
          right
          rw [signed_natCast (by omega), signed_natCast (by omega), signed_natCast (by omega),
            signed_of_lt (by omega) (by omega), coloursIn_of_lt (by omega) (by omega),
            unsigned_row (by omega)]
          exact ⟨rfl, by omega, rfl, by omega, by omega⟩
      · intro k _ fb
        exact changesOnly_memmove _ _ _ _
    · refine loop_draws (n := coloursIn (w.toNat - dx))
        (p := unsigned (y.toNat * da.w) + x.toNat + dx) hc ?_ ?_ hd
      · rcases hfit with h0 | rfl | ⟨hxw, hyh, hlo, hhi⟩
        · exact absurd h0 hne
        · exact .inl (.inr rfl)
        · rw [toNat_add_of_lt hxw] at hx
          rw [toNat_add_of_lt hyh] at hy
          right
          rw [signed_natCast (n := y.toNat) (by omega), signed_natCast (n := h.toNat) (by omega),
            signed_of_lt (by omega) (by omega), signed_of_lt (by omega) (by omega),
            coloursIn_of_lt (by omega) (by omega), unsigned_row (by omega)]
          exact ⟨by omega, by omega, rfl, by omega, by omega⟩
      · intro k _ fb
        apply ChangesOnly.mono (changesOnly_memmove _ _ _ _)
        intro i hi
        unfold InRow
        omega

/-! ## Runs -/

inductive Call where
  | reset
  | clip (clip : Option GfxRect)
  | rectXy (x y w h : ℤ) (color : GfxColor)
  | clear (bg : GfxColor)
  | copy (xt yt : UInt32) (image : Source) (xf yf w h : UInt32) (transparentColor : ℤ)
  | hscroll (x y w h : UInt32) (dx : ℤ)
  | disc (x y : ℤ) (r : UInt32) (color : GfxColor)

/-- The drawable after a call. There is none if an assertion fails. -/
def Call.run (da : GfxDrawable) : Call → Option GfxDrawable
  | reset => some (gfxReset da)
  | clip r => gfxClip da r
  | rectXy x y w h color => gfxRectXy da x y w h color
  | clear bg => gfxClear da bg
  | copy xt yt image xf yf w h transparentColor =>
      gfxCopy da xt yt image xf yf w h transparentColor
  | hscroll x y w h dx => gfxHscroll da x y w h dx
  | disc x y r color => gfxDisc da x y r color

/-- The call is made only while no clip is set. -/
def Call.Unclipped : Call → Prop
  | copy .. => True
  | hscroll .. => True
  | disc .. => True
  | _ => False

/-- The sizes of a copy and of a scroll do not wrap around, or nothing is moved: the rectangle
ends at an unsigned number, and is not scrolled by more than its width. -/
def Call.Fits : Call → Prop
  | copy xt yt _ _ _ w h _ =>
      w = 0 ∨ h = 0 ∨ (xt.toNat + w.toNat < 2 ^ 32 ∧ yt.toNat + h.toNat < 2 ^ 32)
  | hscroll x y w h dx =>
      dx = 0 ∨ h = 0 ∨ (x.toNat + w.toNat < 2 ^ 32 ∧ y.toNat + h.toNat < 2 ^ 32 ∧
        -(w.toNat : ℤ) ≤ dx ∧ dx ≤ w.toNat)
  | _ => True

/-- The frame buffer at the last reset, after a call. -/
def Call.base (base : Mem GfxColor) (da : GfxDrawable) : Call → Mem GfxColor
  | reset => da.fb
  | _ => base

/-- `Reached ok base da`: calls that all satisfy `ok` can lead to the drawable, whose frame
buffer was `base` at the last reset. -/
inductive Reached (ok : Call → Prop) : Mem GfxColor → GfxDrawable → Prop where
  | init (w h fb clip damage fits) : Reached ok fb (gfxDaInit w h fb clip damage fits)
  | call {base da da'} (h : Reached ok base da) (c : Call) (hok : ok c)
      (hclip : c.Unclipped → da.clipping = false) (hrun : c.run da = some da') :
      Reached ok (c.base base da) da'

/-- The damage covers every pixel that differs, and lies inside the drawable. -/
structure Covered (base : Mem GfxColor) (da : GfxDrawable) : Prop where
  pixels : ∀ px py, OnScreen da px py → da.pixel px py ≠ base (py * da.w + px) →
    da.changed = true ∧ da.damage.Has px py
  inside : da.changed = true → Inside da da.damage

theorem Covered.draws {base : Mem GfxColor} (h : Covered base da) (hd : Draws da da') :
    Covered base da' := by
  obtain ⟨r, fb, hr, hfb⟩ := hd
  constructor
  · intro px py hp hne
    have hp' : OnScreen da px py := by
      rcases hp with ⟨hx, hy⟩
      rw [hr.w] at hx
      rw [hr.h] at hy
      exact ⟨hx, hy⟩
    unfold GfxDrawable.pixel at hne
    rw [hr.fb, hr.w] at hne
    by_cases hsame : fb (py * da.w + px) = da.fb (py * da.w + px)
    · obtain ⟨hc, hin⟩ := h.pixels px py hp' fun heq => hne (hsame.trans heq)
      obtain ⟨hc', hkept⟩ := hr.kept hc
      exact ⟨hc', hkept px py hin⟩
    · exact hr.covers px py (hfb px py hp' hsame)
  · exact hr.inside fun hc => ⟨(h.inside hc).horizontal, (h.inside hc).vertical⟩

/-- One call leaves every changed pixel covered. -/
theorem Covered.step {base : Mem GfxColor} (h : Covered base da) (c : Call) (hfit : c.Fits)
    (hclip : c.Unclipped → da.clipping = false) (hrun : c.run da = some da') :
    Covered (c.base base da) da' := by
  cases c with
  | reset =>
      obtain rfl := Option.some.inj hrun
      exact ⟨fun _ _ _ hne => absurd rfl hne, fun hc => by cases hc⟩
  | clip r =>
      cases r with
      | none =>
          simp only [Call.run, gfxClip] at hrun
          split at hrun
          · obtain rfl := Option.some.inj hrun
            exact ⟨fun px py hp => h.pixels px py ⟨hp.horizontal, hp.vertical⟩, fun hc =>
              ⟨(h.inside hc).horizontal, (h.inside hc).vertical⟩⟩
          · cases hrun
      | some r =>
          simp only [Call.run, gfxClip] at hrun
          split at hrun
          · cases hrun
          split at hrun
          · cases hrun
          split at hrun
          · cases hrun
          obtain rfl := Option.some.inj hrun
          exact ⟨fun px py hp => h.pixels px py ⟨hp.horizontal, hp.vertical⟩, fun hc =>
            ⟨(h.inside hc).horizontal, (h.inside hc).vertical⟩⟩
  | rectXy x y w h' color =>
      rcases gfxRectXy_draws hrun with rfl | hd
      · exact h
      · exact h.draws hd
  | clear bg =>
      rcases gfxRectXy_draws hrun with rfl | hd
      · exact h
      · exact h.draws hd
  | copy xt yt image xf yf w h' transparentColor =>
      exact h.draws (gfxCopy_draws (hclip trivial) hfit hrun)
  | hscroll x y w h' dx =>
      rcases gfxHscroll_draws (hclip trivial) hfit hrun with rfl | hd
      · exact h
      · exact h.draws hd
  | disc x y r color => exact h.draws (gfxDisc_draws (hclip trivial) hrun)

/-- In every run of calls that fit, the damage covers what has changed since the last reset. -/
theorem damage_covers {base : Mem GfxColor} (h : Reached Call.Fits base da) :
    Covered base da := by
  induction h with
  | init w h fb clip damage fits =>
      exact ⟨fun _ _ _ hne => absurd rfl hne, fun hc => by cases hc⟩
  | call _ c hok hclip hrun ih => exact ih.step c hok hclip hrun

/-- A drawable of one row whose pixels all differ. -/
def stripDa : GfxDrawable :=
  gfxDaInit 16 1 (fun i => i.toNat.toUInt16) ⟨0, 0, 0, 0⟩ ⟨0, 0, 0, 0⟩ (by decide)

/-- The strip after its columns from `x` on have been scrolled. -/
def scrolledStrip (x w : UInt32) (dx : ℤ) : Option GfxDrawable :=
  gfxHscroll stripDa x 0 w 1 dx

theorem damage_covers_scrolled : ∃ da, scrolledStrip 2 8 (-2) = some da ∧
    Covered stripDa.fb da ∧ da.changed = true ∧ da.damage = ⟨2, 0, 6, 1⟩ := by
  have hrun : (scrolledStrip 2 8 (-2)).map (fun da => (da.changed, da.damage)) =
      some (true, ⟨2, 0, 6, 1⟩) := by decide +kernel
  obtain ⟨da, hda, hd⟩ := Option.map_eq_some_iff.mp hrun
  obtain ⟨hc, hdamage⟩ := Prod.mk.inj hd
  have hfit : Call.Fits (.hscroll 2 0 8 1 (-2)) := .inr (.inr (by decide))
  have hcov := damage_covers
    ((Reached.init _ _ _ _ _ _).call _ hfit (fun _ => rfl) hda)
  exact ⟨da, hda, hcov, hc, hdamage⟩

/-- Scrolling 10 pixels by 11 passes the assertions, moves more than two thousand million
pixels, and records none. -/
theorem damage_covers_fails :
    ∃ da, Reached (fun _ => True) stripDa.fb da ∧ ¬ Covered stripDa.fb da := by
  have hrun : (scrolledStrip 0 10 (-11)).map (fun da => (da.changed, da.w, da.h, da.pixel 0 0)) =
      some (false, 16, 1, 11) := by decide +kernel
  obtain ⟨da, hda, hd⟩ := Option.map_eq_some_iff.mp hrun
  simp only [Prod.mk.injEq] at hd
  obtain ⟨hc, hw, hh, hpixel⟩ := hd
  have hr : Reached (fun _ => True) stripDa.fb da :=
    (Reached.init _ _ _ _ _ _).call (.hscroll 0 0 10 1 (-11)) trivial (fun _ => rfl) hda
  refine ⟨da, hr, fun hcov => ?_⟩
  have hp : OnScreen da 0 0 := ⟨by omega, by omega⟩
  have hchanged := (hcov.pixels 0 0 hp (by rw [hpixel, hw]; decide)).1
  rw [hc] at hchanged
  cases hchanged

/-! ## Display updates -/

/-- Updating only what is damaged leaves the display as a full update would. -/
theorem updateDisplay_full {base : Mem GfxColor} {panel : ℤ → ℤ → GfxColor}
    (h : Covered base da)
    (hpanel : ∀ px py, OnScreen da px py → panel px py = base (py * da.w + px)) :
    ∃ da' panel', updateDisplay da panel = some (da', panel') ∧ da'.changed = false ∧
      ∀ px py, OnScreen da px py → panel' px py = da.pixel px py := by
  unfold updateDisplay
  by_cases hc : da.changed = true
  · have hin := h.inside hc
    have hsize : ¬ (da.damage.w = 0 ∨ da.damage.h = 0) := by
      have hw := hin.horizontal.2.1
      have hh := hin.vertical.2.1
      omega
    rw [if_neg (by simp [hc]), if_neg hsize]
    refine ⟨_, _, rfl, rfl, fun px py hp => ?_⟩
    by_cases hhas : da.damage.Has px py
    · exact if_pos hhas
    · rw [if_neg hhas, hpanel px py hp]
      by_contra hne
      exact hhas (h.pixels px py hp (Ne.symm hne)).2
  · rw [if_pos (by simp [hc])]
    refine ⟨da, panel, rfl, by simpa using hc, fun px py hp => ?_⟩
    rw [hpanel px py hp]
    by_contra hne
    exact hc (h.pixels px py hp (Ne.symm hne)).1

end Sunela.Gfx
