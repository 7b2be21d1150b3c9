import Sunela.Lib.Memory

/-! # Basic drawing operations

The drawables of `gfx/basic.c`. Signed numbers are integers, and unsigned ones are cut to
32 bits where they are computed. Memory is a sequence of colours that goes on past both ends
of the frame buffer. -/

namespace Sunela.Gfx

open Memory

abbrev GfxColor := UInt16

structure GfxRect where
  x : ℤ
  y : ℤ
  w : ℤ
  h : ℤ
  deriving DecidableEq

/-- `struct gfx_drawable`. All its pixels have an address. -/
structure GfxDrawable where
  w : ℕ
  h : ℕ
  fb : Mem GfxColor
  clipping : Bool
  clip : GfxRect
  changed : Bool
  damage : GfxRect
  fits : w < 2 ^ 31 ∧ h < 2 ^ 31 ∧ w * h < 2 ^ 31

/-- The value of an unsigned expression. -/
def unsigned (n : ℤ) : ℤ := n % 2 ^ 32

/-- The conversion of an unsigned value to a signed one. -/
def signed (n : ℤ) : ℤ := Int.bmod n (2 ^ 32)

/-! ## Damage rectangle -/

/-- The clipping of a position and a size along one axis. -/
def clipAxis (clip size : ℤ) (x w : ℤ) : Option (ℤ × ℤ) :=
  if x ≥ clip + size then none
  else if x + w ≤ clip then none
  else
    let (x, w) := if x < clip then (clip, w - (clip - x)) else (x, w)
    some (x, if x + w > clip + size then clip + size - x else w)

/-- What the clipping of a drawable leaves of a rectangle, if anything. -/
def GfxDrawable.clipped (da : GfxDrawable) (r : GfxRect) : Option GfxRect :=
  if da.clipping then do
    let (x, w) ← clipAxis da.clip.x da.clip.w r.x r.w
    let (y, h) ← clipAxis da.clip.y da.clip.h r.y r.h
    return ⟨x, y, w, h⟩
  else some r

/-- The growth of the damage along one axis. -/
def growAxis (rx rw : ℤ) (x w : ℤ) : ℤ × ℤ :=
  let (rx, rw) := if rx > x then (x, rw + (rx - x)) else (rx, rw)
  (rx, if rx + rw < x + w then x + w - rx else rw)

def GfxRect.grow (r a : GfxRect) : GfxRect :=
  let (x, w) := growAxis r.x r.w a.x a.w
  let (y, h) := growAxis r.y r.h a.y a.h
  ⟨x, y, w, h⟩

/-- The result of a call. There is none if an assertion fails. -/
def damage (da : GfxDrawable) (x y w h : ℤ) : Option GfxDrawable :=
  if w ≤ 0 ∨ h ≤ 0 then some da
  else
    match da.clipped ⟨x, y, w, h⟩ with
    | none => some da
    | some r =>
        if ¬ (r.x ≥ 0 ∧ r.y ≥ 0) then none
        else if ¬ (r.w ≥ 0 ∧ r.h ≥ 0) then none
        else if ¬ (r.x + r.w ≤ da.w ∧ r.y + r.h ≤ da.h) then none
        else if r.w = 0 ∨ r.h = 0 then some da
        else if !da.changed then some { da with changed := true, damage := r }
        else some { da with damage := da.damage.grow r }

/-! ## Clipping -/

def gfxClip (da : GfxDrawable) (clip : Option GfxRect) : Option GfxDrawable :=
  match clip with
  | some clip =>
      if da.clipping then none
      else if ¬ (clip.x ≥ 0 ∧ clip.y ≥ 0) then none
      else if ¬ (clip.x + clip.w ≤ da.w ∧ clip.y + clip.h ≤ da.h) then none
      else some { da with clip, clipping := true }
  | none => if da.clipping then some { da with clipping := false } else none

/-! ## Filled rectangles -/

/-- Fill `h` rows of `w` pixels from `p` on. -/
def fillRows (da : GfxDrawable) (p w h : ℤ) (color : GfxColor) : Mem GfxColor :=
  loop h.toNat (fun iy => loop w.toNat fun ix fb =>
    Function.update fb (p + iy * da.w + ix) color) da.fb

def gfxRectXy (da : GfxDrawable) (x y w h : ℤ) (color : GfxColor) : Option GfxDrawable :=
  if w ≤ 0 ∨ h ≤ 0 then some da
  else
    match da.clipped ⟨x, y, w, h⟩ with
    | none => some da
    | some ⟨x, y, w, h⟩ =>
        if ¬ (w ≥ 0 ∧ h ≥ 0) then none
        else if ¬ (x < da.w ∧ w ≤ da.w ∧ x + w ≤ da.w) then none
        else if ¬ (y < da.h ∧ h ≤ da.h ∧ y + h ≤ da.h) then none
        else
          let p := unsigned (y * da.w) + x
          damage { da with fb := fillRows da p w h color } x y w h

def gfxClear (da : GfxDrawable) (bg : GfxColor) : Option GfxDrawable :=
  gfxRectXy da 0 0 da.w da.h bg

/-! ## Filled circle (disc) -/

/-- A row or a column is not hidden by a clip rectangle. -/
def shownAt (clipping : Bool) (clip size : ℤ) (i : ℤ) : Bool :=
  !clipping || (i ≥ clip && i < clip + size)

/-- One row of `gfx_disc`, which is drawn from `p` on. The sum is that of `dy * dy`. -/
def discRow (da : GfxDrawable) (x lo : ℤ) (n : ℕ) (dy2 r2 : ℤ) (color : GfxColor) (p : ℤ) :
    Mem GfxColor → Mem GfxColor :=
  loop n fun i fb =>
    let dx := lo + i
    if shownAt da.clipping da.clip.x da.clip.w (x + dx) ∧ dx * dx + dy2 < r2 then
      Function.update fb (p + i) color
    else fb

/-- The loops of `gfx_disc`, where `dx` and `dy` go from `lo` to `hi`. A row that is hidden is
skipped without moving on in it. -/
def discRows (da : GfxDrawable) (x y lo hi : ℤ) (skip r2 : ℤ) (color : GfxColor) (p : ℤ) :
    ℤ × Mem GfxColor :=
  let n := (hi - lo + 1).toNat
  loop n (fun i (p, fb) =>
    let dy := lo + i
    if shownAt da.clipping da.clip.y da.clip.h (y + dy) then
      (p + n + skip, discRow da x lo n (dy * dy) r2 color p fb)
    else (p + skip, fb)) (p, da.fb)

def gfxDisc (da : GfxDrawable) (x y : ℤ) (r : UInt32) (color : GfxColor) : Option GfxDrawable :=
  let r : ℤ := r.toNat
  let p := unsigned (unsigned (y - r) * da.w) + x - r
  -- (r + 0.5) * (r + 0.5), cut to an integer
  let r2 := r * r + r
  if !da.clipping ∧ ¬ (x ≥ signed r ∧ x + signed r < da.w) then none
  else if !da.clipping ∧ ¬ (y ≥ signed r ∧ y + signed r < da.h) then none
  else
    let rows := discRows da x y (signed (-r)) (signed r) (unsigned (da.w - 2 * r - 1)) r2 color p
    damage { da with fb := rows.2 }
      (signed (x - r)) (signed (y - r)) (signed (2 * r + 1)) (signed (2 * r + 1))

/-! ## Compositing -/

/-- What `gfx_copy` copies from: another drawable, or the one that it copies to. -/
inductive Source where
  | other (w h : ℕ) (fb : Mem GfxColor)
  | self

def Source.w (image : Source) (da : GfxDrawable) : ℕ :=
  match image with
  | other w .. => w
  | self => da.w

def Source.h (image : Source) (da : GfxDrawable) : ℕ :=
  match image with
  | other _ h _ => h
  | self => da.h

/-- The memory that is read while the memory that is written is `fb`. -/
def Source.read (image : Source) (fb : Mem GfxColor) : Mem GfxColor :=
  match image with
  | other _ _ fb => fb
  | self => fb

/-- One row of a copy. A negative colour makes no pixel transparent. -/
def copyRow (image : Source) (dst src : ℤ) (w : ℕ) (transparentColor : ℤ) (fb : Mem GfxColor) :
    Mem GfxColor :=
  if transparentColor < 0 then memmove dst (image.read fb) src w fb
  else
    loop w (fun x fb =>
      if (image.read fb (src + x)).toNat ≠ transparentColor then
        Function.update fb (dst + x) (image.read fb (src + x))
      else fb) fb

def gfxCopy (da : GfxDrawable) (xt yt : UInt32) (image : Source) (xf yf w h : UInt32)
    (transparentColor : ℤ) : Option GfxDrawable :=
  let fw := image.w da
  let src := unsigned (yf.toNat * fw) + xf.toNat
  let dst := unsigned (yt.toNat * da.w) + xt.toNat
  if ¬ (xf.toNat < fw ∧ (xf + w).toNat ≤ fw) then none
  else if ¬ (yf.toNat < image.h da ∧ (yf + h).toNat ≤ image.h da) then none
  else if ¬ (xt.toNat < da.w ∧ (xt + w).toNat ≤ da.w) then none
  else if ¬ (yt.toNat < da.h ∧ (yt + h).toNat ≤ da.h) then none
  else
    damage { da with
      fb := loop h.toNat (fun y =>
        copyRow image (dst + y * da.w) (src + y * fw) w.toNat transparentColor) da.fb }
      (signed xt.toNat) (signed yt.toNat) (signed w.toNat) (signed h.toNat)

/-! ## Scrolling -/

/-- The number of colours in `size` bytes, for an unsigned `size` computed from a number of
colours. -/
def coloursIn (n : ℤ) : ℕ := (unsigned (unsigned n * 2)).toNat / 2

def gfxHscroll (da : GfxDrawable) (x y w h : UInt32) (dx : ℤ) : Option GfxDrawable :=
  let p : ℤ := unsigned (y.toNat * da.w) + x.toNat
  if ¬ ((x + w).toNat ≤ da.w) then none
  else if ¬ ((y + h).toNat ≤ da.h) then none
  else if ¬ (dx < signed w.toNat ∨ -dx < signed w.toNat) then none
  else if dx = 0 then some da
  else if dx < 0 then
    damage { da with
      fb := loop h.toNat (fun i fb =>
        let p := p + i * da.w
        memmove p fb (p - dx) (coloursIn (w.toNat + dx)) fb) da.fb }
      (signed x.toNat) (signed y.toNat) (signed (w.toNat + dx)) (signed h.toNat)
  else
    damage { da with
      fb := loop h.toNat (fun i fb =>
        let p := p + i * da.w
        memmove (p + dx) fb p (coloursIn (w.toNat - dx)) fb) da.fb }
      (signed (x.toNat + dx)) (signed y.toNat) (signed (w.toNat - dx)) (signed h.toNat)

/-! ## Drawable initialization -/

def gfxReset (da : GfxDrawable) : GfxDrawable := { da with changed := false }

def gfxDaInit (w h : ℕ) (fb : Mem GfxColor) (clip damage : GfxRect)
    (fits : w < 2 ^ 31 ∧ h < 2 ^ 31 ∧ w * h < 2 ^ 31) : GfxDrawable where
  w := w
  h := h
  fb := fb
  clipping := false
  clip := clip
  changed := false
  damage := damage
  fits := fits

/-! ## Display update -/

def GfxRect.Has (r : GfxRect) (px py : ℤ) : Prop :=
  (r.x ≤ px ∧ px < r.x + r.w) ∧ (r.y ≤ py ∧ py < r.y + r.h)

instance (r : GfxRect) (px py : ℤ) : Decidable (r.Has px py) :=
  inferInstanceAs (Decidable (_ ∧ _))

def GfxDrawable.pixel (da : GfxDrawable) (px py : ℤ) : GfxColor := da.fb (py * da.w + px)

/-- `update_display`, for a display that shows `panel`. The damaged rectangle is sent to it. -/
def updateDisplay (da : GfxDrawable) (panel : ℤ → ℤ → GfxColor) :
    Option (GfxDrawable × (ℤ → ℤ → GfxColor)) :=
  if !da.changed then some (da, panel)
  else if da.damage.w = 0 ∨ da.damage.h = 0 then none
  else some (gfxReset da, fun px py =>
    if da.damage.Has px py then da.pixel px py else panel px py)

end Sunela.Gfx
