import Mathlib.Data.Int.Notation
import Sunela.Lib.Gnome
import Sunela.Lib.Winding
import Sunela.Model.Text

/-! # Filled polygons

The polygons of `gfx/poly.c`. -/

namespace Sunela.Gfx

open Winding
open Text (Fault)

structure VertXY where
  x : Int16
  y : Int16
  deriving DecidableEq

def maxCrosses : ℕ := 64

/-- The line between two points crosses the scanline. -/
def crossesAt (y : ℤ) (i j : VertXY) : Bool :=
  (i.y.toInt ≤ y && j.y.toInt > y) || (j.y.toInt ≤ y && i.y.toInt > y)

def crossOf (y : ℤ) (i j : VertXY) : Crossing :=
  let l := j.y.toInt - i.y.toInt
  let x := i.x.toInt + ((y - i.y.toInt) * (j.x.toInt - i.x.toInt)).tdiv l
  ⟨(Int16.ofInt x).toInt, l > 1⟩

/-- The crossings of the lines that end in the points, after `crosscnt` others. The first line
begins in `j`. -/
def crosses (y : ℤ) (crosscnt : ℕ) (j : VertXY) : List VertXY → List Crossing
  | [] => []
  | i :: v =>
      if crossesAt y i j ∧ crosscnt < maxCrosses ∧ j.y.toInt - i.y.toInt ≠ 0 then
        crossOf y i j :: crosses y (crosscnt + 1) i v
      else crosses y crosscnt i v

/-- Fill the pixels between node pairs. -/
def fillPairs (y : ℤ) (color : GfxColor) (da : GfxDrawable) (x s : ℤ) :
    List Crossing → Except Fault GfxDrawable
  | [] => .ok da
  | c :: cross =>
      let x := if s = 0 then c.x else x
      let s := if c.up then s + 1 else s - 1
      if (s = 0 ∨ cross = []) ∧ c.x > x then
        match gfxRectXy da x y (c.x - x - 1) 1 color with
        | some da => fillPairs y color da x s cross
        | none => .error .assertion
      else fillPairs y color da x s cross

def scanline (fuel : ℕ) (v : List VertXY) (color : GfxColor) (y : ℤ) (da : GfxDrawable) :
    Except Fault GfxDrawable :=
  match Gnome.sort Crossing.x fuel [] (crosses y 0 (v.getLastD ⟨0, 0⟩) v) with
  | some cross => fillPairs y color da 0 0 cross
  | none => .error .running

/-- The next `n` scanlines. -/
def scanlines (fuel : ℕ) (v : List VertXY) (color : GfxColor) :
    ℕ → ℤ → GfxDrawable → Except Fault GfxDrawable
  | 0, _, da => .ok da
  | n + 1, y, da => do
      let da ← scanline fuel v color y da
      scanlines fuel v color n (y + 1) da

def gfxPoly (fuel : ℕ) (da : GfxDrawable) (v : List VertXY) (color : GfxColor) :
    Except Fault GfxDrawable :=
  let miny : ℤ := v.foldl (fun miny i => if i.y.toInt < miny then i.y.toInt else miny) (da.h - 1)
  let maxy : ℤ := v.foldl (fun maxy i => if i.y.toInt > maxy then i.y.toInt else maxy) 0
  scanlines fuel v color (maxy - miny + 1).toNat miny da

end Sunela.Gfx
