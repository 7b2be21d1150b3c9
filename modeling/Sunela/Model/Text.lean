import Sunela.Lib.CString
import Sunela.Model.Gfx

/-! # Text drawing

Characters are bitmaps, packed as they are or as the lengths of runs. -/

namespace Sunela.Text

open Gfx

/-- `struct character` -/
structure Character where
  code : UInt16
  w : UInt8
  h : UInt8
  ox : Int8
  oy : Int8
  advance : UInt8
  bits : Int8
  start : Bool
  data : Bytes
  deriving DecidableEq

/-- The characters of a font, which are in order of their codes. -/
abbrev Font := List Character

def fontFindChar (font : Font) (code : UInt16) : Option Character :=
  font.find? fun c => c.code = code

/-- Why drawing stops early. -/
inductive Fault where
  | assertion
  /-- reading past the end of the data -/
  | pastEnd
  /-- the loop has not ended yet -/
  | running
  deriving DecidableEq

/-- The data from `p` on, and `got` bits in a buffer of 16 bits. -/
structure Reader where
  p : Bytes
  buf : ℕ
  got : ℕ
  deriving DecidableEq

/-- Read another byte behind the bits in the buffer. -/
def Reader.refill (r : Reader) : Except Fault Reader :=
  match r.p with
  | [] => .error .pastEnd
  | b :: p => .ok { p, buf := (r.buf ||| b.toNat <<< r.got) % 2 ^ 16, got := (r.got + 8) % 256 }

/-- Make sure that there are `bits` bits in the buffer. -/
def Reader.need (r : Reader) (bits : ℕ) : Except Fault Reader :=
  if r.got < bits then r.refill else .ok r

/-- Make sure that there is a bit in the buffer, in a bitmap. -/
def Reader.needBit (r : Reader) : Except Fault Reader :=
  if r.got = 0 then Reader.refill { r with buf := 0 } else .ok r

/-- Drop bits from the buffer. -/
def Reader.drop (r : Reader) (bits : ℕ) : Reader :=
  { r with buf := r.buf >>> bits, got := (r.got + 256 - bits) % 256 }

/-- The loop that adds up the length of a run. -/
def spanLoop (fuel bits more : ℕ) (r : Reader) : Except Fault (ℕ × Reader) :=
  match fuel with
  | 0 => .error .running
  | fuel + 1 => do
      let r ← r.need bits
      let this := ((r.buf &&& (2 ^ bits - 1)) + 1) % 256
      let more := (more + this) % 2 ^ 16
      let r := r.drop bits
      if this ≠ 2 ^ bits then return (more, r)
      else spanLoop fuel bits ((more + 2 ^ 16 - 1) % 2 ^ 16) r

/-- A bit of a bitmap, or the next run, which is of the colour `on`. -/
def nextSpan (fuel : ℕ) (bits : Int8) (on : Bool) (r : Reader) :
    Except Fault ((Bool × ℕ) × Reader) :=
  if bits = 1 then do
    let r ← r.needBit
    return ((r.buf.testBit 0, 1), r.drop 1)
  else do
    let (more, r) ← spanLoop fuel bits.toInt.toNat 0 r
    return ((on, more), r)

/-- The position where the next pixel is drawn. -/
structure Pen where
  x : ℕ
  y : ℕ
  da : GfxDrawable

/-- `gfx_rect_xy` with a height of one pixel, if `on`. -/
def Pen.row (pen : Pen) (x1 y1 : ℤ) (on : Bool) (n : ℕ) (color : GfxColor) : Except Fault Pen :=
  if on then
    match gfxRectXy pen.da (signed (x1 + pen.x)) (signed (y1 + pen.y)) n 1 color with
    | none => .error .assertion
    | some da => .ok { pen with da }
  else .ok pen

/-- Draw to the ends of rows as long as the run reaches them. The result is what is left of it. -/
def rowLoop (fuel : ℕ) (x1 y1 : ℤ) (w : ℕ) (on : Bool) (color : GfxColor) (more : ℕ) (pen : Pen) :
    Except Fault (ℕ × Pen) :=
  match fuel with
  | 0 => .error .running
  | fuel + 1 =>
      if pen.x + more ≥ w then do
        let d := w - pen.x
        let pen ← pen.row x1 y1 on d color
        rowLoop fuel x1 y1 w on color (more - d) { pen with x := 0, y := pen.y + 1 }
      else pure (more, pen)

/-- The main loop of `text_char`. -/
def charLoop (fuel : ℕ) (x1 y1 : ℤ) (c : Character) (color : GfxColor) (n : ℕ) (on : Bool)
    (r : Reader) (pen : Pen) : Except Fault GfxDrawable :=
  match n with
  | 0 => .error .running
  | n + 1 =>
      if pen.x ≠ c.w.toNat ∧ pen.y ≠ c.h.toNat then do
        let ((on, more), r) ← nextSpan fuel c.bits on r
        let (more, pen) ← rowLoop fuel x1 y1 c.w.toNat on color more pen
        let pen ← pen.row x1 y1 (on && more ≠ 0) more color
        charLoop fuel x1 y1 c color n (!on) r { pen with x := pen.x + more }
      else pure pen.da

/-- `text_char`, where no loop is run more often than `fuel` times. -/
def textChar (fuel : ℕ) (da : GfxDrawable) (x1 y1 : ℤ) (font : Font) (ch : UInt16)
    (color : GfxColor) : Except Fault (UInt8 × GfxDrawable) :=
  match fontFindChar font ch with
  | none => .error .assertion
  | some c =>
      if c.bits = 0 then .ok (c.advance, da)
      else do
        let da ← charLoop fuel (x1 + c.ox.toInt) (y1 - (c.oy.toInt + c.h.toNat - 1)) c color fuel
          c.start ⟨c.data, 0, 0⟩ ⟨0, 0, da⟩
        return (c.advance, da)

end Sunela.Text
