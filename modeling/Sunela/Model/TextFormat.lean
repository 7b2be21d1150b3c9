import Sunela.Model.Fmt
import Sunela.Model.Text

/-! # Texts and lines

Where the characters of a text are drawn, and how a text is broken into lines. `char` is
unsigned. -/

namespace Sunela.Text

open Gfx Fmt

/-- `struct font` -/
structure FontFace where
  w : UInt8
  h : UInt8
  ox : Int8
  oy : Int8
  chars : Font

def FontFace.find (font : FontFace) (ch : UInt8) : Option Character :=
  fontFindChar font.chars ch.toUInt16

/-- `struct text_area` -/
structure TextArea where
  x0 : ℤ
  x1 : ℤ
  y0 : ℤ
  y1 : ℤ
  next : ℤ

/-- `struct text_query` -/
structure TextQuery where
  x : ℤ
  y : ℤ
  w : ℤ
  h : ℤ
  ox : ℤ
  oy : ℤ
  next : ℤ

/-- The bits of `GFX_ALIGN_MASK`. `low` is at the left or at the top. -/
inductive Align where
  | low
  | center
  | high
  | origin
  deriving DecidableEq

/-! ## Bounding boxes and alignment -/

def TextArea.add (a : TextArea) (first : Bool) (c : Character) : TextArea :=
  let next := if first then 0 else a.next
  let top := c.oy.toInt + c.h.toNat - 1
  { x0 := if first then c.ox.toInt else a.x0
    x1 := next + c.ox.toInt + c.w.toNat - 1
    y0 := if first ∨ c.oy.toInt < a.y0 then c.oy.toInt else a.y0
    y1 := if first ∨ top > a.y1 then top else a.y1
    next := next + c.advance.toNat }

/-- The loop of `area_rendered`. Characters that are not in the font are skipped. -/
def areaLoop (font : FontFace) : Bytes → Bool → TextArea → TextArea
  | [], _, a => a
  | ch :: s, first, a =>
      match font.find ch with
      | none => areaLoop font s first a
      | some c => areaLoop font s false (a.add first c)

def areaRendered (font : FontFace) (s : Bytes) : TextArea := areaLoop font s true ⟨0, 0, 0, 0, 0⟩

def areaMax (font : FontFace) (len : UInt32) : TextArea :=
  let maxAdv := font.chars.foldl (fun m c => max m c.advance.toNat) 0
  let box (x0 x1 next : ℤ) : TextArea :=
    { x0, x1, y0 := font.oy.toInt, y1 := font.oy.toInt + font.h.toNat - 1, next }
  if len ≠ 0 then
    box font.ox.toInt (signed (font.ox.toInt + maxAdv * (len - 1).toNat + font.w.toNat - 1))
      (signed (font.ox.toInt + maxAdv * len.toNat))
  else box 0 0 (signed font.ox.toInt)

/-- The edge of the box and the origin along the x axis. -/
def alignX (a : TextArea) (x w : ℤ) : Align → ℤ × ℤ
  | .origin => (x + a.x0, x)
  | .low => (x, x - a.x0)
  | .center => (x - w.tdiv 2, x - w.tdiv 2 - a.x0)
  | .high => (if w ≠ 0 then x - w + 1 else x, x - (if w ≠ 0 then w - 1 else 0) - a.x0)

/-- The edge of the box and the origin along the y axis. -/
def alignY (a : TextArea) (y h : ℤ) : Align → ℤ × ℤ
  | .origin => (y - a.y1, y)
  | .low => (y, y + a.y1)
  | .center => (y - h.tdiv 2, y - h.tdiv 2 + a.y1)
  | .high => (if h ≠ 0 then y - h + 1 else y, y - (if h ≠ 0 then h - 1 else 0) + a.y1)

/-- `text_align`, where `max` is `GFX_MAX` of the vertical alignment. -/
def textAlign (a : TextArea) (x y : ℤ) (ax ay : Align) (max : Bool) : TextQuery :=
  let sized := a.next ≠ 0 ∨ max
  let w := if sized then a.x1 - a.x0 + 1 else 0
  let h := if sized then a.y1 - a.y0 + 1 else 0
  let (qx, ox) := alignX a x w ax
  let (qy, oy) := alignY a y h ay
  { x := qx, y := qy, w, h, ox, oy, next := ox + a.next }

/-- `text_query`. The sizes are those of the text, or the largest of the font. -/
def textQuery (x y : ℤ) (s : Bytes) (font : FontFace) (ax ay : Align) (maxX maxY : Bool) :
    TextQuery :=
  let text := textAlign (areaRendered font s) x y ax ay maxY
  let max := textAlign (areaMax font (.ofNat s.length)) x y ax ay maxY
  let qx := if maxX then max else text
  let qy := if maxY then max else text
  { x := qx.x, y := qy.y, w := qx.w, h := qy.h, ox := qx.ox, oy := qy.oy, next := qx.next }

/-! ## Text strings -/

/-- A call of `text_char`. -/
structure Drawing where
  x : ℤ
  y : ℤ
  ch : UInt8

/-- The loop of `text_text`. There is no result if the assertion of `text_char` fails. -/
def charsFrom (font : FontFace) (y : ℤ) : Bytes → ℤ → Option (List Drawing × ℤ)
  | [], ox => some ([], ox)
  | ch :: s, ox => do
      let c ← font.find ch
      let (rest, next) ← charsFrom font y s (ox + c.advance.toNat)
      return (⟨ox, y, ch⟩ :: rest, next)

/-- What `text_text` draws, and its result. -/
def textText (font : FontFace) (x y : ℤ) (s : Bytes) (ax ay : Align) :
    Option (List Drawing × ℤ) :=
  let q := textQuery x y s font ax ay false false
  charsFrom font q.oy s q.ox

/-! ## Line breaks -/

/-- What `ispunct` accepts. -/
def isPunct (ch : UInt8) : Bool :=
  (33 ≤ ch && ch ≤ 47) || (58 ≤ ch && ch ≤ 64) || (91 ≤ ch && ch ≤ 96) || (123 ≤ ch && ch ≤ 126)

def anyChar (_ : UInt8) : Bool := true

/-- The width of a text. -/
def textWidth (font : FontFace) (s : Bytes) : ℤ :=
  (textQuery 0 0 s font .low .low false false).w

/-- How far `end` moves on in a text that is not empty. -/
def breakStep (mayBreak : UInt8 → Bool) (atLast : Bool) : Bytes → ℕ
  | [] => 0
  | ch :: rest =>
      if atLast ∧ mayBreak ch then 1 else 1 + (rest.takeWhile fun ch => !mayBreak ch).length

/-- The loop of `find_break`, with the text before and after `end`. -/
def breakLoop (font : FontFace) (w : UInt32) (mayBreak : UInt8 → Bool) :
    ℕ → Option ℕ → Bytes → Bytes → Option (Option ℕ)
  | 0, _, _, _ => none
  | fuel + 1, last, done, rest =>
      if rest = [] then some last
      else
        let n := breakStep mayBreak (last = some done.length) rest
        let done := done ++ rest.take n
        if textWidth font done > signed w.toNat then some (if last = some 0 then none else last)
        else breakLoop font w mayBreak fuel (some done.length) done (rest.drop n)

/-- Where to break a line, if it can be broken so that it fits. -/
def findBreak (fuel : ℕ) (s : Bytes) (w : UInt32) (font : FontFace) (mayBreak : UInt8 → Bool) :
    Option (Option ℕ) :=
  breakLoop font w mayBreak fuel none [] s

/-- White space is best to break at, and any character is only if there is no other way. There is
no result if there is none at all. -/
def lineEnd (fuel : ℕ) (s : Bytes) (w : UInt32) (font : FontFace) : Option ℕ := do
  match ← findBreak fuel s w font isSpace with
  | some n => return n
  | none =>
      match ← findBreak fuel s w font isPunct with
      | some n => return n
      | none => ← findBreak fuel s w font anyChar

/-- A line with its distance from the top, and the position where it is drawn, if it is. -/
structure TextLine where
  text : Bytes
  pos : ℤ
  drawn : Option (ℤ × ℤ)

/-- Where a line begins. There is no result if the code aborts. -/
def lineX (x : ℤ) (w : UInt32) (lineW : ℤ) : Align → Option ℤ
  | .low => some x
  | .high => some (signed (x + unsigned (w.toNat - lineW)))
  | .center => some (signed (x + unsigned (w.toNat - lineW) / 2))
  | .origin => none

/-- The loop of `text_format`. -/
def formatLoop (x y : ℤ) (w h : UInt32) (font : FontFace) (align : Align) :
    ℕ → Bytes → ℤ → Option (List TextLine × ℤ)
  | 0, _, _ => none
  | fuel + 1, p, pos => do
      let p := p.dropWhile isSpace
      if p = [] then return ([], pos)
      else
        let n ← lineEnd (p.length + 1) p w font
        let text := p.take n
        let q := textQuery 0 0 text font .low .low false true
        let drawn ← (if pos + q.h ≥ 0 ∧ pos < signed h.toNat then
          (lineX x w q.w align).map fun x0 => some (x0, y + pos + q.oy) else some none)
        let line : TextLine := { text, pos, drawn }
        if p.drop n = [] then return ([line], pos + q.h)
        else
          let (lines, pos) ← formatLoop x y w h font align fuel (p.drop n) (pos + q.h)
          return (line :: lines, pos)

/-- The lines of `text_format`, and its result. -/
def textFormat (fuel : ℕ) (x y : ℤ) (w h offset : UInt32) (s : Bytes) (font : FontFace)
    (align : Align) : Option (List TextLine × ℤ) := do
  let (lines, pos) ← formatLoop x y w h font align fuel s (signed (-offset.toNat))
  return (lines, signed (pos - h.toNat))

end Sunela.Text
