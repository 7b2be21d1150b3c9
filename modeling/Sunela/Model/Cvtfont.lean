import Mathlib.Data.Nat.Notation
import Sunela.Model.Text

/-! # The font converter

Glyphs of a font in BDF format are encoded as characters, each with the number of bits that
takes the least space. -/

namespace Sunela.Cvtfont

open Text

/-- A glyph, with the coordinates of the pixels that are patched. There is a line for each row,
and each line has a bit for each column. -/
structure Glyph where
  code : ℕ
  w : ℕ
  h : ℕ
  ox : ℤ
  oy : ℤ
  advance : ℕ
  lines : List Bytes
  patch : List (ℕ × ℕ)
  lines_length : lines.length = h
  line_length : ∀ line ∈ lines, line ≠ [] ∧ w ≤ 8 * line.length

/-- The pixel is changed by each patch for it. -/
def patched (patch : List (ℕ × ℕ)) (x y : ℕ) (this : Bool) : Bool :=
  patch.foldl (fun this p => if p = (x, y) then !this else this) this

/-- The pixels of a line from the top to the low bit of each byte, up to the width. -/
def linePixels (w : ℕ) (patch : List (ℕ × ℕ)) (y : ℕ) (line : Bytes) : List Bool :=
  line.zipIdx.flatMap fun (v, i) => (List.range 8).filterMap fun j =>
    if i * 8 + j ≥ w then none
    else some (patched patch (i * 8 + j) y (v.toNat.testBit (7 - j)))

/-- The state of the conversion to runs. The lists are in reverse. -/
structure Runs where
  data : List ℕ
  best : List Bool
  last : Bool

/-- One more pixel extends the last run, or starts another one. -/
def Runs.add (s : Runs) (this : Bool) : Runs :=
  if this = s.last then
    match s.data with
    | n :: data => { s with data := (n + 1) :: data, best := this :: s.best }
    | [] => s
  else { data := 1 :: s.data, best := (!s.last) :: s.best, last := !s.last }

/-- The first pixel of the first line, before it is patched. -/
def Glyph.start (g : Glyph) : Bool :=
  match g.lines with
  | (v :: _) :: _ => v.toNat.testBit 7
  | _ => false

/-- The pixels in the order in which they are read. -/
def Glyph.pixels (g : Glyph) : List Bool :=
  g.lines.zipIdx.flatMap fun (line, y) => linePixels g.w g.patch y line

def Glyph.runs (g : Glyph) : Runs :=
  g.pixels.foldl Runs.add { data := [0], best := [], last := g.start }

/-- The codes of a run. A code of all ones means that the run goes on. -/
def splitSpan (bits : ℕ) : ℕ → ℕ → List ℕ
  | 0, _ => []
  | fuel + 1, span =>
      if span > 2 ^ bits - 1 then (2 ^ bits - 1) :: splitSpan bits fuel (span - (2 ^ bits - 1))
      else [span - 1]

def spanCodes (bits : ℕ) (data : List ℕ) : List ℕ :=
  data.flatMap fun span => splitSpan bits (span + 1) span

/-- Use another number of bits where this takes less space. -/
def better (data : List ℕ) (best : ℕ × List ℕ) (bits : ℕ) : ℕ × List ℕ :=
  let temp := spanCodes bits data
  if temp.length * bits < best.2.length * best.1 then (bits, temp) else best

def bestCodes (data : List ℕ) (pixels : List Bool) : ℕ × List ℕ :=
  [2, 3, 4, 5, 6, 7].foldl (better data) (1, pixels.map Bool.toNat)

/-- The bytes that are printed for a list of codes. -/
def packLoop (bits v length : ℕ) : List ℕ → List ℕ
  | [] => [v]
  | span :: rest =>
      let v := v + span <<< length
      let length := length + bits
      if length > 8 then (v &&& 255) :: packLoop bits (v >>> 8) (length - 8) rest
      else packLoop bits v length rest

/-- `character`: the definition that is printed. The compiler stores the numbers in the fields. -/
def character (g : Glyph) : Character :=
  let c : Character := ⟨UInt16.ofNat g.code, UInt8.ofNat g.w, UInt8.ofNat g.h, Int8.ofInt g.ox,
    Int8.ofInt g.oy, UInt8.ofNat g.advance, 0, false, []⟩
  if g.lines = [] then c
  else
    let (bits, best) := bestCodes g.runs.data.reverse g.runs.best.reverse
    { c with
      bits := Int8.ofNat bits
      start := g.start
      data := (packLoop bits 0 0 best).map UInt8.ofNat }

end Sunela.Cvtfont
