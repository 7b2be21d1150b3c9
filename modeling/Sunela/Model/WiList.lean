import Mathlib.Algebra.Order.BigOperators.Group.List
import Sunela.Model.Gfx

/-! # Scrollable list of tappable items

Where the entries of a list are drawn, and which entry is at a position. -/

namespace Sunela.Widget

open Gfx

def gfxWidth : ℕ := 240

def gfxHeight : ℕ := 280

def gfxBlack : GfxColor := 0

def defaultOpad : UInt32 := 1

def defaultIpad : UInt32 := 1

def overScroll : UInt32 := 50

/-- The colours are those of even and of odd entries. -/
structure WiListEntryStyle where
  bg : Bool → GfxColor
  minH : UInt32
  hasRender : Bool

/-- The texts of an entry are known by their widths. There may be no second one. -/
structure WiListEntry where
  left : UInt32
  firstW : UInt32
  secondW : Option UInt32
  textWidth : UInt32
  style : WiListEntryStyle

structure WiListStyle where
  y1 : UInt32
  opad : UInt32
  ipad : UInt32
  noOverScroll : Bool

/-! ## Helper functions -/

def opad (style : WiListStyle) : UInt32 := if style.opad ≠ 0 then style.opad else defaultOpad

def ipad (style : WiListStyle) : UInt32 := if style.ipad ≠ 0 then style.ipad else defaultIpad

def entryHeight (style : WiListStyle) (textHeight : UInt32) (e : WiListEntry) : UInt32 :=
  2 * opad style + if e.secondW.isSome then 2 * textHeight + ipad style else textHeight

/-- The height of an entry with its minimum. -/
def fullHeight (style : WiListStyle) (textHeight : UInt32) (e : WiListEntry) : UInt32 :=
  let h := entryHeight style textHeight e
  if e.style.minH < h then h else e.style.minH

def heights (style : WiListStyle) (textHeight : UInt32) (entries : List WiListEntry) : List ℕ :=
  entries.map fun e => (fullHeight style textHeight e).toNat

/-- `struct wi_list`. Its window is on the screen, and the positions of its entries fit an
`int`. -/
structure WiList where
  entries : List WiListEntry
  style : WiListStyle
  y0 : UInt32
  textHeight : UInt32
  totalHeight : UInt32
  up : UInt32
  scrollUp : UInt32
  scrollEntry : Option ℕ
  scrollLeft : UInt32
  window : y0 ≤ style.y1 ∧ style.y1.toNat < gfxHeight
  fits : y0.toNat + (heights style textHeight entries).sum < 2 ^ 31

/-! ## Item selection -/

/-- The loop of `wi_list_pick`. Entries are known by their numbers. -/
def pickFrom (list : WiList) (y : UInt32) : List WiListEntry → ℕ → ℤ → Option ℕ
  | [], _, _ => none
  | e :: entries, i, pos =>
      let pos := signed (pos + (fullHeight list.style list.textHeight e).toNat)
      if signed y.toNat < pos then some i else pickFrom list y entries (i + 1) pos

/-- The entry at a position. It does not depend on `x`. -/
def wiListPick (list : WiList) (_x y : UInt32) : Option ℕ :=
  let pos := signed (list.y0 - list.up).toNat
  if signed y.toNat < pos then none else pickFrom list y list.entries 0 pos

/-! ## Shared clipping function -/

/-- The clip rectangle, if the assertions of `gfx_clip` allow it. -/
def clipBb (list : WiList) (bb : GfxRect) : Option GfxRect :=
  let y0 := signed list.y0.toNat
  let y1 := signed list.style.y1.toNat
  let clip := if bb.y < y0 then { bb with h := signed (bb.h - (y0 - bb.y)), y := y0 } else bb
  let clip := if clip.y + clip.h > y1 + 1 then { clip with h := signed (y1 + 1 - clip.y) } else clip
  if clip.x ≥ 0 ∧ clip.y ≥ 0 ∧ clip.x + clip.w ≤ gfxWidth ∧ clip.y + clip.h ≤ gfxHeight then
    some clip
  else none

/-! ## List drawing -/

/-- What is drawn: a filled rectangle, the first or the second text, or what `render` draws. -/
inductive Figure where
  | rect (bb : GfxRect) (color : GfxColor)
  | text (second : Bool) (x y : ℤ)
  | render (bb : GfxRect) (odd : Bool)

/-- A figure with the clip rectangle that it is drawn in. -/
structure Clipped where
  clip : GfxRect
  figure : Figure

def textX (e : WiListEntry) (w : UInt32) : ℤ :=
  if w ≤ e.textWidth then 0 else signed (-e.left).toNat

def doDrawEntry (list : WiList) (e : WiListEntry) (bb : GfxRect) (y : UInt32) (odd : Bool) :
    Option (List Clipped) := do
  let style := list.style
  let clip ← clipBb list bb
  let textClip ← clipBb list { bb with w := signed e.textWidth.toNat }
  let first := Figure.text false (textX e e.firstW) (signed (y + opad style).toNat)
  let second := e.secondW.map fun w =>
    Figure.text true (textX e w) (signed (y + opad style + ipad style + list.textHeight).toNat)
  let render := if e.style.hasRender then [⟨clip, .render bb odd⟩] else []
  return ⟨clip, .rect bb (e.style.bg odd)⟩ ::
    ((first :: second.toList).map (Clipped.mk textClip) ++ render)

/-- The height of the entry, and what is drawn. -/
def drawEntry (list : WiList) (e : WiListEntry) (y : ℤ) (odd : Bool) :
    Option (UInt32 × List Clipped) :=
  let h := entryHeight list.style list.textHeight e
  let top := y
  let (y, h) :=
    if h < e.style.minH then (signed (y + ((e.style.minH - h) / 2).toNat), e.style.minH)
    else (y, h)
  let bb : GfxRect := ⟨0, top, gfxWidth, signed h.toNat⟩
  if ¬ h ≤ list.style.y1 - list.y0 + 1 then none
  else if top + bb.h ≤ signed list.y0.toNat then some (h, [])
  else if top > signed list.style.y1.toNat then some (h, [])
  else (doDrawEntry list e bb (UInt32.ofInt y) odd).map (h, ·)

/-- The loop of `draw_list`. What is drawn comes with the number of its entry. -/
def drawEntries (list : WiList) :
    List WiListEntry → ℕ → UInt32 → Option (UInt32 × List (ℕ × Clipped))
  | [], _, y => some (y, [])
  | e :: entries, i, y => do
      let (h, drawn) ← drawEntry list e (signed y.toNat - signed list.up.toNat) (i % 2 = 1)
      let (y, rest) ← drawEntries list entries (i + 1) (y + h)
      return (y, drawn.map (i, ·) ++ rest)

/-- What is drawn for the entries, and the rectangle below them that is cleared. -/
structure Drawn where
  entries : List (ℕ × Clipped)
  below : Option Figure
  height : UInt32

def drawList (list : WiList) : Option Drawn := do
  let (y, entries) ← drawEntries list list.entries 0 list.y0
  let ys := signed y.toNat - signed list.up.toNat
  let y1 := signed list.style.y1.toNat
  let below :=
    if ys ≥ 0 ∧ ys ≤ y1 then some (.rect ⟨0, ys, gfxWidth, signed (y1 - ys + 1)⟩ gfxBlack) else none
  return { entries, below, height := y - list.y0 }

/-! ## Vertical scrolling -/

def scrolledUp (list : WiList) (dy : ℤ) : UInt32 :=
  let up := signed (list.scrollUp.toNat - dy)
  if up < 0 then 0
  else
    let listH := list.totalHeight + if list.style.noOverScroll then 0 else overScroll
    let winH := list.style.y1 - list.y0 + 1
    if listH < winH then 0
    else if listH - winH < UInt32.ofInt up then listH - winH
    else UInt32.ofInt up

def scrolledLeft (list : WiList) (e : WiListEntry) (dx : ℤ) : UInt32 :=
  let secondW := e.secondW.getD 0
  let width := if e.firstW > secondW then e.firstW else secondW
  let maxLeft := if width ≤ e.textWidth then 0 else width - e.textWidth
  let left := signed (list.scrollLeft.toNat - dx)
  let left := if left < 0 then 0 else left
  if left > signed maxLeft.toNat then maxLeft else UInt32.ofInt left

theorem heights_modify (style : WiListStyle) (textHeight : UInt32) (entries : List WiListEntry)
    (i : ℕ) (left : WiListEntry → UInt32) :
    heights style textHeight (entries.modify i fun e => { e with left := left e }) =
      heights style textHeight entries := by
  apply List.ext_getElem?
  intro j
  simp only [heights, List.getElem?_map, List.getElem?_modify]
  cases entries[j]? with
  | none => rfl
  | some e => split <;> rfl

def listScroll (list : WiList) (dx dy : ℤ) : Option (WiList × Drawn) := do
  let entries := match list.scrollEntry with
    | none => list.entries
    | some i => list.entries.modify i fun e => { e with left := scrolledLeft list e dx }
  have hfits : list.y0.toNat + (heights list.style list.textHeight entries).sum < 2 ^ 31 := by
    simp only [entries]
    split
    · exact list.fits
    · rw [heights_modify]
      exact list.fits
  let list := { list with entries, up := scrolledUp list dy, fits := hfits }
  let drawn ← drawList list
  return (list, drawn)

/-! ## Gestures -/

/-- A list, `scrolling`, and what has been drawn last. -/
structure Scroller where
  list : WiList
  scrolling : Bool
  display : Drawn

/-- `wi_list_end`. The caller finds the height in the list. -/
def wiListEnd (list : WiList) : Option Scroller := do
  let display ← drawList list
  return { list := { list with totalHeight := display.height }, scrolling := false, display }

/-- The entry at a position, if it can be scrolled sideways. -/
def scrollable (list : WiList) (x y : UInt32) : Option (ℕ × WiListEntry) := do
  let i ← wiListPick list x y
  let e ← list.entries[i]?
  if e.firstW > e.textWidth ∨ e.secondW.getD 0 > e.textWidth then some (i, e) else none

/-- The beginning of `wi_list_moving`, if the list is not scrolling yet. -/
def startScrolling (list : WiList) : Option (ℕ × WiListEntry) → WiList
  | some (i, e) => { list with scrollEntry := some i, scrollLeft := e.left, scrollUp := list.up }
  | none => { list with scrollEntry := none, scrollUp := list.up }

def wiListMoving (s : Scroller) (fromX fromY toX toY : UInt32) : Option (Bool × Scroller) :=
  if fromY < s.list.y0 ∨ fromY > s.list.style.y1 then some (false, s)
  else
    let list :=
      if !s.scrolling then startScrolling s.list (scrollable s.list fromX fromY) else s.list
    if fromX ≠ toX ∨ fromY ≠ toY then do
      let (list, display) ←
        listScroll list (signed (toX - fromX).toNat) (signed (toY - fromY).toNat)
      return (true, { list, scrolling := true, display })
    else some (true, { s with list, scrolling := true })

/-- The list without what has been scrolled sideways. -/
def resetLeft (list : WiList) : List WiListEntry :=
  match list.scrollEntry with
  | none => list.entries
  | some i => list.entries.modify i fun e => { e with left := 0 }

theorem resetLeft_fits (list : WiList) :
    list.y0.toNat + (heights list.style list.textHeight (resetLeft list)).sum < 2 ^ 31 := by
  rw [resetLeft]
  cases list.scrollEntry with
  | none => exact list.fits
  | some i =>
      rw [heights_modify]
      exact list.fits

def wiListCancel (s : Scroller) : Option Scroller :=
  if s.scrolling then
    let list := { s.list with entries := resetLeft s.list, fits := resetLeft_fits s.list }
    if list.scrollUp ≠ list.up ∨ list.scrollEntry.isSome then do
      let list := { list with scrollEntry := none, up := list.scrollUp }
      let display ← drawList list
      return { list, scrolling := false, display }
    else some { s with list, scrolling := false }
  else some s

/-- `wi_list_to`. A swipe to the left is for the list only if it scrolls an entry. -/
def wiListTo (s : Scroller) (fromX fromY toX toY : UInt32) (left : Bool) :
    Option (Bool × Scroller) :=
  if s.list.scrollEntry.isNone ∧ left then (wiListCancel s).map (false, ·)
  else do
    let (res, s) ← wiListMoving s fromX fromY toX toY
    return (res, { s with list := { s.list with scrollEntry := none }, scrolling := false })

end Sunela.Widget
