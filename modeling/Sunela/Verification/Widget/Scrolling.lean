import Mathlib.Data.List.Induction
import Sunela.Verification.Widget.Picking

/-! # What is seen is what is scrolled

However a list is scrolled, what is on the display is the list as it is, and its entries are
picked where they are seen. -/

namespace Sunela.Widget

open Gfx

variable {list list' : WiList} {e : WiListEntry} {entries : List WiListEntry} {bb : GfxRect}
  {odd : Bool} {h y : UInt32} {top dx dy : ℤ} {i k : ℕ} {s s' : Scroller}

/-! ## Drawing succeeds -/

/-- An entry fits into the window. -/
structure Fitting (list : WiList) (e : WiListEntry) : Prop where
  height : (fullHeight list.style list.textHeight e).toNat + list.y0.toNat ≤
    list.style.y1.toNat + 1
  textWidth : e.textWidth.toNat ≤ gfxWidth

theorem clipBb_isSome (hx : bb.x = 0) (hw : bb.w ≤ gfxWidth) (hh : bb.h < 2 ^ 31)
    (htop : bb.y ≤ list.style.y1.toNat) (hend : list.y0.toNat < bb.y + bb.h) :
    (clipBb list bb).isSome = true := by
  have hwin := list.window_le
  simp only [clipBb, list.signed_y0, list.signed_y1]
  generalize hlow : (if bb.y < (list.y0.toNat : ℤ) then _ else bb) = low
  have hlow' : low.y = max bb.y list.y0.toNat ∧ low.y + low.h = bb.y + bb.h ∧ low.x = 0 ∧
      low.w = bb.w := by
    rw [← hlow]
    split
    · have hcut : signed (bb.h - (list.y0.toNat - bb.y)) = bb.h - (list.y0.toNat - bb.y) :=
        signed_of_mem (by omega)
      simp only [hcut]
      exact ⟨by omega, by omega, hx, trivial⟩
    · omega
  have hcut : signed (list.style.y1.toNat + 1 - low.y) = list.style.y1.toNat + 1 - low.y :=
    signed_of_mem (by omega)
  have hheight : (gfxHeight : ℤ) = 280 := rfl
  rw [if_pos]
  · rfl
  · split
    · simp only [hcut]
      omega
    · omega

theorem doDrawEntry_isSome (he : Fitting list e) (hh : h.toNat < 2 ^ 31)
    (htop : top ≤ list.style.y1.toNat) (hend : list.y0.toNat < top + h.toNat) :
    (doDrawEntry list e ⟨0, top, gfxWidth, h.toNat⟩ y odd).isSome = true := by
  have hwide := he.textWidth
  have hwidth : (gfxWidth : ℤ) = 240 := rfl
  have htext : signed e.textWidth.toNat = e.textWidth.toNat := by
    apply signed_toNat
    simp only [gfxWidth] at hwide
    omega
  obtain ⟨clip, hclip⟩ := Option.isSome_iff_exists.mp
    (@clipBb_isSome list ⟨0, top, gfxWidth, h.toNat⟩ rfl (Int.le_refl _) (by simp only; omega) htop
      hend)
  obtain ⟨textClip, htextClip⟩ := Option.isSome_iff_exists.mp
    (@clipBb_isSome list ⟨0, top, e.textWidth.toNat, h.toNat⟩ rfl (by simp only; omega)
      (by simp only; omega) htop hend)
  simp [doDrawEntry, hclip, htext, htextClip]

theorem drawBox_isSome (he : Fitting list e)
    (hh : h.toNat + list.y0.toNat ≤ list.style.y1.toNat + 1) :
    ∃ drawn, drawBox list e top odd h y = some (h, drawn) := by
  have hwin := list.window_le
  have hle : h ≤ list.style.y1 - list.y0 + 1 := by
    rw [UInt32.le_iff_toNat_le, UInt32.toNat_add, UInt32.toNat_sub_of_le _ _ list.window.1]
    simp only [UInt32.toNat_one]
    omega
  rw [drawBox, if_neg (not_not.mpr hle), signed_toNat (by omega), list.signed_y0, list.signed_y1]
  by_cases habove : top + (h.toNat : ℤ) ≤ list.y0.toNat
  · exact ⟨[], if_pos habove⟩
  · by_cases hbelow : top > (list.style.y1.toNat : ℤ)
    · exact ⟨[], by rw [if_neg habove, if_pos hbelow]⟩
    · obtain ⟨drawn, hd⟩ := Option.isSome_iff_exists.mp
        (@doDrawEntry_isSome list e odd h y top he (by omega) (by omega) (by omega))
      exact ⟨drawn, by rw [if_neg habove, if_neg hbelow, hd]; rfl⟩

theorem drawEntries_isSome (he : ∀ e ∈ entries, Fitting list e)
    (hfit : y.toNat + (heights list.style list.textHeight entries).sum < 2 ^ 31) :
    ∃ y' drawn, drawEntries list entries k y = some (y', drawn) ∧
      y'.toNat = y.toNat + (heights list.style list.textHeight entries).sum := by
  induction entries generalizing k y with
  | nil => exact ⟨y, [], rfl, rfl⟩
  | cons e entries ih =>
      rw [heights_cons, List.sum_cons] at hfit ⊢
      have hthis := he e List.mem_cons_self
      obtain ⟨y₁, hbox⟩ := drawEntry_box list e (signed y.toNat - signed list.up.toNat)
        (k % 2 = 1)
      obtain ⟨drawn, hd⟩ := @drawBox_isSome list e (k % 2 = 1)
        (fullHeight list.style list.textHeight e) y₁ (signed y.toNat - signed list.up.toNat) hthis
        hthis.height
      have hnext : (y + fullHeight list.style list.textHeight e).toNat =
          y.toNat + (fullHeight list.style list.textHeight e).toNat := by
        rw [UInt32.toNat_add]
        omega
      obtain ⟨y', rest, hrest, hy'⟩ := ih (k := k + 1)
        (y := y + fullHeight list.style list.textHeight e)
        (fun e h => he e (List.mem_cons_of_mem _ h)) (by omega)
      refine ⟨y', drawn.map (k, ·) ++ rest, ?_, by omega⟩
      rw [drawEntries, hbox, hd]
      simp only [Option.bind_eq_bind, Option.bind_some, hrest]
      rfl

/-- No assertion fails if all entries fit into the window, wherever the list is. -/
theorem drawList_isSome (he : ∀ e ∈ list.entries, Fitting list e) :
    ∃ drawn, drawList list = some drawn ∧
      drawn.height.toNat = (heights list.style list.textHeight list.entries).sum := by
  have hfits := list.fits
  obtain ⟨y', drawn, hd, hy'⟩ := @drawEntries_isSome list list.entries list.y0 0 he hfits
  refine ⟨_, by rw [drawList, hd]; rfl, ?_⟩
  have hle : list.y0 ≤ y' := by
    rw [UInt32.le_iff_toNat_le]
    omega
  simp only [UInt32.toNat_sub_of_le _ _ hle]
  omega

/-! ## Positions -/

/-- How far a list can be scrolled up. -/
def WiList.maxUp (list : WiList) : ℕ :=
  list.totalHeight.toNat + (if list.style.noOverScroll then 0 else overScroll.toNat) -
    (list.style.y1.toNat + 1 - list.y0.toNat)

/-- How far an entry can be scrolled to the left. -/
def WiListEntry.maxLeft (e : WiListEntry) : ℕ :=
  max e.firstW.toNat (e.secondW.getD 0).toNat - e.textWidth.toNat

/-- A position is the one that the list had, or the list has been scrolled there. -/
structure InRange (up₀ : UInt32) (list : WiList) (up : UInt32) : Prop where
  lt : up.toNat < 2 ^ 31
  range : up = up₀ ∨ up.toNat ≤ list.maxUp

/-- A list that can be drawn, with its entries where they can be scrolled to. -/
structure Ready (up₀ : UInt32) (list : WiList) : Prop where
  fitting : ∀ e ∈ list.entries, Fitting list e
  left : ∀ e ∈ list.entries, e.left.toNat ≤ e.maxLeft
  total : list.totalHeight.toNat = (heights list.style list.textHeight list.entries).sum
  up : InRange up₀ list list.up

/-- The lists look the same. -/
structure Alike (list list' : WiList) : Prop where
  entries : list'.entries = list.entries
  style : list'.style = list.style
  y0 : list'.y0 = list.y0
  textHeight : list'.textHeight = list.textHeight
  up : list'.up = list.up

variable {up₀ up : UInt32}

theorem Alike.drawEntries (h : Alike list list') :
    drawEntries list' entries k y = drawEntries list entries k y := by
  induction entries generalizing k y with
  | nil => rfl
  | cons e entries ih =>
      simp only [Widget.drawEntries, drawEntry, doDrawEntry, clipBb, h.style, h.y0, h.textHeight,
        h.up, ih]

theorem Alike.drawList (h : Alike list list') : drawList list' = drawList list := by
  simp only [Widget.drawList, h.drawEntries, h.entries, h.style, h.y0, h.up]

theorem Alike.ready (h : Alike list list') (htotal : list'.totalHeight = list.totalHeight)
    (hr : Ready up₀ list) : Ready up₀ list' where
  fitting e he := by
    have hfit := hr.fitting e (h.entries ▸ he)
    refine ⟨?_, hfit.textWidth⟩
    rw [h.style, h.textHeight, h.y0]
    exact hfit.height
  left e he := hr.left e (h.entries ▸ he)
  total := by
    rw [htotal, h.entries, h.style, h.textHeight]
    exact hr.total
  up := by
    refine ⟨?_, ?_⟩
    · rw [h.up]
      exact hr.up.lt
    · rw [h.up, WiList.maxUp, htotal, h.style, h.y0]
      exact hr.up.range

theorem Ready.total_lt (h : Ready up₀ list) : list.totalHeight.toNat < 2 ^ 31 := by
  have hfits := list.fits
  rw [h.total]
  omega

theorem scrolledUp_inRange (ht : list.totalHeight.toNat < 2 ^ 31) (dy : ℤ) :
    InRange up₀ list (scrolledUp list dy) := by
  refine ⟨scrolledUp_lt list dy, .inr ?_⟩
  have hwin := list.window_le
  have hover : (if list.style.noOverScroll then (0 : UInt32) else overScroll).toNat =
      if list.style.noOverScroll then 0 else overScroll.toNat := by split <;> rfl
  have hle : (if list.style.noOverScroll then 0 else overScroll.toNat) ≤ 50 := by
    split
    · exact Nat.zero_le _
    · exact Nat.le_refl _
  have hlist : (list.totalHeight + if list.style.noOverScroll then 0 else overScroll).toNat =
      list.totalHeight.toNat + if list.style.noOverScroll then 0 else overScroll.toNat := by
    rw [UInt32.toNat_add, hover]
    omega
  have hwindow : (list.style.y1 - list.y0 + 1).toNat =
      list.style.y1.toNat + 1 - list.y0.toNat := by
    rw [UInt32.toNat_add, UInt32.toNat_sub_of_le _ _ list.window.1, UInt32.toNat_one]
    omega
  rw [WiList.maxUp, ← hlist, ← hwindow, scrolledUp]
  generalize (list.totalHeight + if list.style.noOverScroll then 0 else overScroll) = listH
  generalize list.style.y1 - list.y0 + 1 = winH
  split
  · exact Nat.zero_le _
  · by_cases hlt : listH < winH
    · rw [if_pos hlt]
      exact Nat.zero_le _
    · rw [if_neg hlt, ← UInt32.toNat_sub_of_le _ _ (UInt32.not_lt.mp hlt)]
      split
      · exact Nat.le_refl _
      · next hnot => exact UInt32.le_iff_toNat_le.mp (UInt32.not_lt.mp hnot)

theorem scrolledLeft_le (list : WiList) (e : WiListEntry) (dx : ℤ) :
    (scrolledLeft list e dx).toNat ≤ e.maxLeft := by
  have hwidth : (if e.firstW > e.secondW.getD 0 then e.firstW else e.secondW.getD 0).toNat =
      max e.firstW.toNat (e.secondW.getD 0).toNat := by
    split
    · next hgt => exact (Nat.max_eq_left (UInt32.lt_iff_toNat_lt.mp hgt).le).symm
    · next hle =>
        exact (Nat.max_eq_right (UInt32.le_iff_toNat_le.mp (UInt32.not_lt.mp hle))).symm
  rw [WiListEntry.maxLeft, ← hwidth, scrolledLeft]
  generalize (if e.firstW > e.secondW.getD 0 then e.firstW else e.secondW.getD 0) = width
  have hmax : (if width ≤ e.textWidth then 0 else width - e.textWidth).toNat =
      width.toNat - e.textWidth.toNat := by
    split
    · next hle => exact (Nat.sub_eq_zero_of_le (UInt32.le_iff_toNat_le.mp hle)).symm
    · next hgt => exact UInt32.toNat_sub_of_le _ _ (UInt32.le_of_lt (UInt32.not_le.mp hgt))
  rw [← hmax]
  generalize (if width ≤ e.textWidth then 0 else width - e.textWidth) = maxLeft
  generalize signed (list.scrollLeft.toNat - dx) = left
  have hsigned : signed maxLeft.toNat ≤ maxLeft.toNat := by
    have hlt := maxLeft.toNat_lt
    rw [signed, Int.bmod_def]
    split <;> omega
  generalize hn : (if left < 0 then 0 else left) = n
  have hnonneg : 0 ≤ n := by
    rw [← hn]
    split <;> omega
  split
  · exact Nat.le_refl _
  · next hle =>
      have hlt := maxLeft.toNat_lt
      rw [UInt32.ofInt, UInt32.toNat_ofNat']
      omega

/-! ## Steps -/

theorem mem_modify_left {left : WiListEntry → UInt32}
    (h : e ∈ entries.modify i fun e => { e with left := left e }) :
    ∃ e₀ ∈ entries, e = e₀ ∨ e = { e₀ with left := left e₀ } := by
  obtain ⟨j, hj⟩ := List.getElem?_of_mem h
  rw [List.getElem?_modify] at hj
  split at hj
  · obtain ⟨e₀, he₀, rfl⟩ := Option.map_eq_some_iff.mp hj
    exact ⟨e₀, List.mem_of_getElem? he₀, .inr rfl⟩
  · exact ⟨e, List.mem_of_getElem? (by simpa using hj), .inl rfl⟩

/-- Entries are scrolled sideways, and the list up or down. -/
theorem Ready.moved (h : Ready up₀ list) {left : WiListEntry → UInt32}
    (hleft : ∀ e, (left e).toNat ≤ e.maxLeft)
    (hentries : list'.entries = list.entries ∨
      ∃ i, list'.entries = list.entries.modify i fun e => { e with left := left e })
    (hstyle : list'.style = list.style) (hy0 : list'.y0 = list.y0)
    (htext : list'.textHeight = list.textHeight) (htotal : list'.totalHeight = list.totalHeight)
    (hup : InRange up₀ list list'.up) : Ready up₀ list' where
  fitting e he := by
    have hfit : ∃ e₀ ∈ list.entries, e = e₀ ∨ e = { e₀ with left := left e₀ } := by
      rcases hentries with heq | ⟨i, heq⟩
      · exact ⟨e, heq ▸ he, .inl rfl⟩
      · exact mem_modify_left (heq ▸ he)
    obtain ⟨e₀, he₀, heq⟩ := hfit
    have hthis := h.fitting e₀ he₀
    refine ⟨?_, ?_⟩
    · rw [hstyle, hy0, htext]
      rcases heq with rfl | rfl
      · exact hthis.height
      · exact hthis.height
    · rcases heq with rfl | rfl
      · exact hthis.textWidth
      · exact hthis.textWidth
  left e he := by
    rcases hentries with heq | ⟨i, heq⟩
    · exact h.left e (heq ▸ he)
    · obtain ⟨e₀, he₀, rfl | rfl⟩ := mem_modify_left (heq ▸ he)
      · exact h.left e he₀
      · exact hleft e₀
  total := by
    rw [htotal, hstyle, htext, h.total]
    rcases hentries with heq | ⟨i, heq⟩
    · rw [heq]
    · rw [heq, heights_modify]
  up := by
    refine ⟨hup.lt, ?_⟩
    rw [WiList.maxUp, htotal, hstyle, hy0]
    exact hup.range

/-- The entries after a gesture so far, given how they were at the beginning. -/
def draggedEntries (list : WiList) (dx : ℤ) : List WiListEntry :=
  list.scrollEntry.elim list.entries fun i =>
    list.entries.modify i fun e => { e with left := scrolledLeft list e dx }

theorem draggedEntries_fits (list : WiList) (dx : ℤ) :
    list.y0.toNat + (heights list.style list.textHeight (draggedEntries list dx)).sum < 2 ^ 31 := by
  rw [draggedEntries]
  cases list.scrollEntry with
  | none => exact list.fits
  | some i =>
      rw [Option.elim_some, heights_modify]
      exact list.fits

def dragged (list : WiList) (dx dy : ℤ) : WiList :=
  { list with
    entries := draggedEntries list dx
    up := scrolledUp list dy
    fits := draggedEntries_fits list dx }

theorem WiList.ext (hentries : list'.entries = list.entries) (hstyle : list'.style = list.style)
    (hy0 : list'.y0 = list.y0) (htext : list'.textHeight = list.textHeight)
    (htotal : list'.totalHeight = list.totalHeight) (hup : list'.up = list.up)
    (hscrollUp : list'.scrollUp = list.scrollUp) (hentry : list'.scrollEntry = list.scrollEntry)
    (hleft : list'.scrollLeft = list.scrollLeft) : list' = list := by
  cases list
  cases list'
  simp_all

theorem listScroll_eq (list : WiList) (dx dy : ℤ) :
    listScroll list dx dy = (drawList (dragged list dx dy)).map (dragged list dx dy, ·) := by
  have hlist : ∀ l, l = dragged list dx dy → (drawList l).bind (fun drawn => some (l, drawn)) =
      (drawList (dragged list dx dy)).map (dragged list dx dy, ·) := by
    rintro l rfl
    cases drawList (dragged list dx dy) <;> rfl
  refine hlist _ (WiList.ext ?_ rfl rfl rfl rfl rfl rfl rfl rfl)
  dsimp only [dragged, draggedEntries]
  cases list.scrollEntry <;> rfl

/-- Nothing of an earlier movement is left in a later one. -/
theorem dragged_dragged (list : WiList) (dx dy dx' dy' : ℤ) :
    dragged (dragged list dx dy) dx' dy' = dragged list dx' dy' := by
  have hentries : draggedEntries (dragged list dx dy) dx' = draggedEntries list dx' := by
    have hentry : (dragged list dx dy).scrollEntry = list.scrollEntry := rfl
    have hleft : ∀ e, scrolledLeft (dragged list dx dy) e dx' = scrolledLeft list e dx' :=
      fun _ => rfl
    have hfirst : (dragged list dx dy).entries = draggedEntries list dx := rfl
    simp only [draggedEntries, hentry, hleft, hfirst]
    cases list.scrollEntry with
    | none => rfl
    | some i => exact List.modify_modify_eq _ _ i list.entries
  exact WiList.ext hentries rfl rfl rfl rfl rfl rfl rfl rfl

/-! ## Gestures -/

/-- What is on the display is the list, and while nothing is being scrolled, no entry is
remembered. -/
structure Sound (up₀ : UInt32) (s : Scroller) : Prop where
  ready : Ready up₀ s.list
  display : drawList s.list = some s.display
  idle : s.scrolling = false → s.list.scrollEntry = none
  scrollUp : s.scrolling = true → InRange up₀ s.list s.list.scrollUp

theorem Ready.draw (h : Ready up₀ list) : ∃ drawn, drawList list = some drawn := by
  obtain ⟨drawn, hd, -⟩ := drawList_isSome h.fitting
  exact ⟨drawn, hd⟩

theorem Ready.dragged (h : Ready up₀ list) (dx dy : ℤ) : Ready up₀ (dragged list dx dy) := by
  refine h.moved (fun e => scrolledLeft_le list e dx) ?_ rfl rfl rfl rfl
    (scrolledUp_inRange h.total_lt dy)
  change draggedEntries list dx = _ ∨ ∃ i, draggedEntries list dx = _
  rw [draggedEntries]
  cases list.scrollEntry with
  | none => exact .inl rfl
  | some i => exact .inr ⟨i, rfl⟩

/-- Only what is remembered about scrolling changes at the beginning of a gesture. -/
theorem startScrolling_alike (list : WiList) (hit : Option (ℕ × WiListEntry)) :
    Alike list (startScrolling list hit) ∧
      (startScrolling list hit).totalHeight = list.totalHeight ∧
      (startScrolling list hit).scrollUp = list.up := by
  cases hit with
  | none => exact ⟨⟨rfl, rfl, rfl, rfl, rfl⟩, rfl, rfl⟩
  | some r => exact ⟨⟨rfl, rfl, rfl, rfl, rfl⟩, rfl, rfl⟩

/-- The list of a gesture, which may begin now. -/
def grabbed (s : Scroller) (fromX fromY : UInt32) : WiList :=
  if !s.scrolling then startScrolling s.list (scrollable s.list fromX fromY) else s.list

theorem Sound.grabbed (h : Sound up₀ s) (x y : UInt32) :
    Ready up₀ (grabbed s x y) ∧ drawList (grabbed s x y) = some s.display ∧
      InRange up₀ (grabbed s x y) (grabbed s x y).scrollUp := by
  cases hs : s.scrolling with
  | true =>
      have hlist : Widget.grabbed s x y = s.list := by
        rw [Widget.grabbed, if_neg (by simp [hs])]
      rw [hlist]
      exact ⟨h.ready, h.display, h.scrollUp hs⟩
  | false =>
      have hlist : Widget.grabbed s x y = startScrolling s.list (scrollable s.list x y) := by
        rw [Widget.grabbed, if_pos (by simp [hs])]
      obtain ⟨halike, htotal, hup⟩ := startScrolling_alike s.list (scrollable s.list x y)
      have hready := halike.ready htotal h.ready
      rw [hlist]
      refine ⟨hready, by rw [halike.drawList, h.display], ?_⟩
      rw [hup, ← halike.up]
      exact hready.up

variable {fromX fromY toX toY : UInt32}

/-- A movement that begins in the window. -/
theorem wiListMoving_inside (hin : s.list.InWindow fromY.toNat) :
    wiListMoving s fromX fromY toX toY =
      if fromX ≠ toX ∨ fromY ≠ toY then
        (drawList (dragged (grabbed s fromX fromY) (signed (toX - fromX).toNat)
          (signed (toY - fromY).toNat))).map fun display =>
            (true, ⟨dragged (grabbed s fromX fromY) (signed (toX - fromX).toNat)
              (signed (toY - fromY).toNat), true, display⟩)
      else some (true, { s with list := grabbed s fromX fromY, scrolling := true }) := by
  have hout : ¬ (fromY < s.list.y0 ∨ fromY > s.list.style.y1) := by
    rw [UInt32.lt_iff_toNat_lt, gt_iff_lt, UInt32.lt_iff_toNat_lt]
    rw [WiList.InWindow] at hin
    omega
  have hgrabbed : (if !s.scrolling then startScrolling s.list (scrollable s.list fromX fromY)
      else s.list) = grabbed s fromX fromY := rfl
  rw [wiListMoving, if_neg hout]
  simp only [hgrabbed]
  split
  · rw [listScroll_eq]
    cases drawList (dragged (grabbed s fromX fromY) (signed (toX - fromX).toNat)
      (signed (toY - fromY).toNat)) with
    | none => rfl
    | some display => rfl
  · rfl

theorem wiListMoving_outside (hout : ¬ s.list.InWindow fromY.toNat) :
    wiListMoving s fromX fromY toX toY = some (false, s) := by
  rw [wiListMoving, if_pos]
  rw [UInt32.lt_iff_toNat_lt, gt_iff_lt, UInt32.lt_iff_toNat_lt]
  rw [WiList.InWindow] at hout
  omega

theorem wiListMoving_sound (h : Sound up₀ s) (fromX fromY toX toY : UInt32) :
    ∃ r s', wiListMoving s fromX fromY toX toY = some (r, s') ∧ Sound up₀ s' := by
  by_cases hin : s.list.InWindow fromY.toNat
  · obtain ⟨hready, hdraw, hstart⟩ := h.grabbed fromX fromY
    rw [wiListMoving_inside hin]
    by_cases hmoved : fromX ≠ toX ∨ fromY ≠ toY
    · have hnext := hready.dragged (signed (toX - fromX).toNat) (signed (toY - fromY).toNat)
      obtain ⟨display, hd⟩ := hnext.draw
      refine ⟨true, _, by rw [if_pos hmoved, hd]; rfl, ?_⟩
      exact ⟨hnext, hd, fun hf => (by cases hf), fun _ => ⟨hstart.lt, hstart.range⟩⟩
    · refine ⟨true, _, if_neg hmoved, ?_⟩
      exact ⟨hready, hdraw, fun hf => (by cases hf), fun _ => hstart⟩
  · exact ⟨false, s, wiListMoving_outside hin, h⟩

/-- The list after a gesture that has been given up. -/
def restored (list : WiList) : WiList :=
  { list with
    entries := resetLeft list
    scrollEntry := none
    up := list.scrollUp
    fits := resetLeft_fits list }

theorem Ready.restored (h : Ready up₀ list) (hup : InRange up₀ list list.scrollUp) :
    Ready up₀ (restored list) := by
  refine @Ready.moved _ _ _ h (fun _ => 0) (fun e => Nat.zero_le _) ?_ rfl rfl rfl rfl hup
  change resetLeft list = _ ∨ ∃ i, resetLeft list = _
  rw [resetLeft]
  cases list.scrollEntry with
  | none => exact .inl rfl
  | some i => exact .inr ⟨i, rfl⟩

/-- While nothing is being scrolled, nothing is remembered. -/
theorem wiListCancel_eq (h : Sound up₀ s) (hs : s.scrolling = true) :
    ∃ display, drawList (restored s.list) = some display ∧
      wiListCancel s = some ⟨restored s.list, false, display⟩ := by
  have hready := h.ready.restored (h.scrollUp hs)
  obtain ⟨display, hd⟩ := hready.draw
  refine ⟨display, hd, ?_⟩
  rw [wiListCancel, if_pos hs]
  simp only
  split
  · change (drawList (restored s.list)).bind
      (fun display => some (⟨restored s.list, false, display⟩ : Scroller)) = _
    rw [hd]
    rfl
  · next hsame =>
      obtain ⟨hup, hentry⟩ := not_or.mp hsame
      have hnone : s.list.scrollEntry = none := Option.not_isSome_iff_eq_none.mp hentry
      have hlist : { s.list with entries := resetLeft s.list, fits := resetLeft_fits s.list } =
          restored s.list := WiList.ext rfl rfl rfl rfl rfl (not_not.mp hup).symm rfl hnone rfl
      have halike : Alike s.list (restored s.list) := by
        refine ⟨?_, rfl, rfl, rfl, not_not.mp hup⟩
        change resetLeft s.list = s.list.entries
        rw [resetLeft, hnone]
      have hdisplay : s.display = display :=
        Option.some.inj ((halike.drawList.trans h.display).symm.trans hd)
      rw [hlist, hdisplay]

theorem wiListCancel_sound (h : Sound up₀ s) : ∃ s', wiListCancel s = some s' ∧ Sound up₀ s' := by
  cases hs : s.scrolling with
  | true =>
      obtain ⟨display, hd, hc⟩ := wiListCancel_eq h hs
      refine ⟨_, hc, ?_⟩
      exact ⟨h.ready.restored (h.scrollUp hs), hd, fun _ => rfl, fun hf => by cases hf⟩
  | false => exact ⟨s, by rw [wiListCancel, hs]; rfl, h⟩

theorem wiListTo_sound (h : Sound up₀ s) (fromX fromY toX toY : UInt32) (left : Bool) :
    ∃ r s', wiListTo s fromX fromY toX toY left = some (r, s') ∧ Sound up₀ s' := by
  rw [wiListTo]
  by_cases hleft : s.list.scrollEntry.isNone ∧ left = true
  · obtain ⟨s', hc, h'⟩ := wiListCancel_sound h
    exact ⟨false, s', by rw [if_pos hleft, hc]; rfl, h'⟩
  · obtain ⟨r, s', hm, h'⟩ := wiListMoving_sound h fromX fromY toX toY
    have halike : Alike s'.list { s'.list with scrollEntry := none } := ⟨rfl, rfl, rfl, rfl, rfl⟩
    refine ⟨r, _, by rw [if_neg hleft, hm]; rfl, ?_⟩
    exact ⟨halike.ready rfl h'.ready, halike.drawList.trans h'.display, fun _ => rfl,
      fun hf => by cases hf⟩

/-! ## Runs -/

/-- A list whose entries have just been added. It may be where an earlier list was. -/
structure Fresh (list : WiList) : Prop where
  fitting : ∀ e ∈ list.entries, Fitting list e
  left : ∀ e ∈ list.entries, e.left = 0
  entry : list.scrollEntry = none
  up : list.up.toNat < 2 ^ 31

/-- What a list can become. -/
inductive Scrolled (s₀ : Scroller) : Scroller → Prop where
  | start : Scrolled s₀ s₀
  | moving {s s' : Scroller} {r : Bool} (fromX fromY toX toY : UInt32) (run : Scrolled s₀ s)
      (event : wiListMoving s fromX fromY toX toY = some (r, s')) : Scrolled s₀ s'
  | ended {s s' : Scroller} {r : Bool} (fromX fromY toX toY : UInt32) (left : Bool)
      (run : Scrolled s₀ s) (event : wiListTo s fromX fromY toX toY left = some (r, s')) :
      Scrolled s₀ s'
  | cancelled {s s' : Scroller} (run : Scrolled s₀ s) (event : wiListCancel s = some s') :
      Scrolled s₀ s'

theorem wiListEnd_sound (h : Fresh list) : ∃ s, wiListEnd list = some s ∧ Sound list.up s := by
  obtain ⟨display, hd, hheight⟩ := drawList_isSome h.fitting
  refine ⟨_, by rw [wiListEnd, hd]; rfl, ?_⟩
  have halike : Alike list { list with totalHeight := display.height } := ⟨rfl, rfl, rfl, rfl, rfl⟩
  refine ⟨⟨?_, ?_, hheight, h.up, .inl rfl⟩, halike.drawList.trans hd, fun _ => h.entry,
    fun hf => by cases hf⟩
  · exact fun e he => ⟨(h.fitting e he).height, (h.fitting e he).textWidth⟩
  · intro e he
    rw [h.left e he]
    exact Nat.zero_le _

theorem Scrolled.sound {s₀ : Scroller} (hr : Scrolled s₀ s) (h : Sound up₀ s₀) : Sound up₀ s := by
  induction hr with
  | start => exact h
  | moving fromX fromY toX toY run event ih =>
      obtain ⟨r, s', he, h'⟩ := wiListMoving_sound ih fromX fromY toX toY
      obtain ⟨-, rfl⟩ := Prod.mk.inj (Option.some.inj (he.symm.trans event))
      exact h'
  | ended fromX fromY toX toY left run event ih =>
      obtain ⟨r, s', he, h'⟩ := wiListTo_sound ih fromX fromY toX toY left
      obtain ⟨-, rfl⟩ := Prod.mk.inj (Option.some.inj (he.symm.trans event))
      exact h'
  | cancelled run event ih =>
      obtain ⟨s', he, h'⟩ := wiListCancel_sound ih
      obtain rfl := Option.some.inj (he.symm.trans event)
      exact h'

/-- What is on the display is the list, which is not further up or to the left than its texts
reach. Entries are picked where they are seen in the window, and no assertion fails. -/
structure Steady (up₀ : UInt32) (s : Scroller) : Prop where
  display : drawList s.list = some s.display
  up : s.list.up = up₀ ∨ s.list.up.toNat ≤ s.list.maxUp
  left : ∀ e ∈ s.list.entries, e.left.toNat ≤ e.maxLeft
  picked : ∀ x y i, x.toNat < gfxWidth → s.list.InWindow y.toNat →
    (wiListPick s.list x y = some i ↔ s.display.Shows i x.toNat y.toNat)
  moving : ∀ fromX fromY toX toY, (wiListMoving s fromX fromY toX toY).isSome = true
  ended : ∀ fromX fromY toX toY left, (wiListTo s fromX fromY toX toY left).isSome = true
  cancelled : (wiListCancel s).isSome = true

theorem Sound.steady (h : Sound up₀ s) : Steady up₀ s where
  display := h.display
  up := h.ready.up.range
  left := h.ready.left
  picked x y i hx hin := by
    have hwin := s.list.window_le
    have hy : y.toNat < 2 ^ 31 := by
      rw [WiList.InWindow] at hin
      omega
    have hx' : (0 : ℤ) ≤ x.toNat ∧ (x.toNat : ℤ) < gfxWidth := ⟨by omega, by omega⟩
    rw [wiListPick_eq_some h.ready.up.lt hy, drawList_shows h.ready.up.lt h.display]
    exact ⟨fun hi => ⟨hx', hin, hi⟩, fun hs => hs.2.2⟩
  moving fromX fromY toX toY := by
    obtain ⟨r, s', he, -⟩ := wiListMoving_sound h fromX fromY toX toY
    rw [he]
    rfl
  ended fromX fromY toX toY left := by
    obtain ⟨r, s', he, -⟩ := wiListTo_sound h fromX fromY toX toY left
    rw [he]
    rfl
  cancelled := by
    obtain ⟨s', he, -⟩ := wiListCancel_sound h
    rw [he]
    rfl

theorem sampleList_fresh : Fresh sampleList where
  fitting e he := by
    obtain rfl := List.eq_of_mem_replicate he
    exact ⟨by decide, by decide⟩
  left e he := by
    obtain rfl := List.eq_of_mem_replicate he
    rfl
  entry := rfl
  up := by decide

/-- The movements of one gesture. -/
def movedAlong (s : Scroller) (fromX fromY : UInt32) (points : List (UInt32 × UInt32)) :
    Option Scroller :=
  points.foldlM (fun s p => (wiListMoving s fromX fromY p.1 p.2).map Prod.snd) s

/-- The last point that is not the one where the gesture began. -/
def lastAway (fromX fromY : UInt32) (points : List (UInt32 × UInt32)) :
    Option (UInt32 × UInt32) :=
  (points.filter fun p => fromX ≠ p.1 ∨ fromY ≠ p.2).getLast?

/-- Where a list is that has been dragged to a point. -/
def draggedTo (list : WiList) (fromX fromY : UInt32) : Option (UInt32 × UInt32) → WiList
  | some p => dragged list (signed (p.1 - fromX).toNat) (signed (p.2 - fromY).toNat)
  | none => list

variable {s₁ s₂ : Scroller} {points : List (UInt32 × UInt32)} {p : UInt32 × UInt32}

theorem lastAway_append (fromX fromY : UInt32) (points : List (UInt32 × UInt32))
    (p : UInt32 × UInt32) :
    lastAway fromX fromY (points ++ [p]) =
      if fromX ≠ p.1 ∨ fromY ≠ p.2 then some p else lastAway fromX fromY points := by
  simp only [lastAway, List.filter_append, List.filter_cons, List.filter_nil, decide_eq_true_eq]
  by_cases haway : fromX ≠ p.1 ∨ fromY ≠ p.2
  · rw [if_pos haway, if_pos haway]
    exact List.getLast?_concat
  · rw [if_neg haway, if_neg haway, List.append_nil]

theorem dragged_draggedTo (list : WiList) (q : Option (UInt32 × UInt32)) (dx dy : ℤ) :
    dragged (draggedTo list fromX fromY q) dx dy = dragged list dx dy := by
  cases q with
  | none => rfl
  | some p => exact dragged_dragged list _ _ dx dy

/-- The list during a gesture. It is on the display. -/
structure Following (s s₁ : Scroller) (fromX fromY : UInt32) (points : List (UInt32 × UInt32)) :
    Prop where
  start : points = [] → s₁ = s
  scrolling : points ≠ [] → s₁.scrolling = true
  list : grabbed s₁ fromX fromY =
    draggedTo (grabbed s fromX fromY) fromX fromY (lastAway fromX fromY points)

theorem Following.moving (h : Following s s₁ fromX fromY points) (hs : Sound up₀ s₁)
    (hin : s₁.list.InWindow fromY.toNat) (p : UInt32 × UInt32) :
    ∃ s₂, wiListMoving s₁ fromX fromY p.1 p.2 = some (true, s₂) ∧ s₂.scrolling = true ∧
      s₂.list = draggedTo (grabbed s fromX fromY) fromX fromY
        (lastAway fromX fromY (points ++ [p])) := by
  rw [wiListMoving_inside hin, lastAway_append]
  by_cases haway : fromX ≠ p.1 ∨ fromY ≠ p.2
  · obtain ⟨display, hd⟩ := ((hs.grabbed fromX fromY).1.dragged (signed (p.1 - fromX).toNat)
      (signed (p.2 - fromY).toNat)).draw
    rw [if_pos haway, if_pos haway, hd]
    refine ⟨_, rfl, rfl, ?_⟩
    change dragged (grabbed s₁ fromX fromY) _ _ = dragged (grabbed s fromX fromY) _ _
    rw [h.list, dragged_draggedTo]
  · rw [if_neg haway, if_neg haway]
    exact ⟨_, rfl, rfl, h.list⟩

theorem grabbed_of_scrolling (hs : s.scrolling = true) (x y : UInt32) : grabbed s x y = s.list := by
  rw [grabbed, if_neg (by simp [hs])]

/-- The window stays where it is. -/
theorem draggedTo_inWindow (q : Option (UInt32 × UInt32)) (y : ℤ) :
    (draggedTo (grabbed s fromX fromY) fromX fromY q).InWindow y ↔ s.list.InWindow y := by
  have hgrabbed : (grabbed s fromX fromY).InWindow y ↔ s.list.InWindow y := by
    rw [grabbed]
    split
    · obtain ⟨halike, -, -⟩ := startScrolling_alike s.list (scrollable s.list fromX fromY)
      rw [WiList.InWindow, WiList.InWindow, halike.y0, halike.style]
    · rfl
  rw [← hgrabbed]
  cases q with
  | none => rfl
  | some p => rfl

theorem movedAlong_following (h : Sound up₀ s) (hin : s.list.InWindow fromY.toNat)
    (points : List (UInt32 × UInt32)) :
    ∃ s₁, movedAlong s fromX fromY points = some s₁ ∧ Sound up₀ s₁ ∧
      s₁.list.InWindow fromY.toNat ∧ Following s s₁ fromX fromY points := by
  induction points using List.reverseRecOn with
  | nil => exact ⟨s, rfl, h, hin, fun _ => rfl, fun hne => absurd rfl hne, rfl⟩
  | append_singleton points p ih =>
      obtain ⟨s₁, hrun, hsound, hin₁, hfollow⟩ := ih
      obtain ⟨s₂, hmove, hscrolling, hlist⟩ := hfollow.moving hsound hin₁ p
      obtain ⟨r, s₂', hmove', hsound'⟩ := wiListMoving_sound hsound fromX fromY p.1 p.2
      obtain ⟨-, rfl⟩ := Prod.mk.inj (Option.some.inj (hmove.symm.trans hmove'))
      refine ⟨s₂, ?_, hsound', ?_, fun hnil => ?_, fun _ => hscrolling, ?_⟩
      · rw [movedAlong] at hrun ⊢
        rw [List.foldlM_append, hrun]
        simp [hmove]
      · rw [hlist, draggedTo_inWindow]
        exact hin
      · exact absurd hnil (by simp)
      · rw [grabbed_of_scrolling hscrolling, hlist]

theorem draggedTo_scrollEntry (list : WiList) (q : Option (UInt32 × UInt32)) :
    (draggedTo list fromX fromY q).scrollEntry = list.scrollEntry := by
  cases q with
  | none => rfl
  | some p => rfl

/-- Where the list has been dragged to is forgotten. -/
theorem restored_draggedTo (list : WiList) (q : Option (UInt32 × UInt32)) :
    restored (draggedTo list fromX fromY q) = restored list := by
  cases q with
  | none => rfl
  | some p =>
      refine WiList.ext ?_ rfl rfl rfl rfl rfl rfl rfl rfl
      change resetLeft (dragged list _ _) = resetLeft list
      have hfirst : ∀ dx dy, (dragged list dx dy).entries = draggedEntries list dx :=
        fun _ _ => rfl
      have hentry : ∀ dx dy, (dragged list dx dy).scrollEntry = list.scrollEntry :=
        fun _ _ => rfl
      simp only [resetLeft, hfirst, hentry, draggedEntries]
      cases list.scrollEntry with
      | none => rfl
      | some i => exact List.modify_modify_eq _ _ i list.entries

theorem startScrolling_scrollEntry (list : WiList) (hit : Option (ℕ × WiListEntry)) :
    (startScrolling list hit).scrollEntry = hit.map Prod.fst := by
  cases hit with
  | none => rfl
  | some r => rfl

/-- An entry is scrolled sideways once there has been a movement that began on it. -/
theorem Following.scrollEntry (h : Following s s₁ fromX fromY points) (hs : s.scrolling = false)
    (hidle : s.list.scrollEntry = none) :
    s₁.list.scrollEntry.isSome = true ↔
      points ≠ [] ∧ (scrollable s.list fromX fromY).isSome = true := by
  by_cases hpoints : points = []
  · rw [h.start hpoints, hidle]
    exact ⟨fun hf => (by cases hf), fun hf => absurd hpoints hf.1⟩
  · have hlist : grabbed s fromX fromY = startScrolling s.list (scrollable s.list fromX fromY) := by
      rw [grabbed, if_pos (by simp [hs])]
    rw [← grabbed_of_scrolling (h.scrolling hpoints) fromX fromY, h.list, draggedTo_scrollEntry,
      hlist, startScrolling_scrollEntry, Option.isSome_map]
    exact ⟨fun hsome => ⟨hpoints, hsome⟩, And.right⟩

/-- The list at the end of a gesture. -/
def released (list : WiList) : WiList := { list with scrollEntry := none }

/-- A gesture leaves the list where it ends, whatever way it took. A swipe to the left is not for
the list unless it scrolls an entry. If the gesture is given up, the list goes back up or down to
where it was, and the entry that has been scrolled to its beginning. -/
structure Follows (s s₁ : Scroller) (fromX fromY : UInt32) (points : List (UInt32 × UInt32)) :
    Prop where
  ended : ∀ toX toY left,
    (left = true → points ≠ [] ∧ (scrollable s.list fromX fromY).isSome = true) →
      ∃ s₂, wiListTo s₁ fromX fromY toX toY left = some (true, s₂) ∧ s₂.scrolling = false ∧
        s₂.list = released (draggedTo (grabbed s fromX fromY) fromX fromY
          (lastAway fromX fromY (points ++ [(toX, toY)])))
  swiped : ¬ (points ≠ [] ∧ (scrollable s.list fromX fromY).isSome = true) → ∀ toX toY,
    wiListTo s₁ fromX fromY toX toY true = (wiListCancel s₁).map (false, ·)
  cancelled : ∃ s₂, wiListCancel s₁ = some s₂ ∧ s₂.scrolling = false ∧
    s₂.list = if points = [] then s.list else restored (grabbed s fromX fromY)

theorem Following.follows (h : Following s s₁ fromX fromY points) (hs : s.scrolling = false)
    (hidle : s.list.scrollEntry = none) (hsound : Sound up₀ s₁)
    (hin : s₁.list.InWindow fromY.toNat) : Follows s s₁ fromX fromY points where
  ended toX toY left hleft := by
    obtain ⟨s₂, hmove, -, hlist⟩ := h.moving hsound hin (toX, toY)
    have hkept : ¬ (s₁.list.scrollEntry.isNone = true ∧ left = true) := by
      intro hnone
      have hsome := (h.scrollEntry hs hidle).mpr (hleft hnone.2)
      rw [Option.isNone_iff_eq_none.mp hnone.1] at hsome
      cases hsome
    refine ⟨{ list := released s₂.list, scrolling := false, display := s₂.display }, ?_, rfl, ?_⟩
    · rw [wiListTo, if_neg hkept, hmove]
      rfl
    · rw [hlist]
  swiped hnot toX toY := by
    have hnone : s₁.list.scrollEntry.isNone = true := by
      rw [Option.isNone_iff_eq_none, ← Option.not_isSome_iff_eq_none, h.scrollEntry hs hidle]
      exact hnot
    rw [wiListTo, if_pos ⟨hnone, rfl⟩]
  cancelled := by
    by_cases hpoints : points = []
    · refine ⟨s, ?_, hs, (if_pos hpoints).symm⟩
      rw [h.start hpoints, wiListCancel, if_neg (by simp [hs])]
    · have hscrolling := h.scrolling hpoints
      obtain ⟨display, -, hcancel⟩ := wiListCancel_eq hsound hscrolling
      refine ⟨_, hcancel, rfl, ?_⟩
      rw [if_neg hpoints, ← grabbed_of_scrolling hscrolling fromX fromY, h.list,
        restored_draggedTo]

end Sunela.Widget
