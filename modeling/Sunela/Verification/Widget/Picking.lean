import Sunela.Lib.Rows
import Sunela.Model.WiList
import Sunela.Verification.Gfx.Clipping

/-! # Entries are picked where they are drawn

Which points of the screen belong to an entry, and which entry is picked there. -/

namespace Sunela.Widget

open Gfx

variable {list : WiList} {e : WiListEntry} {entries : List WiListEntry} {clip bb : GfxRect}
  {odd : Bool} {h y : UInt32} {top px py pos : ℤ} {i k : ℕ}

/-! ## What is drawn -/

/-- The figure can have a pixel there. -/
def Figure.Reaches (px py : ℤ) : Figure → Prop
  | rect bb _ => bb.Has px py
  | text .. => True
  | render .. => True

instance (px py : ℤ) : DecidablePred (Figure.Reaches px py)
  | .rect bb _ => inferInstanceAs (Decidable (bb.Has px py))
  | .text .. => .isTrue trivial
  | .render .. => .isTrue trivial

def Clipped.Covers (c : Clipped) (px py : ℤ) : Prop :=
  c.clip.Has px py ∧ c.figure.Reaches px py

instance (c : Clipped) (px py : ℤ) : Decidable (c.Covers px py) :=
  inferInstanceAs (Decidable (_ ∧ _))

def Drawn.Shows (drawn : Drawn) (i : ℕ) (px py : ℤ) : Prop :=
  ∃ c ∈ drawn.entries, c.1 = i ∧ c.2.Covers px py

instance (drawn : Drawn) (i : ℕ) (px py : ℤ) : Decidable (drawn.Shows i px py) :=
  inferInstanceAs (Decidable (∃ c ∈ drawn.entries, _))

/-- The row is in the window of the list. -/
def WiList.InWindow (list : WiList) (py : ℤ) : Prop :=
  list.y0.toNat ≤ py ∧ py ≤ list.style.y1.toNat

theorem signed_toNat (h : y.toNat < 2 ^ 31) : signed y.toNat = y.toNat :=
  signed_of_lt (Int.natCast_nonneg _) (by omega)

theorem WiList.window_le (list : WiList) :
    list.y0.toNat ≤ list.style.y1.toNat ∧ list.style.y1.toNat < 280 :=
  ⟨UInt32.le_iff_toNat_le.mp list.window.1, list.window.2⟩

theorem WiList.signed_y0 (list : WiList) : signed list.y0.toNat = list.y0.toNat := by
  have hw := list.window_le
  exact signed_toNat (by omega)

theorem WiList.signed_y1 (list : WiList) : signed list.style.y1.toNat = list.style.y1.toNat := by
  have hw := list.window_le
  exact signed_toNat (by omega)

/-- The assertions of `gfx_clip` let the rectangle pass. -/
def Accepted (clip : GfxRect) : Prop :=
  clip.x ≥ 0 ∧ clip.y ≥ 0 ∧ clip.x + clip.w ≤ gfxWidth ∧ clip.y + clip.h ≤ gfxHeight

/-- The clip rectangle of a box that reaches into the window. -/
theorem clipBb_some (hh : bb.h < 2 ^ 31) (htop : bb.y ≤ list.style.y1.toNat)
    (hend : list.y0.toNat < bb.y + bb.h) (hc : clipBb list bb = some clip) :
    clip.x = bb.x ∧ clip.w = bb.w ∧ Accepted clip ∧
      ∀ py, (clip.y ≤ py ∧ py < clip.y + clip.h) ↔
        (bb.y ≤ py ∧ py < bb.y + bb.h) ∧ list.InWindow py := by
  have hw := list.window_le
  simp only [clipBb, list.signed_y0, list.signed_y1] at hc
  rw [Option.ite_none_right_eq_some, Option.some_inj] at hc
  obtain ⟨haccepted, hclip⟩ := hc
  generalize hlow : (if bb.y < (list.y0.toNat : ℤ) then _ else bb) = low at hclip haccepted
  have hy : low.y = max bb.y list.y0.toNat ∧ low.y + low.h = bb.y + bb.h ∧
      low.x = bb.x ∧ low.w = bb.w := by
    rw [← hlow]
    split
    · have hcut : signed (bb.h - (list.y0.toNat - bb.y)) = bb.h - (list.y0.toNat - bb.y) :=
        signed_of_mem (by omega)
      simp only [hcut]
      exact ⟨by omega, by omega, trivial, trivial⟩
    · omega
  rw [hclip] at haccepted
  refine ⟨?_, ?_, haccepted, fun py => ?_⟩
  · rw [← hclip, ← hy.2.2.1]
    split <;> rfl
  · rw [← hclip, ← hy.2.2.2]
    split <;> rfl
  · rw [WiList.InWindow, ← hclip]
    split
    · have hcut : signed (list.style.y1.toNat + 1 - low.y) = list.style.y1.toNat + 1 - low.y :=
        signed_of_mem (by omega)
      simp only [hcut]
      omega
    · omega

/-- The background of a box that reaches into the window is drawn as far as it is inside of the clip
rectangle. -/
theorem background_draws {da : GfxDrawable} {color : GfxColor} (hclip : da.clipping = false)
    (hsize : da.w = gfxWidth ∧ da.h = gfxHeight) (hx : bb.x = 0 ∧ bb.w = gfxWidth)
    (hh : bb.h < 2 ^ 31) (htop : bb.y ≤ list.style.y1.toNat)
    (hend : list.y0.toNat < bb.y + bb.h) (hc : clipBb list bb = some clip) :
    ∃ da', gfxClip da (some clip) = some da' ∧
      DrawsClipped bb.Has color da' (gfxRectXy · bb.x bb.y bb.w bb.h color) := by
  have hw := list.window_le
  have hwidth : (da.w : ℤ) = 240 := congrArg Nat.cast hsize.1
  have hheight : (da.h : ℤ) = 280 := congrArg Nat.cast hsize.2
  obtain ⟨hcx, hcw, ⟨haccx, haccy, haccw, hacch⟩, hrows⟩ := clipBb_some hh htop hend hc
  have hcw' : clip.w = 240 := hcw.trans hx.2
  have hset : gfxClip da (some clip) = some { da with clip, clipping := true } := by
    have hright : clip.x + clip.w ≤ da.w := hwidth ▸ haccw
    have hbottom : clip.y + clip.h ≤ da.h := hheight ▸ hacch
    rw [gfxClip, if_neg (by rw [hclip]; decide), if_neg (not_not.mpr ⟨haccx, haccy⟩),
      if_neg (not_not.mpr ⟨hright, hbottom⟩)]
  refine ⟨_, hset, (gfxRectXy_drawsClipped (gfxClip_clips hset)).mpr ?_⟩
  by_cases hempty : bb.h ≤ 0
  · exact .inl (.inr hempty)
  obtain ⟨py, hin, hwindow⟩ : ∃ py, (bb.y ≤ py ∧ py < bb.y + bb.h) ∧ list.InWindow py := by
    by_cases hlow : bb.y ≤ list.y0.toNat
    · exact ⟨list.y0.toNat, by omega, by rw [WiList.InWindow]; omega⟩
    · exact ⟨bb.y, by omega, by rw [WiList.InWindow]; omega⟩
  have hrow := (hrows py).mpr ⟨hin, hwindow⟩
  rw [WiList.InWindow] at hwindow
  refine .inr (.inr ⟨⟨?_, ?_⟩, ?_⟩)
  · show 0 ≤ clip.w
    omega
  · show 0 ≤ clip.h
    omega
  · show clip.x < da.w ∧ clip.y < da.h
    omega

theorem fullHeight_eq (style : WiListStyle) (textHeight : UInt32) (e : WiListEntry) :
    (if entryHeight style textHeight e < e.style.minH then e.style.minH
      else entryHeight style textHeight e) = fullHeight style textHeight e := by
  rw [fullHeight]
  generalize entryHeight style textHeight e = h
  by_cases hlt : h < e.style.minH
  · rw [if_pos hlt, if_neg (UInt32.lt_asymm hlt)]
  · rw [if_neg hlt]
    by_cases hgt : e.style.minH < h
    · rw [if_pos hgt]
    · rw [if_neg hgt]
      exact UInt32.le_antisymm (UInt32.not_lt.mp hgt) (UInt32.not_lt.mp hlt)

/-- What `do_draw_entry` draws is in the window, and the background is all of it. -/
theorem doDrawEntry_covers {drawn : List Clipped} (hx : bb.x = 0 ∧ bb.w = gfxWidth)
    (hh : bb.h < 2 ^ 31) (htop : bb.y ≤ list.style.y1.toNat)
    (hend : list.y0.toNat < bb.y + bb.h) (hd : doDrawEntry list e bb y odd = some drawn) :
    (∃ c ∈ drawn, c.Covers px py) ↔ bb.Has px py ∧ list.InWindow py := by
  rw [doDrawEntry] at hd
  obtain ⟨clip, hclip, hd⟩ := Option.bind_eq_some_iff.mp hd
  obtain ⟨textClip, htext, hd⟩ := Option.bind_eq_some_iff.mp hd
  have hc := clipBb_some hh htop hend hclip
  have ht := @clipBb_some list textClip ⟨bb.x, bb.y, signed e.textWidth.toNat, bb.h⟩ hh htop hend
    htext
  have hin : clip.Has px py ↔ bb.Has px py ∧ list.InWindow py := by
    rw [GfxRect.Has, hc.1, hc.2.1, hc.2.2.2 py]
    exact and_assoc.symm
  have htextIn : textClip.Has px py → clip.Has px py := by
    intro hp
    have hwide := ht.2.2.1.2.2.1
    have hrows := (ht.2.2.2 py).mp hp.2
    have hleft : bb.x ≤ px := ht.1.symm.le.trans hp.1.1
    have hright : px < bb.x + bb.w := by
      rw [hx.2, hx.1, Int.zero_add]
      exact hp.1.2.trans_le hwide
    exact hin.mpr ⟨⟨⟨hleft, hright⟩, hrows.1⟩, hrows.2⟩
  obtain rfl := Option.some.inj hd
  rw [← hin]
  constructor
  · intro hex
    obtain ⟨c, hmem, hcovers⟩ := hex
    rcases List.mem_cons.mp hmem with rfl | hmem
    · exact hcovers.1
    · rcases List.mem_append.mp hmem with hmem | hmem
      · obtain ⟨figure, -, rfl⟩ := List.mem_map.mp hmem
        exact htextIn hcovers.1
      · split at hmem
        · obtain rfl := List.mem_singleton.mp hmem
          exact hcovers.1
        · exact absurd hmem List.not_mem_nil
  · intro hp
    exact ⟨_, List.mem_cons_self, hp, (hin.mp hp).1⟩

/-- What is drawn for a box of an entry, if it reaches into the window. -/
def drawBox (list : WiList) (e : WiListEntry) (top : ℤ) (odd : Bool) (h y : UInt32) :
    Option (UInt32 × List Clipped) :=
  if ¬ h ≤ list.style.y1 - list.y0 + 1 then none
  else if top + signed h.toNat ≤ signed list.y0.toNat then some (h, [])
  else if top > signed list.style.y1.toNat then some (h, [])
  else (doDrawEntry list e ⟨0, top, gfxWidth, signed h.toNat⟩ y odd).map (h, ·)

theorem drawEntry_box (list : WiList) (e : WiListEntry) (top : ℤ) (odd : Bool) :
    ∃ y, drawEntry list e top odd =
      drawBox list e top odd (fullHeight list.style list.textHeight e) y := by
  rw [← fullHeight_eq, drawEntry]
  by_cases hmin : entryHeight list.style list.textHeight e < e.style.minH
  · simp only [if_pos hmin]
    exact ⟨_, rfl⟩
  · simp only [if_neg hmin]
    exact ⟨_, rfl⟩

/-- What is drawn for an entry is its box, as far as it is in the window. -/
theorem drawBox_covers {h' : UInt32} {drawn : List Clipped} (hfit : h.toNat < 2 ^ 31)
    (hd : drawBox list e top odd h y = some (h', drawn)) :
    h' = h ∧ ((∃ c ∈ drawn, c.Covers px py) ↔
      (0 ≤ px ∧ px < gfxWidth) ∧ (top ≤ py ∧ py < top + h.toNat) ∧ list.InWindow py) := by
  rw [drawBox, signed_toNat hfit, list.signed_y0, list.signed_y1] at hd
  have hnone : (py < list.y0.toNat ∨ list.style.y1.toNat < py ∨ ¬ (top ≤ py ∧ py < top + h.toNat)) →
      ((∃ c ∈ ([] : List Clipped), c.Covers px py) ↔
        (0 ≤ px ∧ px < gfxWidth) ∧ (top ≤ py ∧ py < top + h.toNat) ∧ list.InWindow py) := by
    intro hout
    refine iff_of_false ?_ ?_
    · simp
    · rw [WiList.InWindow]
      omega
  split at hd
  · cases hd
  split at hd
  next habove =>
    cases hd
    exact ⟨rfl, hnone (by omega)⟩
  split at hd
  next hbelow =>
    cases hd
    exact ⟨rfl, hnone (by omega)⟩
  next hend htop =>
    obtain ⟨_, hdraw, heq⟩ := Option.map_eq_some_iff.mp hd
    cases heq
    have hcovers := @doDrawEntry_covers list e ⟨0, top, gfxWidth, h.toNat⟩ odd y px py _
      ⟨rfl, rfl⟩ (show (h.toNat : ℤ) < 2 ^ 31 by omega) (Int.not_lt.mp htop) (Int.not_le.mp hend) hdraw
    refine ⟨rfl, hcovers.trans ?_⟩
    rw [GfxRect.Has, Int.zero_add]
    exact and_assoc

theorem heights_cons (style : WiListStyle) (textHeight : UInt32) (e : WiListEntry)
    (entries : List WiListEntry) : heights style textHeight (e :: entries) =
      (fullHeight style textHeight e).toNat :: heights style textHeight entries := rfl

theorem exists_mem_numbered {first : List Clipped} {rest : List (ℕ × Clipped)} :
    (∃ c ∈ first.map (k, ·) ++ rest, c.1 = i ∧ c.2.Covers px py) ↔
      (i = k ∧ ∃ c ∈ first, c.Covers px py) ∨ ∃ c ∈ rest, c.1 = i ∧ c.2.Covers px py := by
  constructor
  · rintro ⟨c, hmem, hi, hp⟩
    rcases List.mem_append.mp hmem with hmem | hmem
    · obtain ⟨figure, hfirst, rfl⟩ := List.mem_map.mp hmem
      exact .inl ⟨hi.symm, figure, hfirst, hp⟩
    · exact .inr ⟨c, hmem, hi, hp⟩
  · rintro (⟨rfl, c, hmem, hp⟩ | ⟨c, hmem, hi, hp⟩)
    · exact ⟨(i, c), List.mem_append_left _ (List.mem_map_of_mem hmem), rfl, hp⟩
    · exact ⟨c, List.mem_append_right _ hmem, hi, hp⟩

/-- The boxes of the entries are drawn one below the other. -/
theorem drawEntries_shows {y' : UInt32} {drawn : List (ℕ × Clipped)} (hup : list.up.toNat < 2 ^ 31)
    (hfit : y.toNat + (heights list.style list.textHeight entries).sum < 2 ^ 31)
    (hd : drawEntries list entries k y = some (y', drawn)) :
    (∃ c ∈ drawn, c.1 = i ∧ c.2.Covers px py) ↔
      (0 ≤ px ∧ px < gfxWidth) ∧ list.InWindow py ∧ ∃ j, i = k + j ∧
        Rows.Holds (heights list.style list.textHeight entries) j
          (py - (y.toNat - list.up.toNat)) := by
  induction entries generalizing k y drawn with
  | nil =>
      cases hd
      refine iff_of_false (by simp) ?_
      rintro ⟨-, -, j, -, hj⟩
      exact Rows.not_holds_nil hj
  | cons e entries ih =>
      rw [heights_cons, List.sum_cons] at hfit
      rw [drawEntries, signed_toNat hup, signed_toNat (by omega)] at hd
      obtain ⟨⟨h, first⟩, hfirst, hd⟩ := Option.bind_eq_some_iff.mp hd
      obtain ⟨⟨y'', rest⟩, hrest, hd⟩ := Option.bind_eq_some_iff.mp hd
      cases hd
      obtain ⟨y1, hbox⟩ := drawEntry_box list e (y.toNat - list.up.toNat) (k % 2 = 1)
      rw [hbox] at hfirst
      obtain ⟨rfl, hcovers⟩ : _ ∧ ((∃ c ∈ first, c.Covers px py) ↔ _) :=
        drawBox_covers (by omega) hfirst
      have hnext : (y + fullHeight list.style list.textHeight e).toNat =
          y.toNat + (fullHeight list.style list.textHeight e).toNat := by
        rw [UInt32.toNat_add]
        omega
      have hlater := ih (by omega) hrest
      have hshift : py - (((y.toNat + (fullHeight list.style list.textHeight e).toNat : ℕ) : ℤ) -
          list.up.toNat) = py - (y.toNat - list.up.toNat) -
            (fullHeight list.style list.textHeight e).toNat := by omega
      have hbounds : (y.toNat - list.up.toNat ≤ py ∧ py < y.toNat - list.up.toNat +
            (fullHeight list.style list.textHeight e).toNat) ↔
          0 ≤ py - (y.toNat - list.up.toNat) ∧ py - (y.toNat - list.up.toNat) <
            (fullHeight list.style list.textHeight e).toNat := by omega
      rw [exists_mem_numbered, hcovers, hlater, hnext, heights_cons, hshift, hbounds,
        Rows.exists_holds_cons]
      constructor
      · rintro (⟨hi, hx, hp, hin⟩ | ⟨hx, hin, hj⟩)
        · exact ⟨hx, hin, .inl ⟨hi, hp⟩⟩
        · exact ⟨hx, hin, .inr hj⟩
      · rintro ⟨hx, hin, ⟨hi, hp⟩ | hj⟩
        · exact .inl ⟨hi, hx, hp, hin⟩
        · exact .inr ⟨hx, hin, hj⟩

/-! ## What is picked -/

/-- The entry that is picked is that of the row at the position. -/
theorem pickFrom_eq (hy : y.toNat < 2 ^ 31) (hpos : -2 ^ 31 ≤ pos)
    (hfit : pos + (heights list.style list.textHeight entries).sum < 2 ^ 31) :
    pickFrom list y entries k pos =
      (Rows.rowAt (heights list.style list.textHeight entries) (y.toNat - pos)).map (k + ·) := by
  induction entries generalizing k pos with
  | nil => rfl
  | cons e entries ih =>
      rw [heights_cons, List.sum_cons] at hfit
      have hnext : signed (pos + (fullHeight list.style list.textHeight e).toNat) =
          pos + (fullHeight list.style list.textHeight e).toNat := signed_of_mem (by omega)
      rw [pickFrom, heights_cons, Rows.rowAt]
      simp only [hnext, signed_toNat hy]
      by_cases hlt : (y.toNat : ℤ) < pos + (fullHeight list.style list.textHeight e).toNat
      · rw [if_pos hlt, if_pos (by omega)]
        rfl
      · rw [if_neg hlt, if_neg (by omega), ih (by omega) (by omega), Option.map_map]
        have hrest : (y.toNat : ℤ) - pos - (fullHeight list.style list.textHeight e).toNat =
            y.toNat - (pos + (fullHeight list.style list.textHeight e).toNat) := by omega
        have hcount : ((k + ·) ∘ (· + 1)) = (k + 1 + · : ℕ → ℕ) := by
          funext j
          exact (Nat.add_right_comm k 1 j).symm
        rw [hrest, hcount]

/-- The position is that of a row of an entry, which may be outside the window. -/
def WiList.Has (list : WiList) (i : ℕ) (py : ℤ) : Prop :=
  Rows.Holds (heights list.style list.textHeight list.entries) i
    (py - (list.y0.toNat - list.up.toNat))

theorem wiListPick_eq_some {x : UInt32} (hup : list.up.toNat < 2 ^ 31) (hy : y.toNat < 2 ^ 31) :
    wiListPick list x y = some i ↔ list.Has i y.toNat := by
  have hfits := list.fits
  have hw := list.window_le
  have hstart : signed (list.y0 - list.up).toNat = list.y0.toNat - list.up.toNat := by
    have hsub : ((list.y0 - list.up).toNat : ℤ) =
        ((list.y0.toNat : ℤ) - list.up.toNat) % (2 ^ 32 : ℕ) := by
      rw [UInt32.toNat_sub]
      omega
    rw [hsub, signed, Int.emod_bmod]
    exact signed_of_mem (by omega)
  rw [wiListPick, hstart]
  by_cases habove : (y.toNat : ℤ) < list.y0.toNat - list.up.toNat
  · simp only [signed_toNat hy, if_pos habove]
    refine iff_of_false nofun fun hi => ?_
    have hpos := Rows.Holds.nonneg hi
    omega
  · simp only [signed_toNat hy, if_neg habove]
    rw [pickFrom_eq hy (by omega) (by omega)]
    simp only [Nat.zero_add, Option.map_id_fun', id]
    exact Rows.rowAt_eq_some (by omega)

theorem drawList_shows {drawn : Drawn} (hup : list.up.toNat < 2 ^ 31)
    (hd : drawList list = some drawn) :
    drawn.Shows i px py ↔ (0 ≤ px ∧ px < gfxWidth) ∧ list.InWindow py ∧ list.Has i py := by
  obtain ⟨⟨y, entries⟩, hentries, hd⟩ := Option.bind_eq_some_iff.mp hd
  cases hd
  rw [Drawn.Shows, drawEntries_shows hup list.fits hentries]
  simp only [Nat.zero_add, WiList.Has, exists_eq_left']

/-! ## Scrolling -/

theorem clamped_le (listH winH up : UInt32) :
    (if listH < winH then 0 else if listH - winH < up then listH - winH else up) ≤ up := by
  split
  · exact UInt32.zero_le
  · split
    next hlt => exact UInt32.le_of_lt hlt
    · exact UInt32.le_refl up

theorem scrolledUp_lt (list : WiList) (dy : ℤ) : (scrolledUp list dy).toNat < 2 ^ 31 := by
  rw [scrolledUp]
  split
  · decide
  next hnonneg =>
    have hlt : signed (list.scrollUp.toNat - dy) < 2 ^ 31 := Int.bmod_lt (by decide)
    apply Nat.lt_of_le_of_lt (UInt32.le_iff_toNat_le.mp (clamped_le _ _ _))
    generalize signed (list.scrollUp.toNat - dy) = up at hnonneg hlt
    rw [UInt32.ofInt, UInt32.toNat_ofNat']
    omega

/-- A list that has been scrolled, with what has been drawn. -/
theorem listScroll_some {list' : WiList} {dx dy : ℤ} {drawn : Drawn}
    (hd : listScroll list dx dy = some (list', drawn)) :
    list'.up.toNat < 2 ^ 31 ∧ drawList list' = some drawn := by
  obtain ⟨drawn', hdraw, hd⟩ := Option.bind_eq_some_iff.mp hd
  cases hd
  exact ⟨scrolledUp_lt list dy, hdraw⟩

/-- The position is above the first entry or below the last one. -/
def WiList.Beside (list : WiList) (py : ℤ) : Prop :=
  py < list.y0.toNat - list.up.toNat ∨ list.y0.toNat - list.up.toNat +
    ((heights list.style list.textHeight list.entries).sum : ℤ) ≤ py

theorem beside_iff : list.Beside py ↔ ¬ ∃ i, list.Has i py := by
  simp only [WiList.Has, Rows.exists_holds, WiList.Beside]
  omega

/-- An entry is picked at the points where it is seen, and only there, if and only if the point
is in the window or beside the entries. -/
theorem wiListPick_iff_shows {list' : WiList} {dx dy : ℤ} {drawn : Drawn} (x y : UInt32)
    (hx : x.toNat < gfxWidth) (hy : y.toNat < gfxHeight)
    (hd : listScroll list dx dy = some (list', drawn)) :
    (∀ i, wiListPick list' x y = some i ↔ drawn.Shows i x.toNat y.toNat) ↔
      list'.InWindow y.toNat ∨ list'.Beside y.toNat := by
  obtain ⟨hup, hdraw⟩ := listScroll_some hd
  have hy' : y.toNat < 280 := hy
  have hsee : ∀ i, (wiListPick list' x y = some i ↔ drawn.Shows i x.toNat y.toNat) ↔
      (list'.Has i y.toNat → list'.InWindow y.toNat) := by
    intro i
    have hx' : (0 : ℤ) ≤ x.toNat ∧ (x.toNat : ℤ) < gfxWidth := ⟨by omega, by omega⟩
    rw [wiListPick_eq_some hup (by omega), drawList_shows hup hdraw]
    exact ⟨fun h hi => (h.mp hi).2.1, fun h => ⟨fun hi => ⟨hx', h hi, hi⟩, fun hs => hs.2.2⟩⟩
  rw [forall_congr' hsee, beside_iff, ← exists_imp, imp_iff_not_or, or_comm]

/-- Six entries of a list below a title, as `ui_accounts` makes them. -/
def sampleList : WiList where
  entries := List.replicate 6 ⟨0, 100, none, 240, ⟨fun odd => if odd then 0x2104 else 0, 50, true⟩⟩
  style := ⟨279, 0, 0, false⟩
  y0 := 44
  textHeight := 20
  totalHeight := 300
  up := 0
  scrollUp := 0
  scrollEntry := none
  scrollLeft := 0
  window := by decide
  fits := by decide +kernel

theorem wiListPick_iff_shows_sample : ∃ list' drawn,
    listScroll sampleList 0 (-40) = some (list', drawn) ∧
      ((∀ i, wiListPick list' 120 100 = some i ↔
          drawn.Shows i (120 : UInt32).toNat (100 : UInt32).toNat) ↔
        list'.InWindow (100 : UInt32).toNat ∨ list'.Beside (100 : UInt32).toNat) := by
  have hsome : (listScroll sampleList 0 (-40)).isSome = true := by decide +kernel
  obtain ⟨⟨list', drawn⟩, hd⟩ := Option.isSome_iff_exists.mp hsome
  exact ⟨list', drawn, hd, wiListPick_iff_shows 120 100 (by decide) (by decide) hd⟩

/-- A tap on the title picks an entry that has been scrolled behind it. -/
theorem wiListPick_hidden : ∃ list' drawn,
    listScroll sampleList 0 (-40) = some (list', drawn) ∧
      wiListPick list' 120 10 = some 0 ∧ ¬ drawn.Shows 0 120 10 := by
  have hany : (listScroll sampleList 0 (-40)).any (fun r =>
      decide (wiListPick r.1 120 10 = some 0 ∧ ¬ r.2.Shows 0 120 10)) = true := by decide +kernel
  obtain ⟨⟨list', drawn⟩, hd, hr⟩ := (Option.any_eq_true _ _).mp hany
  exact ⟨list', drawn, hd, of_decide_eq_true hr⟩

end Sunela.Widget
