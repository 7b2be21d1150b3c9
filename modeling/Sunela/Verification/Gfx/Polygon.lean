import Sunela.Model.Poly
import Sunela.Verification.Font.Drawing

/-! # Polygons are filled inside -/

namespace Sunela.Gfx

open Winding Text

/-! ## Outlines -/

/-- The sides that end in the points, each with its two ends. -/
def sides (j : VertXY) : List VertXY → List (VertXY × VertXY)
  | [] => []
  | i :: v => (j, i) :: sides i v

def outline (v : List VertXY) : List (VertXY × VertXY) := sides (v.getLastD ⟨0, 0⟩) v

/-- Where the line between two points is in a row, rounded towards the first. -/
def crossX (y : ℤ) (i j : VertXY) : ℤ :=
  i.x.toInt + ((y - i.y.toInt) * (j.x.toInt - i.x.toInt)).tdiv (j.y.toInt - i.y.toInt)

/-- Where a side crosses a row, and in which direction. -/
def crossing (y : ℤ) (s : VertXY × VertXY) : Option Crossing :=
  if crossesAt y s.2 s.1 then some ⟨crossX y s.2 s.1, s.1.y.toInt > s.2.y.toInt⟩ else none

def outlineAt (y : ℤ) (v : List VertXY) : List Crossing := (outline v).filterMap (crossing y)

/-- There is room for all crossings of the row, and no side that goes up across it has a height
of one. Such a side would be taken for one that goes down. -/
structure Proper (y : ℤ) (v : List VertXY) : Prop where
  room : (outlineAt y v).length ≤ maxCrosses
  steep : ∀ s ∈ outline v, crossesAt y s.2 s.1 → s.1.y.toInt - s.2.y.toInt ≠ 1

/-- A crossing as `gfx_poly` has it. -/
def crossed (y : ℤ) (s : VertXY × VertXY) : Option Crossing :=
  if crossesAt y s.2 s.1 then some (crossOf y s.2 s.1) else none

variable {y px py x s : ℤ} {i j : VertXY} {v : List VertXY} {n fuel : ℕ} {color : GfxColor}
  {da da' : GfxDrawable} {cs : List Crossing}

theorem crossesAt_iff : crossesAt y i j = true ↔
    (i.y.toInt ≤ y ∧ y < j.y.toInt) ∨ (j.y.toInt ≤ y ∧ y < i.y.toInt) := by
  simp [crossesAt]

/-- Part of a distance is not longer than all of it. -/
theorem tdiv_between {a l d : ℤ} (ha : 0 ≤ a) (hal : a ≤ l) (hl : 0 < l) :
    min 0 d ≤ (a * d).tdiv l ∧ (a * d).tdiv l ≤ max 0 d := by
  have hpos : ∀ d, 0 ≤ d → 0 ≤ (a * d).tdiv l ∧ (a * d).tdiv l ≤ d := by
    intro d hd
    refine ⟨Int.tdiv_nonneg (Int.mul_nonneg ha hd) hl.le, ?_⟩
    rw [Int.tdiv_eq_ediv_of_nonneg (Int.mul_nonneg ha hd)]
    apply Int.ediv_le_of_le_mul hl
    rw [Int.mul_comm]
    exact Int.mul_le_mul_of_nonneg_left hal hd
  by_cases hd : 0 ≤ d
  · have h := hpos d hd
    omega
  · have h := hpos (-d) (by omega)
    rw [Int.mul_neg, Int.neg_tdiv] at h
    omega

/-- A side crosses a row between its ends. -/
theorem crossX_between (h : crossesAt y i j = true) :
    min i.x.toInt j.x.toInt ≤ crossX y i j ∧ crossX y i j ≤ max i.x.toInt j.x.toInt := by
  unfold crossX
  rcases crossesAt_iff.mp h with h | h
  · have hb := tdiv_between (d := j.x.toInt - i.x.toInt) (show 0 ≤ y - i.y.toInt by omega)
      (show y - i.y.toInt ≤ j.y.toInt - i.y.toInt by omega) (by omega)
    omega
  · have hb := tdiv_between (d := j.x.toInt - i.x.toInt) (show 0 ≤ i.y.toInt - y by omega)
      (show i.y.toInt - y ≤ i.y.toInt - j.y.toInt by omega) (by omega)
    rw [← Int.neg_tdiv_neg, ← Int.neg_mul, Int.neg_sub, Int.neg_sub]
    omega

theorem crossOf_eq (h : crossesAt y i j = true) :
    crossOf y i j = ⟨crossX y i j, j.y.toInt - i.y.toInt > 1⟩ := by
  obtain ⟨hlo, hhi⟩ := crossX_between h
  have hfits : (Int16.ofInt (crossX y i j)).toInt = crossX y i j := by
    apply Int16.toInt_ofInt_of_le
    · have h1 := i.x.le_toInt
      have h2 := j.x.le_toInt
      omega
    · have h1 := i.x.toInt_lt
      have h2 := j.x.toInt_lt
      omega
  rw [← hfits]
  rfl

theorem crosses_take :
    crosses y n j v = ((sides j v).filterMap (crossed y)).take (maxCrosses - n) := by
  induction v generalizing j n with
  | nil => simp [crosses, sides]
  | cons i v ih =>
      by_cases hcross : crossesAt y i j = true
      · have hl : j.y.toInt - i.y.toInt ≠ 0 := by
          have h := crossesAt_iff.mp hcross
          omega
        have hthis : crossed y (j, i) = some (crossOf y i j) := if_pos hcross
        rw [sides, List.filterMap_cons_some hthis]
        by_cases hn : n < maxCrosses
        · rw [crosses, if_pos ⟨hcross, hn, hl⟩, ih,
            show maxCrosses - n = (maxCrosses - (n + 1)) + 1 by omega, List.take_succ_cons]
        · rw [crosses, if_neg fun h => hn h.2.1, ih, Nat.sub_eq_zero_of_le (by omega)]
          rfl
      · have hthis : crossed y (j, i) = none := if_neg hcross
        rw [sides, List.filterMap_cons_none hthis, crosses, if_neg fun h => hcross h.1, ih]

theorem crosses_length : (crosses y 0 j v).length ≤ maxCrosses := by
  rw [crosses_take, List.length_take]
  exact Nat.min_le_left ..

theorem crossed_length (l : List (VertXY × VertXY)) :
    (l.filterMap (crossed y)).length = (l.filterMap (crossing y)).length := by
  induction l with
  | nil => rfl
  | cons s l ih =>
      by_cases h : crossesAt y s.2 s.1 = true
      · have h1 : crossed y s = some _ := if_pos h
        have h2 : crossing y s = some _ := if_pos h
        rw [List.filterMap_cons_some h1, List.filterMap_cons_some h2, List.length_cons,
          List.length_cons, ih]
      · have h1 : crossed y s = none := if_neg h
        have h2 : crossing y s = none := if_neg h
        rw [List.filterMap_cons_none h1, List.filterMap_cons_none h2, ih]

theorem crosses_proper (hp : Proper y v) : crosses y 0 (v.getLastD ⟨0, 0⟩) v = outlineAt y v := by
  have hroom := hp.room
  rw [outlineAt, ← crossed_length] at hroom
  rw [crosses_take, Nat.sub_zero]
  refine (List.take_of_length_le hroom).trans (List.filterMap_congr fun s hs => ?_)
  by_cases h : crossesAt y s.2 s.1 = true
  · have hsteep := hp.steep s hs h
    rw [crossed, crossing, if_pos h, if_pos h, crossOf_eq h]
    congr 3
    simp only [eq_iff_iff]
    omega
  · rw [crossed, crossing, if_neg h, if_neg h]

/-- One if the point is below the row. -/
def below (y : ℤ) (i : VertXY) : ℤ := if y < i.y.toInt then 1 else 0

theorem total_sides :
    total ((sides j v).filterMap (crossing y)) = below y j - below y (v.getLastD j) := by
  induction v generalizing j with
  | nil => simp [sides, total]
  | cons i v ih =>
      rw [List.getLastD_cons, sides]
      by_cases h : crossesAt y i j = true
      · have hthis : crossing y (j, i) = some ⟨crossX y i j, j.y.toInt > i.y.toInt⟩ := if_pos h
        have hside : Crossing.turn ⟨crossX y i j, j.y.toInt > i.y.toInt⟩ =
            below y j - below y i := by
          simp only [Crossing.turn, below, decide_eq_true_eq]
          rcases crossesAt_iff.mp h with h | h
          · rw [if_pos (by omega), if_pos h.2, if_neg (by omega)]
            rfl
          · rw [if_neg (by omega), if_neg (by omega), if_pos h.2]
            rfl
        rw [List.filterMap_cons_some hthis, total, ih, hside]
        omega
      · have hthis : crossing y (j, i) = none := if_neg h
        have hside : below y j = below y i := by
          rw [crossesAt_iff] at h
          unfold below
          split <;> split <;> omega
        rw [List.filterMap_cons_none hthis, ih, hside]

/-- Outlines are closed. -/
theorem total_outlineAt : total (outlineAt y v) = 0 := by
  rw [outlineAt, outline, total_sides]
  cases v with
  | nil => exact Int.sub_self _
  | cons i v =>
      rw [List.getLastD_cons, List.getLastD_cons]
      exact Int.sub_self _

/-! ## Rows -/

/-- The pixels of a row that a list of spans fills. -/
def Fills (y : ℤ) (l : List (ℤ × ℤ)) (da : GfxDrawable) (px py : ℤ) : Prop :=
  (py = y ∧ ∃ r ∈ l, r.1 ≤ px ∧ px + 1 < r.2) ∧ Shows da px py

/-- All spans of the row are inside the drawable. -/
def Within (da : GfxDrawable) (y : ℤ) (l : List (ℤ × ℤ)) : Prop :=
  ∀ r ∈ l, r.1 + 1 < r.2 → Boxed da ⟨r.1, y, r.2 - r.1 - 1, 1⟩

theorem fills_nil : ¬ Fills y [] da px py := by
  simp [Fills]

theorem fills_cons {r : ℤ × ℤ} {l : List (ℤ × ℤ)} :
    Fills y (r :: l) da px py ↔ Fills y [r] da px py ∨ Fills y l da px py := by
  simp only [Fills, List.mem_cons, List.not_mem_nil, or_false, exists_eq_or_imp,
    exists_eq_left]
  tauto

theorem fills_single {r : ℤ × ℤ} :
    Fills y [r] da px py ↔
      (⟨r.1, y, r.2 - r.1 - 1, 1⟩ : GfxRect).Has px py ∧ Shows da px py := by
  simp only [Fills, List.mem_singleton, exists_eq_left, GfxRect.Has]
  constructor
  · rintro ⟨⟨rfl, h⟩, hs⟩
    exact ⟨by omega, hs⟩
  · rintro ⟨h, hs⟩
    exact ⟨by omega, hs⟩

theorem fills_drew {P : ℤ → ℤ → Prop} {l : List (ℤ × ℤ)} (hd : Drew P color da da') :
    Fills y l da' px py ↔ Fills y l da px py := by
  rw [Fills, Fills, hd.shows]

theorem within_drew {P : ℤ → ℤ → Prop} {l : List (ℤ × ℤ)} (hd : Drew P color da da') :
    Within da' y l ↔ Within da y l := by
  simp only [Within, hd.boxed]

theorem gfxRectXy_fills {r : ℤ × ℤ}
    (hd : gfxRectXy da r.1 y (r.2 - r.1 - 1) 1 color = some da') :
    Drew (Fills y [r] da) color da da' := by
  by_cases hw : r.1 + 1 < r.2
  · exact (gfxRectXy_drew (by omega) Int.one_pos hd).congr fun px py => fills_single.symm
  · rw [gfxRectXy, if_pos (by omega)] at hd
    obtain rfl := Option.some.inj hd
    apply Drew.refl
    rintro px py ⟨⟨-, q, hq, h⟩, -⟩
    obtain rfl := List.mem_singleton.mp hq
    omega

theorem gfxRectXy_none {r : ℤ × ℤ} (hd : gfxRectXy da r.1 y (r.2 - r.1 - 1) 1 color = none) :
    ¬ (r.1 + 1 < r.2 → Boxed da ⟨r.1, y, r.2 - r.1 - 1, 1⟩) := by
  intro hb
  by_cases hw : r.1 + 1 < r.2
  · exact gfxRectXy_boxed (by omega) Int.one_pos (hb hw) hd
  · rw [gfxRectXy, if_pos (by omega)] at hd
    cases hd

theorem turn_eq {c : Crossing} : (if c.up = true then s + 1 else s - 1) = s + c.turn := by
  unfold Crossing.turn
  split <;> rfl

/-- The pixels between node pairs are those of the spans. -/
theorem fillPairs_ends : Ends (Drew (Fills y (spans x s cs) da) color da)
    (¬ Within da y (spans x s cs)) (fillPairs y color da x s cs) := by
  induction cs generalizing da x s with
  | nil => exact .refl da fun px py => fills_nil
  | cons c cs ih =>
      rw [fillPairs, turn_eq, spans]
      generalize hx : (if s = 0 then c.x else x) = x'
      by_cases hend : s + c.turn = 0 ∨ cs = []
      · rw [if_pos hend]
        by_cases hpos : c.x > x'
        · rw [if_pos ⟨hend, hpos⟩]
          cases hd : gfxRectXy da x' y (c.x - x' - 1) 1 color with
          | none =>
              refine ⟨rfl, fun hw => ?_⟩
              exact gfxRectXy_none (r := (x', c.x)) hd (hw (x', c.x) List.mem_cons_self)
          | some da' =>
              have hdrew := gfxRectXy_fills (r := (x', c.x)) hd
              apply ih.mono
              · intro da'' hd'
                exact (hdrew.trans (hd'.congr fun px py => fills_drew hdrew)).congr
                  fun px py => fills_cons.symm
              · intro hn hw
                exact hn ((within_drew hdrew).mpr fun r hr => hw r (List.mem_cons_of_mem _ hr))
        · rw [if_neg fun h => hpos h.2]
          apply ih.mono
          · intro da' hd
            apply hd.congr
            intro px py
            have hnone : ¬ Fills y [(x', c.x)] da px py := by
              rw [fills_single]
              rintro ⟨⟨h, -⟩, -⟩
              simp only at h
              omega
            rw [fills_cons]
            simp only [hnone, false_or]
          · exact fun hn hw => hn fun r hr => hw r (List.mem_cons_of_mem _ hr)
      · rw [if_neg hend, if_neg fun h => hend h.1]
        exact ih

/-- The spans that are filled in a row. -/
def rowSpans (fuel : ℕ) (v : List VertXY) (y : ℤ) : List (ℤ × ℤ) :=
  match Gnome.sort Crossing.x fuel [] (crosses y 0 (v.getLastD ⟨0, 0⟩) v) with
  | some cross => spans 0 0 cross
  | none => []

theorem rowSpans_eq (hfuel : maxCrosses * maxCrosses ≤ fuel) :
    ∃ cs, Gnome.sort Crossing.x fuel [] (crosses y 0 (v.getLastD ⟨0, 0⟩) v) = some cs ∧
      rowSpans fuel v y = spans 0 0 cs ∧ cs.Perm (crosses y 0 (v.getLastD ⟨0, 0⟩) v) ∧
      cs.Pairwise (·.x ≤ ·.x) := by
  have hlen : (crosses y 0 (v.getLastD ⟨0, 0⟩) v).length ≤ maxCrosses := crosses_length
  obtain ⟨cs, hs, hperm, hsort⟩ :=
    @Gnome.sort_sorts _ _ _ Crossing.x _ _ ((Nat.mul_le_mul hlen hlen).trans hfuel)
  exact ⟨cs, hs, by rw [rowSpans, hs], hperm, hsort⟩

theorem scanline_ends (hfuel : maxCrosses * maxCrosses ≤ fuel) :
    Ends (Drew (Fills y (rowSpans fuel v y) da) color da) (¬ Within da y (rowSpans fuel v y))
      (scanline fuel v color y da) := by
  obtain ⟨cs, hs, hr, -, -⟩ := rowSpans_eq (y := y) (v := v) hfuel
  rw [scanline, hs, hr]
  exact fillPairs_ends

theorem scanlines_ends (hfuel : maxCrosses * maxCrosses ≤ fuel) :
    Ends (Drew (fun px py => (y ≤ py ∧ py < y + n) ∧ Fills py (rowSpans fuel v py) da px py)
        color da)
      (¬ ∀ py, Within da py (rowSpans fuel v py)) (scanlines fuel v color n y da) := by
  induction n generalizing y da with
  | zero =>
      apply Drew.refl
      rintro px py ⟨h, -⟩
      omega
  | succ n ih =>
      have hrow : Ends (Drew (Fills y (rowSpans fuel v y) da) color da)
          (¬ ∀ py, Within da py (rowSpans fuel v py)) (scanline fuel v color y da) :=
        (scanline_ends hfuel).mono (fun _ h => h) fun hn hw => hn (hw y)
      apply hrow.bind
      intro da' hd
      apply (@ih (y + 1) da').mono
      · intro da'' hd'
        apply (hd.trans hd').congr
        intro px py
        simp only [fills_drew hd]
        constructor
        · rintro (h | ⟨hy, h⟩)
          · obtain ⟨⟨rfl, -⟩, -⟩ := id h
            exact ⟨by omega, h⟩
          · exact ⟨by omega, h⟩
        · rintro ⟨hy, h⟩
          by_cases heq : py = y
          · subst heq
            exact .inl h
          · exact .inr ⟨by omega, h⟩
      · exact fun hn hw => hn fun py => (within_drew hd).mpr (hw py)

/-! ## Points and rows -/

theorem mem_sides {e : VertXY × VertXY} (he : e ∈ sides j v) : e.1 ∈ j :: v ∧ e.2 ∈ v := by
  induction v generalizing j with
  | nil => cases he
  | cons i v ih =>
      rcases List.mem_cons.mp he with rfl | he
      · exact ⟨List.mem_cons_self, List.mem_cons_self⟩
      · exact ⟨List.mem_cons_of_mem j (ih he).1, List.mem_cons_of_mem i (ih he).2⟩

theorem mem_outline {e : VertXY × VertXY} (he : e ∈ outline v) : e.1 ∈ v ∧ e.2 ∈ v := by
  obtain ⟨h1, h2⟩ := mem_sides he
  refine ⟨?_, h2⟩
  cases v with
  | nil => cases h2
  | cons i v =>
      rcases List.mem_cons.mp h1 with h1 | h1
      · rw [h1, List.getLastD_cons]
        exact List.getLastD_mem_cons ..
      · exact h1

theorem mem_crosses {c : Crossing} (hc : c ∈ crosses y 0 (v.getLastD ⟨0, 0⟩) v) :
    ∃ i ∈ v, ∃ j ∈ v, crossesAt y i j = true ∧ c.x = crossX y i j := by
  rw [crosses_take] at hc
  obtain ⟨e, he, hcross⟩ := List.mem_filterMap.mp (List.mem_of_mem_take hc)
  obtain ⟨h1, h2⟩ := mem_outline he
  unfold crossed at hcross
  split at hcross
  · next h =>
      rw [crossOf_eq h] at hcross
      obtain rfl := Option.some.inj hcross
      exact ⟨e.2, h2, e.1, h1, h, rfl⟩
  · cases hcross

/-- All points are inside the drawable or at its ends, and the clip rectangle, if any, is not
inside out. -/
structure Encloses (da : GfxDrawable) (v : List VertXY) : Prop where
  horizontal : ∀ i ∈ v, 0 ≤ i.x.toInt ∧ i.x.toInt ≤ da.w
  vertical : ∀ i ∈ v, 0 ≤ i.y.toInt ∧ i.y.toInt ≤ da.h
  clip : da.clipping = true → 0 ≤ da.clip.w ∧ 0 ≤ da.clip.h

theorem rowSpans_crossed (hfuel : maxCrosses * maxCrosses ≤ fuel) {r : ℤ × ℤ}
    (hr : r ∈ rowSpans fuel v y) : ∃ i ∈ v, ∃ j ∈ v, crossesAt y i j = true := by
  obtain ⟨cs, -, heq, hperm, -⟩ := rowSpans_eq (y := y) (v := v) hfuel
  rw [heq] at hr
  obtain ⟨c, hc, -⟩ := spans_last hr
  obtain ⟨i, hi, j, hj, hcross, -⟩ := mem_crosses (hperm.mem_iff.mp hc)
  exact ⟨i, hi, j, hj, hcross⟩

theorem Encloses.within (hin : Encloses da v) (hfuel : maxCrosses * maxCrosses ≤ fuel) (y : ℤ) :
    Within da y (rowSpans fuel v y) := by
  intro r hr _
  obtain ⟨i, hi, j, hj, hcross⟩ := rowSpans_crossed hfuel hr
  obtain ⟨cs, -, heq, hperm, -⟩ := rowSpans_eq (y := y) (v := v) hfuel
  rw [heq] at hr
  have hall : ∀ c ∈ cs, 0 ≤ c.x ∧ c.x ≤ da.w := by
    intro c hc
    obtain ⟨i, hi, j, hj, hcross, hx⟩ := mem_crosses (hperm.mem_iff.mp hc)
    have hb := crossX_between hcross
    have h1 := hin.horizontal i hi
    have h2 := hin.horizontal j hj
    omega
  obtain ⟨hlo, hhi⟩ := spans_within hall (fun h => absurd rfl h) hr
  have hy := crossesAt_iff.mp hcross
  have h1 := hin.vertical i hi
  have h2 := hin.vertical j hj
  refine ⟨?_, ?_, hin.clip⟩
  · simp only
    omega
  · simp only
    omega

theorem foldl_min {m : ℤ} :
    v.foldl (fun miny i => if i.y.toInt < miny then i.y.toInt else miny) m ≤ m ∧
      ∀ i ∈ v, v.foldl (fun miny i => if i.y.toInt < miny then i.y.toInt else miny) m ≤
        i.y.toInt := by
  induction v generalizing m with
  | nil => simp
  | cons j v ih =>
      rw [List.foldl_cons]
      obtain ⟨hm, hv⟩ := ih (m := if j.y.toInt < m then j.y.toInt else m)
      have hj : (if j.y.toInt < m then j.y.toInt else m) ≤ j.y.toInt ∧
          (if j.y.toInt < m then j.y.toInt else m) ≤ m := by split <;> omega
      refine ⟨hm.trans hj.2, List.forall_mem_cons.mpr ⟨hm.trans hj.1, hv⟩⟩

theorem foldl_max {m : ℤ} :
    m ≤ v.foldl (fun maxy i => if i.y.toInt > maxy then i.y.toInt else maxy) m ∧
      ∀ i ∈ v, i.y.toInt ≤
        v.foldl (fun maxy i => if i.y.toInt > maxy then i.y.toInt else maxy) m := by
  induction v generalizing m with
  | nil => simp
  | cons j v ih =>
      rw [List.foldl_cons]
      obtain ⟨hm, hv⟩ := ih (m := if j.y.toInt > m then j.y.toInt else m)
      have hj : j.y.toInt ≤ (if j.y.toInt > m then j.y.toInt else m) ∧
          m ≤ (if j.y.toInt > m then j.y.toInt else m) := by split <;> omega
      refine ⟨hj.2.trans hm, List.forall_mem_cons.mpr ⟨hj.1.trans hm, hv⟩⟩

/-! ## Polygons -/

/-- The pixels are those inside the polygon that show, but for the last one of a span. -/
structure Interior (v : List VertXY) (da : GfxDrawable) (P : ℤ → ℤ → Prop) : Prop where
  shows : ∀ px py, P px py → Shows da px py
  inside : ∀ px py, Proper py v → P px py →
    winding (outlineAt py v) px ≠ 0 ∧ winding (outlineAt py v) (px + 1) ≠ 0
  all : ∀ px py, Proper py v → Shows da px py → winding (outlineAt py v) px ≠ 0 →
    (∀ c ∈ outlineAt py v, c.x ≠ px + 1) → P px py

theorem rowSpans_interior (hfuel : maxCrosses * maxCrosses ≤ fuel) :
    Interior v da fun px py => Fills py (rowSpans fuel v py) da px py := by
  have hrow : ∀ py, Proper py v → ∃ cs, rowSpans fuel v py = spans 0 0 cs ∧
      cs.Perm (outlineAt py v) ∧
      ∀ p, Covers (spans 0 0 cs) p ↔ winding (outlineAt py v) p ≠ 0 := by
    intro py hp
    obtain ⟨cs, -, heq, hperm, hsort⟩ := rowSpans_eq (y := py) (v := v) hfuel
    rw [crosses_proper hp] at hperm
    have hclosed : total cs = 0 := by
      rw [total_perm hperm]
      exact total_outlineAt
    exact ⟨cs, heq, hperm, fun p => by rw [covers_closed hsort hclosed, winding_perm hperm]⟩
  constructor
  · exact fun px py h => h.2
  · rintro px py hp ⟨⟨-, r, hr, h1, h2⟩, -⟩
    obtain ⟨cs, heq, -, hcovers⟩ := hrow py hp
    rw [heq] at hr
    exact ⟨(hcovers px).mp ⟨r, hr, h1, by omega⟩, (hcovers (px + 1)).mp ⟨r, hr, by omega, h2⟩⟩
  · intro px py hp hs hw hnext
    obtain ⟨cs, heq, hperm, hcovers⟩ := hrow py hp
    obtain ⟨r, hr, h1, h2⟩ := (hcovers px).mpr hw
    obtain ⟨c, hc, hx⟩ := spans_last hr
    have hne := hnext c (hperm.mem_iff.mp hc)
    rw [heq]
    exact ⟨⟨rfl, r, hr, h1, by omega⟩, hs⟩

/-- Drawing ends. It changes only pixels inside the polygon, and no assertion fails if its
points are inside the drawable. -/
def Filled (v : List VertXY) (da : GfxDrawable) (color : GfxColor) : Prop :=
  ∀ fuel, maxCrosses * maxCrosses ≤ fuel →
    Ends (fun da' => ∃ P, Interior v da P ∧ Drew P color da da') (¬ Encloses da v)
      (gfxPoly fuel da v color)

end Sunela.Gfx
