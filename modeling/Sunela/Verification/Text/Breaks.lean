import Mathlib.Tactic.Linarith
import Sunela.Model.TextFormat
import Sunela.Verification.Gfx.Drawing

/-! # Where lines are broken -/

namespace Sunela.Text

open Gfx Fmt

/-! ## Widths of texts -/

/-- Characters move on, and their edges are in the order in which they follow each other. -/
structure Ordered (chars : List Character) : Prop where
  moves : ∀ c ∈ chars, 0 < c.advance.toNat
  left : ∀ c ∈ chars, ∀ d ∈ chars, c.ox.toInt ≤ c.advance.toNat + d.ox.toInt
  right : ∀ c ∈ chars, ∀ d ∈ chars,
    c.ox.toInt + c.w.toNat ≤ c.advance.toNat + d.ox.toInt + d.w.toNat

variable {chars cs ds : List Character} {c d : Character} {font : FontFace} {s t : Bytes}

theorem Ordered.of_subset (h : Ordered chars) (hsub : cs ⊆ chars) : Ordered cs where
  moves c hc := h.moves c (hsub hc)
  left c hc d hd := h.left c (hsub hc) d (hsub hd)
  right c hc d hd := h.right c (hsub hc) d (hsub hd)

/-! ### Characters -/

/-- The distance from the first character to the end of the last one. -/
def reach : List Character → ℤ
  | [] => 0
  | [c] => c.ox.toInt + c.w.toNat
  | c :: d :: cs => c.advance.toNat + reach (d :: cs)

def advances (cs : List Character) : ℕ := (cs.map fun c => c.advance.toNat).sum

/-- From the left edge of the first character to the right edge of the last one. -/
def width : List Character → ℤ
  | [] => 0
  | c :: cs => reach (c :: cs) - c.ox.toInt

theorem reach_first (h : Ordered (c :: cs)) : c.ox.toInt + c.w.toNat ≤ reach (c :: cs) := by
  induction cs generalizing c with
  | nil => exact le_rfl
  | cons d cs ih =>
      have hrest := ih (h.of_subset (List.subset_cons_self c (d :: cs)))
      have hnext := h.right c List.mem_cons_self d (List.mem_cons_of_mem c List.mem_cons_self)
      rw [reach]
      linarith

theorem reach_append (h : Ordered (c :: cs ++ ds)) : reach (c :: cs) ≤ reach (c :: cs ++ ds) := by
  induction cs generalizing c with
  | nil => exact reach_first h
  | cons d cs ih =>
      have hrest := ih (h.of_subset (List.subset_cons_self c (d :: cs ++ ds)))
      rw [List.cons_append] at hrest
      rw [List.cons_append, List.cons_append, reach, reach]
      linarith

theorem width_nonneg (h : Ordered cs) : 0 ≤ width cs := by
  cases cs with
  | nil => exact le_rfl
  | cons c cs =>
      have hfirst := reach_first h
      rw [width]
      omega

/-- What comes after a text does not make it narrower. -/
theorem width_append_left (h : Ordered (cs ++ ds)) : width cs ≤ width (cs ++ ds) := by
  cases cs with
  | nil => exact width_nonneg h
  | cons c cs => exact Int.sub_le_sub_right (reach_append h) _

/-- What comes before a text does not make it narrower. -/
theorem width_append_right (h : Ordered (cs ++ ds)) : width ds ≤ width (cs ++ ds) := by
  induction cs with
  | nil => exact le_rfl
  | cons c cs ih =>
      have hrest := h.of_subset (List.subset_cons_self c (cs ++ ds))
      have hle := ih hrest
      rw [List.cons_append]
      cases htail : cs ++ ds with
      | nil =>
          rw [htail] at hle
          exact Int.le_trans hle (width_nonneg ((htail ▸ h : Ordered (c :: []))))
      | cons d ds' =>
          rw [htail] at hle
          have hmem : d ∈ c :: (cs ++ ds) := by
            rw [htail]
            exact List.mem_cons_of_mem c List.mem_cons_self
          have hleft := h.left c List.mem_cons_self d hmem
          rw [width] at hle ⊢
          rw [reach]
          linarith

/-! ### Texts -/

/-- The characters of a text that are in the font. -/
def FontFace.glyphs (font : FontFace) (s : Bytes) : List Character := s.filterMap font.find

theorem glyphs_append : font.glyphs (s ++ t) = font.glyphs s ++ font.glyphs t :=
  List.filterMap_append

theorem glyphs_subset : font.glyphs s ⊆ font.chars := by
  intro c hc
  obtain ⟨ch, -, hfind⟩ := List.mem_filterMap.mp hc
  exact List.mem_of_find?_eq_some hfind

theorem areaLoop_eq (a : TextArea) : (areaLoop font s false a).x0 = a.x0 ∧
    (areaLoop font s false a).next = a.next + advances (font.glyphs s) ∧
    (areaLoop font s false a).x1 =
      if font.glyphs s = [] then a.x1 else a.next + reach (font.glyphs s) - 1 := by
  induction s generalizing a with
  | nil => simp [areaLoop, FontFace.glyphs, advances]
  | cons ch s ih =>
      rw [areaLoop]
      cases hfind : font.find ch with
      | none =>
          have hsame : font.glyphs (ch :: s) = font.glyphs s := List.filterMap_cons_none hfind
          rw [hsame]
          exact ih a
      | some c =>
          have hcons : font.glyphs (ch :: s) = c :: font.glyphs s := List.filterMap_cons_some hfind
          obtain ⟨hx0, hnext, hx1⟩ := ih (a.add false c)
          rw [hcons]
          refine ⟨hx0, ?_, ?_⟩
          · rw [hnext]
            simp only [TextArea.add, Bool.false_eq_true, if_false, advances, List.map_cons,
              List.sum_cons, Nat.cast_add]
            ring
          · rw [hx1, if_neg (List.cons_ne_nil c _)]
            cases hrest : font.glyphs s with
            | nil =>
                rw [if_pos rfl]
                simp only [TextArea.add, Bool.false_eq_true, if_false, reach]
                ring
            | cons d cs =>
                rw [if_neg (List.cons_ne_nil d cs)]
                simp only [TextArea.add, Bool.false_eq_true, if_false, reach]
                ring

/-- Where a text begins, and where it ends. -/
theorem areaRendered_eq : (areaRendered font s).next = advances (font.glyphs s) ∧
    ∀ c cs, font.glyphs s = c :: cs → (areaRendered font s).x0 = c.ox.toInt ∧
      (areaRendered font s).x1 = reach (c :: cs) - 1 := by
  rw [areaRendered]
  induction s with
  | nil => exact ⟨rfl, fun _ _ h => absurd h.symm (List.cons_ne_nil _ _)⟩
  | cons ch s ih =>
      rw [areaLoop]
      cases hfind : font.find ch with
      | none =>
          have hsame : font.glyphs (ch :: s) = font.glyphs s := List.filterMap_cons_none hfind
          rw [hsame]
          exact ih
      | some c =>
          have hcons : font.glyphs (ch :: s) = c :: font.glyphs s := List.filterMap_cons_some hfind
          obtain ⟨hx0, hnext, hx1⟩ :=
            @areaLoop_eq font s ((⟨0, 0, 0, 0, 0⟩ : TextArea).add true c)
          rw [hcons]
          refine ⟨?_, fun c' cs hcs => ?_⟩
          · refine hnext.trans ?_
            simp only [TextArea.add, if_true, advances, List.map_cons, List.sum_cons,
              Nat.cast_add, Int.zero_add]
          · obtain ⟨rfl, rfl⟩ := List.cons.inj hcs
            refine ⟨hx0, hx1.trans ?_⟩
            cases hrest : font.glyphs s with
            | nil => simp only [TextArea.add, if_true, reach, Int.zero_add]
            | cons d ds =>
                rw [if_neg (List.cons_ne_nil d ds)]
                simp only [TextArea.add, if_true, reach, Int.zero_add]

theorem advances_pos (h : Ordered (c :: cs)) : 0 < advances (c :: cs) := by
  have hc := h.moves c List.mem_cons_self
  simp only [advances, List.map_cons, List.sum_cons]
  omega

/-- The width of a text with and without `GFX_MAX` for the vertical alignment. -/
theorem textQuery_w (h : Ordered font.chars) (hs : font.glyphs s ≠ []) (x y : ℤ) (ax ay : Align)
    (max : Bool) : (textQuery x y s font ax ay false max).w = width (font.glyphs s) := by
  obtain ⟨hnext, hcons⟩ := @areaRendered_eq font s
  cases hg : font.glyphs s with
  | nil => exact absurd hg hs
  | cons c cs =>
      have hpos := advances_pos (h.of_subset (hg ▸ glyphs_subset) : Ordered (c :: cs))
      obtain ⟨hx0, hx1⟩ := hcons c cs hg
      have hne : (areaRendered font s).next ≠ 0 := by
        rw [hnext, hg]
        exact_mod_cast Nat.pos_iff_ne_zero.mp hpos
      simp only [textQuery, textAlign, hne, hx0, hx1, ne_eq, not_false_eq_true, true_or, if_true,
        Bool.false_eq_true, if_false, width]
      ring

theorem textWidth_eq (h : Ordered font.chars) : textWidth font s = width (font.glyphs s) := by
  by_cases hs : font.glyphs s = []
  · have hnext := (@areaRendered_eq font s).1
    rw [hs] at hnext ⊢
    simp only [advances, List.map_nil, List.sum_nil, Nat.cast_zero] at hnext
    simp [textWidth, textQuery, textAlign, hnext, width]
  · exact textQuery_w h hs 0 0 .low .low false

theorem textWidth_append_left (h : Ordered font.chars) :
    textWidth font s ≤ textWidth font (s ++ t) := by
  rw [textWidth_eq h, textWidth_eq h, glyphs_append]
  exact width_append_left (h.of_subset (glyphs_append ▸ glyphs_subset))

theorem textWidth_append_right (h : Ordered font.chars) :
    textWidth font t ≤ textWidth font (s ++ t) := by
  rw [textWidth_eq h, textWidth_eq h, glyphs_append]
  exact width_append_right (h.of_subset (glyphs_append ▸ glyphs_subset))

variable {done rest : Bytes} {w : UInt32} {may : UInt8 → Bool} {n fuel : ℕ}
  {ch : UInt8}

/-! ## Break positions -/

/-- The end of the text, or a position before or after a character that can be broken at. -/
def Edge (may : UInt8 → Bool) (s : Bytes) (n : ℕ) : Prop :=
  n = s.length ∨ (∃ ch, s[n - 1]? = some ch ∧ may ch = true) ∨ ∃ ch, s[n]? = some ch ∧ may ch = true

/-- A position where a line can be broken so that it fits. -/
structure Breaks (font : FontFace) (w : UInt32) (may : UInt8 → Bool) (s : Bytes) (n : ℕ) :
    Prop where
  pos : 0 < n
  le : n ≤ s.length
  fits : textWidth font (s.take n) ≤ w.toNat
  edge : Edge may s n

theorem breakStep_pos (atLast : Bool) (h : rest ≠ []) : 0 < breakStep may atLast rest := by
  cases rest with
  | nil => exact absurd rfl h
  | cons ch rest =>
      rw [breakStep]
      split
      · exact Nat.one_pos
      · exact Nat.add_pos_left Nat.one_pos _

theorem breakStep_le (atLast : Bool) : breakStep may atLast rest ≤ rest.length := by
  cases rest with
  | nil => exact Nat.le_refl 0
  | cons ch rest =>
      rw [breakStep, List.length_cons, Nat.add_comm rest.length]
      split
      · exact Nat.le_add_right 1 _
      · exact Nat.add_le_add_left (List.takeWhile_prefix _).length_le 1

/-- A step goes to the next position where the text can be broken. -/
theorem breakStep_edge (atLast : Bool) :
    Edge may (done ++ rest) (done.length + breakStep may atLast rest) := by
  cases rest with
  | nil => exact .inl (by rw [breakStep, List.append_nil, Nat.add_zero])
  | cons ch rest =>
      rw [breakStep]
      split
      case isTrue h =>
          refine .inr (.inl ⟨ch, ?_, h.2⟩)
          rw [Nat.add_sub_cancel, List.getElem?_append_right (Nat.le_refl _), Nat.sub_self]
          rfl
      case isFalse =>
          have hsplit := List.takeWhile_append_dropWhile (p := fun ch => !may ch) (l := rest)
          have hlength := congrArg List.length hsplit
          rw [List.length_append] at hlength
          cases hdrop : rest.dropWhile fun ch => !may ch with
          | nil =>
              rw [hdrop, List.length_nil, Nat.add_zero] at hlength
              refine .inl ?_
              rw [hlength, List.length_append, List.length_cons, Nat.add_comm 1]
          | cons c tail =>
              refine .inr (.inr ⟨c, ?_, ?_⟩)
              · have hget : ((rest.takeWhile fun ch => !may ch) ++ c :: tail)[
                    (rest.takeWhile fun ch => !may ch).length]? = some c := by
                  rw [List.getElem?_append_right (Nat.le_refl _), Nat.sub_self]
                  rfl
                rw [← hdrop, hsplit] at hget
                rw [List.getElem?_append_right (Nat.le_add_right _ _), Nat.add_sub_cancel_left,
                  Nat.add_comm 1, List.getElem?_cons_succ]
                exact hget
              · have hhead := List.head_dropWhile_not (fun ch => !may ch)
                  (show rest.dropWhile (fun ch => !may ch) ≠ [] by simp [hdrop])
                simpa [hdrop] using hhead

/-! ## Searching -/

/-- Once there is a position to break at, the last one that fits is found. -/
theorem breakLoop_breaks (hw : w.toNat < 2 ^ 31) (hs : s = done ++ rest)
    (hdone : Breaks font w may s done.length) (hfuel : rest.length < fuel) :
    ∃ n, breakLoop font w may fuel (some done.length) done rest = some (some n) ∧
      Breaks font w may s n := by
  induction fuel generalizing done rest with
  | zero => exact absurd hfuel (Nat.not_lt_zero _)
  | succ fuel ih =>
      rw [breakLoop]
      by_cases hrest : rest = []
      · rw [if_pos hrest]
        exact ⟨_, rfl, hdone⟩
      · rw [if_neg hrest]
        have hpos := @breakStep_pos rest may true hrest
        have hle := @breakStep_le rest may true
        simp only [decide_true]
        by_cases hwide : textWidth font (done ++ rest.take (breakStep may true rest)) >
            signed w.toNat
        · rw [if_pos hwide, if_neg fun h => Nat.ne_of_gt hdone.pos (Option.some.inj h)]
          exact ⟨_, rfl, hdone⟩
        · rw [if_neg hwide]
          have hlength : (done ++ rest.take (breakStep may true rest)).length =
              done.length + breakStep may true rest := by
            rw [List.length_append, List.length_take, Nat.min_eq_left hle]
          have hs' : s = done ++ rest.take (breakStep may true rest) ++
              rest.drop (breakStep may true rest) := by
            rw [List.append_assoc, List.take_append_drop]
            exact hs
          apply ih hs'
          · rw [signed_natCast hw, not_lt] at hwide
            rw [hlength]
            refine ⟨Nat.add_pos_right _ hpos, ?_, ?_, ?_⟩
            · rw [hs, List.length_append]
              exact Nat.add_le_add_left hle _
            · rw [← hlength, hs', List.take_left']
              · exact hwide
              · rfl
            · rw [hs]
              exact breakStep_edge true
          · rw [List.length_drop]
            omega

/-- There is a position to break at, or what comes before the first one does not fit. -/
theorem findBreak_cases (may : UInt8 → Bool) (hw : w.toNat < 2 ^ 31) (hs : s ≠ [])
    (hfuel : s.length < fuel) :
    (∃ n, findBreak fuel s w font may = some (some n) ∧ Breaks font w may s n) ∨
      findBreak fuel s w font may = some none ∧
        w.toNat < textWidth font (s.take (breakStep may false s)) := by
  obtain ⟨fuel, rfl⟩ := Nat.exists_eq_succ_of_ne_zero (Nat.ne_of_gt (Nat.zero_lt_of_lt hfuel))
  have hpos := @breakStep_pos s may false hs
  have hle := @breakStep_le s may false
  rw [findBreak, breakLoop, if_neg hs]
  simp only [reduceCtorEq, decide_false, List.nil_append, if_false]
  by_cases hwide : textWidth font (s.take (breakStep may false s)) > signed w.toNat
  · rw [if_pos hwide]
    rw [signed_natCast hw] at hwide
    exact .inr ⟨rfl, hwide⟩
  · rw [if_neg hwide]
    rw [signed_natCast hw, not_lt] at hwide
    have hlength : (s.take (breakStep may false s)).length = breakStep may false s := by
      rw [List.length_take, Nat.min_eq_left hle]
    refine .inl (breakLoop_breaks hw (List.take_append_drop _ s).symm ?_ ?_)
    · rw [hlength]
      refine ⟨hpos, hle, hwide, ?_⟩
      have hedge := @breakStep_edge [] s may false
      rw [List.nil_append, List.length_nil, Nat.zero_add] at hedge
      exact hedge
    · rw [List.length_drop]
      omega

/-- What `findBreak` goes to first in a text that does not begin with white space. -/
theorem take_breakStep (h : isSpace ch = false) :
    (ch :: rest).take (breakStep isSpace false (ch :: rest)) =
      (ch :: rest).takeWhile fun ch => !isSpace ch := by
  have hstep : breakStep isSpace false (ch :: rest) =
      (rest.takeWhile fun ch => !isSpace ch).length + 1 := by
    rw [breakStep, if_neg (by simp), Nat.add_comm]
  rw [hstep, List.take_succ_cons, List.takeWhile_cons, h]
  exact congrArg (ch :: ·) (List.prefix_iff_eq_take.mp (List.takeWhile_prefix _)).symm

/-- A line always ends, and unless it ends at white space, what comes before the first white space
does not fit. -/
theorem lineEnd_breaks (hw : w.toNat < 2 ^ 31) (hch : isSpace ch = false)
    (hfits : ∀ c ∈ ch :: rest, textWidth font [c] ≤ w.toNat)
    (hfuel : (ch :: rest).length < fuel) :
    ∃ n, lineEnd fuel (ch :: rest) w font = some n ∧ (∃ may, Breaks font w may (ch :: rest) n) ∧
      (Edge isSpace (ch :: rest) n ∨
        w.toNat < textWidth font ((ch :: rest).takeWhile fun ch => !isSpace ch)) := by
  have hs : ch :: rest ≠ [] := List.cons_ne_nil ch rest
  rw [lineEnd]
  rcases @findBreak_cases font _ w fuel isSpace hw hs hfuel with
    ⟨n, hn, hbreaks⟩ | ⟨hnone, hwide⟩
  · rw [hn]
    exact ⟨n, rfl, ⟨isSpace, hbreaks⟩, .inl hbreaks.edge⟩
  · rw [take_breakStep hch] at hwide
    rw [hnone]
    rcases @findBreak_cases font _ w fuel isPunct hw hs hfuel with ⟨n, hn, hbreaks⟩ | ⟨hnone, -⟩
    · simp only [Option.bind_eq_bind, Option.bind_some, hn]
      exact ⟨n, rfl, ⟨isPunct, hbreaks⟩, .inr hwide⟩
    · rcases @findBreak_cases font _ w fuel anyChar hw hs hfuel with
        ⟨n, hn, hbreaks⟩ | ⟨-, hfirst⟩
      · simp only [Option.bind_eq_bind, Option.bind_some, hnone, hn]
        exact ⟨n, rfl, ⟨anyChar, hbreaks⟩, .inr hwide⟩
      · have hone : breakStep anyChar false (ch :: rest) = 1 := by
          rw [breakStep, if_neg (by simp)]
          cases rest <;> simp [anyChar]
        rw [hone, List.take_succ_cons, List.take_zero] at hfirst
        exact absurd (hfits ch List.mem_cons_self) (not_le.mpr hfirst)

/-! ## Runs without white space -/

/-- A part of a text without white space that cannot be extended. -/
structure Run (s a run c : Bytes) : Prop where
  split : s = a ++ run ++ c
  solid : ∀ ch ∈ run, isSpace ch = false
  left : ∀ ch ∈ a.getLast?, isSpace ch = true
  right : ∀ ch ∈ c.head?, isSpace ch = true

/-- A run that the end of a line splits does not fit. -/
def Whole (font : FontFace) (w : UInt32) (s : Bytes) (n : ℕ) : Prop :=
  ∀ a run c, Run s a run c → a.length < n → n < a.length + run.length →
    w.toNat < textWidth font run

theorem whole_of_edge {pre : Bytes} (hpos : 0 < n) (hedge : Edge isSpace rest n) :
    Whole font w (pre ++ rest) (pre.length + n) := by
  intro a run c hrun hleft hright
  exfalso
  -- the characters before and after the end of the line are both in the run
  have hinside : ∀ k, a.length ≤ k → k < a.length + run.length → ∀ ch,
      (pre ++ rest)[k]? = some ch → isSpace ch = false := by
    intro k hk hk' ch hch
    rw [hrun.split, List.append_assoc, List.getElem?_append_right hk,
      List.getElem?_append_left (by omega)] at hch
    exact hrun.solid ch (List.mem_of_getElem? hch)
  have hget : ∀ k, (pre ++ rest)[pre.length + k]? = rest[k]? := by
    intro k
    rw [List.getElem?_append_right (Nat.le_add_right _ _), Nat.add_sub_cancel_left]
  rcases hedge with hend | ⟨ch, hch, hspace⟩ | ⟨ch, hch, hspace⟩
  · have hlength := congrArg List.length hrun.split
    simp only [List.length_append] at hlength
    omega
  · rw [← hget] at hch
    have hsolid := hinside _ (by omega) (by omega) ch hch
    rw [hspace] at hsolid
    exact Bool.true_eq_false.mp hsolid
  · rw [← hget] at hch
    have hsolid := hinside _ (by omega) (by omega) ch hch
    rw [hspace] at hsolid
    exact Bool.true_eq_false.mp hsolid

theorem takeWhile_run {run c : Bytes} (hsolid : ∀ ch ∈ run, isSpace ch = false)
    (hright : ∀ ch ∈ c.head?, isSpace ch = true) :
    (run ++ c).takeWhile (fun ch => !isSpace ch) = run := by
  rw [List.takeWhile_append_of_pos fun ch hch => by rw [hsolid ch hch]; rfl]
  cases c with
  | nil => exact List.append_nil run
  | cons ch c =>
      rw [List.takeWhile_cons_of_neg (by simp [hright ch rfl]), List.append_nil]

theorem takeWhile_prefix_of_space {d tail : Bytes} {sp : UInt8} (hsp : isSpace sp = true) :
    (d ++ sp :: tail).takeWhile (fun ch => !isSpace ch) <+: d := by
  induction d with
  | nil => rw [List.nil_append, List.takeWhile_cons_of_neg (by simp [hsp])]
  | cons ch d ih =>
      rw [List.cons_append, List.takeWhile_cons]
      split
      · exact List.cons_prefix_cons.mpr ⟨rfl, ih⟩
      · exact List.nil_prefix

/-- The line is inside the first run of what is left of the text, which does not fit. -/
theorem whole_of_wide {pre : Bytes} (hfont : Ordered font.chars)
    (hfits : textWidth font (rest.take n) ≤ w.toNat)
    (hwide : w.toNat < textWidth font (rest.takeWhile fun ch => !isSpace ch)) :
    Whole font w (pre ++ rest) (pre.length + n) := by
  intro a run c hrun hleft hright
  have hsplit : pre ++ rest = a ++ (run ++ c) := by
    rw [hrun.split, List.append_assoc]
  have hends : ∀ d m, run = d ++ m → rest = m ++ c → w.toNat < textWidth font run := by
    rintro d m rfl rfl
    have hsolid : ∀ ch ∈ m, isSpace ch = false :=
      fun ch hch => hrun.solid ch (List.mem_append_right d hch)
    rw [takeWhile_run hsolid hrun.right] at hwide
    exact lt_of_lt_of_le hwide (textWidth_append_right hfont)
  rcases List.append_eq_append_iff.mp hsplit with ⟨d, rfl, hrest⟩ | ⟨d, rfl, hrest⟩
  · cases d using List.reverseRecOn with
    | nil => exact hends [] run rfl hrest
    | append_singleton d sp =>
        -- the run begins after white space in the line
        exfalso
        have hsp : isSpace sp = true := hrun.left sp (by simp)
        rw [List.append_assoc, List.singleton_append] at hrest
        have hshort : d.length ≤ n := by
          simp only [List.length_append, List.length_singleton] at hleft
          omega
        have hline : (rest.takeWhile fun ch => !isSpace ch) <+: rest.take n := by
          have hd : d <+: rest.take n :=
            List.prefix_take_iff.mpr ⟨⟨_, hrest.symm⟩, hshort⟩
          rw [hrest] at hd ⊢
          exact (takeWhile_prefix_of_space hsp).trans hd
        obtain ⟨tail, htail⟩ := hline
        rw [← htail] at hfits
        exact absurd (le_trans (textWidth_append_left hfont) hfits) (not_le.mpr hwide)
  · rcases List.append_eq_append_iff.mp hrest with ⟨m, rfl, -⟩ | ⟨m, hm, hrest⟩
    · simp only [List.length_append] at hright
      omega
    · exact hends d m hm hrest

end Sunela.Text
