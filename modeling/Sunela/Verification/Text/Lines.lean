import Mathlib.Data.List.TakeWhile
import Sunela.Verification.Text.Breaks

/-! # Texts in lines

Nothing is lost when a text is broken into lines, and the lines fit. -/

namespace Sunela.Text

open Gfx Fmt

variable {font : FontFace} {s p text : Bytes} {w h : UInt32} {x y pos : ℤ} {align : Align}
  {fuel k : ℕ} {lines : List TextLine}

/-! ## Lines -/

/-- The text from `k` on consists of the lines, and of white space before each of them and after
the last one. They fit, and they end inside a run only if it does not fit. -/
inductive Lines (font : FontFace) (w : UInt32) (s : Bytes) : ℕ → List Bytes → Prop where
  | done {k : ℕ} (h : ∀ ch ∈ s.drop k, isSpace ch = true) : Lines font w s k []
  | line {k : ℕ} {gap line rest : Bytes} {lines : List Bytes}
      (split : s.drop k = gap ++ (line ++ rest)) (hgap : ∀ ch ∈ gap, isSpace ch = true)
      (hline : ∃ ch ∈ line.head?, isSpace ch = false) (hfits : textWidth font line ≤ w.toNat)
      (whole : Whole font w s (k + gap.length + line.length))
      (next : Lines font w s (k + gap.length + line.length) lines) :
      Lines font w s k (line :: lines)

/-- The characters can be drawn, each of them in the width. -/
structure Fits (font : FontFace) (w : UInt32) (s : Bytes) : Prop where
  ordered : Ordered font.chars
  found : ∀ ch ∈ s, ∃ c, font.find ch = some c ∧ c.w.toNat ≤ w.toNat
  small : w.toNat < 2 ^ 31

theorem Fits.of_subset (h : Fits font w s) (hsub : p ⊆ s) : Fits font w p :=
  ⟨h.ordered, fun ch hch => h.found ch (hsub hch), h.small⟩

theorem glyphs_cons {ch : UInt8} {c : Character} (h : font.find ch = some c) :
    font.glyphs (ch :: s) = c :: font.glyphs s := List.filterMap_cons_some h

theorem Fits.char (h : Fits font w s) {ch : UInt8} (hch : ch ∈ s) :
    textWidth font [ch] ≤ w.toNat := by
  obtain ⟨c, hc, hle⟩ := h.found ch hch
  rw [textWidth_eq h.ordered, glyphs_cons hc]
  show c.ox.toInt + c.w.toNat - c.ox.toInt ≤ w.toNat
  omega

theorem Fits.glyphs_ne_nil (h : Fits font w s) (hs : s ≠ []) : font.glyphs s ≠ [] := by
  cases s with
  | nil => exact absurd rfl hs
  | cons ch s =>
      obtain ⟨c, hc, -⟩ := h.found ch List.mem_cons_self
      rw [glyphs_cons hc]
      exact List.cons_ne_nil _ _

/-! ## Drawing -/

/-- The characters of a line are drawn one after the other. -/
theorem charsFrom_inside (h : Fits font w s) (y ox : ℤ) : ∃ drawings next,
    charsFrom font y s ox = some (drawings, next) ∧ ∀ d ∈ drawings, d.y = y ∧
      ∃ c, font.find d.ch = some c ∧ ∃ pre post, font.glyphs s = pre ++ c :: post ∧
        d.x = ox + advances pre := by
  induction s generalizing ox with
  | nil => exact ⟨[], ox, rfl, fun _ hd => absurd hd List.not_mem_nil⟩
  | cons ch s ih =>
      obtain ⟨c, hc, -⟩ := h.found ch List.mem_cons_self
      obtain ⟨drawings, next, hrest, hall⟩ :=
        ih (h.of_subset (List.subset_cons_self ch s)) (ox + c.advance.toNat)
      refine ⟨⟨ox, y, ch⟩ :: drawings, next, ?_, ?_⟩
      · rw [charsFrom, hc]
        simp only [Option.bind_eq_bind, Option.bind_some, hrest]
        rfl
      · intro d hd
        rw [glyphs_cons hc]
        rcases List.mem_cons.mp hd with rfl | hd
        · exact ⟨rfl, c, hc, [], font.glyphs s, rfl, by simp [advances]⟩
        · obtain ⟨hy, c', hc', pre, post, hsplit, hx⟩ := hall d hd
          refine ⟨hy, c', hc', c :: pre, post, ?_, ?_⟩
          · rw [hsplit, List.cons_append]
          · rw [hx]
            simp only [advances, List.map_cons, List.sum_cons, Nat.cast_add]
            ring

theorem left_le {cs post : List Character} {c : Character} (h : Ordered (cs ++ c :: post)) :
    ∀ first rest, cs ++ [c] = first :: rest → first.ox.toInt ≤ advances cs + c.ox.toInt := by
  induction cs with
  | nil =>
      intro first rest heq
      obtain ⟨rfl, -⟩ := List.cons.inj heq
      simp [advances]
  | cons d cs ih =>
      intro first rest heq
      obtain ⟨rfl, -⟩ := List.cons.inj heq
      have hrest := ih (h.of_subset (List.subset_cons_self _ _))
      cases hnext : cs ++ [c] with
      | nil => simp at hnext
      | cons e es =>
          have hle := hrest e es hnext
          have he : e ∈ d :: (cs ++ c :: post) := by
            have hmem : e ∈ cs ++ [c] := hnext ▸ List.mem_cons_self
            rcases List.mem_append.mp hmem with he | he
            · exact List.mem_cons_of_mem d (List.mem_append_left _ he)
            · rw [List.mem_singleton.mp he]
              exact List.mem_cons_of_mem d (List.mem_append_right _ List.mem_cons_self)
          have hstep := h.left d List.mem_cons_self e he
          simp only [advances, List.map_cons, List.sum_cons, Nat.cast_add] at hle ⊢
          linarith

theorem reach_snoc {cs : List Character} {c : Character} :
    reach (cs ++ [c]) = advances cs + c.ox.toInt + c.w.toNat := by
  induction cs with
  | nil => simp [advances, reach]
  | cons d cs ih =>
      cases hnext : cs ++ [c] with
      | nil => simp at hnext
      | cons e es =>
          rw [List.cons_append, hnext, reach, ← hnext, ih]
          simp only [advances, List.map_cons, List.sum_cons, Nat.cast_add]
          ring

/-- No character of a text that is drawn from `x` on is outside of its width. -/
theorem textText_inside (h : Fits font w s) (x y : ℤ) : ∃ drawings next,
    textText font x y s .low .origin = some (drawings, next) ∧ ∀ d ∈ drawings, d.y = y ∧
      ∃ c, font.find d.ch = some c ∧ x ≤ d.x + c.ox.toInt ∧
        d.x + c.ox.toInt + c.w.toNat ≤ x + width (font.glyphs s) := by
  obtain ⟨drawings, next, hrun, hall⟩ := charsFrom_inside h
    (textQuery x y s font .low .origin false false).oy
    (textQuery x y s font .low .origin false false).ox
  refine ⟨drawings, next, hrun, fun d hd => ?_⟩
  obtain ⟨hy, c, hc, pre, post, hsplit, hx⟩ := hall d hd
  refine ⟨hy, c, hc, ?_⟩
  have hord : Ordered (pre ++ c :: post) := h.ordered.of_subset (hsplit ▸ glyphs_subset)
  obtain ⟨first, rest, hfirst⟩ : ∃ first rest, pre ++ [c] = first :: rest := by
    cases pre with
    | nil => exact ⟨c, [], rfl⟩
    | cons e pre => exact ⟨e, pre ++ [c], rfl⟩
  have hglyphs : font.glyphs s = first :: (rest ++ post) := by
    rw [hsplit, ← List.cons_append, ← hfirst, List.append_assoc]
    rfl
  have hox : (textQuery x y s font .low .origin false false).ox = x - first.ox.toInt := by
    show x - (areaRendered font s).x0 = x - first.ox.toInt
    rw [((@areaRendered_eq font s).2 first _ hglyphs).1]
  have hleft := left_le hord first rest hfirst
  have hright : reach (pre ++ [c]) ≤ reach (pre ++ [c] ++ post) := by
    rw [hfirst]
    apply reach_append
    rw [← hfirst, List.append_assoc]
    exact hord
  rw [reach_snoc, hfirst] at hright
  rw [hx, hox, hglyphs, width]
  rw [List.cons_append] at hright
  constructor
  · linarith
  · linarith

/-! ## Formatting -/

/-- A line at its distance from the top. It is drawn if it shows, inside of the width. -/
structure LineAt (x y : ℤ) (w h : UInt32) (font : FontFace) (line : TextLine) (pos : ℤ) :
    Prop where
  top : line.pos = pos
  shown : line.drawn.isSome = true ↔ 0 ≤ pos + font.h.toNat ∧ pos < h.toNat
  inside : ∀ x0 y0, line.drawn = some (x0, y0) → ∃ drawings next,
    textText font x0 y0 line.text .low .origin = some (drawings, next) ∧
      ∀ d ∈ drawings, d.y = y + pos + (font.oy.toInt + font.h.toNat - 1) ∧
        ∃ c, font.find d.ch = some c ∧ x ≤ d.x + c.ox.toInt ∧
          d.x + c.ox.toInt + c.w.toNat ≤ x + w.toNat

theorem lineX_inside {lineW : ℤ} (halign : align ≠ .origin) (h0 : 0 ≤ lineW)
    (hle : lineW ≤ w.toNat) (hw : w.toNat < 2 ^ 31) (hx : -2 ^ 31 ≤ x)
    (hend : x + w.toNat < 2 ^ 31) :
    ∃ x0, lineX x w lineW align = some x0 ∧ x ≤ x0 ∧ x0 + lineW ≤ x + w.toNat := by
  have hrest : unsigned (w.toNat - lineW) = w.toNat - lineW :=
    Int.emod_eq_of_lt (by omega) (by omega)
  cases align with
  | low => exact ⟨x, rfl, le_rfl, by omega⟩
  | center =>
      refine ⟨x + (w.toNat - lineW) / 2, ?_, by omega, by omega⟩
      rw [lineX, hrest, signed_of_mem ⟨by omega, by omega⟩]
  | high =>
      refine ⟨x + (w.toNat - lineW), ?_, by omega, by omega⟩
      rw [lineX, hrest, signed_of_mem ⟨by omega, by omega⟩]
  | origin => exact absurd rfl halign

/-- The height of a line does not depend on its text. -/
theorem textQuery_max (ax : Align) (x y : ℤ) :
    (textQuery x y s font ax .low false true).h = font.h.toNat ∧
      (textQuery x y s font ax .low false true).oy =
        y + (font.oy.toInt + font.h.toNat - 1) := by
  have harea : ∀ len, (areaMax font len).y0 = font.oy.toInt ∧
      (areaMax font len).y1 = font.oy.toInt + font.h.toNat - 1 := by
    intro len
    rw [areaMax]
    split <;> exact ⟨rfl, rfl⟩
  obtain ⟨hy0, hy1⟩ := harea (.ofNat s.length)
  simp only [textQuery, textAlign, alignY, if_true, or_true, hy0, hy1, and_true]
  ring

/-- Where a line is drawn. -/
theorem drawn_inside (hs : Fits font w text) (hne : text ≠ [])
    (hfits : textWidth font text ≤ w.toNat) (halign : align ≠ .origin) (hh : h.toNat < 2 ^ 31)
    (hx : -2 ^ 31 ≤ x) (hend : x + w.toNat < 2 ^ 31) :
    let q := textQuery 0 0 text font .low .low false true
    ∃ drawn, (if pos + q.h ≥ 0 ∧ pos < signed h.toNat then
        (lineX x w q.w align).map fun x0 => some (x0, y + pos + q.oy) else some none) =
          some drawn ∧ LineAt x y w h font ⟨text, pos, drawn⟩ pos := by
  intro q
  obtain ⟨hqh, hqoy⟩ := @textQuery_max font text .low 0 0
  have hglyphs := hs.glyphs_ne_nil hne
  have hqw : q.w = width (font.glyphs text) := textQuery_w hs.ordered hglyphs 0 0 .low .low true
  rw [textWidth_eq hs.ordered, ← hqw] at hfits
  have h0 : 0 ≤ q.w := hqw ▸ width_nonneg (hs.ordered.of_subset glyphs_subset)
  obtain ⟨x0, hx0, hlo, hhi⟩ := lineX_inside halign h0 hfits hs.small hx hend
  rw [hqh, signed_natCast hh, hx0]
  by_cases hshown : pos + font.h.toNat ≥ 0 ∧ pos < h.toNat
  · rw [if_pos hshown]
    refine ⟨_, rfl, rfl, iff_of_true rfl hshown, fun x1 y1 heq => ?_⟩
    obtain ⟨rfl, rfl⟩ := Prod.mk.inj (Option.some.inj heq)
    obtain ⟨drawings, next, hrun, hall⟩ := textText_inside hs x0 (y + pos + q.oy)
    refine ⟨drawings, next, hrun, fun d hd => ?_⟩
    obtain ⟨hy, c, hc, hleft, hright⟩ := hall d hd
    rw [← hqw] at hright
    refine ⟨?_, c, hc, le_trans hlo hleft, le_trans hright hhi⟩
    rw [hy, hqoy, Int.zero_add]
  · rw [if_neg hshown]
    exact ⟨none, rfl, rfl, iff_of_false Bool.false_ne_true hshown, fun x1 y1 heq => nomatch heq⟩

/-- One more line in front of the others. -/
theorem lines_cons {gap : Bytes} {rest : List Bytes} {n : ℕ} {may : UInt8 → Bool}
    (hs : Fits font w s) (hsplit : gap ++ p = s.drop k)
    (hgap : ∀ ch ∈ gap, isSpace ch = true) (hp : ∃ ch ∈ p.head?, isSpace ch = false)
    (hbreaks : Breaks font w may p n)
    (hrun : Edge isSpace p n ∨ w.toNat < textWidth font (p.takeWhile fun ch => !isSpace ch))
    (hnext : Lines font w s (k + gap.length + n) rest) : Lines font w s k (p.take n :: rest) := by
  have htake : (p.take n).length = n := by rw [List.length_take, Nat.min_eq_left hbreaks.le]
  have hk : k ≤ s.length := by
    have hlength := congrArg List.length hsplit
    rw [List.length_append, List.length_drop] at hlength
    have hpos := hbreaks.pos
    have hle := hbreaks.le
    omega
  have hwhole : s = s.take k ++ gap ++ p := by
    rw [List.append_assoc, hsplit, List.take_append_drop]
  have hpre : (s.take k ++ gap).length = k + gap.length := by
    rw [List.length_append, List.length_take, Nat.min_eq_left hk]
  have hends : Whole font w s (k + gap.length + n) := by
    rw [hwhole, ← hpre]
    rcases hrun with hedge | hwide
    · exact whole_of_edge hbreaks.pos hedge
    · exact whole_of_wide hs.ordered hbreaks.fits hwide
  refine @Lines.line _ _ _ _ gap _ (p.drop n) _ ?_ hgap ?_ hbreaks.fits ?_ ?_
  · rw [List.take_append_drop, hsplit]
  · obtain ⟨ch, hch, hspace⟩ := hp
    exact ⟨ch, by rw [List.head?_take, if_neg (Nat.ne_of_gt hbreaks.pos)]; exact hch, hspace⟩
  · rw [htake]
    exact hends
  · rw [htake]
    exact hnext

theorem formatLoop_lines (hs : Fits font w s) (halign : align ≠ .origin) (hh : h.toNat < 2 ^ 31)
    (hx : -2 ^ 31 ≤ x) (hend : x + w.toNat < 2 ^ 31) (hfuel : (s.drop k).length < fuel) :
    ∃ lines, formatLoop x y w h font align fuel (s.drop k) pos =
        some (lines, pos + lines.length * font.h.toNat) ∧
      Lines font w s k (lines.map (·.text)) ∧
      ∀ (i : ℕ) (line : TextLine), lines[i]? = some line →
        LineAt x y w h font line (pos + i * font.h.toNat) := by
  induction fuel generalizing k pos with
  | zero => exact absurd hfuel (Nat.not_lt_zero _)
  | succ fuel ih =>
      have hgap : ∀ ch ∈ (s.drop k).takeWhile isSpace, isSpace ch = true :=
        fun ch hch => List.mem_takeWhile_imp hch
      have hsplit := List.takeWhile_append_dropWhile (p := isSpace) (l := s.drop k)
      rw [formatLoop]
      cases hp : (s.drop k).dropWhile isSpace with
      | nil =>
          rw [hp, List.append_nil] at hsplit
          refine ⟨[], by simp, .done ?_, fun i line hl => by simp at hl⟩
          rw [← hsplit]
          exact hgap
      | cons ch rest =>
          have hch : isSpace ch = false := by
            have hhead := List.head_dropWhile_not isSpace
              (show (s.drop k).dropWhile isSpace ≠ [] by simp [hp])
            simpa [hp] using hhead
          rw [hp] at hsplit
          have hsub : ch :: rest ⊆ s := fun c hc =>
            List.mem_of_mem_drop (hsplit ▸ List.mem_append_right _ hc)
          obtain ⟨n, hn, ⟨may, hbreaks⟩, hrun⟩ := lineEnd_breaks hs.small hch
            (fun c hc => hs.char (hsub hc)) (Nat.lt_succ_self _)
          generalize hgapeq : (s.drop k).takeWhile isSpace = gap at hsplit hgap
          have hdrop : s.drop (k + gap.length + n) = (ch :: rest).drop n := by
            rw [Nat.add_assoc, ← List.drop_drop, ← hsplit, ← List.drop_drop, List.drop_left']
            rfl
          have hhead : ∃ c ∈ (ch :: rest).head?, isSpace c = false := ⟨ch, rfl, hch⟩
          have hne : (ch :: rest).take n ≠ [] := by
            rw [ne_eq, List.take_eq_nil_iff]
            exact fun h => h.elim (Nat.ne_of_gt hbreaks.pos) (List.cons_ne_nil ch rest)
          obtain ⟨drawn, hdrawn, hline⟩ := @drawn_inside font _ w h x y pos align
            (hs.of_subset fun c hc => hsub (List.mem_of_mem_take hc)) hne hbreaks.fits halign hh
            hx hend
          have hqh := (@textQuery_max font ((ch :: rest).take n) .low 0 0).1
          rw [if_neg (List.cons_ne_nil ch rest), hn]
          simp only [Option.bind_eq_bind, Option.bind_some, hdrawn]
          by_cases hlast : (ch :: rest).drop n = []
          · rw [if_pos hlast]
            refine ⟨[⟨(ch :: rest).take n, pos, drawn⟩], ?_, ?_, ?_⟩
            · simp [hqh]
            · refine lines_cons hs hsplit hgap hhead hbreaks hrun (.done ?_)
              rw [hdrop, hlast]
              exact fun c hc => absurd hc List.not_mem_nil
            · intro i line hl
              cases i with
              | zero =>
                  obtain rfl := Option.some.inj hl
                  simpa using hline
              | succ i => simp at hl
          · rw [if_neg hlast, ← hdrop]
            have hshort : (s.drop (k + gap.length + n)).length < fuel := by
              have hlength := congrArg List.length hsplit
              have hpos := hbreaks.pos
              have hle := hbreaks.le
              rw [hdrop, List.length_drop]
              rw [List.length_append] at hlength
              omega
            obtain ⟨lines, hrest, hlines, hall⟩ :=
              @ih (pos + font.h.toNat) (k + gap.length + n) hshort
            rw [hqh, hrest]
            refine ⟨⟨(ch :: rest).take n, pos, drawn⟩ :: lines, ?_, ?_, ?_⟩
            · simp only [Option.bind_some, List.length_cons, Nat.cast_add, Nat.cast_one]
              congr 2
              ring
            · exact lines_cons hs hsplit hgap hhead hbreaks hrun hlines
            · intro i line hl
              cases i with
              | zero =>
                  obtain rfl := Option.some.inj hl
                  simpa using hline
              | succ i =>
                  have hat := hall i line hl
                  rw [Nat.cast_succ, show pos + ((i : ℤ) + 1) * font.h.toNat =
                    pos + font.h.toNat + i * font.h.toNat by ring]
                  exact hat

/-- `text_format` ends, breaks the text into lines one below the other, and tells how far they go
beyond the height. -/
def Formats (fuel : ℕ) (x y : ℤ) (w h offset : UInt32) (s : Bytes) (font : FontFace)
    (align : Align) : Prop :=
  ∃ lines, textFormat fuel x y w h offset s font align = some (lines,
      signed (signed (-offset.toNat) + lines.length * font.h.toNat - h.toNat)) ∧
    Lines font w s 0 (lines.map (·.text)) ∧
    ∀ (i : ℕ) (line : TextLine), lines[i]? = some line →
      LineAt x y w h font line (signed (-offset.toNat) + i * font.h.toNat)

/-- A space and a letter. -/
def slimFont : FontFace :=
  ⟨2, 3, 0, 0, [⟨32, 0, 0, 0, 0, 3, 0, false, []⟩, ⟨97, 2, 3, 0, 0, 3, 1, false, [63]⟩]⟩

def slimText : Bytes := [97, 97, 97, 32, 97]

theorem slimFont_fits : Fits slimFont 6 slimText where
  ordered := ⟨by decide, by decide, by decide⟩
  found ch hch := by
    simp only [slimText, List.mem_cons, List.not_mem_nil, or_false] at hch
    rcases hch with rfl | rfl | rfl | rfl | rfl
    all_goals exact ⟨_, rfl, by decide⟩
  small := by decide

example : (textFormat 6 0 0 6 20 0 slimText slimFont .low).map
    (fun r => (r.1.map (·.text), r.2)) = some ([[97, 97], [97, 32], [97]], -11) := by decide

/-! ## Measuring -/

theorem Lines.length_le {rest : List Bytes} (h : Lines font w s k rest) (hk : k ≤ s.length) :
    rest.length + k ≤ s.length := by
  induction h with
  | done h => simpa using hk
  | @line k gap line rest lines split hgap hline hfits whole next ih =>
      have hlength := congrArg List.length split
      have hpos : 0 < line.length := by
        obtain ⟨ch, hch, -⟩ := hline
        exact List.length_pos_of_mem (List.mem_of_mem_head? hch)
      simp only [List.length_drop, List.length_append] at hlength
      have hle := ih (by omega)
      rw [List.length_cons]
      omega

/-- The lines do not depend on where they are drawn. -/
theorem formatLoop_texts {x' y' pos' e e' : ℤ} {h' : UInt32} {align' : Align}
    {lines' : List TextLine} (hrun : formatLoop x y w h font align fuel p pos = some (lines, e))
    (hrun' : formatLoop x' y' w h' font align' fuel p pos' = some (lines', e')) :
    lines.map (·.text) = lines'.map (·.text) := by
  induction fuel generalizing p pos pos' lines lines' e e' with
  | zero => exact nomatch hrun
  | succ fuel ih =>
      rw [formatLoop] at hrun hrun'
      by_cases hp : p.dropWhile isSpace = []
      · rw [if_pos hp] at hrun hrun'
        rw [← (Prod.mk.inj (Option.some.inj hrun)).1, ← (Prod.mk.inj (Option.some.inj hrun')).1]
      · rw [if_neg hp] at hrun hrun'
        obtain ⟨n, hn, hrun⟩ := Option.bind_eq_some_iff.mp hrun
        obtain ⟨n', hn', hrun'⟩ := Option.bind_eq_some_iff.mp hrun'
        obtain rfl : n = n' := Option.some.inj (hn.symm.trans hn')
        obtain ⟨drawn, -, hrun⟩ := Option.bind_eq_some_iff.mp hrun
        obtain ⟨drawn', -, hrun'⟩ := Option.bind_eq_some_iff.mp hrun'
        by_cases hlast : (p.dropWhile isSpace).drop n = []
        · rw [if_pos hlast] at hrun hrun'
          rw [← (Prod.mk.inj (Option.some.inj hrun)).1, ← (Prod.mk.inj (Option.some.inj hrun')).1]
          rfl
        · rw [if_neg hlast] at hrun hrun'
          obtain ⟨⟨rest, last⟩, hrest, hrun⟩ := Option.bind_eq_some_iff.mp hrun
          obtain ⟨⟨rest', last'⟩, hrest', hrun'⟩ := Option.bind_eq_some_iff.mp hrun'
          rw [← (Prod.mk.inj (Option.some.inj hrun)).1, ← (Prod.mk.inj (Option.some.inj hrun')).1,
            List.map_cons, List.map_cons, ih hrest hrest']

end Sunela.Text
