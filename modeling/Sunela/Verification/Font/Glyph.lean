import Sunela.Verification.Font.Codes

/-! # What the converter makes of a glyph

The pixels of a glyph are taken row by row, and the runs and the codes stand for just these. -/

namespace Sunela.Cvtfont

open Text

/-! ## Pixels -/

/-- The pixel of a glyph in a column and a row. -/
def Glyph.pixel (g : Glyph) (x y : ℕ) : Bool :=
  patched g.patch x y (((g.lines.getD y []).getD (x / 8) 0).toNat.testBit (7 - x % 8))

theorem filterMap_ite {α β : Type} (p : α → Prop) [DecidablePred p] (f : α → β) (l : List α) :
    (l.filterMap fun a => if p a then none else some (f a)) =
      (l.filter fun a => ¬ p a).map f := by
  induction l with
  | nil => rfl
  | cons a l ih =>
      by_cases hp : p a
      · simp [hp, ih]
      · simp [hp, ih]

theorem range_filter_lt {w n : ℕ} (h : w ≤ n) :
    (List.range n).filter (fun x => ¬ x ≥ w) = List.range w := by
  obtain ⟨k, rfl⟩ := Nat.exists_eq_add_of_le h
  rw [List.range_add, List.filter_append]
  have hall : (List.range w).filter (fun x => ¬ x ≥ w) = List.range w := by
    apply List.filter_eq_self.mpr
    intro x hx
    simpa using hx
  have hnone : ((List.range k).map (w + ·)).filter (fun x => ¬ x ≥ w) = [] := by
    apply List.filter_eq_nil_iff.mpr
    intro x hx
    obtain ⟨i, -, rfl⟩ := List.mem_map.mp hx
    simp
  rw [hall, hnone, List.append_nil]

/-- The bits of a byte are the pixels of eight columns. -/
theorem byte_pixels (w i : ℕ) (f : ℕ → Bool → Bool) (v : UInt8) :
    ((List.range 8).filterMap fun j =>
      if i * 8 + j ≥ w then none else some (f (i * 8 + j) (v.toNat.testBit (7 - j)))) =
      ((List.range' (8 * i) 8).filter fun x => ¬ x ≥ w).map fun x =>
        f x (v.toNat.testBit (7 - x % 8)) := by
  rw [filterMap_ite, List.range'_eq_map_range, List.filter_map, List.map_map]
  have hfilter : (List.range 8).filter ((fun x => decide ¬ x ≥ w) ∘ (8 * i + ·)) =
      (List.range 8).filter fun j => ¬ i * 8 + j ≥ w := by
    congr 1
    funext j
    simp only [Function.comp_apply, Nat.mul_comm]
  rw [hfilter]
  apply List.map_congr_left
  intro j hj
  have hlt : j < 8 := List.mem_range.mp (List.mem_filter.mp hj).1
  simp only [Function.comp_apply]
  rw [Nat.mul_comm i 8, show (8 * i + j) % 8 = j by omega]

theorem zipIdx_pixels (w s : ℕ) (f : ℕ → Bool → Bool) (line : Bytes) :
    ((line.zipIdx s).flatMap fun (v, i) => (List.range 8).filterMap fun j =>
      if i * 8 + j ≥ w then none else some (f (i * 8 + j) (v.toNat.testBit (7 - j)))) =
      ((List.range' (8 * s) (8 * line.length)).filter fun x => ¬ x ≥ w).map fun x =>
        f x ((line.getD (x / 8 - s) 0).toNat.testBit (7 - x % 8)) := by
  induction line generalizing s with
  | nil => rfl
  | cons v line ih =>
      have hlen : 8 * (v :: line).length = 8 + 8 * line.length := by
        rw [List.length_cons]
        omega
      have hrange : List.range' (8 * s) (8 + 8 * line.length) =
          List.range' (8 * s) 8 ++ List.range' (8 * (s + 1)) (8 * line.length) := by
        rw [← List.range'_append_1]
        rfl
      rw [List.zipIdx_cons, List.flatMap_cons, ih (s + 1)]
      have hbyte := byte_pixels w s f v
      rw [hlen, hrange, List.filter_append, List.map_append]
      refine congrArg₂ (· ++ ·) (hbyte.trans ?_) ?_
      · apply List.map_congr_left
        intro x hx
        have hmem := List.mem_range'_1.mp (List.mem_filter.mp hx).1
        rw [show x / 8 - s = 0 by omega]
        rfl
      · apply List.map_congr_left
        intro x hx
        have hmem := List.mem_range'_1.mp (List.mem_filter.mp hx).1
        rw [show x / 8 - s = x / 8 - (s + 1) + 1 by omega]
        rfl

theorem linePixels_eq {w y : ℕ} {patch : List (ℕ × ℕ)} {line : Bytes}
    (h : w ≤ 8 * line.length) :
    linePixels w patch y line = (List.range w).map fun x =>
      patched patch x y ((line.getD (x / 8) 0).toNat.testBit (7 - x % 8)) := by
  have hz := zipIdx_pixels w 0 (fun x => patched patch x y) line
  rw [Nat.mul_zero, ← List.range_eq_range', range_filter_lt h] at hz
  exact hz

theorem lines_pixels {w s : ℕ} {patch : List (ℕ × ℕ)} {lines : List Bytes}
    (h : ∀ line ∈ lines, w ≤ 8 * line.length) :
    ((lines.zipIdx s).flatMap fun (line, y) => linePixels w patch y line) =
      (List.range' s lines.length).flatMap fun y => (List.range w).map fun x =>
        patched patch x y
          (((lines.getD (y - s) []).getD (x / 8) 0).toNat.testBit (7 - x % 8)) := by
  induction lines generalizing s with
  | nil => rfl
  | cons line lines ih =>
      have hline := @linePixels_eq w s patch line (h line (by simp))
      rw [List.zipIdx_cons, List.flatMap_cons, List.length_cons, List.range'_succ,
        List.flatMap_cons, ih fun line hl => h line (by simp [hl])]
      refine congrArg₂ (· ++ ·) (hline.trans ?_) ?_
      · simp
      · rw [List.flatMap_def, List.flatMap_def]
        congr 1
        apply List.map_congr_left
        intro y hy
        have hmem := List.mem_range'_1.mp hy
        rw [show y - s = y - (s + 1) + 1 by omega]
        rfl

theorem rows_flatMap {w : ℕ} (h : ℕ) (f : ℕ → ℕ → Bool) :
    ((List.range h).flatMap fun y => (List.range w).map fun x => f x y) =
      (List.range (w * h)).map fun j => f (j % w) (j / w) := by
  induction h with
  | zero => simp
  | succ h ih =>
      rw [List.range_succ, List.flatMap_append, ih, Nat.mul_succ, List.range_add,
        List.map_append, List.map_map]
      congr 1
      rw [List.flatMap_singleton]
      apply List.map_congr_left
      intro x hx
      have hlt : x < w := List.mem_range.mp hx
      simp only [Function.comp_apply]
      rw [Nat.mul_add_mod, Nat.mod_eq_of_lt hlt, Nat.mul_add_div (by omega),
        Nat.div_eq_of_lt hlt, Nat.add_zero]

/-- The pixels are those of the rows, from the top to the bottom. -/
theorem Glyph.pixels_eq (g : Glyph) :
    g.pixels = (List.range (g.w * g.h)).map fun j => g.pixel (j % g.w) (j / g.w) := by
  have h := @lines_pixels g.w 0 g.patch g.lines fun line hl => (g.line_length line hl).2
  rw [g.lines_length, ← List.range_eq_range'] at h
  rw [← rows_flatMap g.h g.pixel]
  exact h

/-! ## Runs -/

/-- The pixels that runs stand for. -/
def expand (spans : List (Bool × ℕ)) : List Bool := spans.flatMap fun s => List.replicate s.2 s.1

theorem expand_cons (s : Bool × ℕ) (spans : List (Bool × ℕ)) :
    expand (s :: spans) = List.replicate s.2 s.1 ++ expand spans := List.flatMap_cons

theorem expand_pixels (pixels : List Bool) : expand (pixels.map fun b => (b, 1)) = pixels := by
  induction pixels with
  | nil => rfl
  | cons b pixels ih => rw [List.map_cons, expand_cons, ih]; rfl

/-- The runs of a list of pixels after `n` pixels of the colour `last`. -/
def runsOf (last : Bool) (n : ℕ) : List Bool → List ℕ
  | [] => [n]
  | this :: pixels =>
      if this = last then runsOf last (n + 1) pixels else n :: runsOf (!last) 1 pixels

theorem foldl_add (pixels : List Bool) {n : ℕ} {data : List ℕ} {best : List Bool} {last : Bool} :
    (pixels.foldl Runs.add ⟨n :: data, best, last⟩).data.reverse =
        data.reverse ++ runsOf last n pixels ∧
      (pixels.foldl Runs.add ⟨n :: data, best, last⟩).best.reverse = best.reverse ++ pixels := by
  induction pixels generalizing n data best last with
  | nil => simp [runsOf]
  | cons this pixels ih =>
      by_cases hthis : this = last
      · subst hthis
        simp only [List.foldl_cons, Runs.add, if_true, runsOf]
        obtain ⟨hdata, hbest⟩ := @ih (n + 1) data (this :: best) this
        rw [hdata, hbest]
        simp
      · have hnot : (!last) = this := by
          cases last <;> cases this <;> simp_all
        simp only [List.foldl_cons, Runs.add, hthis, if_false, runsOf, hnot]
        obtain ⟨hdata, hbest⟩ := @ih 1 (n :: data) (this :: best) this
        rw [hdata, hbest]
        simp

theorem expand_runsOf (last : Bool) (n : ℕ) (pixels : List Bool) :
    expand (alternate last (runsOf last n pixels)) = List.replicate n last ++ pixels := by
  induction pixels generalizing last n with
  | nil => simp [runsOf, alternate, expand]
  | cons this pixels ih =>
      by_cases hthis : this = last
      · subst hthis
        simp only [runsOf, if_true, ih, List.replicate_succ', List.append_assoc,
          List.singleton_append]
      · have hnot : (!last) = this := by
          cases last <;> cases this <;> simp_all
        simp only [runsOf, hthis, if_false, alternate, expand_cons, ih]
        rw [hnot]
        rfl

theorem runsOf_pos {last : Bool} {n : ℕ} {pixels : List Bool} (hn : 0 < n) :
    ∀ m ∈ runsOf last n pixels, 0 < m ∧ m ≤ n + pixels.length := by
  induction pixels generalizing last n with
  | nil =>
      intro m hm
      obtain rfl : m = n := by simpa [runsOf] using hm
      exact ⟨hn, Nat.le_add_right _ _⟩
  | cons this pixels ih =>
      intro m hm
      simp only [runsOf] at hm
      split at hm
      · obtain ⟨hpos, hle⟩ := ih (Nat.succ_pos n) m hm
        exact ⟨hpos, by simp only [List.length_cons]; omega⟩
      · rcases List.mem_cons.mp hm with rfl | hm
        · exact ⟨hn, Nat.le_add_right _ _⟩
        · obtain ⟨hpos, hle⟩ := ih Nat.one_pos m hm
          exact ⟨hpos, by simp only [List.length_cons]; omega⟩

theorem alternate_pos {on : Bool} {data : List ℕ} (h : ∀ n ∈ data, 0 < n) :
    ∀ s ∈ alternate on data, 0 < s.2 := by
  induction data generalizing on with
  | nil => simp [alternate]
  | cons n data ih =>
      intro s hs
      rcases List.mem_cons.mp hs with rfl | hs
      · exact h n (by simp)
      · exact ih (fun m hm => h m (by simp [hm])) s hs

/-! ## Codes -/

theorem splitSpan_fit {bits : ℕ} (n span : ℕ) : ∀ c ∈ splitSpan bits n span, c < 2 ^ bits := by
  have hpos : 0 < 2 ^ bits := Nat.two_pow_pos bits
  induction n generalizing span with
  | zero => simp [splitSpan]
  | succ n ih =>
      intro c hc
      simp only [splitSpan] at hc
      split at hc
      · rcases List.mem_cons.mp hc with rfl | hc
        · omega
        · exact ih _ c hc
      · obtain rfl : c = span - 1 := by simpa using hc
        omega

/-- The codes that are chosen are the pixels, or the runs with some number of bits. -/
theorem bestCodes_cases (data : List ℕ) (pixels : List Bool) :
    bestCodes data pixels = (1, pixels.map Bool.toNat) ∨
      ∃ bits, 2 ≤ bits ∧ bits ≤ 7 ∧ bestCodes data pixels = (bits, spanCodes bits data) := by
  have hfold : ∀ l : List ℕ, (∀ b ∈ l, 2 ≤ b ∧ b ≤ 7) → ∀ best : ℕ × List ℕ,
      l.foldl (better data) best = best ∨
        ∃ bits, 2 ≤ bits ∧ bits ≤ 7 ∧ l.foldl (better data) best = (bits, spanCodes bits data) := by
    intro l
    induction l with
    | nil => exact fun _ best => .inl rfl
    | cons b l ih =>
        intro hl best
        have hb := hl b (by simp)
        rw [List.foldl_cons]
        rcases ih (fun c hc => hl c (by simp [hc])) (better data best b) with hsame | hbits
        · rw [hsame]
          by_cases hlt : (spanCodes b data).length * b < best.2.length * best.1
          · exact .inr ⟨b, hb.1, hb.2, by simp [better, hlt]⟩
          · exact .inl (by simp [better, hlt])
        · exact .inr hbits
  exact hfold [2, 3, 4, 5, 6, 7] (by decide) _

theorem Glyph.pixels_length (g : Glyph) : g.pixels.length = g.w * g.h := by
  simp [g.pixels_eq]

/-- The first pixel starts the first run, unless it is patched. -/
theorem Glyph.pixels_head {g : Glyph} (hw : 0 < g.w) (hh : 0 < g.h)
    (hpatch : (0, 0) ∉ g.patch) : ∃ rest, g.pixels = g.start :: rest := by
  have hsame : ∀ l : List (ℕ × ℕ), (0, 0) ∉ l → ∀ b, patched l 0 0 b = b := by
    intro l
    induction l with
    | nil => exact fun _ _ => rfl
    | cons p l ih =>
        intro hl b
        simp only [List.mem_cons, not_or] at hl
        have hp : ¬ p = (0, 0) := fun h => hl.1 h.symm
        simp only [patched, List.foldl_cons, hp, if_false]
        exact ih hl.2 b
  have hstart : g.pixel 0 0 = g.start := by
    rw [Glyph.pixel, hsame _ hpatch, Glyph.start]
    cases hlines : g.lines with
    | nil =>
        have := g.lines_length
        rw [hlines] at this
        simp at this
        omega
    | cons line lines =>
        cases line with
        | nil => exact absurd rfl (g.line_length [] (by rw [hlines]; simp)).1
        | cons v line => rfl
  obtain ⟨k, hk⟩ : ∃ k, g.w * g.h = k + 1 :=
    ⟨g.w * g.h - 1, (Nat.sub_add_cancel (Nat.mul_pos hw hh)).symm⟩
  rw [g.pixels_eq, hk, List.range_succ_eq_map, List.map_cons, Nat.zero_mod, Nat.zero_div, hstart]
  exact ⟨_, rfl⟩

/-- The main loop gets the pixels of the glyph. -/
theorem character_supplies {g : Glyph} (hw : 0 < g.w) (hh : 0 < g.h)
    (hpatch : (0, 0) ∉ g.patch) (hsize : g.w * g.h < 2 ^ 16 - 1) :
    (character g).bits ≠ 0 ∧ ∃ spans, (∀ s ∈ spans, 0 < s.2) ∧ expand spans = g.pixels ∧
      Supplies (character g).bits (character g).start ⟨(character g).data, 0, 0⟩ spans := by
  have hlines : g.lines ≠ [] := by
    rintro hnil
    have hlen := g.lines_length
    rw [hnil] at hlen
    exact absurd hlen (by simpa using hh.ne)
  obtain ⟨rest, hpixels⟩ := Glyph.pixels_head hw hh hpatch
  obtain ⟨hdata, hbest⟩ := @foldl_add g.pixels 0 [] [] g.start
  have hruns : g.runs.data.reverse = runsOf g.start 1 rest := by
    have hdata' : g.runs.data.reverse = runsOf g.start 0 g.pixels := hdata
    rw [hdata', hpixels, runsOf, if_pos rfl]
  have hpix : g.runs.best.reverse = g.pixels := hbest
  have hlen : rest.length + 1 = g.w * g.h := by
    rw [← g.pixels_length, hpixels, List.length_cons]
  have hspans : ∀ n ∈ runsOf g.start 1 rest, 0 < n ∧ n < 2 ^ 16 - 1 := by
    intro n hn
    obtain ⟨hpos, hle⟩ := runsOf_pos Nat.one_pos n hn
    exact ⟨hpos, by omega⟩
  obtain ⟨hb, hs, hd⟩ : (character g).bits =
        Int8.ofNat (bestCodes (runsOf g.start 1 rest) g.pixels).1 ∧
      (character g).start = g.start ∧
      (character g).data = (packLoop (bestCodes (runsOf g.start 1 rest) g.pixels).1 0 0
        (bestCodes (runsOf g.start 1 rest) g.pixels).2).map UInt8.ofNat := by
    simp [character, hlines, hruns, hpix]
  rw [hb, hs, hd]
  rcases bestCodes_cases (runsOf g.start 1 rest) g.pixels with hbits | ⟨bits, hlo, hhi, hbits⟩
  · rw [hbits]
    have hfit : ∀ c ∈ g.pixels.map Bool.toNat, c < 2 ^ 1 := by
      intro c hc
      obtain ⟨b, -, rfl⟩ := List.mem_map.mp hc
      cases b <;> decide
    have hpos : ∀ s ∈ g.pixels.map fun b => (b, 1), 0 < s.2 := by
      intro s hs
      obtain ⟨b, -, rfl⟩ := List.mem_map.mp hs
      exact Nat.one_pos
    have hsupplies := @supplies_pixels _ g.start _ (holds_packLoop (by decide) hfit)
    have hone : Int8.ofNat 1 ≠ 0 := by decide
    exact ⟨hone, _, hpos, expand_pixels g.pixels, hsupplies⟩
  · rw [hbits]
    have hfit : ∀ c ∈ spanCodes bits (runsOf g.start 1 rest), c < 2 ^ bits := by
      intro c hc
      obtain ⟨span, -, hc⟩ := List.mem_flatMap.mp hc
      exact splitSpan_fit _ _ c hc
    have hexpand : expand (alternate g.start (runsOf g.start 1 rest)) = g.pixels := by
      rw [expand_runsOf, hpixels]
      rfl
    have hsupplies := @supplies_spans _ _ g.start _ hlo hhi hspans
      (holds_packLoop (by omega) hfit)
    exact ⟨(int8_bits hlo hhi).2.2, _, alternate_pos fun n hn => (hspans n hn).1, hexpand,
      hsupplies⟩

end Sunela.Cvtfont
