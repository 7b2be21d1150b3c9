import Mathlib.Algebra.Group.Nat.Defs
import Sunela.Model.Span
import Sunela.Verification.Span.Groups

/-! # Pulling groups of any size

With sums that wrap around, the loop can take a span for one that has a group. -/

namespace Sunela.Span

variable {s t : Spans} {d this : DbSpan} {e : UInt32}

/-- The span is within the blocks that an `int` can count. -/
def DbSpan.Fits (d : DbSpan) : Prop := d.start + d.len ≤ 2 ^ 31

def Spans.Fits (s : Spans) : Prop := ∀ d ∈ s.toList, d.Fits

theorem DbSpan.Fits.start (h : d.Fits) : d.word.start.toNat = d.start := by
  have hpos := d.pos
  simp only [DbSpan.Fits] at h
  exact UInt32.toNat_ofNat_of_lt' (by simp only [UInt32.size]; omega)

theorem DbSpan.Fits.len (h : d.Fits) : d.word.len.toNat = d.len := by
  simp only [DbSpan.Fits] at h
  exact UInt32.toNat_ofNat_of_lt' (by simp only [UInt32.size]; omega)

theorem DbSpan.Fits.stop (h : d.Fits) :
    (d.word.start + d.word.len).toNat = d.start + d.len := by
  rw [UInt32.toNat_add, h.start, h.len]
  simp only [DbSpan.Fits] at h
  omega

/-- The rounded start, unless the sum wraps around. -/
theorem roundUpWord_toNat (h : d.Fits) (he : 0 < e)
    (hlt : d.start + (e.toNat - 1) < 2 ^ 32) :
    (roundUpWord d.word.start e).toNat = roundUp d.start e.toNat := by
  have hpos : 1 ≤ e.toNat := UInt32.lt_iff_toNat_lt.mp he
  have hone : (e - 1).toNat = e.toNat - 1 :=
    UInt32.toNat_sub_of_le e 1 (UInt32.le_iff_toNat_le.mpr hpos)
  have hsum : (d.word.start + (e - 1)).toNat = d.start + (e.toNat - 1) := by
    rw [UInt32.toNat_add, hone, h.start, Nat.mod_eq_of_lt hlt]
  have hmod : (d.word.start + (e - 1)) % e ≤ d.word.start + (e - 1) := by
    rw [UInt32.le_iff_toNat_le, UInt32.toNat_mod]
    exact Nat.mod_le _ _
  rw [roundUpWord, UInt32.toNat_sub_of_le _ _ hmod, UInt32.toNat_mod, hsum, roundUp,
    Nat.add_sub_assoc hpos]

/-- A sum that wraps around is rounded down to 0, which no span can end behind. -/
theorem not_accepts_of_wraps (h : d.Fits) (hlt : 2 ^ 32 ≤ d.start + (e.toNat - 1)) :
    ¬ d.word.Accepts e := by
  have hfits := h
  simp only [DbSpan.Fits] at hfits
  have hpos := d.pos
  have hbound := e.toNat_lt
  have he : 1 ≤ e.toNat := by omega
  have hone : (e - 1).toNat = e.toNat - 1 :=
    UInt32.toNat_sub_of_le e 1 (UInt32.le_iff_toNat_le.mpr he)
  have hsum : (d.word.start + (e - 1)).toNat = d.start + (e.toNat - 1) - 2 ^ 32 := by
    rw [UInt32.toNat_add, hone, h.start]
    omega
  have hmod : (d.word.start + (e - 1)) % e = d.word.start + (e - 1) := by
    apply UInt32.toNat_inj.mp
    rw [UInt32.toNat_mod, Nat.mod_eq_of_lt (by omega)]
  rw [SpanWord.Accepts, roundUpWord, hmod, UInt32.sub_self, UInt32.zero_add,
    UInt32.le_iff_toNat_le, h.stop]
  omega

/-- A span that the loop takes has a group, or its group would end beyond all blocks. -/
theorem accepts_cases (h : d.Fits) (he : 0 < e) (ha : d.word.Accepts e) :
    (roundUpWord d.word.start e).toNat = roundUp d.start e.toNat ∧
      (d.HasGroup e.toNat ∨ 2 ^ 32 ≤ roundUp d.start e.toNat + e.toNat) := by
  by_cases hlt : d.start + (e.toNat - 1) < 2 ^ 32
  · have hround := roundUpWord_toNat h he hlt
    refine ⟨hround, ?_⟩
    by_cases hsum : roundUp d.start e.toNat + e.toNat < 2 ^ 32
    · rw [SpanWord.Accepts, UInt32.le_iff_toNat_le, UInt32.toNat_add, hround,
        Nat.mod_eq_of_lt hsum, h.stop] at ha
      exact .inl ha
    · exact .inr (Nat.le_of_not_lt hsum)
  · exact absurd ha (not_accepts_of_wraps h (Nat.le_of_not_lt hlt))

theorem hasGroup_accepts (h : d.Fits) (he : 0 < e) (hg : d.HasGroup e.toNat) :
    (roundUpWord d.word.start e).toNat = roundUp d.start e.toNat ∧ d.word.Accepts e := by
  have hpos : 0 < e.toNat := UInt32.lt_iff_toNat_lt.mp he
  have hle := le_roundUp d.start hpos
  have hlt := roundUp_lt d.start hpos
  have hfits := h
  simp only [DbSpan.Fits] at hfits
  simp only [DbSpan.HasGroup] at hg
  have hround := roundUpWord_toNat h he (by omega)
  refine ⟨hround, ?_⟩
  rw [SpanWord.Accepts, UInt32.le_iff_toNat_le, UInt32.toNat_add, hround, h.stop,
    Nat.mod_eq_of_lt (by omega)]
  exact hg

theorem eq_ofNat {w : UInt32} {n : ℕ} (h : w.toNat = n) : w = UInt32.ofNat n := by
  rw [← h, UInt32.ofNat_toNat]

/-- A span with more than one group is cut as if nothing could wrap around. -/
theorem takeGroupWord_words {next : Spans} (h : d.Fits) (he : 0 < e) (hpos : 0 < e.toNat)
    (hg : d.HasGroup e.toNat) :
    takeGroupWord d.word next.words e = (takeGroup d next e.toNat hpos hg).words := by
  obtain ⟨hround, -⟩ := hasGroup_accepts h he hg
  have hle := le_roundUp d.start hpos
  have hfits := h
  have hstop := h.stop
  simp only [DbSpan.Fits] at hfits
  simp only [DbSpan.HasGroup] at hg
  have hfirst : roundUpWord d.word.start e = d.word.start ↔ roundUp d.start e.toNat = d.start := by
    rw [← UInt32.toNat_inj, hround, h.start]
  have hsum : (roundUpWord d.word.start e + e).toNat = roundUp d.start e.toNat + e.toNat := by
    rw [UInt32.toNat_add, hround, Nat.mod_eq_of_lt (by omega)]
  have hshort : e ≤ d.word.len := by
    rw [UInt32.le_iff_toNat_le, h.len]
    omega
  have hless : (d.word.len - e).toNat = d.len - e.toNat := by
    rw [UInt32.toNat_sub_of_le _ _ hshort, h.len]
  unfold takeGroupWord takeGroup
  by_cases hf : roundUp d.start e.toNat = d.start
  · by_cases hl : d.len = e.toNat
    · have hlen : d.word.len = e := UInt32.toNat_inj.mp (h.len.trans hl)
      rw [if_pos (hfirst.mpr hf), if_pos hlen, dif_pos hf, dif_pos hl]
      rfl
    · have hlen : d.word.len ≠ e := fun heq => hl (h.len.symm.trans (congrArg UInt32.toNat heq))
      have hstart : (d.word.start + e).toNat = d.start + e.toNat := by
        rw [UInt32.toNat_add, h.start, Nat.mod_eq_of_lt (by omega)]
      rw [if_pos (hfirst.mpr hf), if_neg hlen, dif_pos hf, dif_neg hl, eq_ofNat hstart,
        eq_ofNat hless]
      rfl
  · have hlast : d.word.start + d.word.len = roundUpWord d.word.start e + e ↔
        d.start + d.len = roundUp d.start e.toNat + e.toNat := by
      rw [← UInt32.toNat_inj, hstop, hsum]
    rw [if_neg (mt hfirst.mp hf), dif_neg hf]
    by_cases hl : d.start + d.len = roundUp d.start e.toNat + e.toNat
    · rw [if_pos (hlast.mpr hl), dif_pos hl, eq_ofNat hless]
      rfl
    · have hfront : (roundUpWord d.word.start e - d.word.start).toNat =
          roundUp d.start e.toNat - d.start := by
        rw [UInt32.toNat_sub_of_le _ _ (by rw [UInt32.le_iff_toNat_le, hround, h.start]; exact hle),
          hround, h.start]
      have hmid : (d.word.start + d.word.len - roundUpWord d.word.start e).toNat =
          d.start + d.len - roundUp d.start e.toNat := by
        rw [UInt32.toNat_sub_of_le _ _ (by rw [UInt32.le_iff_toNat_le, hround, hstop]; omega),
          hround, hstop]
      have hback : (d.word.start + d.word.len - roundUpWord d.word.start e - e).toNat =
          d.start + d.len - roundUp d.start e.toNat - e.toNat := by
        rw [UInt32.toNat_sub_of_le _ _ (by rw [UInt32.le_iff_toNat_le, hmid]; omega), hmid]
      rw [if_neg (mt hlast.mp hl), dif_neg hl, eq_ofNat hfront, eq_ofNat hsum, eq_ofNat hback]
      rfl

/-! ## The list -/

/-- The first span that the loop takes has a group, and holds more than that. -/
def Spans.Served (e : UInt32) : Spans → Prop
  | .null => True
  | .node this next =>
      if this.word.Accepts e then this.HasGroup e.toNat ∧ ¬ this.IsGroup e.toNat
      else next.Served e
  | .freed => True

instance Spans.decidableServed (e : UInt32) : (s : Spans) → Decidable (s.Served e)
  | .null => isTrue trivial
  | .node _ next =>
      have := decidableServed e next
      inferInstanceAs (Decidable (ite _ _ _))
  | .freed => isTrue trivial

/-- What the caller may rely on after a call. -/
inductive Spans.Outcome (s : Spans) (e : ℕ) : ℤ → SpanWords → Prop where
  | group {n : ℕ} {t : Spans} (held : ∃ d ∈ s.toList, d.Holds n e) (intact : t.Intact)
      (disjoint : t.Disjoint) (fits : t.Fits)
      (left : ∀ b, b ∈ t.blocks ↔ b ∈ s.blocks ∧ (b < n ∨ n + e ≤ b)) : s.Outcome e n t.words
  | none (h : ∀ d ∈ s.toList, ∀ n, ¬ d.Holds n e) : s.Outcome e (-1) s.words

def SpanWords.Intact : SpanWords → Prop
  | .null => True
  | .node _ next => next.Intact
  | .freed => False

theorem words_intact (h : s.Intact) : s.words.Intact := by
  induction s with
  | null => trivial
  | freed => exact h
  | node this next ih => exact ih h

theorem asInt_ofNat {n : ℕ} (h : n < 2 ^ 31) {w : UInt32} (hw : w.toNat = n) : asInt w = n := by
  rw [asInt, BitVec.toInt_eq_toNat_of_lt]
  · exact congrArg Int.ofNat hw
  · have : w.toBitVec.toNat = n := hw
    omega

/-- The machine's call is the one on natural numbers. -/
theorem spanPullEraseBlockWord_words (hf : s.Fits) (he : 0 < e) (hpos : 0 < e.toNat)
    (hs : s.Served e) : s.Spared e.toNat ∧
      spanPullEraseBlockWord s.words e = (spanPullEraseBlock s e.toNat hpos).map fun r =>
        (match r.1 with
          | none => -1
          | some n => (n : ℤ), r.2.words) := by
  induction s with
  | null => exact ⟨trivial, rfl⟩
  | freed => exact ⟨trivial, rfl⟩
  | node this next ih =>
      have hthis : this.Fits := hf this List.mem_cons_self
      have hnext : next.Fits := fun d hd => hf d (List.mem_cons_of_mem _ hd)
      by_cases ha : this.word.Accepts e
      · rw [Spans.Served, if_pos ha] at hs
        obtain ⟨hg, hmore⟩ := hs
        obtain ⟨hround, -⟩ := hasGroup_accepts hthis he hg
        have hlt : roundUp this.start e.toNat < 2 ^ 31 := by
          simp only [DbSpan.Fits] at hthis
          simp only [DbSpan.HasGroup] at hg
          omega
        rw [Spans.Spared, if_pos hg]
        refine ⟨hmore, ?_⟩
        rw [Spans.words, spanPullEraseBlockWord, if_pos ha, spanPullEraseBlock, dif_pos hg,
          takeGroupWord_words hthis he hpos hg, asInt_ofNat hlt hround]
        rfl
      · have hg : ¬ this.HasGroup e.toNat := fun hg => ha (hasGroup_accepts hthis he hg).2
        rw [Spans.Served, if_neg ha] at hs
        obtain ⟨hspared, heq⟩ := ih hnext hs
        rw [Spans.Spared, if_neg hg]
        refine ⟨hspared, ?_⟩
        rw [Spans.words, spanPullEraseBlockWord, if_neg ha, spanPullEraseBlock, dif_neg hg, heq,
          Option.map_map, Option.map_map]
        rfl

theorem Spans.Pulled.fits {n k : ℕ} (h : s.Pulled n k t) (hf : s.Fits) : t.Fits := by
  obtain ⟨l, this, r, pieces, hs, ht, -, hcut⟩ := h.parts
  intro d hd
  rw [ht] at hd
  rw [Spans.Fits, hs] at hf
  rcases List.mem_append.mp hd with hd | hd
  · rcases List.mem_append.mp hd with hd | hd
    · exact hf d (by simp [hd])
    · have hthis := hf this (by simp)
      have hw := (hcut.within d hd).2
      simp only [DbSpan.Fits] at hthis ⊢
      omega
  · exact hf d (by simp [hd])

theorem node_ne_self (d : SpanWord) (l : SpanWords) : SpanWords.node d l ≠ l := by
  intro h
  have hsize := congrArg sizeOf h
  simp only [SpanWords.node.sizeOf_spec] at hsize
  omega

/-- Taking a group always changes the list. -/
theorem takeGroupWord_ne (this : SpanWord) (next : SpanWords) (he : 0 < e) :
    takeGroupWord this next e ≠ .node this next := by
  have hpos : 0 < e.toNat := UInt32.lt_iff_toNat_lt.mp he
  have hbound := e.toNat_lt
  have hshrunk : ∀ {start : UInt32}, SpanWord.mk start (this.len - e) ≠ this := by
    intro start h
    have hlen := congrArg (fun d => d.len.toNat) h
    have hlt := this.len.toNat_lt
    simp only [UInt32.toNat_sub] at hlen
    omega
  simp only [takeGroupWord]
  split
  · split
    · nofun
    · intro h
      exact hshrunk (SpanWords.node.inj h).1
  · split
    · intro h
      exact hshrunk (SpanWords.node.inj h).1
    · intro h
      exact node_ne_self _ _ (SpanWords.node.inj h).2

/-- What goes wrong if the first span that the loop takes has no group or is one: the list ends at
freed memory, or the result is a group that ends beyond all blocks. -/
theorem spanPullEraseBlockWord_fails (hf : s.Fits) (he : 0 < e) (hs : ¬ s.Served e) :
    ∃ r t, spanPullEraseBlockWord s.words e = some (r, t) ∧ t ≠ s.words ∧
      (¬ t.Intact ∨ ∃ w : UInt32, r = asInt w ∧ 2 ^ 32 ≤ w.toNat + e.toNat) := by
  have hpos : 0 < e.toNat := UInt32.lt_iff_toNat_lt.mp he
  induction s with
  | null => exact absurd trivial hs
  | freed => exact absurd trivial hs
  | node this next ih =>
      have hthis : this.Fits := hf this List.mem_cons_self
      have hnext : next.Fits := fun d hd => hf d (List.mem_cons_of_mem _ hd)
      by_cases ha : this.word.Accepts e
      · rw [Spans.Served, if_pos ha] at hs
        obtain ⟨hround, hcase⟩ := accepts_cases hthis he ha
        refine ⟨_, _, by rw [Spans.words, spanPullEraseBlockWord, if_pos ha],
          takeGroupWord_ne _ _ he, ?_⟩
        rcases hcase with hg | hwrap
        · have hone : this.IsGroup e.toNat := by
            by_contra hmore
            exact hs ⟨hg, hmore⟩
          left
          rw [takeGroupWord_words hthis he hpos hg, takeGroup_group hpos hg hone]
          exact not_false
        · right
          exact ⟨_, rfl, by rw [hround]; exact hwrap⟩
      · rw [Spans.Served, if_neg ha] at hs
        obtain ⟨r, t, hpull, hne, hcase⟩ := ih hnext hs
        refine ⟨r, .node this.word t, by rw [Spans.words, spanPullEraseBlockWord, if_neg ha, hpull]; rfl,
          fun h => hne (SpanWords.node.inj h).2, hcase⟩

/-- Pulling a group takes just that out of the list, or leaves a list without groups as it is,
exactly if the first span that the loop takes has a group and more. -/
theorem spanPullEraseBlockWord_outcome (hi : s.Intact) (hd : s.Disjoint) (hf : s.Fits)
    (he : 0 < e) :
    (∃ r t, spanPullEraseBlockWord s.words e = some (r, t) ∧ s.Outcome e.toNat r t) ↔
      s.Served e := by
  have hpos : 0 < e.toNat := UInt32.lt_iff_toNat_lt.mp he
  constructor
  · rintro ⟨r, t, hpull, hout⟩
    by_contra hs
    obtain ⟨r', t', hpull', hne, hcase⟩ := spanPullEraseBlockWord_fails hf he hs
    obtain ⟨rfl, rfl⟩ := Prod.mk.inj (Option.some.inj (hpull'.symm.trans hpull))
    generalize hr : r' = r at hout
    cases hout with
    | @group n t held intact disjoint fits left =>
        rcases hcase with hbroken | ⟨w, rfl, hwrap⟩
        · exact hbroken (words_intact intact)
        · obtain ⟨d, hdm, hholds⟩ := held
          have hfits := hf d hdm
          have hstop := hholds.stop
          simp only [DbSpan.Fits] at hfits
          have hw : w.toNat = n := by
            have hint := BitVec.toInt_eq_toNat_cond w.toBitVec
            rw [show w.toBitVec.toInt = (n : ℤ) from hr] at hint
            have hnat : w.toBitVec.toNat = w.toNat := rfl
            have hlt := w.toNat_lt
            split at hint
            · omega
            · omega
          omega
    | none h => exact hne rfl
  · intro hs
    obtain ⟨hspared, heq⟩ := spanPullEraseBlockWord_words hf he hpos hs
    rw [heq]
    rcases spanPullEraseBlock_pulled hpos hi hspared with ⟨hnone, hpull⟩ | ⟨n, t, hpull, hp⟩
    · refine ⟨_, _, by rw [hpull]; rfl, .none fun d hdm n hholds => ?_⟩
      exact hnone d hdm (hholds.hasGroup hpos)
    · obtain ⟨l, this, r, pieces, hl, -, hholds, -⟩ := hp.parts
      exact ⟨_, _, by rw [hpull]; rfl, .group ⟨this, by simp [hl], hholds⟩ hp.intact
        (hp.disjoint hd) (hp.fits hf) fun b => hp.left hi hd⟩

theorem spanPullEraseBlockWord_outcome_split : ∃ s : Spans, s.blocks = [3, 4, 5, 6, 7, 8] ∧
    ∃ r t, spanPullEraseBlockWord s.words 4 = some (r, t) ∧ s.Outcome 4 r t := by
  let s : Spans := .node ⟨3, 6, by decide⟩ .null
  have hi : s.Intact := trivial
  have hd : s.Disjoint := List.pairwise_singleton _ _
  have hf : s.Fits := by simp [s, Spans.Fits, Spans.toList, DbSpan.Fits]
  exact ⟨s, by decide, (spanPullEraseBlockWord_outcome (e := 4) hi hd hf (by decide)).mpr
    (by decide)⟩

/-- A span that is just the group leaves a link to freed memory. -/
theorem spanPullEraseBlockWord_frees : ¬ ∀ (s : Spans) (e : UInt32),
    s.Intact → s.Disjoint → s.Fits → 0 < e →
    ∃ r t, spanPullEraseBlockWord s.words e = some (r, t) ∧ s.Outcome e.toNat r t := by
  intro h
  obtain ⟨r, t, hpull, hout⟩ := h (.node ⟨4, 4, by decide⟩ .null) 4 trivial
    (List.pairwise_singleton _ _) (by simp [Spans.Fits, Spans.toList, DbSpan.Fits]) (by decide)
  have heq : spanPullEraseBlockWord (Spans.node ⟨4, 4, by decide⟩ .null).words 4 =
      some (4, .freed) := by decide
  obtain ⟨rfl, rfl⟩ := Prod.mk.inj (Option.some.inj (heq.symm.trans hpull))
  generalize ht : SpanWords.freed = t at hout
  cases hout with
  | group held intact disjoint fits left => exact (ht ▸ words_intact intact : SpanWords.freed.Intact)

end Sunela.Span
