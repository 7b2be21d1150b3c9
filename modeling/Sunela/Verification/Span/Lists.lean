import Mathlib.Data.List.Nodup
import Sunela.Verification.Span.Blocks

/-! # Span lists as lists

A span list that can be followed is a list of ranges. Adding to it either extends one of them,
or appends a new one, or loses what follows. -/

namespace Sunela.Span

variable {s t : Spans} {d d' this : DbSpan} {n size e b : ℕ} {hs : 0 < size} {he : 0 < e}

/-- Every block of the first span belongs to the second. -/
def DbSpan.Within (d d' : DbSpan) : Prop :=
  d'.start ≤ d.start ∧ d.start + d.len ≤ d'.start + d'.len

/-- The spans have no block in common. -/
def DbSpan.Apart (d d' : DbSpan) : Prop :=
  d.start + d.len ≤ d'.start ∨ d'.start + d'.len ≤ d.start

/-- No two spans of the list have a block in common. -/
def Spans.Disjoint (s : Spans) : Prop := s.toList.Pairwise DbSpan.Apart

/-- None of the blocks is in the list. -/
def Spans.Misses (n size : ℕ) (s : Spans) : Prop :=
  ∀ d ∈ s.toList, d.start + d.len ≤ n ∨ n + size ≤ d.start

theorem blocks_eq (h : s.Intact) :
    s.blocks = s.toList.flatMap fun d => List.range' d.start d.len := by
  induction s with
  | null => rfl
  | freed => exact h.elim
  | node this next ih => rw [Spans.blocks, Spans.toList, List.flatMap_cons, ih h]

theorem mem_blocks (h : s.Intact) :
    b ∈ s.blocks ↔ ∃ d ∈ s.toList, d.start ≤ b ∧ b < d.start + d.len := by
  rw [blocks_eq h, List.mem_flatMap]
  simp only [List.mem_range'_1]

theorem apart_iff :
    d.Apart d' ↔ (List.range' d.start d.len).Disjoint (List.range' d'.start d'.len) := by
  have hd := d.pos
  have hd' := d'.pos
  simp only [List.Disjoint, List.mem_range'_1]
  constructor
  · rintro (h | h) b h1 h2 <;> omega
  · intro h
    by_contra hna
    simp only [DbSpan.Apart] at hna
    rcases Nat.le_total d.start d'.start with hle | hle
    · exact h (a := d'.start) (by omega) (by omega)
    · exact h (a := d.start) (by omega) (by omega)

/-- The spans of a list are disjoint exactly if no block is in it twice. -/
theorem disjoint_iff (h : s.Intact) : s.Disjoint ↔ s.blocks.Nodup := by
  rw [blocks_eq h, List.nodup_flatMap]
  constructor
  · intro hd
    exact ⟨fun d _ => List.nodup_range', hd.imp fun h => apart_iff.mp h⟩
  · rintro ⟨-, hd⟩
    exact hd.imp fun h => apart_iff.mpr h

/-! ## Adding blocks -/

/-- A list where a span is extended, and joined with the next one if that begins where the new
blocks end. -/
inductive Extended (n size : ℕ) : List DbSpan → List DbSpan → Prop where
  | grown {l r : List DbSpan} {this new : DbSpan} (first : ∀ d ∈ l, d.start + d.len ≠ n)
      (stop : this.start + this.len = n) (start : new.start = this.start)
      (len : new.len = this.len + size)
      (apart : ∀ next ∈ r.head?, next.start ≠ n + size) :
      Extended n size (l ++ this :: r) (l ++ new :: r)
  | joined {l r : List DbSpan} {this next new : DbSpan} (first : ∀ d ∈ l, d.start + d.len ≠ n)
      (stop : this.start + this.len = n) (touch : next.start = n + size)
      (start : new.start = this.start)
      (len : new.len = this.len + size + next.len) :
      Extended n size (l ++ this :: next :: r) (l ++ new :: r)

theorem Extended.cons {l l' : List DbSpan} (h : Extended n size l l')
    (hd : d.start + d.len ≠ n) : Extended n size (d :: l) (d :: l') := by
  cases h with
  | @grown l r this new first stop start len apart =>
      exact .grown (l := d :: l) (List.forall_mem_cons.mpr ⟨hd, first⟩) stop start len apart
  | @joined l r this next new first stop touch start len =>
      exact .joined (l := d :: l) (List.forall_mem_cons.mpr ⟨hd, first⟩) stop touch start len

/-- What is left of a list after blocks have been added to it. -/
theorem spanAdd_cases (h : s.Intact) (hs : 0 < size) (hc : s.Clean n size) :
    ∃ t, spanAdd s n size hs = some t ∧ t.Intact ∧
      ((∀ d ∈ s.toList, d.start + d.len ≠ n ∧ d.start ≠ n + size) ∧
          t.toList = s.toList ++ [⟨n, size, hs⟩] ∨
        Extended n size s.toList t.toList) := by
  induction s with
  | null => exact ⟨_, rfl, trivial, .inl ⟨by simp [Spans.toList], rfl⟩⟩
  | freed => exact h.elim
  | node this next ih =>
      by_cases hstop : this.start + this.len = n
      · cases next with
        | freed => exact h.elim
        | null =>
            refine ⟨.node ⟨this.start, this.len + size, Nat.add_pos_left this.pos _⟩ .null, ?_,
              trivial, .inr (.grown (l := []) (r := []) (by simp) hstop rfl rfl (by simp))⟩
            simp only [spanAdd, if_pos hstop]
        | node next rest =>
            by_cases htouch : next.start = n + size
            · have hnext : next.start = this.start + (this.len + size) := by omega
              refine ⟨.node ⟨this.start, this.len + size + next.len, by omega⟩ rest, ?_, h,
                .inr (.joined (l := []) (by simp) hstop htouch rfl rfl)⟩
              simp only [spanAdd, if_pos hstop, hnext, ne_eq, not_true_eq_false, if_false]
            · have hnext : next.start ≠ this.start + (this.len + size) := by omega
              refine ⟨.node ⟨this.start, this.len + size, Nat.add_pos_left this.pos _⟩
                (.node next rest), by simp only [spanAdd, if_pos hstop, if_pos hnext], h, .inr ?_⟩
              refine .grown (l := []) (by simp) hstop rfl rfl fun d hd => ?_
              obtain rfl := Option.some.inj hd
              exact htouch
      · obtain ⟨hstart, hclean⟩ := hc.resolve_left hstop
        obtain ⟨t, ht, hi, hcase⟩ := ih h hclean
        refine ⟨.node this t, by rw [spanAdd, if_neg hstop, if_neg hstart, ht]; rfl, hi, ?_⟩
        rcases hcase with ⟨hnone, hlist⟩ | hext
        · refine .inl ⟨fun d hd => ?_, congrArg (this :: ·) hlist⟩
          rcases List.mem_cons.mp hd with rfl | hd
          · exact ⟨hstop, hstart⟩
          · exact hnone d hd
        · exact .inr (hext.cons hstop)

/-- Blocks that would extend a span downwards make the list end there. -/
theorem spanAdd_loses (hd : s.blocks.Nodup) (hm : s.Misses n size) (hc : ¬ s.Clean n size)
    (h : spanAdd s n size hs = some t) : ∃ b ∈ s.blocks, b ∉ t.blocks := by
  induction s generalizing t with
  | null => exact absurd trivial hc
  | freed => exact absurd trivial hc
  | node this next ih =>
      obtain ⟨hstop, hrest⟩ := not_or.mp hc
      rw [spanAdd, if_neg hstop] at h
      by_cases hstart : this.start = n + size
      · rw [if_pos hstart] at h
        obtain rfl := Option.some.inj h
        have hpos := this.pos
        refine ⟨this.start, ?_, ?_⟩
        · simp only [Spans.blocks, List.mem_append, List.mem_range'_1]
          omega
        · simp only [Spans.blocks, List.append_nil, List.mem_range'_1]
          omega
      · rw [if_neg hstart] at h
        obtain ⟨t, ht, rfl⟩ := Option.map_eq_some_iff.mp h
        rw [Spans.blocks, List.nodup_append] at hd
        obtain ⟨b, hb, hbt⟩ := ih hd.2.1 (fun d hdn => hm d (List.mem_cons_of_mem _ hdn))
          (fun hcn => hrest ⟨hstart, hcn⟩) ht
        refine ⟨b, List.mem_append_right _ hb, fun hmem => ?_⟩
        rcases List.mem_append.mp hmem with hmem | hmem
        · exact hd.2.2 b hmem b hb rfl
        · exact hbt hmem

/-- The blocks have been added to the list: it covers them besides what it covered, its spans are
disjoint, and each span that was there is still there or part of another. -/
structure Spans.Added (s : Spans) (n size : ℕ) (t : Spans) : Prop where
  intact : t.Intact
  covered : ∀ b, b ∈ t.blocks ↔ b ∈ s.blocks ∨ n ≤ b ∧ b < n + size
  disjoint : t.Disjoint
  kept : ∀ d ∈ s.toList, ∃ d' ∈ t.toList, d.Within d'

theorem Extended.kept {l l' : List DbSpan} (h : Extended n size l l') :
    ∀ d ∈ l, ∃ d' ∈ l', d.Within d' := by
  have hrefl : ∀ d : DbSpan, d.Within d := fun d => ⟨Nat.le_refl _, Nat.le_refl _⟩
  intro d hd
  cases h with
  | @grown l r this new first stop start len apart =>
      rcases List.mem_append.mp hd with hd | hd
      · exact ⟨d, List.mem_append_left _ hd, hrefl d⟩
      · rcases List.mem_cons.mp hd with rfl | hd
        · refine ⟨new, by simp, ?_⟩
          simp only [DbSpan.Within]
          omega
        · exact ⟨d, by simp [hd], hrefl d⟩
  | @joined l r this next new first stop touch start len =>
      rcases List.mem_append.mp hd with hd | hd
      · exact ⟨d, List.mem_append_left _ hd, hrefl d⟩
      · rcases List.mem_cons.mp hd with rfl | hd
        · refine ⟨new, by simp, ?_⟩
          simp only [DbSpan.Within]
          omega
        · rcases List.mem_cons.mp hd with rfl | hd
          · refine ⟨new, by simp, ?_⟩
            simp only [DbSpan.Within]
            omega
          · exact ⟨d, by simp [hd], hrefl d⟩

/-- Every span of the old list is a span of the new one, or part of one. -/
theorem spanAdd_kept (hi : s.Intact) (hc : s.Clean n size) (h : spanAdd s n size hs = some t) :
    ∀ d ∈ s.toList, ∃ d' ∈ t.toList, d.Within d' := by
  obtain ⟨t', ht, -, hcase⟩ := spanAdd_cases hi hs hc
  obtain rfl : t' = t := Option.some.inj (ht.symm.trans h)
  rcases hcase with ⟨-, hlist⟩ | hext
  · intro d hd
    exact ⟨d, by rw [hlist]; exact List.mem_append_left _ hd, Nat.le_refl _, Nat.le_refl _⟩
  · exact hext.kept

theorem mem_blocks_misses (hi : s.Intact) (hm : s.Misses n size) (hb : b ∈ s.blocks) :
    b < n ∨ n + size ≤ b := by
  obtain ⟨d, hd, h1, h2⟩ := (mem_blocks hi).mp hb
  have hmiss := hm d hd
  omega

/-- New blocks that the list lacks leave no block in it twice. -/
theorem spanAdd_nodup (hi : s.Intact) (hd : s.blocks.Nodup) (hm : s.Misses n size)
    (hc : s.Clean n size) (h : spanAdd s n size hs = some t) : t.blocks.Nodup := by
  refine (spanAdd_perm hc h).nodup_iff.mpr (List.nodup_append.mpr ⟨List.nodup_range', hd, ?_⟩)
  rintro b hb c hcb rfl
  have hmiss := mem_blocks_misses hi hm hcb
  rw [List.mem_range'_1] at hb
  omega

theorem spanAdd_blocks (hc : s.Clean n size) (h : spanAdd s n size hs = some t) :
    b ∈ t.blocks ↔ b ∈ s.blocks ∨ n ≤ b ∧ b < n + size := by
  rw [(spanAdd_perm hc h).mem_iff, List.mem_append, List.mem_range'_1]
  exact or_comm

/-- Adding blocks loses nothing exactly if the first span that they touch ends where they begin. -/
theorem spanAdd_added (hi : s.Intact) (hd : s.Disjoint) (hs : 0 < size) (hm : s.Misses n size) :
    (∃ t, spanAdd s n size hs = some t ∧ s.Added n size t) ↔ s.Clean n size := by
  constructor
  · rintro ⟨t, ht, hadded⟩
    by_contra hc
    obtain ⟨b, hb, hbt⟩ := spanAdd_loses ((disjoint_iff hi).mp hd) hm hc ht
    exact hbt ((hadded.covered b).mpr (.inl hb))
  · intro hc
    obtain ⟨t, ht, hti, -⟩ := spanAdd_cases hi hs hc
    have hnodup := spanAdd_nodup hi ((disjoint_iff hi).mp hd) hm hc ht
    exact ⟨t, ht, hti, fun b => spanAdd_blocks hc ht, (disjoint_iff hti).mpr hnodup,
      spanAdd_kept hi hc ht⟩

theorem spanAdd_added_above : ∃ s : Spans, s.blocks = [0, 1, 4, 5] ∧
    ∃ t, spanAdd s 2 1 Nat.one_pos = some t ∧ s.Added 2 1 t := by
  let s : Spans := .node ⟨0, 2, Nat.two_pos⟩ (.node ⟨4, 2, Nat.two_pos⟩ .null)
  have hi : s.Intact := trivial
  have hd : s.Disjoint := by simp [s, Spans.Disjoint, Spans.toList, DbSpan.Apart]
  have hm : s.Misses 2 1 := by simp [s, Spans.Misses, Spans.toList]
  exact ⟨s, by decide, (spanAdd_added hi hd Nat.one_pos hm).mpr (by decide)⟩

/-- Blocks right below the only span take its place. -/
theorem spanAdd_below_loses : ¬ ∀ (s : Spans) (n size : ℕ) (hs : 0 < size),
    s.Intact → s.Disjoint → s.Misses n size →
    ∃ t, spanAdd s n size hs = some t ∧ s.Added n size t := by
  intro h
  obtain ⟨t, ht, hadded⟩ := h (.node ⟨4, 4, by decide⟩ .null) 2 2 Nat.two_pos trivial
    (by simp [Spans.Disjoint, Spans.toList]) (by simp [Spans.Misses, Spans.toList])
  obtain rfl := Option.some.inj ht
  have h4 := (hadded.covered 4).mpr (.inl (by decide))
  exact absurd h4 (by decide)

end Sunela.Span
