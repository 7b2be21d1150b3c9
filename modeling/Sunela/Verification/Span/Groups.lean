import Sunela.Verification.Span.Lists

/-! # Pulling groups

The first span that holds a whole group gives it away and keeps what is left of it, as one span
or as two. A span that is just the group leaves a link to freed memory. -/

namespace Sunela.Span

variable {s t next : Spans} {d d' this : DbSpan} {n e b : ℕ}

/-! ## Aligned groups -/

/-- The group of blocks that begins at `n` is aligned, and within the span. -/
structure DbSpan.Holds (d : DbSpan) (n e : ℕ) : Prop where
  aligned : e ∣ n
  start : d.start ≤ n
  stop : n + e ≤ d.start + d.len

theorem roundUp_dvd (n e : ℕ) : e ∣ roundUp n e :=
  Nat.dvd_of_mod_eq_zero (roundUp_mod n e)

theorem roundUp_le {m : ℕ} (he : 0 < e) (hle : n ≤ m) (hm : e ∣ m) : roundUp n e ≤ m := by
  obtain ⟨a, ha⟩ := roundUp_dvd n e
  obtain ⟨c, rfl⟩ := hm
  have hlt := roundUp_lt n he
  have h : e * a < e * (c + 1) := by
    rw [Nat.mul_add, Nat.mul_one]
    omega
  have hac : a ≤ c := Nat.lt_succ_iff.mp (Nat.lt_of_mul_lt_mul_left h)
  rw [ha]
  exact Nat.mul_le_mul_left e hac

/-- A span has a group if it holds the one at its rounded start. -/
theorem DbSpan.HasGroup.holds (h : d.HasGroup e) (he : 0 < e) :
    d.Holds (roundUp d.start e) e :=
  ⟨roundUp_dvd _ _, le_roundUp _ he, h⟩

theorem DbSpan.Holds.hasGroup (h : d.Holds n e) (he : 0 < e) : d.HasGroup e := by
  have hle := roundUp_le he h.start h.aligned
  have hstop := h.stop
  simp only [DbSpan.HasGroup]
  omega

/-- The span is one group, and nothing else. -/
def DbSpan.IsGroup (d : DbSpan) (e : ℕ) : Prop := roundUp d.start e = d.start ∧ d.len = e

instance (d : DbSpan) (e : ℕ) : Decidable (d.IsGroup e) := inferInstanceAs (Decidable (_ ∧ _))

/-! ## What is left of a span -/

/-- The pieces of a span without the group at `n`. -/
inductive DbSpan.Cut (this : DbSpan) (n e : ℕ) : List DbSpan → Prop where
  | behind {d : DbSpan} (first : n = this.start) (start : d.start = n + e)
      (stop : d.start + d.len = this.start + this.len) : this.Cut n e [d]
  | before {d : DbSpan} (last : n + e = this.start + this.len) (start : d.start = this.start)
      (stop : d.start + d.len = n) : this.Cut n e [d]
  | around {d d' : DbSpan} (start : d.start = this.start) (stop : d.start + d.len = n)
      (start' : d'.start = n + e) (stop' : d'.start + d'.len = this.start + this.len) :
      this.Cut n e [d, d']

theorem DbSpan.Cut.within {l : List DbSpan} (h : this.Cut n e l) : ∀ d ∈ l, d.Within this := by
  intro d hd
  cases h with
  | behind first start stop =>
      obtain rfl := List.mem_singleton.mp hd
      exact ⟨by omega, by omega⟩
  | before last start stop =>
      obtain rfl := List.mem_singleton.mp hd
      exact ⟨by omega, by omega⟩
  | @around c c' start stop start' stop' =>
      have hpos := c.pos
      have hpos' := c'.pos
      rcases List.mem_pair.mp hd with rfl | rfl
      · exact ⟨by omega, by omega⟩
      · exact ⟨by omega, by omega⟩

/-- Two neighbouring blocks outside the group remain in one piece. -/
theorem DbSpan.Cut.piece {l : List DbSpan} {c : ℕ} (h : this.Cut n e l) (hb : this.start ≤ b)
    (hc : c < this.start + this.len) (hbc : b ≤ c) (hout : c < n ∨ n + e ≤ b) :
    ∃ d ∈ l, d.start ≤ b ∧ c < d.start + d.len := by
  cases h with
  | @behind d first start stop => exact ⟨d, by simp, by omega, by omega⟩
  | @before d last start stop => exact ⟨d, by simp, by omega, by omega⟩
  | @around d d' start stop start' stop' =>
      rcases hout with hout | hout
      · exact ⟨d, by simp, by omega, by omega⟩
      · exact ⟨d', by simp, by omega, by omega⟩

theorem DbSpan.Cut.outside {l : List DbSpan} (h : this.Cut n e l) (hd : d ∈ l)
    (hb : d.start ≤ b ∧ b < d.start + d.len) : b < n ∨ n + e ≤ b := by
  cases h with
  | behind first start stop =>
      obtain rfl := List.mem_singleton.mp hd
      omega
  | before last start stop =>
      obtain rfl := List.mem_singleton.mp hd
      omega
  | around start stop start' stop' =>
      rcases List.mem_pair.mp hd with rfl | rfl
      · omega
      · omega

theorem DbSpan.Cut.apart {l : List DbSpan} (h : this.Cut n e l) : l.Pairwise DbSpan.Apart := by
  cases h with
  | behind => exact List.pairwise_singleton _ _
  | before => exact List.pairwise_singleton _ _
  | around start stop start' stop' =>
      exact List.pairwise_pair.mpr (.inl (by omega))

/-- A span that is more than the group is cut, and remains in the list. -/
theorem takeGroup_cut (he : 0 < e) (hg : this.HasGroup e) (hn : next.Intact)
    (hmore : ¬ this.IsGroup e) :
    (takeGroup this next e he hg).Intact ∧ ∃ l, this.Cut (roundUp this.start e) e l ∧
      (takeGroup this next e he hg).toList = l ++ next.toList := by
  have hle := le_roundUp this.start he
  have hend : roundUp this.start e + e ≤ this.start + this.len := hg
  unfold takeGroup
  by_cases hfirst : roundUp this.start e = this.start
  · have hl : this.len ≠ e := fun hl => hmore ⟨hfirst, hl⟩
    have hpos : 0 < this.len - e := by omega
    rw [dif_pos hfirst, dif_neg hl]
    refine ⟨hn, [⟨this.start + e, this.len - e, hpos⟩], .behind hfirst ?_ ?_, rfl⟩
    · dsimp only
      omega
    · dsimp only
      omega
  · rw [dif_neg hfirst]
    by_cases hlast : this.start + this.len = roundUp this.start e + e
    · have hpos : 0 < this.len - e := by omega
      rw [dif_pos hlast]
      refine ⟨hn, [⟨this.start, this.len - e, hpos⟩], .before hlast.symm rfl ?_, rfl⟩
      dsimp only
      omega
    · let n := roundUp this.start e
      have hpos : 0 < n - this.start := by omega
      have hpos' : 0 < this.start + this.len - n - e := by omega
      rw [dif_neg hlast]
      refine ⟨hn, [⟨this.start, n - this.start, hpos⟩,
        ⟨n + e, this.start + this.len - n - e, hpos'⟩], .around rfl ?_ rfl ?_, rfl⟩
      · dsimp only [n]
        omega
      · dsimp only [n]
        omega

/-- A span that is just the group makes its link point to freed memory. -/
theorem takeGroup_group (he : 0 < e) (hg : this.HasGroup e) (hone : this.IsGroup e) :
    takeGroup this next e he hg = .freed := by
  unfold takeGroup
  rw [dif_pos hone.1, dif_pos hone.2]

/-! ## The list -/

/-- The first span that holds a group holds more than that. -/
def Spans.Spared (e : ℕ) : Spans → Prop
  | .null => True
  | .node this next => if this.HasGroup e then ¬ this.IsGroup e else next.Spared e
  | .freed => True

instance Spans.decidableSpared (e : ℕ) : (s : Spans) → Decidable (s.Spared e)
  | .null => isTrue trivial
  | .node _ next =>
      have := decidableSpared e next
      inferInstanceAs (Decidable (ite _ _ _))
  | .freed => isTrue trivial

/-- A list from which a group has been taken. -/
structure Spans.Pulled (s : Spans) (n e : ℕ) (t : Spans) : Prop where
  intact : t.Intact
  parts : ∃ l this r pieces, s.toList = l ++ this :: r ∧ t.toList = l ++ pieces ++ r ∧
    this.Holds n e ∧ this.Cut n e pieces

/-- Pulling a group from a list where the first group is not all of a span. -/
theorem spanPullEraseBlock_pulled (he : 0 < e) (hi : s.Intact) (hs : s.Spared e) :
    ((∀ d ∈ s.toList, ¬ d.HasGroup e) ∧ spanPullEraseBlock s e he = some (none, s)) ∨
      ∃ n t, spanPullEraseBlock s e he = some (some n, t) ∧ s.Pulled n e t := by
  induction s with
  | null => exact .inl ⟨by simp [Spans.toList], rfl⟩
  | freed => exact hi.elim
  | node this next ih =>
      by_cases hg : this.HasGroup e
      · have hmore : ¬ this.IsGroup e := by simpa only [Spans.Spared, if_pos hg] using hs
        have hi : next.Intact := hi
        obtain ⟨hint, pieces, hcut, hlist⟩ := takeGroup_cut he hg hi hmore
        refine .inr ⟨_, _, by rw [spanPullEraseBlock, dif_pos hg], ?_⟩
        exact ⟨hint, [], this, next.toList, pieces, rfl, hlist, hg.holds he, hcut⟩
      · have hnext : next.Spared e := by simpa only [Spans.Spared, if_neg hg] using hs
        rw [spanPullEraseBlock, dif_neg hg]
        rcases ih hi hnext with ⟨hnone, hpull⟩ | ⟨n, t, hpull, hp⟩
        · exact .inl ⟨List.forall_mem_cons.mpr ⟨hg, hnone⟩, by rw [hpull]; rfl⟩
        · obtain ⟨l, first, r, pieces, hl, ht, hparts⟩ := hp.parts
          refine .inr ⟨n, .node this t, by rw [hpull]; rfl, hp.intact,
            this :: l, first, r, pieces, congrArg (this :: ·) hl,
            congrArg (this :: ·) ht, hparts⟩

theorem DbSpan.Apart.symm (h : d.Apart d') : d'.Apart d := Or.symm h

theorem DbSpan.Apart.within {c : DbSpan} (h : d.Apart d') (hc : c.Within d') : d.Apart c := by
  have h1 := hc.1
  have h2 := hc.2
  rcases h with h | h
  · exact .inl (by omega)
  · exact .inr (by omega)

/-- The list has lost the blocks of the group, and no others. -/
theorem Spans.Pulled.left (h : s.Pulled n e t) (hi : s.Intact) (hd : s.Disjoint) :
    b ∈ t.blocks ↔ b ∈ s.blocks ∧ (b < n ∨ n + e ≤ b) := by
  obtain ⟨l, this, r, pieces, hs, ht, hholds, hcut⟩ := h.parts
  have hpair : (l ++ this :: r).Pairwise DbSpan.Apart := hs ▸ hd
  obtain ⟨-, hright, hacross⟩ := List.pairwise_append.mp hpair
  have hlo := hholds.start
  have hhi := hholds.stop
  have hother : ∀ d, d ∈ l ∨ d ∈ r → d.Apart this := by
    rintro d (hdl | hdr)
    · exact hacross d hdl this List.mem_cons_self
    · exact (List.rel_of_pairwise_cons hright hdr).symm
  rw [mem_blocks h.intact, mem_blocks hi, hs, ht]
  constructor
  · rintro ⟨d, hdm, hb⟩
    have hkept : d ∈ l ∨ d ∈ r →
        (∃ d ∈ l ++ this :: r, d.start ≤ b ∧ b < d.start + d.len) ∧ (b < n ∨ n + e ≤ b) := by
      intro hdo
      refine ⟨⟨d, by simp only [List.mem_append, List.mem_cons]; tauto, hb⟩, ?_⟩
      rcases hother d hdo with h1 | h1
      · omega
      · omega
    rcases List.mem_append.mp hdm with hdm | hdr
    · rcases List.mem_append.mp hdm with hdl | hdp
      · exact hkept (.inl hdl)
      · have hw := hcut.within d hdp
        have h1 := hw.1
        have h2 := hw.2
        exact ⟨⟨this, by simp, by omega, by omega⟩, hcut.outside hdp hb⟩
    · exact hkept (.inr hdr)
  · rintro ⟨⟨d, hdm, hb⟩, hout⟩
    rcases List.mem_append.mp hdm with hdl | hdm
    · exact ⟨d, by simp [hdl], hb⟩
    · rcases List.mem_cons.mp hdm with rfl | hdr
      · obtain ⟨c, hc, hcb⟩ := hcut.piece hb.1 hb.2 (Nat.le_refl b) hout
        exact ⟨c, by simp [hc], hcb⟩
      · exact ⟨d, by simp [hdr], hb⟩

theorem Spans.Pulled.disjoint (h : s.Pulled n e t) (hd : s.Disjoint) : t.Disjoint := by
  obtain ⟨l, this, r, pieces, hs, ht, -, hcut⟩ := h.parts
  have hpair : (l ++ this :: r).Pairwise DbSpan.Apart := hs ▸ hd
  obtain ⟨hl, hright, hacross⟩ := List.pairwise_append.mp hpair
  obtain ⟨hthis, hr⟩ := List.pairwise_cons.mp hright
  have hpieces : (pieces ++ r).Pairwise DbSpan.Apart :=
    List.pairwise_append.mpr ⟨hcut.apart, hr, fun c hc d hdr =>
      ((hthis d hdr).symm.within (hcut.within c hc)).symm⟩
  rw [Spans.Disjoint, ht, List.append_assoc]
  refine List.pairwise_append.mpr ⟨hl, hpieces, fun d hdl c hc => ?_⟩
  rcases List.mem_append.mp hc with hc | hc
  · exact (hacross d hdl this List.mem_cons_self).within (hcut.within c hc)
  · exact hacross d hdl c (List.mem_cons_of_mem _ hc)

/-- A group is found as soon as a span holds one. -/
theorem spanPullEraseBlock_finds (he : 0 < e) (hi : s.Intact)
    (h : ∃ d ∈ s.toList, d.HasGroup e) :
    ∃ n t, spanPullEraseBlock s e he = some (some n, t) := by
  induction s with
  | null => simp [Spans.toList] at h
  | freed => exact hi.elim
  | node this next ih =>
      by_cases hg : this.HasGroup e
      · exact ⟨_, _, by rw [spanPullEraseBlock, dif_pos hg]⟩
      · obtain ⟨d, hd, hdg⟩ := h
        have hnext : d ∈ next.toList :=
          (List.mem_cons.mp hd).resolve_left fun heq => hg (heq ▸ hdg)
        obtain ⟨n, t, ht⟩ := ih hi ⟨d, hnext, hdg⟩
        exact ⟨n, .node this t, by rw [spanPullEraseBlock, dif_neg hg, ht]; rfl⟩

end Sunela.Span
