import Mathlib.Data.List.Perm.Basic
import Sunela.Model.Span

/-! # The blocks of a list of spans

Pulling takes out what it returns. Adding keeps the rest of the list only while it does not
extend a span downwards, and pulling a group leaves a list that can be followed only while
no span becomes a single group. -/

namespace Sunela.Span

/-- No link of the list points to freed memory. -/
def Spans.Intact : Spans → Prop
  | .null => True
  | .node _ next => next.Intact
  | .freed => False

def Spans.toList : Spans → List DbSpan
  | .null => []
  | .node this next => this :: next.toList
  | .freed => []

theorem mem_blocks_of_span {s : Spans} {d : DbSpan} (h : d ∈ s.toList) {b : ℕ}
    (hb : d.start ≤ b ∧ b < d.start + d.len) : b ∈ s.blocks := by
  induction s with
  | null => simp [Spans.toList] at h
  | freed => simp [Spans.toList] at h
  | node this next ih =>
      simp only [Spans.blocks, List.mem_append, List.mem_range'_1]
      rcases List.mem_cons.mp h with rfl | h
      · exact .inl hb
      · exact .inr (ih h)

/-! ## Adding -/

/-- Adding blocks brings in no other blocks, whatever the list. -/
theorem spanAdd_mem {s t : Spans} {n size : ℕ} {hs : 0 < size} (h : spanAdd s n size hs = some t)
    {b : ℕ} (hb : b ∈ t.blocks) : b ∈ List.range' n size ∨ b ∈ s.blocks := by
  induction s generalizing t with
  | null =>
      obtain rfl := Option.some.inj h
      exact .inl (by simpa [Spans.blocks] using hb)
  | freed => simp [spanAdd] at h
  | node this next ih =>
      simp only [spanAdd] at h
      by_cases he : this.start + this.len = n
      · rw [if_pos he] at h
        cases next with
        | null =>
            obtain rfl := Option.some.inj h
            simp only [Spans.blocks, List.append_nil, List.mem_range'_1] at hb ⊢
            omega
        | freed => simp at h
        | node next rest =>
            by_cases hn : next.start = this.start + (this.len + size)
            · simp only [hn, ne_eq, not_true_eq_false, if_false, Option.some.injEq] at h
              subst h
              simp only [Spans.blocks, List.mem_append, List.mem_range'_1] at hb ⊢
              rcases hb with hb | hb
              · omega
              · exact .inr (.inr (.inr hb))
            · simp only [hn, ne_eq, not_false_eq_true, if_true, Option.some.injEq] at h
              subst h
              simp only [Spans.blocks, List.mem_append, List.mem_range'_1] at hb ⊢
              rcases hb with hb | hb
              · omega
              · exact .inr (.inr hb)
      · rw [if_neg he] at h
        by_cases hl : this.start = n + size
        · rw [if_pos hl] at h
          obtain rfl := Option.some.inj h
          exact .inl (by simpa [Spans.blocks] using hb)
        · rw [if_neg hl] at h
          obtain ⟨r, hr, rfl⟩ := Option.map_eq_some_iff.mp h
          simp only [Spans.blocks, List.mem_append] at hb ⊢
          rcases hb with hb | hb
          · exact .inr (.inl hb)
          · exact (ih hr hb).imp_right .inr

/-- Blocks can be added to an intact list, which remains intact. -/
theorem spanAdd_subset {s : Spans} (h : s.Intact) (n size : ℕ) (hs : 0 < size) :
    ∃ t, spanAdd s n size hs = some t ∧ t.Intact ∧
      ∀ b ∈ t.blocks, b ∈ List.range' n size ∨ b ∈ s.blocks := by
  suffices hadd : ∃ t, spanAdd s n size hs = some t ∧ t.Intact by
    obtain ⟨t, ht, hi⟩ := hadd
    exact ⟨t, ht, hi, fun b hb => spanAdd_mem ht hb⟩
  induction s with
  | null => exact ⟨_, rfl, trivial⟩
  | freed => exact h.elim
  | node this next ih =>
      simp only [spanAdd]
      split
      · cases next with
        | null => exact ⟨_, rfl, trivial⟩
        | freed => exact h.elim
        | node next rest =>
            simp only []
            split
            · exact ⟨_, rfl, h⟩
            · exact ⟨_, rfl, h⟩
      · split
        · exact ⟨_, rfl, trivial⟩
        · obtain ⟨t, ht, hi⟩ := ih h
          exact ⟨.node this t, by rw [ht]; rfl, hi⟩

/-- The first span that the new blocks touch ends where they begin. -/
def Spans.Clean (n size : ℕ) : Spans → Prop
  | .null => True
  | .node this next => this.start + this.len = n ∨ (this.start ≠ n + size ∧ next.Clean n size)
  | .freed => True

instance Spans.decidableClean (n size : ℕ) : (s : Spans) → Decidable (s.Clean n size)
  | .null => isTrue trivial
  | .node _ next =>
      have := decidableClean n size next
      inferInstanceAs (Decidable (_ ∨ _ ∧ _))
  | .freed => isTrue trivial

private theorem range'_split (a m n : ℕ) :
    List.range' a (m + n) = List.range' a m ++ List.range' (a + m) n := by
  rw [List.range'_append_1]

/-- Adding blocks that do not extend a span downwards loses none. -/
theorem spanAdd_perm {s t : Spans} {n size : ℕ} {hs : 0 < size} (h : s.Clean n size)
    (ht : spanAdd s n size hs = some t) : t.blocks.Perm (List.range' n size ++ s.blocks) := by
  induction s generalizing t with
  | null =>
      obtain rfl := Option.some.inj ht
      exact List.Perm.refl _
  | freed => simp [spanAdd] at ht
  | node this next ih =>
      simp only [spanAdd] at ht
      split at ht
      · next he =>
          cases next with
          | null =>
              obtain rfl := Option.some.inj ht
              simp only [Spans.blocks, List.append_nil, range'_split, he]
              exact List.perm_append_comm
          | freed => simp at ht
          | node next rest =>
              by_cases hn : next.start = this.start + (this.len + size)
              · simp only [hn, ne_eq, not_true_eq_false, if_false, Option.some.injEq] at ht
                subst ht
                simp only [Spans.blocks, range'_split, he, hn, List.append_assoc]
                rw [← Nat.add_assoc, he]
                exact List.perm_append_comm_assoc _ _ _
              · simp only [hn, ne_eq, not_false_eq_true, if_true, Option.some.injEq] at ht
                subst ht
                simp only [Spans.blocks, range'_split, he, List.append_assoc]
                exact List.perm_append_comm_assoc _ _ _
      · next he =>
          obtain ⟨hne, hc⟩ := h.resolve_left he
          rw [if_neg hne] at ht
          obtain ⟨t, hadd, rfl⟩ := Option.map_eq_some_iff.mp ht
          exact ((ih hc hadd).append_left _).trans (List.perm_append_comm_assoc _ _ _)

/-- A list whose blocks all come before `n` takes in block `n`. -/
theorem clean_of_lt {s : Spans} {n size : ℕ} (h : ∀ b ∈ s.blocks, b < n) :
    s.Clean n size := by
  induction s with
  | null => trivial
  | freed => trivial
  | node this next ih =>
      have hlt : this.start < n := h _ (by
        simp only [Spans.blocks, List.mem_append, List.mem_range'_1]
        have := this.pos
        omega)
      refine .inr ⟨by omega, ih fun b hb => h b ?_⟩
      simp [Spans.blocks, hb]

/-! ## Pulling one block -/

/-- An intact list gives its first block, unless it is empty. -/
theorem spanPullOne_cases {s : Spans} (h : s.Intact) :
    (s = .null ∧ spanPullOne s = some (none, .null)) ∨
    ∃ n t, spanPullOne s = some (some n, t) ∧ t.Intact ∧ s.blocks = n :: t.blocks := by
  cases s with
  | null => exact .inl ⟨rfl, rfl⟩
  | freed => exact h.elim
  | node this next =>
      obtain ⟨start, len, pos⟩ := this
      obtain ⟨len, rfl⟩ := Nat.exists_eq_succ_of_ne_zero (Nat.pos_iff_ne_zero.mp pos)
      refine .inr ?_
      simp only [spanPullOne, Nat.add_one_sub_one, ne_eq]
      split
      · exact ⟨_, _, rfl, h, by simp [Spans.blocks, List.range'_succ]⟩
      · next hl =>
          obtain rfl : len = 0 := by simpa using hl
          exact ⟨_, _, rfl, h, by simp [Spans.blocks]⟩

/-! ## Pulling a group -/

/-- Taking groups out of the span ends with a span that is just one group: it ends at the end
of a group, and starts with a group or has another one before the last. -/
def DbSpan.ExactFit (this : DbSpan) (eraseSize : ℕ) : Prop :=
  (this.start + this.len) % eraseSize = 0 ∧
    (this.start % eraseSize = 0 ∨
      roundUp this.start eraseSize + eraseSize < this.start + this.len)

instance (this : DbSpan) (eraseSize : ℕ) : Decidable (this.ExactFit eraseSize) :=
  inferInstanceAs (Decidable (_ ∧ _))

def Spans.NoExactFit (s : Spans) (eraseSize : ℕ) : Prop :=
  ∀ d ∈ s.toList, ¬ d.ExactFit eraseSize

instance (s : Spans) (eraseSize : ℕ) : Decidable (s.NoExactFit eraseSize) :=
  inferInstanceAs (Decidable (∀ d ∈ s.toList, ¬ d.ExactFit eraseSize))

theorem roundUp_eq_self {n mod : ℕ} (h : n % mod = 0) : roundUp n mod = n := by
  cases mod with
  | zero => simp [roundUp, Nat.mod_zero] at h ⊢; omega
  | succ m =>
      have hm := roundUp_mod n (m + 1)
      have hl := le_roundUp n (Nat.succ_pos m)
      have hu := roundUp_lt n (Nat.succ_pos m)
      obtain ⟨a, ha⟩ := Nat.dvd_of_mod_eq_zero hm
      obtain ⟨b, hb⟩ := Nat.dvd_of_mod_eq_zero h
      have hab : a = b := by
        rw [ha, hb] at hl hu
        have h1 : b ≤ a := Nat.le_of_mul_le_mul_left hl (Nat.succ_pos m)
        have h2 : a < b + 1 := by
          have : (m + 1) * a < (m + 1) * (b + 1) := by rw [Nat.mul_add, Nat.mul_one]; exact hu
          exact Nat.lt_of_mul_lt_mul_left this
        omega
      rw [ha, hb, hab]

/-- The blocks of the group are the ones that go, and no later group becomes an exact fit. -/
theorem takeGroup_blocks {this : DbSpan} {next : Spans} {e : ℕ} {he : 0 < e}
    {hg : this.HasGroup e} (h : next.Intact) (hf : (Spans.node this next).NoExactFit e) :
    (takeGroup this next e he hg).Intact ∧ (takeGroup this next e he hg).NoExactFit e ∧
      (Spans.node this next).blocks.Perm
        (List.range' (roundUp this.start e) e ++ (takeGroup this next e he hg).blocks) := by
  have hthis : ¬ this.ExactFit e := hf this (by simp [Spans.toList])
  have hnext : ∀ d ∈ next.toList, ¬ d.ExactFit e := fun d hd =>
    hf d (by simp [Spans.toList, hd])
  have hle := le_roundUp this.start he
  have hgroup : roundUp this.start e + e ≤ this.start + this.len := hg
  have hend := roundUp_mod this.start e
  unfold takeGroup
  simp only []
  split
  · next hn =>
      have hs : this.start % e = 0 := by rw [← hn]; exact hend
      have hodd : (this.start + this.len) % e ≠ 0 := fun hz => hthis ⟨hz, .inl hs⟩
      have hl : this.len ≠ e := by
        intro hl
        rw [hl, Nat.add_mod_right] at hodd
        exact hodd hs
      rw [dif_neg hl]
      refine ⟨h, fun d hd => ?_, ?_⟩
      · rcases List.mem_cons.mp hd with rfl | hd
        · intro hx
          apply hodd
          have h1 := hx.1
          simp only at h1
          rwa [show this.start + e + (this.len - e) = this.start + this.len by omega] at h1
        · exact hnext d hd
      · simp only [Spans.blocks, hn]
        rw [← List.append_assoc, ← range'_split, show e + (this.len - e) = this.len by omega]
  · next hn =>
      have hs : this.start % e ≠ 0 := fun hz => hn (roundUp_eq_self hz)
      split
      · next hl =>
          refine ⟨h, fun d hd => ?_, ?_⟩
          · rcases List.mem_cons.mp hd with rfl | hd
            · rintro ⟨-, h2 | h2⟩
              · exact hs h2
              · simp only at h2
                omega
            · exact hnext d hd
          · simp only [Spans.blocks]
            have hsplit : List.range' this.start this.len =
                List.range' this.start (this.len - e) ++ List.range' (roundUp this.start e) e := by
              rw [show roundUp this.start e = this.start + (this.len - e) by omega,
                ← range'_split, show this.len - e + e = this.len by omega]
            rw [hsplit, List.append_assoc]
            exact List.perm_append_comm_assoc _ _ _
      · next hl =>
          have hodd : (this.start + this.len) % e ≠ 0 := fun hz =>
            hthis ⟨hz, .inr (by omega)⟩
          refine ⟨h, fun d hd => ?_, ?_⟩
          · simp only [Spans.toList, List.mem_cons] at hd
            rcases hd with rfl | rfl | hd
            · rintro ⟨-, h2 | h2⟩
              · exact hs h2
              · simp only at h2
                omega
            · intro hx
              apply hodd
              have h1 := hx.1
              simp only at h1
              rwa [show roundUp this.start e + e +
                (this.start + this.len - roundUp this.start e - e) =
                  this.start + this.len by omega] at h1
            · exact hnext d hd
          · simp only [Spans.blocks]
            have hsplit : List.range' this.start this.len =
                List.range' this.start (roundUp this.start e - this.start) ++
                (List.range' (roundUp this.start e) e ++
                  List.range' (roundUp this.start e + e)
                    (this.start + this.len - roundUp this.start e - e)) := by
              rw [← range'_split]
              have h1 := range'_split this.start (roundUp this.start e - this.start)
                (e + (this.start + this.len - roundUp this.start e - e))
              rw [show this.start + (roundUp this.start e - this.start) =
                roundUp this.start e by omega] at h1
              rw [← h1]
              congr 1
              omega
            rw [hsplit, List.append_assoc, List.append_assoc]
            exact List.perm_append_comm_assoc _ _ _

theorem takeGroup_mem {this : DbSpan} {next : Spans} {e : ℕ} {he : 0 < e} {hg : this.HasGroup e}
    {b : ℕ} (hb : b ∈ (takeGroup this next e he hg).blocks) :
    b ∈ (Spans.node this next).blocks := by
  have hle := le_roundUp this.start he
  have hgroup : roundUp this.start e + e ≤ this.start + this.len := hg
  unfold takeGroup at hb
  simp only [] at hb
  split at hb
  · split at hb
    · simp [Spans.blocks] at hb
    · simp only [Spans.blocks, List.mem_append, List.mem_range'_1] at hb ⊢
      exact hb.imp_left fun h => by omega
  · split at hb
    · simp only [Spans.blocks, List.mem_append, List.mem_range'_1] at hb ⊢
      exact hb.imp_left fun h => by omega
    · simp only [Spans.blocks, List.mem_append, List.mem_range'_1] at hb ⊢
      rcases hb with hb | hb | hb
      · omega
      · omega
      · exact .inr hb

/-- What is pulled from a list and what is left of it was in the list, whatever the list. -/
theorem spanPullEraseBlock_mem {s t : Spans} {e n : ℕ} {he : 0 < e}
    (h : spanPullEraseBlock s e he = some (some n, t)) {b : ℕ}
    (hb : (n ≤ b ∧ b < n + e) ∨ b ∈ t.blocks) : b ∈ s.blocks := by
  induction s generalizing t with
  | null => simp [spanPullEraseBlock] at h
  | freed => simp [spanPullEraseBlock] at h
  | node this next ih =>
      simp only [spanPullEraseBlock] at h
      by_cases hg : this.HasGroup e
      · rw [dif_pos hg] at h
        simp only [Option.some.injEq, Prod.mk.injEq] at h
        obtain ⟨rfl, rfl⟩ := h
        rcases hb with hb | hb
        · have hle := le_roundUp this.start he
          have hgroup : roundUp this.start e + e ≤ this.start + this.len := hg
          simp only [Spans.blocks, List.mem_append, List.mem_range'_1]
          omega
        · exact takeGroup_mem hb
      · rw [dif_neg hg] at h
        obtain ⟨⟨m, r⟩, hr, he'⟩ := Option.map_eq_some_iff.mp h
        simp only [Prod.mk.injEq] at he'
        obtain ⟨rfl, rfl⟩ := he'
        simp only [Spans.blocks, List.mem_append] at hb ⊢
        rcases hb with hb | hb | hb
        · exact .inr (ih hr (.inl hb))
        · exact .inl hb
        · exact .inr (ih hr (.inr hb))

/-- A group is pulled from a list exactly as long as a span holds one. -/
theorem spanPullEraseBlock_cases {s : Spans} {e : ℕ} (he : 0 < e) (h : s.Intact)
    (hf : s.NoExactFit e) :
    ((∀ d ∈ s.toList, ¬ d.HasGroup e) ∧ spanPullEraseBlock s e he = some (none, s)) ∨
    ∃ n t, spanPullEraseBlock s e he = some (some n, t) ∧ t.Intact ∧ t.NoExactFit e ∧
      s.blocks.Perm (List.range' n e ++ t.blocks) := by
  induction s with
  | null => exact .inl ⟨by simp [Spans.toList], rfl⟩
  | freed => exact h.elim
  | node this next ih =>
      simp only [spanPullEraseBlock]
      by_cases hg : this.HasGroup e
      · rw [dif_pos hg]
        have hn : next.Intact := h
        obtain ⟨h1, h2, h3⟩ := @takeGroup_blocks this next e he hg hn hf
        exact .inr ⟨_, _, rfl, h1, h2, h3⟩
      · rw [dif_neg hg]
        have hf' : next.NoExactFit e := fun d hd => hf d (by simp [Spans.toList, hd])
        rcases ih h hf' with ⟨hno, hp⟩ | ⟨n, t, hp, hi, hx, hperm⟩
        · refine .inl ⟨fun d hd => ?_, by rw [hp]; rfl⟩
          rcases List.mem_cons.mp hd with rfl | hd
          · exact hg
          · exact hno d hd
        · refine .inr ⟨n, .node this t, by rw [hp]; rfl, hi, fun d hd => ?_, ?_⟩
          · rcases List.mem_cons.mp hd with rfl | hd
            · exact hf d (by simp [Spans.toList])
            · exact hx d hd
          · simp only [Spans.blocks]
            refine (hperm.append_left _).trans ?_
            exact List.perm_append_comm_assoc _ _ _

theorem spanPullEraseBlock_none {s : Spans} {e : ℕ} (he : 0 < e) (h : s.Intact)
    (hno : ∀ d ∈ s.toList, ¬ d.HasGroup e) : spanPullEraseBlock s e he = some (none, s) := by
  induction s with
  | null => rfl
  | freed => exact h.elim
  | node this next ih =>
      simp only [spanPullEraseBlock]
      rw [dif_neg (hno this (by simp [Spans.toList])),
        ih h fun d hd => hno d (by simp [Spans.toList, hd])]
      rfl

end Sunela.Span
