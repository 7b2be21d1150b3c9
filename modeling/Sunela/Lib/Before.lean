import Mathlib.Data.List.Nodup
import Mathlib.Data.List.Perm.Basic

/-! # Places in a list -/

namespace Sunela

variable {α κ : Type} {l l' : List α} {x y z : α}

/-- One item comes before another. -/
def Before (l : List α) (x y : α) : Prop := [x, y].Sublist l

instance [DecidableEq α] (l : List α) (x y : α) : Decidable (Before l x y) :=
  inferInstanceAs (Decidable ([x, y].Sublist l))

theorem before_cons : Before (z :: l) x y ↔ z = x ∧ y ∈ l ∨ Before l x y := by
  constructor
  · intro h
    cases h with
    | cons _ h => exact .inr h
    | cons_cons _ h => exact .inl ⟨rfl, by simpa using h⟩
  · rintro (⟨rfl, h⟩ | h)
    · exact (List.singleton_sublist.mpr h).cons_cons z
    · exact h.cons z

theorem not_before_nil : ¬ Before [] x y := by
  intro h
  cases h

theorem Before.left (h : Before l x y) : x ∈ l := h.subset (by simp)

theorem Before.right (h : Before l x y) : y ∈ l := h.subset (by simp)

theorem Before.mono (h : Before l x y) (hs : l.Sublist l') : Before l' x y := h.trans hs

theorem before_append (hx : x ∈ l) (hy : y ∈ l') : Before (l ++ l') x y :=
  (List.singleton_sublist.mpr hx).append (List.singleton_sublist.mpr hy)

theorem Before.ne (hn : l.Nodup) (h : Before l x y) : x ≠ y := by
  have hxy := hn.sublist h
  simpa using hxy

/-- Two items do not come one before the other both ways. -/
theorem Before.asymm (hn : l.Nodup) (h : Before l x y) : ¬ Before l y x := by
  intro h'
  induction l with
  | nil => exact not_before_nil h
  | cons z l ih =>
      obtain ⟨hz, hn⟩ := List.nodup_cons.mp hn
      rcases before_cons.mp h with ⟨rfl, hy⟩ | h
      · rcases before_cons.mp h' with ⟨rfl, -⟩ | h'
        · exact hz hy
        · exact hz h'.right
      · rcases before_cons.mp h' with ⟨rfl, -⟩ | h'
        · exact hz h.right
        · exact ih hn h h'

theorem before_total (hx : x ∈ l) (hy : y ∈ l) (hne : x ≠ y) : Before l x y ∨ Before l y x := by
  induction l with
  | nil => cases hx
  | cons z l ih =>
      rw [before_cons, before_cons]
      rcases List.mem_cons.mp hx with rfl | hxl
      · rcases List.mem_cons.mp hy with rfl | hyl
        · exact absurd rfl hne
        · exact .inl (.inl ⟨rfl, hyl⟩)
      · rcases List.mem_cons.mp hy with rfl | hyl
        · exact .inr (.inl ⟨rfl, hxl⟩)
        · exact (ih hxl hyl).imp .inr .inr

theorem Before.trans (hn : l.Nodup) (h : Before l x y) (h' : Before l y z) : Before l x z := by
  induction l with
  | nil => exact absurd h not_before_nil
  | cons w l ih =>
      obtain ⟨hw, hn⟩ := List.nodup_cons.mp hn
      rw [before_cons] at h h' ⊢
      rcases h with ⟨rfl, hy⟩ | h
      · rcases h' with ⟨rfl, -⟩ | h'
        · exact absurd hy hw
        · exact .inl ⟨rfl, h'.right⟩
      · rcases h' with ⟨rfl, -⟩ | h'
        · exact absurd h.right hw
        · exact .inr (ih hn h h')

theorem pairwise_before (l : List α) : l.Pairwise (Before l) := by
  induction l with
  | nil => exact .nil
  | cons z l ih =>
      apply List.pairwise_cons.mpr ⟨?_, ?_⟩
      · exact fun y hy => before_cons.mpr (.inl ⟨rfl, hy⟩)
      · exact ih.imp fun h => before_cons.mpr (.inr h)

theorem Before.of_pairwise {R : α → α → Prop} (h : l.Pairwise R) (hxy : Before l x y) : R x y := by
  have hpair := h.sublist hxy
  simpa using hpair

/-- The order of the items determines the list. -/
theorem eq_of_before (hn : l.Nodup) (hp : l.Perm l') (h : ∀ x y, Before l x y → Before l' x y) :
    l = l' := by
  have hn' : l'.Nodup := hp.nodup_iff.mp hn
  apply List.Perm.eq_of_pairwise _ _ (pairwise_before l') hp
  · intro a b _ _ hab hba
    exact absurd hba (hab.asymm hn')
  · exact (pairwise_before l).imp fun hxy => h _ _ hxy

/-- So do distinct keys of the items. -/
theorem eq_of_keys {k : α → κ} (hp : l.Perm l') (hn : (l.map k).Nodup)
    (h : l.map k = l'.map k) : l = l' := by
  induction l generalizing l' with
  | nil => exact hp.nil_eq
  | cons r l ih =>
      cases l' with
      | nil => cases h
      | cons r' l' =>
          have hr : r ∈ r' :: l' := hp.subset (by simp)
          have hn' : ((r' :: l').map k).Nodup := h ▸ hn
          obtain ⟨hkey, hrest⟩ := List.cons.inj h
          obtain rfl := List.inj_on_of_nodup_map hn' hr (by simp) hkey
          rw [ih hp.cons_inv (List.nodup_cons.mp hn).2 hrest]

end Sunela
