import Mathlib.Order.Defs.LinearOrder
import Mathlib.Order.Lattice
import Sunela.Lib.Forest

/-! # Forests that grow by paths

A forest of names grows by walking down a path. The last name is put in front of the first
sibling that is greater, and a missing name on the way comes last. -/

namespace Sunela.Forest

variable {κ : Type} [LinearOrder κ]

/-- Siblings are in ascending order. -/
def Ascending : Forest κ → Prop
  | nil => True
  | node s ch nx => (∀ t ∈ nx.tops, s < t) ∧ ch.Ascending ∧ nx.Ascending

/-- Change what is below a name. The name comes last if it is missing. -/
def enter (s : κ) (change : Forest κ → Forest κ) : Forest κ → Forest κ
  | nil => node s (change nil) nil
  | node t ch nx => if t = s then node t (change ch) nx else node t ch (enter s change nx)

def grow : List κ → Forest κ → Forest κ
  | [], F => F
  | [s], F => if s ∈ F.tops then F else F.insertBefore (fun t => s < t) s
  | s :: t :: q, F => F.enter s (grow (t :: q))

def growAll (ps : List (List κ)) : Forest κ := ps.foldl (fun F p => grow p F) nil

variable {F G : Forest κ} {s t : κ} {c p q : List κ} {ps ps' : List (List κ)}
  {change : Forest κ → Forest κ}

/-! ## Paths -/

omit [LinearOrder κ] in
theorem tops_sublist_entries {α : Type} (F : Forest α) : F.tops.Sublist F.entries := by
  induction F with
  | nil => exact List.Sublist.refl _
  | node e ch nx _ ih =>
      rw [tops, entries]
      exact (ih.trans (List.sublist_append_right _ _)).cons_cons e

omit [LinearOrder κ] in
theorem mem_chains_node {ch nx : Forest κ} :
    c ∈ (node s ch nx).chains ↔ c = [s] ∨ (∃ d ∈ ch.chains, c = s :: d) ∨ c ∈ nx.chains := by
  simp only [chains, List.mem_cons, List.mem_append, List.mem_map]
  constructor
  · rintro (h | ⟨d, hd, rfl⟩ | h)
    · exact .inl h
    · exact .inr (.inl ⟨d, hd, rfl⟩)
    · exact .inr (.inr h)
  · rintro (h | ⟨d, hd, rfl⟩ | h)
    · exact .inl h
    · exact .inr (.inl ⟨d, hd, rfl⟩)
    · exact .inr (.inr h)

omit [LinearOrder κ] in
theorem head_mem_tops (h : s :: c ∈ F.chains) : s ∈ F.tops :=
  singleton_mem_chains (chains_of_append (c := [s]) h (by simp))

omit [LinearOrder κ] in
theorem prefix_cons : c ≠ [] ∧ c <+: s :: q ↔ c = [s] ∨ ∃ d, (d ≠ [] ∧ d <+: q) ∧ c = s :: d := by
  constructor
  · rintro ⟨hne, hpre⟩
    cases c with
    | nil => exact absurd rfl hne
    | cons u c =>
        obtain ⟨rfl, hc⟩ := List.cons_prefix_cons.mp hpre
        by_cases hnil : c = []
        · exact .inl (by rw [hnil])
        · exact .inr ⟨c, ⟨hnil, hc⟩, rfl⟩
  · rintro (rfl | ⟨d, ⟨-, hd⟩, rfl⟩)
    · simp
    · exact ⟨by simp, List.cons_prefix_cons.mpr ⟨rfl, hd⟩⟩

theorem mem_chains_enter
    (hchange : ∀ ch d, d ∈ (change ch).chains ↔ d ∈ ch.chains ∨ d ≠ [] ∧ d <+: q) :
    c ∈ (F.enter s change).chains ↔ c ∈ F.chains ∨ c ≠ [] ∧ c <+: s :: q := by
  induction F with
  | nil =>
      rw [enter, mem_chains_node, prefix_cons]
      simp [hchange, chains]
  | node t ch nx _ ih =>
      rw [enter]
      split
      · next ht =>
          subst ht
          have hmem : (∃ d ∈ (change ch).chains, c = t :: d) ↔
              (∃ d ∈ ch.chains, c = t :: d) ∨ ∃ d, (d ≠ [] ∧ d <+: q) ∧ c = t :: d := by
            simp only [hchange, or_and_right, exists_or]
          rw [mem_chains_node, mem_chains_node, prefix_cons, hmem]
          constructor
          · rintro (h | (h | h) | h)
            · exact .inl (.inl h)
            · exact .inl (.inr (.inl h))
            · exact .inr (.inr h)
            · exact .inl (.inr (.inr h))
          · rintro ((h | h | h) | h | h)
            · exact .inl h
            · exact .inr (.inl (.inl h))
            · exact .inr (.inr h)
            · exact .inl h
            · exact .inr (.inl (.inr h))
      · rw [mem_chains_node, mem_chains_node, ih, or_assoc, or_assoc]

/-- A path adds its prefixes. -/
theorem mem_chains_grow : c ∈ (grow p F).chains ↔ c ∈ F.chains ∨ c ≠ [] ∧ c <+: p := by
  induction p generalizing F c with
  | nil => simp [grow]
  | cons s p ih =>
      cases p with
      | nil =>
          have hone : c ≠ [] ∧ c <+: [s] ↔ c = [s] := by
            cases c with
            | nil => simp
            | cons u c => simp [List.cons_prefix_cons]
          rw [hone, grow]
          split
          · next hs =>
              constructor
              · exact .inl
              · rintro (h | rfl)
                · exact h
                · exact mem_chains_of_tops hs
          · rw [(chains_insertBefore _ s F).mem_iff]
            simp only [List.mem_cons]
            tauto
      | cons t q =>
          rw [grow]
          exact mem_chains_enter fun ch d => ih

theorem mem_chains_growAll : c ∈ (growAll ps).chains ↔ c ≠ [] ∧ ∃ p ∈ ps, c <+: p := by
  have hfold : ∀ F : Forest κ, c ∈ (ps.foldl (fun F p => grow p F) F).chains ↔
      c ∈ F.chains ∨ c ≠ [] ∧ ∃ p ∈ ps, c <+: p := by
    induction ps with
    | nil => simp
    | cons p ps ih =>
        intro F
        rw [List.foldl_cons, ih, mem_chains_grow]
        simp only [List.mem_cons, exists_eq_or_imp]
        tauto
  rw [growAll, hfold]
  simp [chains]

/-! ## Ascending order -/

/-- The paths determine the forest. -/
theorem Ascending.eq (hF : F.Ascending) (hG : G.Ascending)
    (h : ∀ c, c ∈ F.chains ↔ c ∈ G.chains) : F = G := by
  induction F generalizing G with
  | nil =>
      cases G with
      | nil => rfl
      | node t ch nx => exact absurd ((h [t]).mpr (by simp [chains])) (by simp [chains])
  | node s ch nx ihc ihn =>
      cases G with
      | nil => exact absurd ((h [s]).mp (by simp [chains])) (by simp [chains])
      | node t ch' nx' =>
          obtain ⟨hs, hch, hnx⟩ := hF
          obtain ⟨ht, hch', hnx'⟩ := hG
          have hst : s = t := by
            have h1 : s ∈ (node t ch' nx').tops :=
              head_mem_tops ((h [s]).mp (by simp [chains]))
            have h2 : t ∈ (node s ch nx).tops :=
              head_mem_tops ((h [t]).mpr (by simp [chains]))
            rcases List.mem_cons.mp h1 with h1 | h1
            · exact h1
            · rcases List.mem_cons.mp h2 with h2 | h2
              · exact h2.symm
              · exact absurd (hs t h2) (lt_asymm (ht s h1))
          subst hst
          have hne : ∀ d, s :: d ∉ nx.chains := fun d hd => lt_irrefl s (hs s (head_mem_tops hd))
          have hne' : ∀ d, s :: d ∉ nx'.chains :=
            fun d hd => lt_irrefl s (ht s (head_mem_tops hd))
          have hbelow : ∀ d, d ∈ ch.chains ↔ d ∈ ch'.chains := by
            intro d
            by_cases hd : d = []
            · subst hd
              exact ⟨fun hd => absurd rfl (chains_ne_nil hd), fun hd => absurd rfl (chains_ne_nil hd)⟩
            · have hmem := h (s :: d)
              simpa [mem_chains_node, hne, hne', hd] using hmem
          have hnext : ∀ d, d ∈ nx.chains ↔ d ∈ nx'.chains := by
            intro d
            cases d with
            | nil =>
                exact ⟨fun hd => absurd rfl (chains_ne_nil hd), fun hd => absurd rfl (chains_ne_nil hd)⟩
            | cons u d =>
                by_cases hu : u = s
                · subst hu
                  exact ⟨fun hd => absurd hd (hne d), fun hd => absurd hd (hne' d)⟩
                · have hmem := h (u :: d)
                  simpa [mem_chains_node, hu] using hmem
          rw [ihc hch hch' hbelow, ihn hnx hnx' hnext]

theorem Ascending.insertBefore (hF : F.Ascending) (hs : s ∉ F.tops) :
    (F.insertBefore (fun t => s < t) s).Ascending := by
  induction F with
  | nil => simp [Forest.insertBefore, Ascending, tops]
  | node t ch nx _ ih =>
      simp only [tops, List.mem_cons, not_or] at hs
      rw [Forest.insertBefore]
      split
      · next hlt =>
          have hlt' : s < t := of_decide_eq_true hlt
          refine ⟨?_, trivial, hF⟩
          intro u hu
          rcases List.mem_cons.mp hu with rfl | hu
          · exact hlt'
          · exact lt_trans hlt' (hF.1 u hu)
      · next hlt =>
          have hlt' : t < s := by
            apply lt_of_le_of_ne _ (Ne.symm hs.1)
            exact not_lt.mp fun h => hlt (decide_eq_true h)
          refine ⟨?_, hF.2.1, ih hF.2.2 hs.2⟩
          intro u hu
          rcases List.mem_cons.mp ((tops_insertBefore _ s nx).mem_iff.mp hu) with rfl | hu
          · exact hlt'
          · exact hF.1 u hu

theorem mem_tops_enter : t ∈ (F.enter s change).tops ↔ t = s ∨ t ∈ F.tops := by
  induction F with
  | nil => simp [enter, tops]
  | node u ch nx _ ih =>
      rw [enter]
      split
      · next hu =>
          subst hu
          simp [tops]
      · simp only [tops, List.mem_cons, ih]
        tauto

theorem Ascending.enter (hF : F.Ascending) (hlast : ∀ u ∈ F.tops, ¬ s < u)
    (hch : ∀ ch : Forest κ, ch.Ascending → (∀ d ∈ ch.chains, s :: d ∈ F.chains) →
      (change ch).Ascending) : (F.enter s change).Ascending := by
  induction F with
  | nil => exact ⟨by simp [tops], hch nil trivial (by simp [chains]), trivial⟩
  | node t ch nx _ ih =>
      rw [Forest.enter]
      split
      · next ht =>
          subst ht
          refine ⟨hF.1, hch ch hF.2.1 fun d hd => ?_, hF.2.2⟩
          exact mem_chains_node.mpr (.inr (.inl ⟨d, hd, rfl⟩))
      · next ht =>
          have hrest : (nx.enter s change).Ascending := by
            apply ih hF.2.2 fun u hu => hlast u (List.mem_cons_of_mem t hu)
            intro ch' h' hd
            exact hch ch' h' fun d hmem => mem_chains_node.mpr (.inr (.inr (hd d hmem)))
          refine ⟨?_, hF.2.1, hrest⟩
          intro u hu
          rcases mem_tops_enter.mp hu with rfl | hu
          · exact lt_of_le_of_ne (not_lt.mp (hlast t (by simp [tops]))) ht
          · exact hF.1 u hu

/-- No name that the path goes on from has a greater sibling. -/
def Fits (p : List κ) (F : Forest κ) : Prop :=
  ∀ d s q u, p = d ++ s :: q → q ≠ [] → d ++ [u] ∈ F.chains → ¬ s < u

theorem Ascending.grow (hF : F.Ascending) (hp : Fits p F) : (grow p F).Ascending := by
  induction p generalizing F with
  | nil => exact hF
  | cons s p ih =>
      cases p with
      | nil =>
          rw [Forest.grow]
          split
          · exact hF
          · next hs => exact hF.insertBefore hs
      | cons t q =>
          rw [Forest.grow]
          apply hF.enter
          · intro u hu
            exact hp [] s (t :: q) u rfl (by simp) (mem_chains_of_tops hu)
          · intro ch hch hd
            apply ih hch
            intro d v x u hv hx hu
            exact hp (s :: d) v x u (by rw [hv]; rfl) hx (hd _ hu)

/-- No name that a path goes on from has a greater sibling among the names of the paths. -/
def LastOnly (ps : List (List κ)) : Prop :=
  ∀ p ∈ ps, ∀ p' ∈ ps, ∀ d s q u y, p = d ++ s :: q → q ≠ [] → p' = d ++ u :: y → ¬ s < u

theorem LastOnly.ascending (h : LastOnly ps) : (growAll ps).Ascending := by
  have hfold : ∀ (rest : List (List κ)) (F : Forest κ), (∀ p ∈ rest, p ∈ ps) → F.Ascending →
      (∀ c ∈ F.chains, ∃ p ∈ ps, c <+: p) →
      (rest.foldl (fun F p => grow p F) F).Ascending := by
    intro rest
    induction rest with
    | nil => exact fun F _ hF _ => hF
    | cons p rest ih =>
        intro F hmem hF hchains
        have hp : p ∈ ps := hmem p (by simp)
        rw [List.foldl_cons]
        apply ih _ fun p' hp' => hmem p' (by simp [hp'])
        · apply hF.grow
          intro d s q u hs hq hu
          obtain ⟨p', hp', y, hy⟩ := hchains _ hu
          exact h p hp p' hp' d s q u y hs hq (by rw [← hy]; simp)
        · intro c hc
          rcases mem_chains_grow.mp hc with hc | ⟨-, hc⟩
          · exact hchains c hc
          · exact ⟨p, hp, hc⟩
  exact hfold ps nil (fun _ hp => hp) trivial (by simp [chains])

/-- Such paths may come in any order. -/
theorem LastOnly.growAll_perm (h : LastOnly ps) (hp : ps.Perm ps') : growAll ps = growAll ps' := by
  have h' : LastOnly ps' := fun p hm p' hm' => h p (hp.mem_iff.mpr hm) p' (hp.mem_iff.mpr hm')
  apply h.ascending.eq h'.ascending
  intro c
  rw [mem_chains_growAll, mem_chains_growAll]
  simp only [hp.mem_iff]

/-! ## Names keep their places -/

/-- What is below a name. -/
def kids (s : κ) (F : Forest κ) : Forest κ := (F.child id s).elim nil Prod.snd

/-- What is below a path. -/
def under : List κ → Forest κ → Forest κ
  | [], F => F
  | s :: d, F => under d (kids s F)

theorem kids_node {ch nx : Forest κ} : kids t (node s ch nx) = if s = t then ch else kids t nx := by
  simp only [kids, child, id_eq]
  split <;> rfl

theorem kids_enter : kids t (F.enter s change) = if s = t then change (kids t F) else kids t F := by
  induction F with
  | nil =>
      rw [enter, kids_node]
      rfl
  | node u ch nx _ ih =>
      rw [enter]
      by_cases hu : u = s
      · subst hu
        rw [if_pos rfl, kids_node, kids_node]
        split <;> rfl
      · rw [if_neg hu, kids_node, kids_node, ih]
        by_cases ht : u = t
        · subst ht
          rw [if_pos rfl, if_neg fun h => hu h.symm, if_pos rfl]
        · rw [if_neg ht, if_neg ht]

theorem kids_of_notMem (h : t ∉ F.tops) : kids t F = nil := by
  have hnone : F.child id t = none := child_eq_none.mpr (by simpa using h)
  rw [kids, hnone]
  rfl

theorem kids_insertBefore {after : κ → Bool} (h : s ∉ F.tops) :
    kids t (F.insertBefore after s) = kids t F := by
  have hnone : F.child id s = none := child_eq_none.mpr (by simpa using h)
  have hchild : (F.insertBefore after s).child id t = if s = t then some (s, nil) else
      F.child id t := child_insertBefore hnone t
  unfold kids
  rw [hchild]
  split
  · next hs =>
      obtain rfl : s = t := hs
      rw [hnone]
      rfl
  · rfl

theorem under_nil (d : List κ) : under d nil = nil := by
  induction d with
  | nil => rfl
  | cons s d ih => exact ih

/-- Only what is below the names of a path grows. -/
theorem under_grow_append (d : List κ) (hp : p ≠ []) :
    under d (grow (d ++ p) F) = grow p (under d F) := by
  induction d generalizing F with
  | nil => rfl
  | cons s d ih =>
      obtain ⟨t, q, hq⟩ := List.exists_cons_of_ne_nil (List.append_ne_nil_of_right_ne_nil d hp)
      rw [List.cons_append, hq, grow, ← hq, under, kids_enter, if_pos rfl, ih, under]

theorem tops_enter_sublist : F.tops.Sublist (F.enter s change).tops := by
  induction F with
  | nil => exact List.nil_sublist _
  | node u ch nx _ ih =>
      rw [enter]
      split
      · exact List.Sublist.refl _
      · exact ih.cons_cons u

omit [LinearOrder κ] in
theorem tops_insertBefore_sublist {after : κ → Bool} :
    F.tops.Sublist (F.insertBefore after s).tops := by
  induction F with
  | nil => exact List.nil_sublist _
  | node u ch nx _ ih =>
      rw [Forest.insertBefore]
      split
      · exact List.sublist_cons_self _ _
      · exact ih.cons_cons u

/-- The names that are there keep their order. -/
theorem tops_grow_sublist (d p : List κ) : (under d F).tops.Sublist (under d (grow p F)).tops := by
  induction p generalizing d F with
  | nil => exact List.Sublist.refl _
  | cons s p ih =>
      cases p with
      | nil =>
          rw [grow]
          split
          · exact List.Sublist.refl _
          · next hs =>
              cases d with
              | nil => exact tops_insertBefore_sublist
              | cons t d =>
                  rw [under, under, kids_insertBefore hs]
      | cons v q =>
          rw [grow]
          cases d with
          | nil => exact tops_enter_sublist
          | cons t d =>
              rw [under, under, kids_enter]
              split
              · exact ih d
              · exact List.Sublist.refl _

theorem tops_growAll_sublist (d : List κ) :
    (under d F).tops.Sublist (under d (ps.foldl (fun F p => grow p F) F)).tops := by
  induction ps generalizing F with
  | nil => exact List.Sublist.refl _
  | cons p ps ih => exact (tops_grow_sublist d p).trans ih

/-- The first two paths settle the order of the names below a path. -/
theorem tops_first_two {d a b : List κ} (ha : a ≠ []) (hb : b ≠ []) :
    (grow b (grow a nil)).tops.Sublist
      (under d (growAll ((d ++ a) :: (d ++ b) :: ps))).tops := by
  have hfirst : under d (grow (d ++ b) (grow (d ++ a) nil)) = grow b (grow a nil) := by
    rw [under_grow_append d hb, under_grow_append d ha, under_nil]
  rw [← hfirst]
  exact tops_growAll_sublist d

/-- Two orders of a name that goes on and a greater sibling. -/
theorem growAll_order {d : List κ} {u : κ} {y : List κ} (hq : q ≠ []) (hlt : s < u) :
    [s, u].Sublist (under d (growAll ((d ++ s :: q) :: (d ++ u :: y) :: ps))).tops ∧
      [u, s].Sublist (under d (growAll ((d ++ u :: y) :: (d ++ s :: q) :: ps))).tops := by
  obtain ⟨t, q, rfl⟩ := List.exists_cons_of_ne_nil hq
  have hus : u ≠ s := (ne_of_lt hlt).symm
  have hlt' : ¬ u < s := lt_asymm hlt
  constructor
  · apply List.Sublist.trans _ (tops_first_two (by simp) (by simp))
    cases y with
    | nil => simp [grow, enter, Forest.insertBefore, tops, hus, hlt']
    | cons v y => simp [grow, enter, tops, hus.symm]
  · apply List.Sublist.trans _ (tops_first_two (by simp) (by simp))
    cases y with
    | nil => simp [grow, enter, Forest.insertBefore, tops, hus]
    | cons v y => simp [grow, enter, tops, hus]

/-! ## Distinct names -/

theorem Distinct.enter (hF : F.Distinct id) (hch : ∀ ch : Forest κ, ch.Distinct id →
    (change ch).Distinct id) : (F.enter s change).Distinct id := by
  induction F with
  | nil => exact ⟨by simp [tops], hch nil trivial, trivial⟩
  | node u ch nx _ ih =>
      rw [Forest.enter]
      split
      · exact ⟨hF.1, hch ch hF.2.1, hF.2.2⟩
      · next hu =>
          refine ⟨?_, hF.2.1, ih hF.2.2⟩
          intro hmem
          rw [List.map_id, mem_tops_enter] at hmem
          rcases hmem with rfl | hmem
          · exact hu rfl
          · exact hF.1 (by simpa using hmem)

theorem Distinct.grow (hF : F.Distinct id) (p : List κ) : (grow p F).Distinct id := by
  induction p generalizing F with
  | nil => exact hF
  | cons s p ih =>
      cases p with
      | nil =>
          rw [Forest.grow]
          split
          · exact hF
          · next hs => exact hF.insertBefore (child_eq_none.mpr (by simpa using hs))
      | cons t q =>
          rw [Forest.grow]
          exact hF.enter fun ch hch => ih hch

theorem growAll_distinct (ps : List (List κ)) : (growAll ps).Distinct id := by
  have hfold : ∀ F : Forest κ, F.Distinct id →
      (ps.foldl (fun F p => Forest.grow p F) F).Distinct id := by
    induction ps with
    | nil => exact fun F hF => hF
    | cons p ps ih => exact fun F hF => ih _ (hF.grow p)
  exact hfold nil trivial

omit [LinearOrder κ] in
theorem Distinct.nodup_tops (hF : F.Distinct id) : F.tops.Nodup := by
  induction F with
  | nil => exact List.nodup_nil
  | node s ch nx _ ih =>
      obtain ⟨hs, -, hnx⟩ := hF
      exact List.nodup_cons.mpr ⟨by simpa using hs, ih hnx⟩

theorem Distinct.under (hF : F.Distinct id) (d : List κ) : (under d F).Distinct id := by
  induction d generalizing F with
  | nil => exact hF
  | cons s d ih =>
      apply ih
      unfold kids
      cases hc : F.child id s with
      | none => trivial
      | some r => exact child_distinct hF hc

/-! ## Other orders at the top -/

theorem kids_of_sibling (hF : F.tops.Nodup) {r : κ × Forest κ} (hr : r ∈ F.siblings) :
    kids r.1 F = r.2 := by
  induction F with
  | nil => cases hr
  | node s ch nx _ ih =>
      obtain ⟨hs, hnx⟩ := List.nodup_cons.mp hF
      rw [kids_node]
      rcases List.mem_cons.mp hr with rfl | hrest
      · rw [if_pos rfl]
      · have hne : s ≠ r.1 := by
          rintro rfl
          apply hs
          rw [tops_eq]
          exact List.mem_map_of_mem hrest
        rw [if_neg hne]
        exact ih hnx hrest

theorem kids_perm (hF : F.tops.Nodup) (h : F.siblings.Perm G.siblings) (s : κ) :
    kids s F = kids s G := by
  have htops : F.tops.Perm G.tops := by
    rw [tops_eq, tops_eq]
    exact h.map Prod.fst
  have hG : G.tops.Nodup := htops.nodup_iff.mp hF
  by_cases hs : s ∈ F.tops
  · rw [tops_eq] at hs
    obtain ⟨r, hr, rfl⟩ := List.mem_map.mp hs
    rw [kids_of_sibling hF hr, kids_of_sibling hG (h.mem_iff.mp hr)]
  · rw [kids_of_notMem hs, kids_of_notMem fun hs' => hs (htops.mem_iff.mpr hs')]

theorem eq_of_kids (hF : F.tops.Nodup) (ht : F.tops = G.tops) (hk : ∀ s, kids s F = kids s G) :
    F = G := by
  have hG : G.tops.Nodup := ht ▸ hF
  have hsib : ∀ A : Forest κ, A.tops.Nodup → A.siblings = A.tops.map fun s => (s, kids s A) := by
    intro A hA
    have hid : A.siblings.map (fun r => (r.1, kids r.1 A)) = A.siblings.map id :=
      List.map_congr_left fun r hr => by rw [kids_of_sibling hA hr, id]
    rw [tops_eq, List.map_map]
    exact (List.map_id _).symm.trans hid.symm
  rw [← ofSiblings_siblings F, ← ofSiblings_siblings G, hsib F hF, hsib G hG, ht]
  simp only [hk]

end Sunela.Forest
