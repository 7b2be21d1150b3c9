import Sunela.Lib.Before

/-! # Chains of references

Items that refer to each other by name, each to the one before it. -/

namespace Sunela

variable {α κ : Type}

/-- Each item refers to the one before it, and the first one to `q`. -/
def Chain (name : α → κ) (ref : α → Option κ) : Option κ → List α → Prop
  | _, [] => True
  | q, x :: l => ref x = q ∧ Chain name ref (some (name x)) l

/-- What an item that comes after the list has to refer to. -/
def chainEnd (name : α → κ) (q : Option κ) (l : List α) : Option κ :=
  l.foldl (fun _ x => some (name x)) q

variable {name : α → κ} {ref ref' : α → Option κ} {q : Option κ} {l A B : List α} {e x : α}

instance [DecidableEq κ] (name : α → κ) (ref : α → Option κ) (q : Option κ) (l : List α) :
    Decidable (Chain name ref q l) := by
  induction l generalizing q with
  | nil => exact .isTrue trivial
  | cons x l ih => exact @instDecidableAnd _ _ inferInstance (ih (some (name x)))

theorem chain_append : Chain name ref q (A ++ B) ↔
    Chain name ref q A ∧ Chain name ref (chainEnd name q A) B := by
  induction A generalizing q with
  | nil => simp [Chain, chainEnd]
  | cons x A ih => simp [Chain, chainEnd, ih, and_assoc]

theorem chain_congr (h : ∀ x ∈ l, ref x = ref' x) :
    Chain name ref q l ↔ Chain name ref' q l := by
  induction l generalizing q with
  | nil => exact Iff.rfl
  | cons x l ih =>
      simp only [Chain, h x (by simp), ih fun y hy => h y (List.mem_cons_of_mem _ hy)]

/-- Two lists of items of the same names, whose references agree. -/
theorem chain_zip {β : Type} {name' : β → κ} {ref' : β → Option κ} {l' : List β}
    (hn : l.map name = l'.map name') (h : ∀ x ∈ l, ∀ y ∈ l', name x = name' y → ref x = ref' y) :
    Chain name ref q l ↔ Chain name' ref' q l' := by
  induction l generalizing l' q with
  | nil =>
      obtain rfl : l' = [] := List.map_eq_nil_iff.mp hn.symm
      exact Iff.rfl
  | cons x l ih =>
      cases l' with
      | nil => cases hn
      | cons y l' =>
          obtain ⟨hxy, hn⟩ := List.cons.inj hn
          have hrest := @ih (some (name x)) l' hn fun x hx y hy =>
            h x (List.mem_cons_of_mem _ hx) y (List.mem_cons_of_mem _ hy)
          rw [Chain, Chain, h x (by simp) y (by simp) hxy, hrest, hxy]

theorem chainEnd_eq (l : List α) : chainEnd name none l = l.getLast?.map name := by
  rcases List.eq_nil_or_concat' l with rfl | ⟨l, x, rfl⟩
  · rfl
  · simp [chainEnd]

theorem chainEnd_mem (name : α → κ) (q : Option κ) (l : List α) : chainEnd name q l = q ∨
    ∃ y ∈ l, chainEnd name q l = some (name y) := by
  induction l generalizing q with
  | nil => exact .inl rfl
  | cons x l ih =>
      right
      rcases @ih (some (name x)) with h | ⟨y, hy, h⟩
      · exact ⟨x, by simp, h⟩
      · exact ⟨y, List.mem_cons_of_mem _ hy, h⟩

/-- Items refer to others of the list, or to what comes before it. -/
theorem Chain.ref_mem (h : Chain name ref q l) (hx : x ∈ l) :
    ref x = q ∨ ∃ y ∈ l, ref x = some (name y) := by
  induction l generalizing q with
  | nil => cases hx
  | cons z l ih =>
      rcases List.mem_cons.mp hx with rfl | hx
      · exact .inl h.1
      · right
        rcases ih h.2 hx with hz | ⟨y, hy, he⟩
        · exact ⟨z, by simp, hz⟩
        · exact ⟨y, List.mem_cons_of_mem _ hy, he⟩

/-- No item refers to the last one. -/
theorem Chain.ref_ne (h : Chain name ref q l) (hn : (l.map name).Nodup)
    (hq : ∀ y ∈ l, q ≠ some (name y)) (hx : x ∈ l) : ref x ≠ chainEnd name q l := by
  induction l generalizing q with
  | nil => cases hx
  | cons z l ih =>
      obtain ⟨hz, hn⟩ := List.nodup_cons.mp hn
      have hne : ∀ y ∈ l, some (name z) ≠ some (name y) := by
        intro y hy he
        exact hz (Option.some.inj he ▸ List.mem_map_of_mem hy)
      rcases List.mem_cons.mp hx with rfl | hx
      · rw [h.1]
        change q ≠ chainEnd name (some (name x)) l
        rcases chainEnd_mem name (some (name x)) l with he | ⟨y, hy, he⟩
        · rw [he]
          exact hq x (by simp)
        · rw [he]
          exact hq y (List.mem_cons_of_mem _ hy)
      · exact ih h.2 hn hne hx

/-- An item is taken out, and what referred to it refers to what it referred to. -/
theorem Chain.remove [DecidableEq κ] (h : Chain name ref none (A ++ e :: B))
    (hn : ((A ++ e :: B).map name).Nodup) :
    Chain name (fun x => if ref x = some (name e) then ref e else ref x) none (A ++ B) := by
  obtain ⟨hA, he, hB⟩ := chain_append.mp h
  rw [List.map_append, List.map_cons, List.nodup_append] at hn
  obtain ⟨-, hnB, hdisj⟩ := hn
  obtain ⟨hnot, hnB⟩ := List.nodup_cons.mp hnB
  apply chain_append.mpr
  constructor
  · apply (chain_congr fun x hx => ?_).mp hA
    have hne : ref x ≠ some (name e) := by
      intro hx'
      rcases hA.ref_mem hx with hq | ⟨y, hy, hq⟩
      · rw [hq] at hx'
        cases hx'
      · rw [hq] at hx'
        exact hdisj _ (List.mem_map_of_mem hy) _ (by simp) (Option.some.inj hx')
    rw [if_neg hne]
  · cases B with
    | nil => trivial
    | cons y B =>
        refine ⟨(if_pos hB.1).trans he, (chain_congr fun x hx => ?_).mp hB.2⟩
        have hne : ref x ≠ some (name e) := by
          intro hx'
          rcases hB.2.ref_mem hx with hq | ⟨z, hz, hq⟩
          · rw [hq] at hx'
            exact hnot (by simp [← Option.some.inj hx'])
          · rw [hq] at hx'
            exact hnot (Option.some.inj hx' ▸ List.mem_map_of_mem (List.mem_cons_of_mem _ hz))
        rw [if_neg hne]

/-- An item is put in, and what referred to the one in front of it refers to it. -/
theorem Chain.insert [DecidableEq κ] (h : Chain name ref none (A ++ B))
    (hn : ((A ++ B).map name).Nodup) (he : ref' e = chainEnd name none A)
    (hr : ∀ x ∈ A ++ B,
      ref' x = if ref x = chainEnd name none A then some (name e) else ref x) :
    Chain name ref' none (A ++ e :: B) := by
  obtain ⟨hA, hB⟩ := chain_append.mp h
  rw [List.map_append, List.nodup_append] at hn
  obtain ⟨hnA, hnB, hdisj⟩ := hn
  apply chain_append.mpr
  refine ⟨(chain_congr fun x hx => ?_).mp hA, he, ?_⟩
  · rw [hr x (by simp [hx]), if_neg (hA.ref_ne hnA (by simp) hx)]
  · cases B with
    | nil => trivial
    | cons y B =>
        refine ⟨by rw [hr y (by simp), if_pos hB.1], (chain_congr fun x hx => ?_).mp hB.2⟩
        have hne : ref x ≠ chainEnd name none A := by
          intro hx'
          have hmem : ∃ z ∈ y :: B, ref x = some (name z) := by
            rcases hB.2.ref_mem hx with hq | ⟨z, hz, hq⟩
            · exact ⟨y, by simp, hq⟩
            · exact ⟨z, List.mem_cons_of_mem _ hz, hq⟩
          obtain ⟨z, hz, hq⟩ := hmem
          rcases chainEnd_mem name none A with hc | ⟨w, hw, hc⟩
          · rw [hq, hc] at hx'
            cases hx'
          · rw [hq, hc] at hx'
            exact hdisj _ (List.mem_map_of_mem hw) _ (List.mem_map_of_mem hz)
              (Option.some.inj hx').symm
        rw [hr x (by simp [hx]), if_neg hne]

/-- What an item refers to comes before it. -/
theorem Chain.before (h : Chain name ref q l) (hx : x ∈ l) {p : κ} (hp : ref x = some p) :
    q = some p ∨ Before (l.map name) p (name x) := by
  induction l generalizing q with
  | nil => cases hx
  | cons z l ih =>
      rcases List.mem_cons.mp hx with rfl | hx
      · exact .inl (h.1.symm.trans hp)
      · right
        rw [List.map_cons, before_cons]
        rcases ih h.2 hx with hz | hb
        · exact .inl ⟨Option.some.inj hz, List.mem_map_of_mem hx⟩
        · exact .inr hb

/-- An order in which every item comes after the one it refers to is that of the chain. -/
theorem Chain.eq_of_before {l' : List κ} (h : Chain name ref none l) (hn : (l.map name).Nodup)
    (hp : (l.map name).Perm l')
    (hb : ∀ x ∈ l, ∀ p, ref x = some p → Before l' p (name x)) : l.map name = l' := by
  have hn' : l'.Nodup := hp.nodup_iff.mp hn
  have hafter : ∀ (l : List α) (z : α), Chain name ref (some (name z)) l →
      (∀ x ∈ l, ∀ p, ref x = some p → Before l' p (name x)) →
      ∀ x ∈ l, Before l' (name z) (name x) := by
    intro l
    induction l with
    | nil => exact fun _ _ _ x hx => absurd hx (by simp)
    | cons y l ih =>
        intro z hc hb x hx
        have hzy := hb y (by simp) _ hc.1
        rcases List.mem_cons.mp hx with rfl | hx
        · exact hzy
        · exact hzy.trans hn' (ih y hc.2 (fun x hx => hb x (List.mem_cons_of_mem _ hx)) x hx)
  have hall : ∀ (l : List α) (q : Option κ), Chain name ref q l →
      (∀ x ∈ l, ∀ p, ref x = some p → Before l' p (name x)) →
      ∀ s t, Before (l.map name) s t → Before l' s t := by
    intro l
    induction l with
    | nil => exact fun _ _ _ s t hst => absurd hst not_before_nil
    | cons y l ih =>
        intro q hc hb s t hst
        have hrest : ∀ x ∈ l, ∀ p, ref x = some p → Before l' p (name x) :=
          fun x hx => hb x (List.mem_cons_of_mem _ hx)
        rw [List.map_cons, before_cons] at hst
        rcases hst with ⟨rfl, ht⟩ | hst
        · obtain ⟨x, hx, rfl⟩ := List.mem_map.mp ht
          exact hafter l y hc.2 hrest x hx
        · exact ih _ hc.2 hrest s t hst
  exact Sunela.eq_of_before hn hp (hall l none h hb)

end Sunela
