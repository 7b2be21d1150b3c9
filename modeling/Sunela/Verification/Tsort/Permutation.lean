import Mathlib.Data.List.Perm.Basic
import Mathlib.Data.List.Count
import Sunela.Model.Tsort

/-! # The sort rearranges the top-level entries

Every entry is either still waiting or has been put out, and each round of the loop puts out
an entry or gives up a reference. -/

namespace Sunela.Tsort

open Entry

/-- The entries that have not been put out yet. -/
def waiting (tmp : List Tmp) : List (DbEntry × Tree) := tmp.filterMap Tmp.input

/-- The entries and references that are left. -/
def load (tmp : List Tmp) : ℕ :=
  tmp.countP (fun t => t.input.isSome) + tmp.countP (fun t => t.prev.isSome)

theorem clear_input (p : ℕ) (t : Tmp) : (t.clear p).input = t.input := by
  unfold Tmp.clear
  split <;> rfl

theorem clear_prev {p : ℕ} {t : Tmp} (h : (t.clear p).prev.isSome) : t.prev.isSome := by
  unfold Tmp.clear at h
  split at h
  · simp at h
  · exact h

theorem waiting_map_clear (p : ℕ) (tmp : List Tmp) :
    waiting (tmp.map (Tmp.clear p)) = waiting tmp := by
  unfold waiting
  rw [List.filterMap_map]
  congr 1
  funext t
  exact clear_input p t

theorem waiting_set {tmp : List Tmp} {i : ℕ} {t : Tmp} {r : DbEntry × Tree}
    (h : tmp[i]? = some t) (hr : t.input = some r) :
    (r :: waiting (tmp.set i { t with input := none })).Perm (waiting tmp) := by
  induction tmp generalizing i with
  | nil => simp at h
  | cons x tmp ih =>
      cases i with
      | zero =>
          obtain rfl : x = t := by simpa using h
          simp [waiting, hr]
      | succ i =>
          have hi := ih (by simpa using h)
          simp only [waiting, List.set_cons_succ, List.filterMap_cons] at hi ⊢
          cases x.input with
          | none => exact hi
          | some y => exact (List.Perm.swap _ _ _).trans (hi.cons y)

theorem load_clear_le (p : ℕ) (tmp : List Tmp) : load (tmp.map (Tmp.clear p)) ≤ load tmp := by
  unfold load
  rw [List.countP_map, List.countP_map]
  have h1 : (fun t : Tmp => t.input.isSome) ∘ Tmp.clear p = fun t => t.input.isSome := by
    funext t
    simp [clear_input]
  rw [h1]
  refine Nat.add_le_add_left (List.countP_mono_left fun t _ ht => ?_) _
  exact clear_prev ht

theorem load_set {tmp : List Tmp} {i : ℕ} {t : Tmp} (h : tmp[i]? = some t)
    (hr : t.input.isSome) : load (tmp.set i { t with input := none }) < load tmp := by
  induction tmp generalizing i with
  | nil => simp at h
  | cons x tmp ih =>
      cases i with
      | zero =>
          obtain rfl : x = t := by simpa using h
          simp [load, List.countP_cons, hr]
      | succ i =>
          have hi := ih (by simpa using h)
          simp only [load, List.set_cons_succ, List.countP_cons] at hi ⊢
          omega

/-! ## One sweep -/

/-- The place `i` of the array holds no entry any more. -/
def Done (s : Sweep) (i : ℕ) : Prop := ∀ t, s.tmp[i]? = some t → t.input = none

/-- A visit finds no entry, or one that has to wait, or puts one out. -/
theorem visit_cases (s : Sweep) (i : ℕ) :
    (s.visit i = s ∧ Done s i) ∨
    (∃ t ∈ s.tmp, t.input.isSome ∧ t.prev.isSome ∧ s.visit i = { s with more := true }) ∨
    ∃ t r, s.tmp[i]? = some t ∧ t.input = some r ∧ s.visit i =
      { s with
        tmp := (s.tmp.set i { t with input := none }).map (Tmp.clear r.1.ptr)
        out := s.out ++ [r]
        progress := true } := by
  cases ht : s.tmp[i]? with
  | none => exact .inl ⟨by simp [Sweep.visit, ht], fun t h => by simp [ht] at h⟩
  | some t =>
      cases hr : t.input with
      | none =>
          refine .inl ⟨by simp [Sweep.visit, ht, hr], fun t' h => ?_⟩
          rw [ht] at h
          rw [← Option.some.inj h, hr]
      | some r =>
          cases hp : t.prev with
          | none => exact .inr (.inr ⟨t, r, rfl, hr, by simp [Sweep.visit, ht, hr, hp]⟩)
          | some p =>
              exact .inr (.inl ⟨t, List.mem_of_getElem? ht, by simp [hr], by simp [hp],
                by simp [Sweep.visit, ht, hr, hp]⟩)

/-- What holds at every point of a sweep that started from `tmp` and `out`. -/
structure Sweeping (tmp : List Tmp) (out : List (DbEntry × Tree)) (s : Sweep) : Prop where
  all : (s.out ++ waiting s.tmp).Perm (out ++ waiting tmp)
  length : s.tmp.length = tmp.length
  idle : s.progress = false → s.tmp = tmp
  busy : s.progress = true → load s.tmp < load tmp
  stuck : s.more = true → s.progress = false → ∃ t ∈ tmp, t.input.isSome ∧ t.prev.isSome

theorem visit_sweeping {tmp : List Tmp} {out : List (DbEntry × Tree)} {s : Sweep}
    (h : Sweeping tmp out s) (i : ℕ) : Sweeping tmp out (s.visit i) := by
  rcases visit_cases s i with ⟨he, -⟩ | ⟨t, ht, hin, hprev, he⟩ | ⟨t, r, ht, hr, he⟩
  · rw [he]
    exact h
  · rw [he]
    refine ⟨h.all, h.length, h.idle, h.busy, fun _ hp => ⟨t, ?_, hin, hprev⟩⟩
    rw [← h.idle hp]
    exact ht
  · rw [he]
    refine ⟨?_, by simpa using h.length, by simp, fun _ => ?_, by simp⟩
    · refine List.Perm.trans ?_ h.all
      simp only [waiting_map_clear, List.append_assoc, List.singleton_append]
      exact (waiting_set ht hr).append_left _
    · have hlt := load_set ht (by simp [hr] : t.input.isSome)
      have hle := load_clear_le r.1.ptr (s.tmp.set i { t with input := none })
      have hs : load s.tmp ≤ load tmp := by
        cases hp : s.progress with
        | true => exact Nat.le_of_lt (h.busy hp)
        | false => exact Nat.le_of_eq (by rw [h.idle hp])
      exact Nat.lt_of_le_of_lt hle (Nat.lt_of_lt_of_le hlt hs)

theorem sweep_sweeping (tmp : List Tmp) (out : List (DbEntry × Tree)) :
    Sweeping tmp out (sweep tmp out) := by
  have h : ∀ (l : List ℕ) (s : Sweep), Sweeping tmp out s →
      Sweeping tmp out (l.foldl Sweep.visit s) := by
    intro l
    induction l with
    | nil => exact fun _ hs => hs
    | cons i l ih => exact fun s hs => ih _ (visit_sweeping hs i)
  exact h _ _ ⟨List.Perm.refl _, rfl, fun _ => rfl, by simp, by simp⟩

theorem visit_more {s : Sweep} {i : ℕ} (h : (s.visit i).more = false) :
    s.more = false ∧ Done (s.visit i) i := by
  rcases visit_cases s i with ⟨he, hd⟩ | ⟨t, -, -, -, he⟩ | ⟨t, r, ht, -, he⟩
  · rw [he] at h ⊢
    exact ⟨h, hd⟩
  · rw [he] at h
    simp at h
  · rw [he] at h ⊢
    refine ⟨h, fun t' hs => ?_⟩
    have hi : i < s.tmp.length := (List.getElem?_eq_some_iff.mp ht).1
    simp only [List.getElem?_map, List.getElem?_set_self hi, Option.map_some,
      Option.some.injEq] at hs
    rw [← hs, clear_input]

theorem visit_done {s : Sweep} {i j : ℕ} (h : Done s j) : Done (s.visit i) j := by
  rcases visit_cases s i with ⟨he, -⟩ | ⟨t, -, -, -, he⟩ | ⟨t, r, -, -, he⟩
  · rw [he]
    exact h
  · rw [he]
    exact h
  · rw [he]
    intro t' hs
    simp only [List.getElem?_map, List.getElem?_set] at hs
    obtain ⟨t'', ht'', rfl⟩ := Option.map_eq_some_iff.mp hs
    rw [clear_input]
    split_ifs at ht''
    · rw [← Option.some.inj ht'']
    · exact h _ ht''

/-- A sweep after which nothing is left to do has put out every entry. -/
theorem sweep_complete {tmp : List Tmp} {out : List (DbEntry × Tree)}
    (h : (sweep tmp out).more = false) : waiting (sweep tmp out).tmp = [] := by
  have hfold : ∀ (l : List ℕ) (s : Sweep), (l.foldl Sweep.visit s).more = false →
      s.more = false ∧ (∀ j, Done s j → Done (l.foldl Sweep.visit s) j) ∧
        ∀ i ∈ l, Done (l.foldl Sweep.visit s) i := by
    intro l
    induction l with
    | nil => exact fun s hs => ⟨hs, fun _ hj => hj, by simp⟩
    | cons i l ih =>
        intro s hs
        obtain ⟨hmore, hkeep, hdone⟩ := ih _ hs
        obtain ⟨hs', hi⟩ := visit_more hmore
        refine ⟨hs', fun j hj => hkeep j (visit_done hj), fun j hj => ?_⟩
        rcases List.mem_cons.mp hj with rfl | hj
        · exact hkeep _ hi
        · exact hdone j hj
  obtain ⟨-, -, hdone⟩ := hfold _ _ h
  refine List.filterMap_eq_nil_iff.mpr fun t ht => ?_
  obtain ⟨i, hi, rfl⟩ := List.getElem_of_mem ht
  refine hdone i (List.mem_range.mpr ?_) _ (List.getElem?_eq_getElem hi)
  rw [← (sweep_sweeping tmp out).length]
  exact hi

/-! ## The loop -/

theorem waiting_breakCycle (tmp : List Tmp) : waiting (breakCycle tmp) = waiting tmp := by
  induction tmp with
  | nil => rfl
  | cons t tmp ih =>
      simp only [breakCycle]
      split
      · rfl
      · simp only [waiting, List.filterMap_cons] at ih ⊢
        rw [ih]

theorem load_breakCycle {tmp : List Tmp} (h : ∃ t ∈ tmp, t.input.isSome ∧ t.prev.isSome) :
    load (breakCycle tmp) < load tmp := by
  induction tmp with
  | nil => simp at h
  | cons t tmp ih =>
      simp only [breakCycle]
      split
      · next ht => simp [load, List.countP_cons, ht.2]
      · next ht =>
          obtain ⟨t', ht', hs⟩ := h
          rcases List.mem_cons.mp ht' with rfl | ht'
          · exact absurd hs ht
          · have hi := ih ⟨t', ht', hs⟩
            simp only [load, List.countP_cons] at hi ⊢
            omega

/-- The loop ends, and has put out every entry once. -/
theorem sortLoop_perm {fuel : ℕ} {tmp : List Tmp} {out : List (DbEntry × Tree)}
    (hfuel : load tmp < fuel) :
    ∃ l, sortLoop fuel tmp out = some l ∧ l.Perm (out ++ waiting tmp) := by
  induction fuel generalizing tmp out with
  | zero => exact absurd hfuel (Nat.not_lt_zero _)
  | succ fuel ih =>
      have hs := sweep_sweeping tmp out
      simp only [sortLoop]
      cases hmore : (sweep tmp out).more with
      | false =>
          refine ⟨_, rfl, ?_⟩
          simpa [sweep_complete hmore] using hs.all
      | true =>
          simp only [Bool.not_true, Bool.false_eq_true, if_false]
          cases hp : (sweep tmp out).progress with
          | true =>
              have hb := hs.busy hp
              have hfuel' : load (sweep tmp out).tmp < fuel := by omega
              obtain ⟨l, hl, hperm⟩ := @ih _ (sweep tmp out).out hfuel'
              exact ⟨l, by simpa using hl, hperm.trans hs.all⟩
          | false =>
              have hb := load_breakCycle (hs.stuck hmore hp)
              have hfuel' : load (breakCycle (sweep tmp out).tmp) < fuel := by
                rw [hs.idle hp]
                omega
              obtain ⟨l, hl, hperm⟩ := @ih _ (sweep tmp out).out hfuel'
              refine ⟨l, by simpa using hl, hperm.trans ?_⟩
              rw [waiting_breakCycle]
              exact hs.all

/-- The sort never fails, and only changes the order of the top-level entries. -/
theorem dbTsort_perm (F : Tree) :
    ∃ G, dbTsort F = some G ∧ G.siblings.Perm F.siblings := by
  unfold dbTsort
  simp only []
  split
  · exact ⟨F, rfl, List.Perm.refl _⟩
  · have hload : load (F.siblings.map fun r => ⟨some r, resolvePrev F r.1⟩) <
        2 * F.siblings.length + 1 := by
      have h1 := List.countP_le_length (p := fun t : Tmp => t.input.isSome)
        (l := F.siblings.map fun r => ⟨some r, resolvePrev F r.1⟩)
      have h2 := List.countP_le_length (p := fun t : Tmp => t.prev.isSome)
        (l := F.siblings.map fun r => ⟨some r, resolvePrev F r.1⟩)
      rw [List.length_map] at h1 h2
      unfold load
      omega
    have hwait : waiting (F.siblings.map fun r => ⟨some r, resolvePrev F r.1⟩) =
        F.siblings := by
      simp [waiting, List.filterMap_map]
    obtain ⟨l, hl, hperm⟩ := @sortLoop_perm _ _ [] hload
    rw [hwait, List.nil_append] at hperm
    rw [hl]
    simp only [hperm.length_eq, if_true]
    exact ⟨_, rfl, by simpa using hperm⟩

end Sunela.Tsort
