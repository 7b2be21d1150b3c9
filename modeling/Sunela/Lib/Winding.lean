import Mathlib.Data.Int.Notation
import Mathlib.Data.List.Perm.Basic
import Mathlib.Order.Lattice
import Mathlib.Tactic.Linarith

/-! # Winding numbers along a line

Outlines cross a line at whole numbers. What is inside of them is a sequence of spans, which are
found by going through the crossings in order. -/

namespace Sunela.Winding

open List

structure Crossing where
  x : ℤ
  up : Bool
  deriving DecidableEq

def Crossing.turn (c : Crossing) : ℤ := if c.up then 1 else -1

/-- How often the outlines go round a position. -/
def winding : List Crossing → ℤ → ℤ
  | [], _ => 0
  | c :: cs, p => (if c.x ≤ p then c.turn else 0) + winding cs p

/-- Crossings up less crossings down. -/
def total : List Crossing → ℤ
  | [] => 0
  | c :: cs => c.turn + total cs

/-- The spans from where the winding number leaves zero to where it is zero again, or to the
last crossing. `s` is the winding number, and `x` is where it was zero. -/
def spans (x s : ℤ) : List Crossing → List (ℤ × ℤ)
  | [] => []
  | c :: cs =>
      let x := if s = 0 then c.x else x
      let s := s + c.turn
      if s = 0 ∨ cs = [] then (x, c.x) :: spans x s cs else spans x s cs

variable {c : Crossing} {cs cs' : List Crossing} {x s p : ℤ}

/-! ## Winding numbers -/

theorem winding_perm (h : cs ~ cs') : winding cs p = winding cs' p := by
  induction h with
  | nil => rfl
  | cons c _ ih => simp only [winding, ih]
  | swap c d cs =>
      simp only [winding]
      omega
  | trans _ _ ih ih' => exact ih.trans ih'

theorem total_perm (h : cs ~ cs') : total cs = total cs' := by
  induction h with
  | nil => rfl
  | cons c _ ih => simp only [total, ih]
  | swap c d cs =>
      simp only [total]
      omega
  | trans _ _ ih ih' => exact ih.trans ih'

theorem winding_before (h : ∀ c ∈ cs, p < c.x) : winding cs p = 0 := by
  induction cs with
  | nil => rfl
  | cons c cs ih =>
      have hc : ¬ c.x ≤ p := not_le_of_gt (h c mem_cons_self)
      rw [winding, if_neg hc, ih fun d hd => h d (mem_cons_of_mem c hd), Int.add_zero]

theorem winding_after (h : ∀ c ∈ cs, c.x ≤ p) : winding cs p = total cs := by
  induction cs with
  | nil => rfl
  | cons c cs ih =>
      rw [winding, total, if_pos (h c mem_cons_self), ih fun d hd => h d (mem_cons_of_mem c hd)]

/-- Where closed outlines go round, there is a crossing further on. -/
theorem exists_after (hc : total cs = 0) (hp : winding cs p ≠ 0) : ∃ c ∈ cs, p < c.x := by
  by_contra hn
  push Not at hn
  exact hp ((winding_after hn).trans hc)

/-! ## Spans -/

theorem spans_last {r : ℤ × ℤ} (hr : r ∈ spans x s cs) : ∃ c ∈ cs, c.x = r.2 := by
  induction cs generalizing x s with
  | nil => cases hr
  | cons c cs ih =>
      simp only [spans] at hr
      split at hr
      · rcases mem_cons.mp hr with rfl | hr
        · exact ⟨c, mem_cons_self, rfl⟩
        · obtain ⟨d, hd, heq⟩ := ih hr
          exact ⟨d, mem_cons_of_mem c hd, heq⟩
      · obtain ⟨d, hd, heq⟩ := ih hr
        exact ⟨d, mem_cons_of_mem c hd, heq⟩

theorem spans_within {lo hi : ℤ} {r : ℤ × ℤ} (hcs : ∀ c ∈ cs, lo ≤ c.x ∧ c.x ≤ hi)
    (hx : s ≠ 0 → lo ≤ x) (hr : r ∈ spans x s cs) : lo ≤ r.1 ∧ r.2 ≤ hi := by
  induction cs generalizing x s with
  | nil => cases hr
  | cons c cs ih =>
      obtain ⟨hlo, hhi⟩ := hcs c mem_cons_self
      have hfirst : lo ≤ if s = 0 then c.x else x := by
        split
        · exact hlo
        · exact hx ‹_›
      have hrest := @ih (if s = 0 then c.x else x) (s + c.turn)
        (fun d hd => hcs d (mem_cons_of_mem c hd)) fun _ => hfirst
      simp only [spans] at hr
      split at hr
      · rcases mem_cons.mp hr with rfl | hr
        · exact ⟨hfirst, hhi⟩
        · exact hrest hr
      · exact hrest hr

/-- The position lies in one of the spans. -/
def Covers (spans : List (ℤ × ℤ)) (p : ℤ) : Prop := ∃ r ∈ spans, r.1 ≤ p ∧ p < r.2

theorem covers_cons {r : ℤ × ℤ} {l : List (ℤ × ℤ)} :
    Covers (r :: l) p ↔ (r.1 ≤ p ∧ p < r.2) ∨ Covers l p := by
  simp [Covers]

/-- The spans are where the winding number is not zero, up to the last crossing. -/
theorem covers_spans (hsort : cs.Pairwise (·.x ≤ ·.x)) (hx : s ≠ 0 → ∀ c ∈ cs, x ≤ c.x) :
    Covers (spans x s cs) p ↔
      (s + winding cs p ≠ 0 ∧ (s ≠ 0 → x ≤ p)) ∧ ∃ c ∈ cs, p < c.x := by
  induction cs generalizing x s with
  | nil => simp [spans, Covers]
  | cons c cs ih =>
      obtain ⟨hle, hsort⟩ := pairwise_cons.mp hsort
      have hxc : s ≠ 0 → x ≤ c.x := fun hs => hx hs c mem_cons_self
      have hnext : ∀ d ∈ cs, (if s = 0 then c.x else x) ≤ d.x := by
        intro d hd
        have hcd := hle d hd
        split
        · exact hcd
        · exact (hxc ‹_›).trans hcd
      have hrest := ih hsort (x := if s = 0 then c.x else x) (s := s + c.turn)
        fun _ => hnext
      have hexists : (∃ d ∈ c :: cs, p < d.x) ↔ p < c.x ∨ ∃ d ∈ cs, p < d.x := by simp
      rw [hexists]
      by_cases hp : p < c.x
      · -- nothing has been crossed yet
        have hzero : winding cs p = 0 := winding_before fun d hd => hp.trans_le (hle d hd)
        have hthis : winding (c :: cs) p = 0 := by
          rw [winding, if_neg (not_le_of_gt hp), hzero, Int.add_zero]
        rw [hzero] at hrest
        rw [hthis]
        by_cases hend : s + c.turn = 0 ∨ cs = []
        · have hno : ¬ Covers (spans (if s = 0 then c.x else x) (s + c.turn) cs) p := by
            rw [hrest]
            rcases hend with hend | rfl
            · simp [hend]
            · simp
          simp only [spans, if_pos hend, covers_cons, hno, or_false]
          split <;> omega
        · obtain ⟨hs, hcs⟩ := not_or.mp hend
          obtain ⟨d, hd⟩ := exists_mem_of_ne_nil cs hcs
          have hsome : ∃ d ∈ cs, p < d.x := ⟨d, hd, hp.trans_le (hle d hd)⟩
          simp only [spans, if_neg hend, hrest, hsome, and_true]
          split <;> omega
      · have hcross : winding (c :: cs) p = c.turn + winding cs p := by
          rw [winding, if_pos (le_of_not_gt hp)]
        have hfrom : (if s = 0 then c.x else x) ≤ p := by
          split
          · omega
          · exact (hxc ‹_›).trans (le_of_not_gt hp)
        have hstart : s ≠ 0 → x ≤ p := fun hs => (hxc hs).trans (le_of_not_gt hp)
        have hno : ¬ ((if s = 0 then c.x else x) ≤ p ∧ p < c.x) := fun h => hp h.2
        have hall : Covers (spans x s (c :: cs)) p ↔
            Covers (spans (if s = 0 then c.x else x) (s + c.turn) cs) p := by
          simp only [spans]
          split
          · simp only [covers_cons, hno, false_or]
          · rfl
        rw [hall, hrest, hcross, ← Int.add_assoc]
        simp only [hp, hfrom, false_or, implies_true, and_true]
        constructor
        · exact fun h => ⟨⟨h.1, hstart⟩, h.2⟩
        · exact fun h => ⟨h.1.1, h.2⟩

/-- The spans of closed outlines are where the winding number is not zero. -/
theorem covers_closed (hsort : cs.Pairwise (·.x ≤ ·.x)) (hc : total cs = 0) :
    Covers (spans x 0 cs) p ↔ winding cs p ≠ 0 := by
  rw [covers_spans hsort fun h => absurd rfl h, Int.zero_add]
  constructor
  · exact fun h => h.1.1
  · exact fun h => ⟨⟨h, fun h => absurd rfl h⟩, exists_after hc h⟩

end Sunela.Winding
