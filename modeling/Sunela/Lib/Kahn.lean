import Mathlib.Data.List.Nodup
import Mathlib.Data.List.Perm.Basic

/-! # Topological sorting by sweeps

An item may have to wait for another one. A sweep goes through the items that are left, and
puts out those that need not wait any longer. After a sweep that puts out none, the reference of
the first item is given up. -/

namespace Sunela.Kahn

variable {ι : Type} [DecidableEq ι]

/-- The item waits for none, or for one that is out. -/
def Ready (prev : ι → Option ι) (out : List ι) (x : ι) : Prop := ∀ p, prev x = some p → p ∈ out

instance (prev : ι → Option ι) (out : List ι) (x : ι) : Decidable (Ready prev out x) :=
  match h : prev x with
  | none => isTrue fun p hp => by rw [h] at hp; cases hp
  | some p =>
      decidable_of_iff (p ∈ out) ⟨fun hp q hq => by rw [h] at hq; cases hq; exact hp,
        fun hr => hr p h⟩

/-- What a sweep leaves, and what is out after it. -/
def sweep (prev : ι → Option ι) (broken : List ι) : List ι → List ι → List ι × List ι
  | [], out => ([], out)
  | x :: l, out =>
      if x ∈ broken ∨ Ready prev out x then sweep prev broken l (out ++ [x])
      else
        let r := sweep prev broken l out
        (x :: r.1, r.2)

def rounds (prev : ι → Option ι) (fuel : ℕ) (broken l out : List ι) : Option (List ι) :=
  match fuel with
  | 0 => none
  | fuel + 1 =>
      match sweep prev broken l out with
      | ([], out') => some out'
      | (x :: rest, out') =>
          rounds prev fuel (if out' = out then x :: broken else broken) (x :: rest) out'

def sort (prev : ι → Option ι) (l : List ι) : Option (List ι) :=
  rounds prev (2 * l.length + 1) [] l []

variable {prev : ι → Option ι} {broken l out r : List ι} {fuel : ℕ}

/-! ## Sorted lists are left alone -/

/-- Where an item has to wait for one that is not in front of it, so do all items after it. -/
def Settled (prev : ι → Option ι) (l : List ι) : Prop :=
  ∀ front x rest, l = front ++ x :: rest → ¬ Ready prev front x →
    ∀ y ∈ rest, ¬ Ready prev front y

/-- Nothing is put out if nothing is ready. -/
theorem sweep_stuck (h : ∀ x ∈ l, x ∉ broken ∧ ¬ Ready prev out x) :
    sweep prev broken l out = (l, out) := by
  induction l with
  | nil => rfl
  | cons x l ih =>
      obtain ⟨hb, hr⟩ := h x (by simp)
      rw [sweep, if_neg (by tauto), ih fun y hy => h y (by simp [hy])]

/-- A sweep over a settled list puts out what is in front. -/
theorem sweep_settled (h : Settled prev (out ++ l)) (hb : ∀ x ∈ l.tail, x ∉ broken) :
    ∃ front, (sweep prev broken l out).2 = out ++ front ∧
      front ++ (sweep prev broken l out).1 = l := by
  induction l generalizing out with
  | nil => exact ⟨[], by simp [sweep]⟩
  | cons x l ih =>
      by_cases hx : x ∈ broken ∨ Ready prev out x
      · have hs : Settled prev ((out ++ [x]) ++ l) := by
          rw [List.append_assoc]
          exact h
        obtain ⟨front, hout, hrest⟩ := ih hs fun y hy => hb y (List.mem_of_mem_tail hy)
        refine ⟨x :: front, ?_, ?_⟩
        · rw [sweep, if_pos hx, hout, List.append_assoc]
          rfl
        · rw [sweep, if_pos hx, List.cons_append, hrest]
      · have hwait : ∀ y ∈ l, ¬ Ready prev out y := h out x l rfl fun hr => hx (.inr hr)
        have hstuck := @sweep_stuck _ _ prev broken l out fun y hy => ⟨hb y hy, hwait y hy⟩
        refine ⟨[], ?_, ?_⟩
        · rw [sweep, if_neg hx, hstuck, List.append_nil]
        · rw [sweep, if_neg hx, hstuck, List.nil_append]

theorem rounds_settled (h : Settled prev (out ++ l)) (hb : ∀ x ∈ l.tail, x ∉ broken)
    (hn : l.Nodup) (hr : rounds prev fuel broken l out = some r) : r = out ++ l := by
  induction fuel generalizing broken l out with
  | zero => cases hr
  | succ fuel ih =>
      obtain ⟨front, hout, hrest⟩ := sweep_settled h hb
      rw [rounds] at hr
      generalize sweep prev broken l out = res at hout hrest hr
      obtain ⟨left, out'⟩ := res
      simp only at hout hrest hr
      subst hout hrest
      cases left with
      | nil => simpa using (Option.some.inj hr).symm
      | cons x rest =>
          have hn' : (x :: rest).Nodup := (List.nodup_append.mp hn).2.1
          have hrest : ∀ y ∈ rest, y ∉ (if out ++ front = out then x :: broken else broken) := by
            intro y hy
            have hyx : y ≠ x := by
              rintro rfl
              exact (List.nodup_cons.mp hn').1 hy
            have hyb : y ∉ broken := by
              apply hb
              cases front with
              | nil => exact hy
              | cons z front => simp [hy]
            split
            · simp [hyx, hyb]
            · exact hyb
          have hs : Settled prev ((out ++ front) ++ x :: rest) := by
            rw [List.append_assoc]
            exact h
          rw [ih hs hrest hn' hr, List.append_assoc]

/-- Sorting leaves a settled list alone. -/
theorem sort_of_settled (h : Settled prev l) (hn : l.Nodup) (hr : sort prev l = some r) :
    r = l := by
  have hs : Settled prev ([] ++ l) := h
  exact rounds_settled hs (by simp) hn hr

/-! ## Sorting settles a list -/

theorem sweep_perm (prev : ι → Option ι) (broken l out : List ι) :
    ∃ front, (sweep prev broken l out).2 = out ++ front ∧
      (front ++ (sweep prev broken l out).1).Perm l := by
  induction l generalizing out with
  | nil => exact ⟨[], by simp [sweep]⟩
  | cons x l ih =>
      by_cases hx : x ∈ broken ∨ Ready prev out x
      · obtain ⟨front, hout, hp⟩ := ih (out ++ [x])
        refine ⟨x :: front, ?_, ?_⟩
        · rw [sweep, if_pos hx, hout, List.append_assoc]
          rfl
        · rw [sweep, if_pos hx]
          exact hp.cons x
      · obtain ⟨front, hout, hp⟩ := ih out
        refine ⟨front, ?_, ?_⟩
        · rw [sweep, if_neg hx, hout]
        · rw [sweep, if_neg hx]
          exact List.perm_middle.trans (hp.cons x)

/-- A sweep that puts out nothing has found nothing. -/
theorem sweep_same (h : (sweep prev broken l out).2 = out) :
    (sweep prev broken l out).1 = l ∧ ∀ x ∈ l, x ∉ broken ∧ ¬ Ready prev out x := by
  induction l with
  | nil => simp [sweep]
  | cons x l ih =>
      by_cases hx : x ∈ broken ∨ Ready prev out x
      · rw [sweep, if_pos hx] at h
        obtain ⟨front, hout, -⟩ := sweep_perm prev broken l (out ++ [x])
        rw [hout] at h
        have hlen := congrArg List.length h
        simp at hlen
      · rw [sweep, if_neg hx] at h ⊢
        obtain ⟨hl, hnone⟩ := ih h
        refine ⟨congrArg (x :: ·) hl, fun y hy => ?_⟩
        rcases List.mem_cons.mp hy with rfl | hy
        · tauto
        · exact hnone y hy

theorem sweep_left (prev : ι → Option ι) (broken l out : List ι) :
    ∀ x ∈ (sweep prev broken l out).1, x ∉ broken := by
  induction l generalizing out with
  | nil => simp [sweep]
  | cons x l ih =>
      by_cases hx : x ∈ broken ∨ Ready prev out x
      · rw [sweep, if_pos hx]
        exact ih _
      · rw [sweep, if_neg hx]
        intro y hy
        rcases List.mem_cons.mp hy with rfl | hy
        · tauto
        · exact ih _ y hy

/-- What is out is settled, and will be when the rest follows in any order. -/
def Settling (prev : ι → Option ι) (out l : List ι) : Prop :=
  ∀ front x rest, out = front ++ x :: rest → ¬ Ready prev front x →
    ∀ y ∈ rest ++ l, ¬ Ready prev front y

omit [DecidableEq ι] in
/-- Put out one more item. -/
theorem Settling.put {x : ι} (h : Settling prev out (x :: l))
    (hx : Ready prev out x ∨ ∀ y ∈ l, ¬ Ready prev out y) : Settling prev (out ++ [x]) l := by
  intro front y rest he hy z hz
  rcases List.eq_nil_or_concat rest with rfl | ⟨rest, w, rfl⟩
  · obtain ⟨rfl, hxy⟩ := List.append_inj' he rfl
    obtain rfl := (List.cons.inj hxy).1
    exact (hx.resolve_left hy) z hz
  · have hout : out ++ [x] = (front ++ y :: rest) ++ [w] := by simpa using he
    obtain ⟨rfl, hxw⟩ := List.append_inj' hout rfl
    obtain rfl := (List.cons.inj hxw).1
    exact h front y rest rfl hy z (by simpa [or_assoc] using hz)

/-- A sweep keeps what has been put out settled, if no reference has been given up. -/
theorem Settling.sweep {kept : List ι} (h : Settling prev out (kept ++ l))
    (hb : ∀ x ∈ l, x ∉ broken) : Settling prev (sweep prev broken l out).2
      (kept ++ (Kahn.sweep prev broken l out).1) := by
  induction l generalizing kept out with
  | nil => exact h
  | cons x l ih =>
      have hb' : ∀ y ∈ l, y ∉ broken := fun y hy => hb y (by simp [hy])
      by_cases hx : Ready prev out x
      · rw [Kahn.sweep, if_pos (.inr hx)]
        have hmid : Settling prev out (x :: (kept ++ l)) := by
          intro front y rest he hy z hz
          exact h front y rest he hy z (by simp at hz ⊢; tauto)
        exact ih (hmid.put (.inl hx)) hb'
      · rw [Kahn.sweep, if_neg (not_or.mpr ⟨hb x (by simp), hx⟩)]
        have hkept : Settling prev out ((kept ++ [x]) ++ l) := by
          rw [List.append_assoc]
          exact h
        have hrest := ih hkept hb'
        rw [List.append_assoc] at hrest
        exact hrest

/-- Before a round: the one reference that may have been given up is that of the first item, and
all the items that are left have to wait. -/
structure Waiting (prev : ι → Option ι) (broken l out : List ι) : Prop where
  settling : Settling prev out l
  nodup : l.Nodup
  tail : ∀ x ∈ l.tail, x ∉ broken
  stuck : ∀ x ∈ broken, x ∈ l → ∀ y ∈ l, ¬ Ready prev out y

theorem Waiting.sweep (h : Waiting prev broken l out) :
    Settling prev (sweep prev broken l out).2 (Kahn.sweep prev broken l out).1 := by
  cases l with
  | nil => exact h.settling
  | cons x l =>
      by_cases hx : x ∈ broken
      · rw [Kahn.sweep, if_pos (.inl hx)]
        have hput := h.settling.put (.inr fun y hy =>
          h.stuck x hx (by simp) y (List.mem_cons_of_mem x hy))
        exact @Settling.sweep _ _ _ _ _ _ [] hput h.tail
      · have hb : ∀ y ∈ x :: l, y ∉ broken := by
          intro y hy
          rcases List.mem_cons.mp hy with rfl | hy
          · exact hx
          · exact h.tail y hy
        exact @Settling.sweep _ _ _ _ _ _ [] h.settling hb

theorem rounds_settles (h : Waiting prev broken l out)
    (hr : rounds prev fuel broken l out = some r) : Settled prev r := by
  induction fuel generalizing broken l out with
  | zero => cases hr
  | succ fuel ih =>
      have hs := h.sweep
      obtain ⟨front, -, hp⟩ := sweep_perm prev broken l out
      have hsame := @sweep_same _ _ prev broken l out
      have hleft := sweep_left prev broken l out
      rw [rounds] at hr
      generalize Kahn.sweep prev broken l out = res at hs hp hsame hleft hr
      obtain ⟨left, out'⟩ := res
      simp only at hs hp hsame hleft hr
      cases left with
      | nil =>
          obtain rfl := Option.some.inj hr
          intro front x rest he hx y hy
          exact hs front x rest he hx y (by simpa using hy)
      | cons x rest =>
          have hn : (x :: rest).Nodup :=
            (List.nodup_append.mp (hp.nodup_iff.mpr h.nodup)).2.1
          apply ih ⟨hs, hn, ?_, ?_⟩ hr
          · intro y hy
            split
            · have hyx : y ≠ x := by
                rintro rfl
                exact (List.nodup_cons.mp hn).1 hy
              simp [hyx, hleft y (List.mem_cons_of_mem x hy)]
            · exact hleft y (List.mem_cons_of_mem x hy)
          · intro y hy hyl z hz
            split at hy
            · next he =>
                obtain ⟨hl, hnone⟩ := hsame he
                rw [he]
                exact (hnone z (hl ▸ hz)).2
            · exact absurd hy (hleft y hyl)

/-- A sorted list is settled. -/
theorem sort_settled (hn : l.Nodup) (hr : sort prev l = some r) : Settled prev r := by
  apply rounds_settles ⟨?_, hn, by simp, by simp⟩ hr
  intro front x rest he
  simp at he

/-! ## Sorting puts out every item -/

theorem rounds_perm (hr : rounds prev fuel broken l out = some r) : r.Perm (out ++ l) := by
  induction fuel generalizing broken l out with
  | zero => cases hr
  | succ fuel ih =>
      obtain ⟨front, hout, hp⟩ := sweep_perm prev broken l out
      rw [rounds] at hr
      generalize sweep prev broken l out = res at hout hp hr
      obtain ⟨left, out'⟩ := res
      simp only at hout hp hr
      subst hout
      cases left with
      | nil =>
          obtain rfl := Option.some.inj hr
          exact (by simpa using hp : front.Perm l).append_left out
      | cons x rest =>
          have hrest := ih hr
          rw [List.append_assoc] at hrest
          exact hrest.trans (hp.append_left out)

theorem sort_perm (hr : sort prev l = some r) : r.Perm l := rounds_perm hr

/-- Sorting twice is sorting once. -/
theorem sort_sort {r' : List ι} (hn : l.Nodup) (hr : sort prev l = some r)
    (hr' : sort prev r = some r') : r' = r :=
  sort_of_settled (sort_settled hn hr) ((sort_perm hr).nodup_iff.mpr hn) hr'

/-- Only the references of the items matter. -/
theorem sweep_congr {prev' : ι → Option ι} (h : ∀ x ∈ l, prev x = prev' x) :
    sweep prev broken l out = sweep prev' broken l out := by
  induction l generalizing out with
  | nil => rfl
  | cons x l ih =>
      have hready : Ready prev out x ↔ Ready prev' out x := by
        rw [Ready, Ready, h x (by simp)]
      simp only [sweep, hready, ih fun y hy => h y (by simp [hy])]

theorem rounds_congr {prev' : ι → Option ι} (h : ∀ x ∈ l, prev x = prev' x) :
    rounds prev fuel broken l out = rounds prev' fuel broken l out := by
  induction fuel generalizing broken l out with
  | zero => rfl
  | succ fuel ih =>
      obtain ⟨front, -, hp⟩ := sweep_perm prev broken l out
      rw [rounds, rounds, ← sweep_congr h]
      generalize sweep prev broken l out = res at hp ⊢
      obtain ⟨left, out'⟩ := res
      cases left with
      | nil => rfl
      | cons x rest =>
          exact ih fun y hy => h y (hp.mem_iff.mp (List.mem_append_right _ hy))

theorem sort_congr {prev' : ι → Option ι} (h : ∀ x ∈ l, prev x = prev' x) :
    sort prev l = sort prev' l := rounds_congr h

end Sunela.Kahn
