import Mathlib.Logic.Relation
import Sunela.Lib.Before
import Sunela.Lib.Kahn

/-! # What sorting by sweeps does to references

References that do not come to a cycle are followed. On each cycle, and in what leads to it, the
first item is let go. -/

namespace Sunela.Kahn

variable {ι : Type} [DecidableEq ι] {prev : ι → Option ι} {broken l l₀ out r left : List ι}
  {fuel : ℕ} {x y z : ι}

/-- References lead from the first item to the second. -/
def Leads (prev : ι → Option ι) : ι → ι → Prop := Relation.TransGen fun x y => prev x = some y

/-- All references are to items of the list. -/
def Closed (prev : ι → Option ι) (l : List ι) : Prop := ∀ x ∈ l, ∀ p, prev x = some p → p ∈ l

/-- Each item refers to one of the list. -/
def Stuck (prev : ι → Option ι) (l : List ι) : Prop := ∀ x ∈ l, ∃ p ∈ l, prev x = some p

/-! ## Cycles -/

omit [DecidableEq ι] in
theorem Leads.head_cases (h : Leads prev x z) :
    ∃ y, prev x = some y ∧ (y = z ∨ Leads prev y z) := by
  obtain ⟨y, hy, hyz⟩ := Relation.TransGen.head'_iff.mp h
  exact ⟨y, hy, (Relation.reflTransGen_iff_eq_or_transGen.mp hyz).imp_left Eq.symm⟩

omit [DecidableEq ι] in
/-- What is reached from a cycle lies on it. -/
theorem Leads.back (hx : Leads prev x x) (h : Leads prev x y) : Leads prev y x := by
  induction h with
  | single hxy =>
      obtain ⟨z, hz, hzx⟩ := hx.head_cases
      obtain rfl := Option.some.inj (hxy.symm.trans hz)
      exact hzx.elim (fun he => he ▸ hx) id
  | tail _ hyz ih =>
      obtain ⟨w, hw, hwx⟩ := ih.head_cases
      obtain rfl := Option.some.inj (hyz.symm.trans hw)
      exact hwx.elim (fun he => he ▸ hx) id

omit [DecidableEq ι] in
theorem Stuck.leads_mem (h : Stuck prev l) (hx : x ∈ l) (hxy : Leads prev x y) : y ∈ l := by
  have hstep : ∀ {a b}, a ∈ l → prev a = some b → b ∈ l := by
    intro a b ha hab
    obtain ⟨p, hp, hap⟩ := h a ha
    exact Option.some.inj (hab.symm.trans hap) ▸ hp
  induction hxy with
  | single hxy => exact hstep hx hxy
  | tail _ hyz ih => exact hstep ih hyz

omit [DecidableEq ι] in
/-- Where nothing can be put out, all references come to cycles. -/
theorem Stuck.cycle (h : Stuck prev l) (hx : x ∈ l) :
    ∃ c, (x = c ∨ Leads prev x c) ∧ Leads prev c c := by
  induction hn : l.length using Nat.strongRecOn generalizing l x with
  | ind n ih =>
      by_cases hxx : Leads prev x x
      · exact ⟨x, .inl rfl, hxx⟩
      · classical
        obtain ⟨p, hp, hxp⟩ := h x hx
        have hlead : Leads prev x p := .single hxp
        -- what is reached from `x` is closed as well, and `x` is not among it
        have hsub : Stuck prev (l.filter fun y => Leads prev x y) := by
          intro y hy
          obtain ⟨hyl, hxy⟩ := List.mem_filter.mp hy
          obtain ⟨q, hq, hyq⟩ := h y hyl
          have hxq : Leads prev x q := (of_decide_eq_true hxy).tail hyq
          exact ⟨q, List.mem_filter.mpr ⟨hq, decide_eq_true hxq⟩, hyq⟩
        have hlen : (l.filter fun y => Leads prev x y).length < n := by
          rw [← hn]
          apply List.length_filter_lt_length_iff_exists.mpr
          exact ⟨x, hx, by simpa using hxx⟩
        have hpm : p ∈ l.filter fun y => Leads prev x y :=
          List.mem_filter.mpr ⟨hp, decide_eq_true hlead⟩
        obtain ⟨c, hpc, hcc⟩ := ih _ hlen hsub hpm rfl
        refine ⟨c, .inr ?_, hcc⟩
        exact hpc.elim (fun he => he ▸ hlead) fun hpc => hlead.trans hpc

/-! ## References that are followed -/

theorem sweep_sublist (prev : ι → Option ι) (broken l out : List ι) :
    (sweep prev broken l out).1.Sublist l := by
  induction l generalizing out with
  | nil => exact List.Sublist.refl _
  | cons x l ih =>
      rw [sweep]
      split
      · exact (ih _).cons x
      · exact (ih out).cons_cons x

/-- The item comes after the one it refers to. -/
def Follows (prev : ι → Option ι) (l : List ι) (x : ι) : Prop :=
  ∀ p, prev x = some p → Before l p x

omit [DecidableEq ι] in
theorem Follows.append (h : x ∈ out → Follows prev out x) {y : ι}
    (hy : y = x → Ready prev out x) : x ∈ out ++ [y] → Follows prev (out ++ [y]) x := by
  intro hx p hp
  rcases List.mem_append.mp hx with hx | hx
  · exact (h hx p hp).mono (List.sublist_append_left _ _)
  · obtain rfl := List.mem_singleton.mp hx
    exact before_append (hy rfl p hp) (by simp)

theorem sweep_follows (hb : x ∉ broken) (h : x ∈ out → Follows prev out x) :
    x ∈ (sweep prev broken l out).2 → Follows prev (sweep prev broken l out).2 x := by
  induction l generalizing out with
  | nil => exact h
  | cons y l ih =>
      rw [sweep]
      split
      · next hy =>
          apply ih
          apply Follows.append h
          rintro rfl
          exact hy.resolve_left hb
      · exact ih h

/-- A sweep without progress leaves items that all refer to each other. -/
theorem stuck_of_sweep (hc : Closed prev l₀) (hp : (out ++ l).Perm l₀)
    (h : (sweep prev broken l out).2 = out) : Stuck prev l := by
  intro x hx
  obtain ⟨-, hnone⟩ := sweep_same h
  obtain ⟨-, hready⟩ := hnone x hx
  simp only [Ready, not_forall] at hready
  obtain ⟨p, hp', hout⟩ := hready
  have hmem : p ∈ out ++ l :=
    hp.mem_iff.mpr (hc x (hp.mem_iff.mp (List.mem_append_right _ hx)) p hp')
  exact ⟨p, (List.mem_append.mp hmem).resolve_left hout, hp'⟩

/-- An item that is never the first of the items a sweep gets stuck on comes after the one it
refers to. -/
theorem rounds_follows (hc : Closed prev l₀) (hp : (out ++ l).Perm l₀) (hs : l.Sublist l₀)
    (hx : ∀ rest, (x :: rest).Sublist l₀ → ¬ Stuck prev (x :: rest)) (hb : x ∉ broken)
    (h : x ∈ out → Follows prev out x) (hr : rounds prev fuel broken l out = some r) :
    x ∈ r → Follows prev r x := by
  induction fuel generalizing broken l out with
  | zero => cases hr
  | succ fuel ih =>
      have hfollows := sweep_follows (l := l) hb h
      have hsub := sweep_sublist prev broken l out
      have hstuck := @stuck_of_sweep _ _ prev broken l l₀ out hc hp
      have hsame := @sweep_same _ _ prev broken l out
      obtain ⟨front, hout, hperm⟩ := sweep_perm prev broken l out
      rw [rounds] at hr
      generalize sweep prev broken l out = res at *
      obtain ⟨left, out'⟩ := res
      simp only at *
      cases left with
      | nil => exact Option.some.inj hr ▸ hfollows
      | cons y rest =>
          have hp' : (out' ++ y :: rest).Perm l₀ := by
            rw [hout, List.append_assoc]
            exact (hperm.append_left out).trans hp
          apply ih hp' (hsub.trans hs) _ hfollows hr
          split
          · next he =>
              have hl := (hsame he).1
              have hne : x ≠ y := by
                rintro rfl
                exact hx rest (hl ▸ hs) (hl ▸ hstuck he)
              simp [hne, hb]
          · exact hb

theorem sort_follows (hc : Closed prev l)
    (hx : ∀ rest, (x :: rest).Sublist l → ¬ Stuck prev (x :: rest))
    (hr : sort prev l = some r) (hxl : x ∈ l) : Follows prev r x := by
  have hp : ([] ++ l).Perm l := List.Perm.refl _
  exact rounds_follows hc hp (List.Sublist.refl _) hx (by simp) (by simp) hr
    ((sort_perm hr).mem_iff.mpr hxl)

/-- The references from the item do not come to a cycle, or only after an item in front of it. -/
theorem sort_follows_of (hn : l.Nodup) (hc : Closed prev l)
    (hx : (∃ c, (x = c ∨ Leads prev x c) ∧ Leads prev c c) → ∃ c, Leads prev x c ∧ Before l c x)
    (hr : sort prev l = some r) (hxl : x ∈ l) : Follows prev r x := by
  apply sort_follows hc _ hr hxl
  intro rest hsub hstuck
  obtain ⟨c, hxc, hcx⟩ := hx (hstuck.cycle (by simp))
  have hmem : c ∈ x :: rest := hstuck.leads_mem (by simp) hxc
  have hlater : c ∈ rest := (List.mem_cons.mp hmem).resolve_left (hcx.ne hn)
  exact hcx.asymm hn (Before.mono (before_cons.mpr (.inl ⟨rfl, hlater⟩)) hsub)

/-! ## References that are given up -/

/-- Items that all refer to each other stay where they are. -/
theorem sweep_basin {B : ι → Prop} [DecidablePred B]
    (hB : ∀ z, B z → ∃ p, prev z = some p ∧ B p) (hb : ∀ z ∈ l, B z → z ∉ broken)
    (hout : ∀ z ∈ out, ¬ B z) :
    (∀ z ∈ (sweep prev broken l out).2, ¬ B z) ∧
      (sweep prev broken l out).1.filter (fun z => B z) = l.filter fun z => B z := by
  induction l generalizing out with
  | nil => exact ⟨hout, rfl⟩
  | cons x l ih =>
      have hb' : ∀ z ∈ l, B z → z ∉ broken := fun z hz => hb z (by simp [hz])
      rw [sweep]
      split
      · next hx =>
          have hxB : ¬ B x := by
            intro hxB
            obtain ⟨p, hp, hpB⟩ := hB x hxB
            exact hout p (hx.resolve_left (hb x (by simp) hxB) p hp) hpB
          have hout' : ∀ z ∈ out ++ [x], ¬ B z := by
            intro z hz
            rcases List.mem_append.mp hz with hz | hz
            · exact hout z hz
            · rw [List.mem_singleton.mp hz]
              exact hxB
          obtain ⟨h1, h2⟩ := ih hb' hout'
          refine ⟨h1, h2.trans ?_⟩
          rw [List.filter_cons_of_neg (by simpa using hxB)]
      · obtain ⟨h1, h2⟩ := ih hb' hout
        refine ⟨h1, ?_⟩
        simp only [List.filter_cons]
        rw [h2]

theorem rounds_prefix (hr : rounds prev fuel broken l out = some r) : ∃ t, r = out ++ t := by
  induction fuel generalizing broken l out with
  | zero => cases hr
  | succ fuel ih =>
      obtain ⟨front, hout, -⟩ := sweep_perm prev broken l out
      rw [rounds] at hr
      generalize sweep prev broken l out = res at hout hr
      obtain ⟨left, out'⟩ := res
      simp only at hout hr
      subst hout
      cases left with
      | nil => exact ⟨front, (Option.some.inj hr).symm⟩
      | cons y rest =>
          obtain ⟨t, rfl⟩ := ih hr
          exact ⟨front ++ t, List.append_assoc ..⟩

/-- Of items that all refer to each other, the first one is let go before any other. -/
theorem rounds_basin {B : ι → Prop} [DecidablePred B]
    (hB : ∀ z, B z → ∃ p, prev z = some p ∧ B p) (hy : (l.filter fun z => B z).head? = some y)
    (hb : ∀ z ∈ l, B z → z ∉ broken) (hout : ∀ z ∈ out, ¬ B z)
    (hr : rounds prev fuel broken l out = some r) :
    ∃ a b, r = a ++ y :: b ∧ ∀ z ∈ a, ¬ B z := by
  induction fuel generalizing broken l out with
  | zero => cases hr
  | succ fuel ih =>
      obtain ⟨hout', hleft⟩ := sweep_basin hB hb hout
      have hsub := sweep_sublist prev broken l out
      have hsame := @sweep_same _ _ prev broken l out
      rw [rounds] at hr
      generalize sweep prev broken l out = res at *
      obtain ⟨left, out'⟩ := res
      simp only at *
      cases left with
      | nil =>
          rw [← hleft] at hy
          cases hy
      | cons x rest =>
          have hb' : ∀ z ∈ x :: rest, B z → z ∉ broken := fun z hz => hb z (hsub.subset hz)
          simp only at hr
          by_cases he : out' = out
          · rw [if_pos he] at hr
            by_cases hxB : B x
            · -- the item that is let go is the first to come out
              have hxy : x = y := by
                rw [← hleft, List.filter_cons_of_pos (by simpa using hxB)] at hy
                exact Option.some.inj hy
              subst hxy
              cases fuel with
              | zero => cases hr
              | succ fuel =>
                  rw [rounds, sweep, if_pos (.inl (by simp))] at hr
                  obtain ⟨front, hfront, -⟩ := sweep_perm prev (x :: broken) rest (out' ++ [x])
                  generalize sweep prev (x :: broken) rest (out' ++ [x]) = res at hfront hr
                  obtain ⟨left, out''⟩ := res
                  simp only at hfront hr
                  subst hfront
                  cases left with
                  | nil =>
                      obtain rfl := Option.some.inj hr
                      exact ⟨out', front, by simp, hout'⟩
                  | cons w left =>
                      obtain ⟨t, rfl⟩ := rounds_prefix hr
                      exact ⟨out', front ++ t, by simp, hout'⟩
            · apply ih (by rw [hleft]; exact hy) _ hout' hr
              intro z hz hzB
              have hzx : z ≠ x := by
                rintro rfl
                exact hxB hzB
              simp [hzx, hb' z hz hzB]
          · rw [if_neg he] at hr
            exact ih (by rw [hleft]; exact hy) hb' hout' hr

/-- An item that leads to a cycle it does not lie on comes after one that does. -/
def Hung (prev : ι → Option ι) (l : List ι) : Prop :=
  ∀ x ∈ l, ∀ c, Leads prev x c → Leads prev c c → ¬ Leads prev x x →
    ∃ c', Leads prev x c' ∧ Leads prev c' c' ∧ Before l c' x

/-- Exactly then no reference is given up but on a cycle. -/
theorem sort_follows_iff (hn : l.Nodup) (hc : Closed prev l) (hr : sort prev l = some r) :
    (∀ x ∈ l, ¬ Leads prev x x → Follows prev r x) ↔ Hung prev l := by
  constructor
  · intro h x hx c hxc hcc hxx
    classical
    by_contra hnone
    -- all that leads to `c`, with `y` the first of it
    let B : ι → Prop := fun z => Leads prev z c
    have hB : ∀ z, B z → ∃ p, prev z = some p ∧ B p := by
      intro z hz
      obtain ⟨p, hp, hpc⟩ := hz.head_cases
      exact ⟨p, hp, hpc.elim (fun he => he ▸ hcc) id⟩
    have hmem : x ∈ l.filter fun z => B z := List.mem_filter.mpr ⟨hx, decide_eq_true hxc⟩
    obtain ⟨y, rest, hfilter⟩ := List.exists_cons_of_ne_nil (List.ne_nil_of_mem hmem)
    have hy : y ∈ l.filter fun z => B z := by
      rw [hfilter]
      simp
    obtain ⟨hyl, hyc⟩ := List.mem_filter.mp hy
    have hyc : Leads prev y c := of_decide_eq_true hyc
    have hyy : ¬ Leads prev y y := by
      intro hyy
      have hxy : Leads prev x y := hxc.trans (hyy.back hyc)
      apply hnone
      refine ⟨y, hxy, hyy, ?_⟩
      rw [hfilter] at hmem
      rcases List.mem_cons.mp hmem with rfl | hrest
      · exact absurd hyy hxx
      · have hyx : Before (l.filter fun z => B z) y x := by
          rw [hfilter]
          exact before_cons.mpr (.inl ⟨rfl, hrest⟩)
        exact hyx.mono List.filter_sublist
    obtain ⟨a, b, hab, ha⟩ := rounds_basin hB (by rw [hfilter]; rfl) (by simp) (by simp) hr
    obtain ⟨p, hp, hpc⟩ := hB y hyc
    have hbefore := h y hyl hyy p hp
    have hnr : r.Nodup := (sort_perm hr).nodup_iff.mpr hn
    have hpy : p ≠ y := hbefore.ne hnr
    have hpr : p ∈ r := hbefore.left
    rw [hab] at hpr hbefore hnr
    rcases List.mem_append.mp hpr with hpa | hpb
    · exact ha p hpa hpc
    · have hafter : Before (a ++ y :: b) y p := by
        apply Before.mono _ (List.sublist_append_right a _)
        exact before_cons.mpr (.inl ⟨rfl, (List.mem_cons.mp hpb).resolve_left hpy⟩)
      exact hbefore.asymm hnr hafter
  · intro h x hx hxx
    apply sort_follows_of hn hc _ hr hx
    rintro ⟨c, hxc, hcc⟩
    rcases hxc with rfl | hxc
    · exact absurd hcc hxx
    · obtain ⟨c', h1, -, h3⟩ := h x hx c hxc hcc hxx
      exact ⟨c', h1, h3⟩

/-! ## The order of the items -/

/-- How often the references from an item lead on to one that comes later in the list. -/
inductive Turns (prev : ι → Option ι) (l : List ι) : ι → ℕ → Prop where
  | start {x : ι} (h : prev x = none) : Turns prev l x 0
  | back {x p : ι} {n : ℕ} (h : prev x = some p) (turns : Turns prev l p n)
      (later : ¬ Before l x p) : Turns prev l x n
  | forth {x p : ι} {n : ℕ} (h : prev x = some p) (turns : Turns prev l p n)
      (sooner : Before l x p) : Turns prev l x (n + 1)

omit [DecidableEq ι] in
theorem Turns.unique {m n : ℕ} (hm : Turns prev l x m) (hn : Turns prev l x n) : m = n := by
  induction hm generalizing n with
  | start h =>
      cases hn with
      | start => rfl
      | back h' => simp [h] at h'
      | forth h' => simp [h] at h'
  | back h _ later ih =>
      cases hn with
      | start h' => simp [h] at h'
      | back h' turns =>
          obtain rfl := Option.some.inj (h.symm.trans h')
          exact ih turns
      | forth h' _ sooner =>
          obtain rfl := Option.some.inj (h.symm.trans h')
          exact absurd sooner later
  | forth h _ sooner ih =>
      cases hn with
      | start h' => simp [h] at h'
      | back h' _ later =>
          obtain rfl := Option.some.inj (h.symm.trans h')
          exact absurd sooner later
      | forth h' turns =>
          obtain rfl := Option.some.inj (h.symm.trans h')
          rw [ih turns]

omit [DecidableEq ι] in
/-- Without cycles the references from every item come to an end. -/
theorem exists_turns (hc : Closed prev l) (hac : ∀ x, ¬ Leads prev x x) (hx : x ∈ l) :
    ∃ n, Turns prev l x n := by
  by_contra hnone
  classical
  have hstuck : Stuck prev (l.filter fun y => ¬ ∃ n, Turns prev l y n) := by
    intro y hy
    obtain ⟨hyl, hy⟩ := List.mem_filter.mp hy
    have hy : ¬ ∃ n, Turns prev l y n := of_decide_eq_true hy
    cases hp : prev y with
    | none => exact absurd ⟨0, .start hp⟩ hy
    | some p =>
        refine ⟨p, List.mem_filter.mpr ⟨hc y hyl p hp, decide_eq_true ?_⟩, rfl⟩
        rintro ⟨n, hn⟩
        by_cases hb : Before l y p
        · exact hy ⟨_, .forth hp hn hb⟩
        · exact hy ⟨_, .back hp hn hb⟩
  obtain ⟨c, -, hcc⟩ := hstuck.cycle (List.mem_filter.mpr ⟨hx, decide_eq_true hnone⟩)
  exact hac c hcc

omit [DecidableEq ι] in
/-- Fewer turns are taken by items further on. -/
theorem Turns.exists_lt {m k : ℕ} (hc : Closed prev l) (hx : x ∈ l) (h : Turns prev l x m)
    (hk : k ≤ m) : ∃ y ∈ l, Turns prev l y k := by
  induction h with
  | @start x hp => exact ⟨x, hx, Nat.le_zero.mp hk ▸ .start hp⟩
  | back hp _ _ ih => exact ih (hc _ hx _ hp) hk
  | @forth x p n hp turns sooner ih =>
      rcases Nat.le_succ_iff.mp hk with hk | rfl
      · exact ih (hc _ hx _ hp) hk
      · exact ⟨x, hx, .forth hp turns sooner⟩

/-- The items that take `k` turns, for each `k` from the given one on. -/
def layers (T : ι → ℕ) (l : List ι) (k n : ℕ) : List ι :=
  (List.range' k n).flatMap fun j => l.filter fun x => T x = j

/-- What is out before the sweep of the items that take `k` turns. -/
structure Layer (T : ι → ℕ) (l₀ : List ι) (k : ℕ) (out : List ι) : Prop where
  mem : ∀ x, x ∈ out ↔ x ∈ l₀ ∧ T x < k

section Layers

variable {T : ι → ℕ} {k : ℕ} (hn : l₀.Nodup) (hac : ∀ x, ¬ Leads prev x x)
  (hT : ∀ x ∈ l₀, Turns prev l₀ x (T x)) (hc : Closed prev l₀)

include hn hac hT hc

/-- In its turn an item is ready, and not before. -/
theorem ready_iff {pre suf : List ι} (hout : Layer T l₀ k out) (hl : l₀ = pre ++ x :: suf)
    (hk : k ≤ T x) : Ready prev (out ++ pre.filter fun y => T y = k) x ↔ T x = k := by
  have hx : x ∈ l₀ := by simp [hl]
  have hbefore : ∀ p ∈ l₀, p ≠ x → (Before l₀ x p ↔ p ∉ pre) := by
    intro p hp hne
    constructor
    · intro h hpre
      have h' : Before l₀ p x := by
        rw [hl]
        exact before_append hpre (by simp)
      exact h.asymm hn h'
    · intro hpre
      rw [hl] at hp ⊢
      have hsuf : p ∈ suf := by simpa [hpre, hne] using hp
      exact (before_cons.mpr (.inl ⟨rfl, hsuf⟩)).mono (List.sublist_append_right _ _)
  have hturns := hT x hx
  generalize hm : T x = m at hturns hk
  cases hturns with
  | start h =>
      have hready : Ready prev (out ++ pre.filter fun y => T y = k) x :=
        fun p hp => by simp [h] at hp
      simp only [hready, true_iff]
      omega
  | @back _ p _ h turns later =>
      have hp : p ∈ l₀ := hc x hx p h
      have hpx : p ≠ x := by
        rintro rfl
        exact hac p (.single h)
      have hpm : T p = m := (hT p hp).unique turns
      have hpre : p ∈ pre := by
        by_contra hpre
        exact later ((hbefore p hp hpx).mpr hpre)
      constructor
      · intro hready
        rcases List.mem_append.mp (hready p h) with ho | hf
        · have := ((hout.mem p).mp ho).2
          omega
        · have : T p = k := by simpa using (List.mem_filter.mp hf).2
          omega
      · intro hmk q hq
        obtain rfl := Option.some.inj (h.symm.trans hq)
        exact List.mem_append_right _ (List.mem_filter.mpr ⟨hpre, by simp [hpm, hmk]⟩)
  | @forth _ p n h turns sooner =>
      have hp : p ∈ l₀ := hc x hx p h
      have hpx : p ≠ x := by
        rintro rfl
        exact hac p (.single h)
      have hpm : T p = n := (hT p hp).unique turns
      have hpre : p ∉ pre := (hbefore p hp hpx).mp sooner
      constructor
      · intro hready
        rcases List.mem_append.mp (hready p h) with ho | hf
        · have := ((hout.mem p).mp ho).2
          omega
        · exact absurd (List.mem_filter.mp hf).1 hpre
      · intro hmk q hq
        obtain rfl := Option.some.inj (h.symm.trans hq)
        exact List.mem_append_left _ ((hout.mem p).mpr ⟨hp, by omega⟩)

theorem sweep_layer (hout : Layer T l₀ k out) (pre suf : List ι) (hl : l₀ = pre ++ suf) :
    sweep prev [] (suf.filter fun x => k ≤ T x) (out ++ pre.filter fun x => T x = k) =
      (suf.filter fun x => k + 1 ≤ T x, out ++ l₀.filter fun x => T x = k) := by
  induction suf generalizing pre with
  | nil => simp [sweep, hl]
  | cons x suf ih =>
      have hnext := ih (pre ++ [x]) (by simp [hl])
      by_cases hk : k ≤ T x
      · have hready := ready_iff hn hac hT hc hout hl hk
        rw [List.filter_cons_of_pos (by simpa using hk), sweep]
        by_cases he : T x = k
        · rw [if_pos (.inr (hready.mpr he)),
            List.filter_cons_of_neg (by simp [he]), ← hnext, List.filter_append, List.append_assoc]
          simp [he]
        · have hx : ¬ (x ∈ ([] : List ι) ∨ Ready prev (out ++ pre.filter fun y => T y = k) x) := by
            simp [hready, he]
          rw [if_neg hx, List.filter_cons_of_pos (by simp; omega)]
          rw [List.filter_append, List.filter_cons_of_neg (by simpa using he), List.filter_nil,
            List.append_nil] at hnext
          rw [hnext]
      · rw [List.filter_cons_of_neg (by simpa using hk), List.filter_cons_of_neg (by simp; omega),
          ← hnext, List.filter_append, List.filter_cons_of_neg (by simp; omega), List.filter_nil,
          List.append_nil]

theorem rounds_layers (hout : Layer T l₀ k out)
    (hr : rounds prev fuel [] (l₀.filter fun x => k ≤ T x) out = some r) :
    ∃ n, r = out ++ layers T l₀ k n := by
  induction fuel generalizing k out with
  | zero => cases hr
  | succ fuel ih =>
      have hsweep := sweep_layer hn hac hT hc hout [] l₀ rfl
      rw [List.filter_nil, List.append_nil] at hsweep
      rw [rounds, hsweep] at hr
      cases hleft : l₀.filter fun x => k + 1 ≤ T x with
      | nil =>
          rw [hleft] at hr
          refine ⟨1, (Option.some.inj hr).symm.trans ?_⟩
          simp [layers]
      | cons y rest =>
          rw [hleft] at hr
          simp only at hr
          have hy : y ∈ l₀.filter fun x => k + 1 ≤ T x := by
            rw [hleft]
            exact List.mem_cons_self
          obtain ⟨hyl, hyk⟩ := List.mem_filter.mp hy
          have hyk : k + 1 ≤ T y := of_decide_eq_true hyk
          -- as some item takes more turns, some item takes just `k`
          obtain ⟨z, hzl, hz⟩ := (hT y hyl).exists_lt hc hyl (by omega : k ≤ T y)
          have hzk : z ∈ l₀.filter fun x => T x = k :=
            List.mem_filter.mpr ⟨hzl, by simp [(hT z hzl).unique hz]⟩
          have hne : out ++ (l₀.filter fun x => T x = k) ≠ out := by
            intro he
            rw [List.append_right_eq_self.mp he] at hzk
            cases hzk
          rw [if_neg hne, ← hleft] at hr
          have hout' : Layer T l₀ (k + 1) (out ++ l₀.filter fun x => T x = k) := by
            constructor
            intro x
            rw [List.mem_append, hout.mem, List.mem_filter, decide_eq_true_eq]
            constructor
            · rintro (⟨hx, hk⟩ | ⟨hx, hk⟩)
              · exact ⟨hx, by omega⟩
              · exact ⟨hx, by omega⟩
            · rintro ⟨hx, hk⟩
              by_cases hlt : T x < k
              · exact .inl ⟨hx, hlt⟩
              · exact .inr ⟨hx, by omega⟩
          obtain ⟨n, rfl⟩ := ih hout' hr
          refine ⟨n + 1, ?_⟩
          rw [layers, layers, List.range'_succ, List.flatMap_cons, List.append_assoc]

/-- Items come out in the order of their turns, and where these are equal in that of the list. -/
theorem sort_pairwise (hr : sort prev l₀ = some r) :
    r.Pairwise fun x y => T x < T y ∨ T x = T y ∧ Before l₀ x y := by
  have hout : Layer T l₀ 0 [] := ⟨by simp⟩
  have hall : (l₀.filter fun x => 0 ≤ T x) = l₀ := by simp
  have hrounds : rounds prev (2 * l₀.length + 1) [] (l₀.filter fun x => 0 ≤ T x) [] = some r := by
    rw [hall]
    exact hr
  obtain ⟨n, rfl⟩ := rounds_layers hn hac hT hc hout hrounds
  rw [List.nil_append, layers, List.pairwise_flatMap]
  refine ⟨fun j _ => ?_, ?_⟩
  · rw [List.pairwise_filter]
    apply (pairwise_before l₀).imp
    intro x y hxy hx hy
    have hx : T x = j := of_decide_eq_true hx
    have hy : T y = j := of_decide_eq_true hy
    exact .inr ⟨hx.trans hy.symm, hxy⟩
  · refine List.Pairwise.imp (fun hij x hx y hy => ?_) List.pairwise_lt_range'
    have hx := of_decide_eq_true (List.mem_filter.mp hx).2
    have hy := of_decide_eq_true (List.mem_filter.mp hy).2
    exact .inl (hx ▸ hy ▸ hij)

end Layers

/-- An order that follows the references, and otherwise leaves items in their order unless the
references put them in order in some way. -/
structure Stable (prev : ι → Option ι) (l r : List ι) : Prop where
  perm : r.Perm l
  follows : ∀ x ∈ l, Follows prev r x
  keeps : ∀ x y, Before l x y → ¬ Leads prev x y → ¬ Leads prev y x → Before r x y

omit [DecidableEq ι] in
theorem Stable.leads (h : Stable prev l r) (hn : l.Nodup) (hx : x ∈ l) (hxy : Leads prev x y) :
    Before r y x := by
  have hnr : r.Nodup := h.perm.nodup_iff.mpr hn
  induction hxy with
  | single hxy => exact h.follows x hx _ hxy
  | tail _ hyz ih =>
      have hy := h.perm.mem_iff.mp ih.left
      exact (h.follows _ hy _ hyz).trans hnr ih

omit [DecidableEq ι] in
/-- There is at most one such order. -/
theorem Stable.unique {r' : List ι} (h : Stable prev l r) (h' : Stable prev l r')
    (hn : l.Nodup) : r = r' := by
  have hnr : r.Nodup := h.perm.nodup_iff.mpr hn
  apply eq_of_before hnr (h.perm.trans h'.perm.symm)
  intro x y hxy
  have hx : x ∈ l := h.perm.mem_iff.mp hxy.left
  have hy : y ∈ l := h.perm.mem_iff.mp hxy.right
  by_cases hyx : Leads prev y x
  · exact h'.leads hn hy hyx
  · have hnot : ¬ Leads prev x y := fun hlead => hxy.asymm hnr (h.leads hn hx hlead)
    rcases before_total hx hy (hxy.ne hnr) with hl | hl
    · exact h'.keeps x y hl hnot hyx
    · exact absurd (h.keeps y x hl hyx hnot) (hxy.asymm hnr)

/-- Sorting gives this order exactly if no item takes more turns than a later one that it has
nothing to do with. -/
theorem sort_stable_iff (hn : l.Nodup) (hc : Closed prev l) (hac : ∀ x, ¬ Leads prev x x)
    (hr : sort prev l = some r) :
    (∀ r', Stable prev l r' → r = r') ↔
      ((∃ r', Stable prev l r') → ∀ x y m n, Before l x y → ¬ Leads prev x y →
        ¬ Leads prev y x → Turns prev l x m → Turns prev l y n → m ≤ n) := by
  have hall : ∀ x, ∃ n, x ∈ l → Turns prev l x n := by
    intro x
    by_cases hx : x ∈ l
    · obtain ⟨n, h⟩ := exists_turns hc hac hx
      exact ⟨n, fun _ => h⟩
    · exact ⟨0, fun h => absurd h hx⟩
  obtain ⟨T, hT⟩ := Classical.skolem.mp hall
  have hnr : r.Nodup := (sort_perm hr).nodup_iff.mpr hn
  have hpair := sort_pairwise hn hac hT hc hr
  have hfollows : ∀ x ∈ l, Follows prev r x := fun x hx =>
    sort_follows_of hn hc (fun ⟨c, _, hcc⟩ => absurd hcc (hac c)) hr hx
  constructor
  · rintro h ⟨r', hr'⟩ x y m n hxy h1 h2 hm hn'
    obtain rfl := h r' hr'
    obtain rfl := (hT x hxy.left).unique hm
    obtain rfl := (hT y hxy.right).unique hn'
    rcases Before.of_pairwise hpair (hr'.keeps x y hxy h1 h2) with hlt | ⟨heq, -⟩
    · omega
    · omega
  · intro h r' hr'
    apply Stable.unique ⟨sort_perm hr, hfollows, fun x y hxy h1 h2 => ?_⟩ hr' hn
    have hle := h ⟨r', hr'⟩ x y _ _ hxy h1 h2 (hT x hxy.left) (hT y hxy.right)
    have hx : x ∈ r := (sort_perm hr).mem_iff.mpr hxy.left
    have hy : y ∈ r := (sort_perm hr).mem_iff.mpr hxy.right
    rcases before_total hx hy (hxy.ne hn) with hrxy | hryx
    · exact hrxy
    · rcases Before.of_pairwise hpair hryx with hlt | ⟨-, hyx⟩
      · omega
      · exact absurd hyx (hxy.asymm hn)

end Sunela.Kahn
