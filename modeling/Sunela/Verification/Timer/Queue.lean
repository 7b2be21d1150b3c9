import Mathlib.Data.List.Perm.Basic
import Sunela.Model.Timer

/-! # The list of timers

The list in memory is that of the settings that are pending, sorted by the time when they are due
and by the order in which they were made. -/

namespace Sunela.Timers

open Linked

variable {T F U : Type}

/-- A setting with the position of its event. -/
abbrev Entry (T F U : Type) := ℕ × Setting T F U

/-- The order in which timers are called. -/
def Before (x y : Entry T F U) : Prop := x.2.due < y.2.due ∨ x.2.due = y.2.due ∧ x.1 < y.1

variable {s s' : State T F U} {t : T} {fuel : ℕ} {q q₁ q₂ : List (Entry T F U)}
  {x y z : Entry T F U}

theorem Before.trans (h : Before x y) (h' : Before y z) : Before x z := by
  rcases h with h | ⟨heq, h⟩
  · rcases h' with h' | ⟨heq', -⟩
    · exact .inl (UInt32.lt_trans h h')
    · exact .inl (heq' ▸ h)
  · rcases h' with h' | ⟨heq', h'⟩
    · exact .inl (heq ▸ h')
    · exact .inr ⟨heq.trans heq', Nat.lt_trans h h'⟩

def timers (q : List (Entry T F U)) : List T := q.map fun x => x.2.timer

theorem mem_timers : t ∈ timers q ↔ ∃ x ∈ q, x.2.timer = t := List.mem_map

theorem timers_append : timers (q₁ ++ q₂) = timers q₁ ++ timers q₂ := List.map_append

/-- The list of the state is that of the settings. -/
structure Queue (s : State T F U) (q : List (Entry T F U)) : Prop where
  reads : Reads s.links.next s.timers (timers q)
  nodup : (timers q).Nodup
  fields : ∀ x ∈ q, (s.timer x.2.timer).due = x.2.due ∧
    (s.timer x.2.timer).fn = some x.2.fn ∧ (s.timer x.2.timer).user = x.2.user
  idle : ∀ t, t ∉ timers q → (s.timer t).fn = none
  sorted : q.Pairwise Before

/-- The call of the function of a setting. -/
def Setting.called (x : Setting T F U) : Called T F U := ⟨x.timer, some x.fn, x.user⟩

theorem Queue.called (h : Queue s q) (hx : x ∈ q) :
    (⟨x.2.timer, (s.timer x.2.timer).fn, (s.timer x.2.timer).user⟩ : Called T F U) =
      x.2.called := by
  obtain ⟨-, hfn, huser⟩ := h.fields x hx
  rw [hfn, huser, Setting.called]

/-! ## Links -/

variable [DecidableEq T]

theorem links_setLink (a p : Option T) : (s.setLink a p).links = s.links.put a p := by
  cases a with
  | none => rfl
  | some t =>
      simp only [State.links, State.setLink, State.write, Links.put, Links.mk.injEq, true_and]
      funext u
      by_cases hu : u = t
      · subst hu
        simp
      · rw [Function.update_of_ne hu, Function.update_of_ne hu]

@[simp]
theorem setLink_now (a p : Option T) : (s.setLink a p).now = s.now := by
  cases a <;> rfl

/-- The fields of a timer that are not its link are the same. -/
def Keeps (s s' : State T F U) (t : T) : Prop := (s'.timer t).due = (s.timer t).due ∧
  (s'.timer t).fn = (s.timer t).fn ∧ (s'.timer t).user = (s.timer t).user

theorem setLink_keeps (a p : Option T) (t : T) : Keeps s (s.setLink a p) t := by
  cases a with
  | none => exact ⟨rfl, rfl, rfl⟩
  | some u =>
      rw [Keeps, State.setLink, State.write]
      by_cases hu : t = u
      · subst hu
        simp
      · simp [Function.update_of_ne hu]

theorem write_of_ne {u : T} {v : Timer T F U} (h : u ≠ t) :
    (s.write t v).timer u = s.timer u := by
  rw [State.write]
  exact Function.update_of_ne h v s.timer

@[simp]
theorem write_self {v : Timer T F U} : (s.write t v).timer t = v := by
  rw [State.write]
  exact Function.update_self t v s.timer

/-! ## Timers that are taken out -/

/-- The link before a timer is set to the one after it, and the timer is initialised. -/
def takeOut (s : State T F U) (a : Option T) (t : T) : State T F U :=
  timerInit (s.setLink a (s.timer t).next) t

theorem takeOut_now (a : Option T) : (takeOut s a t).now = s.now := setLink_now a _

theorem Queue.takeOut (h : Queue s (q₁ ++ x :: q₂)) :
    Queue (takeOut s (after none (timers q₁)) x.2.timer) (q₁ ++ q₂) := by
  have hreads := h.reads
  have hnodup := h.nodup
  rw [timers_append] at hreads hnodup
  obtain ⟨hnodup₁, hnodup₂, hdisj⟩ := List.nodup_append.mp hnodup
  obtain ⟨hx₂, hnodup₂⟩ := List.nodup_cons.mp hnodup₂
  have hx : ∀ u ∈ timers (q₁ ++ q₂), u ≠ x.2.timer := by
    intro u hu heq
    rw [timers_append] at hu
    rcases List.mem_append.mp hu with hu | hu
    · exact hdisj u hu x.2.timer List.mem_cons_self heq
    · rw [heq] at hu
      exact hx₂ hu
  have hrest : Reads s.links.next (s.timer x.2.timer).next (timers q₂) :=
    (@reads_after T s.links none (timers q₁) _ hreads).2
  have hput := @reads_put T s.links none _ (timers q₁) _ _ _ hreads hrest hnodup₁
    (fun _ _ => nofun) fun u hu hu' => hdisj u hu u (List.mem_cons_of_mem _ hu') rfl
  rw [← links_setLink, ← timers_append] at hput
  refine ⟨?_, ?_, ?_, ?_, ?_⟩
  · exact hput.congr fun u hu => congrArg Timer.next (write_of_ne (hx u hu))
  · rw [timers_append]
    exact List.nodup_append.mpr ⟨hnodup₁, hnodup₂, fun u hu v hv =>
      hdisj u hu v (List.mem_cons_of_mem _ hv)⟩
  · intro y hy
    have hne := hx y.2.timer (mem_timers.mpr ⟨y, hy, rfl⟩)
    have hfields := h.fields y (by
      rcases List.mem_append.mp hy with hy | hy
      · exact List.mem_append_left _ hy
      · exact List.mem_append_right _ (List.mem_cons_of_mem x hy))
    obtain ⟨hdue, hfn, huser⟩ := @setLink_keeps T F U s _ (after none (timers q₁))
      (s.timer x.2.timer).next y.2.timer
    rw [Timers.takeOut, timerInit, write_of_ne hne, hdue, hfn, huser]
    exact hfields
  · intro u hu
    by_cases hux : u = x.2.timer
    · rw [hux, Timers.takeOut, timerInit, write_self]
    · obtain ⟨-, hfn, -⟩ := @setLink_keeps T F U s _ (after none (timers q₁))
        (s.timer x.2.timer).next u
      rw [Timers.takeOut, timerInit, write_of_ne hux, hfn]
      apply h.idle
      rw [timers_append] at hu ⊢
      intro hmem
      rcases List.mem_append.mp hmem with hmem | hmem
      · exact hu (List.mem_append_left _ hmem)
      · rcases List.mem_cons.mp hmem with heq | hmem
        · exact hux heq
        · exact hu (List.mem_append_right _ hmem)
  · exact h.sorted.sublist ((List.Sublist.refl q₁).append (List.sublist_cons_self x q₂))

/-! ## Calls -/

/-- The settings of other timers. -/
def without (t : T) (q : List (Entry T F U)) : List (Entry T F U) :=
  q.filter fun x => x.2.timer ≠ t

theorem mem_without : y ∈ without t q ↔ y ∈ q ∧ y.2.timer ≠ t := by
  simp [without]

theorem without_absent (h : t ∉ timers q) : without t q = q := by
  rw [without, List.filter_eq_self]
  intro x hx
  exact decide_eq_true fun heq => h (mem_timers.mpr ⟨x, hx, heq⟩)

theorem without_present (h : (timers (q₁ ++ x :: q₂)).Nodup) :
    without x.2.timer (q₁ ++ x :: q₂) = q₁ ++ q₂ := by
  rw [timers_append] at h
  obtain ⟨-, hnodup₂, hdisj⟩ := List.nodup_append.mp h
  have h₁ : x.2.timer ∉ timers q₁ := fun hx => hdisj _ hx _ List.mem_cons_self rfl
  have h₂ : x.2.timer ∉ timers q₂ := (List.nodup_cons.mp hnodup₂).1
  rw [without, List.filter_append, List.filter_cons_of_neg (by simp)]
  exact congrArg₂ (· ++ ·) (without_absent h₁) (without_absent h₂)

/-- A timer that is not in the list is not found, and one that is there is. -/
theorem Queue.find_cases (h : Queue s q) (t : T) :
    t ∉ timers q ∧ (∀ fuel, q.length < fuel → ∃ a, s.links.find (· = t) fuel none = some a) ∧
      (∀ fuel a, s.links.find (· = t) fuel none = some a → s.links.get a = none) ∨
    ∃ q₁ x q₂, q = q₁ ++ x :: q₂ ∧ x.2.timer = t ∧
      (∀ fuel, q.length < fuel → ∃ a, s.links.find (· = t) fuel none = some a) ∧
      ∀ fuel a, s.links.find (· = t) fuel none = some a →
        a = after none (timers q₁) ∧ s.links.get a = some t := by
  have hlength : (timers q).length = q.length := List.length_map _
  by_cases ht : t ∈ timers q
  · obtain ⟨x, hx, hxt⟩ := mem_timers.mp ht
    obtain ⟨q₁, q₂, rfl⟩ := List.append_of_mem hx
    have hreads : Reads s.links.next (s.links.get none) (timers q₁ ++ timers (x :: q₂)) := by
      rw [← timers_append]
      exact h.reads
    have hnodup := h.nodup
    rw [timers_append] at hnodup
    have hpre : ∀ u ∈ timers q₁, decide (u = t) = false := by
      intro u hu
      exact decide_eq_false fun heq =>
        (List.nodup_append.mp hnodup).2.2 u hu x.2.timer List.mem_cons_self (heq.trans hxt.symm)
    have hpost : ∀ u ∈ (timers (x :: q₂)).head?, decide (u = t) = true := by
      intro u hu
      cases hu
      exact decide_eq_true hxt
    refine .inr ⟨q₁, x, q₂, rfl, hxt, fun fuel hfuel => ?_, fun fuel a hf => ?_⟩
    · refine ⟨_, find_eq hreads hpre hpost ?_⟩
      rw [timers, List.length_map]
      rw [List.length_append] at hfuel
      exact Nat.lt_of_le_of_lt (Nat.le_add_right _ _) hfuel
    · obtain rfl := find_some hreads hpre hpost hf
      exact ⟨rfl, (get_after hreads).trans (congrArg some hxt)⟩
  · have hreads : Reads s.links.next (s.links.get none) (timers q ++ []) := by
      rw [List.append_nil]
      exact h.reads
    have hpre : ∀ u ∈ timers q, decide (u = t) = false := by
      intro u hu
      exact decide_eq_false fun heq => ht (heq ▸ hu)
    refine .inl ⟨ht, fun fuel hfuel => ?_, fun fuel a hf => ?_⟩
    · exact ⟨_, find_eq hreads hpre (fun _ => nofun) (by rw [hlength]; exact hfuel)⟩
    · obtain rfl := find_some hreads hpre (fun _ => nofun) hf
      exact get_after hreads

theorem Queue.cancel (h : Queue s q) (hs : timerCancel fuel s t = some s') :
    Queue s' (without t q) ∧ s'.now = s.now := by
  obtain ⟨a, hf, hs⟩ := Option.bind_eq_some_iff.mp hs
  rcases h.find_cases t with ⟨ht, -, hnone⟩ | ⟨q₁, x, q₂, rfl, rfl, -, hsome⟩
  · rw [hnone fuel a hf] at hs
    obtain rfl := Option.some.inj hs
    rw [without_absent ht]
    exact ⟨h, rfl⟩
  · obtain ⟨rfl, hget⟩ := hsome fuel a hf
    rw [hget] at hs
    obtain rfl := Option.some.inj hs
    rw [without_present h.nodup]
    exact ⟨h.takeOut, takeOut_now _⟩

theorem Queue.cancel_ends (h : Queue s q) (t : T) (hfuel : q.length < fuel) :
    ∃ s', timerCancel fuel s t = some s' := by
  obtain ⟨a, hf⟩ : ∃ a, s.links.find (· = t) fuel none = some a := by
    rcases h.find_cases t with ⟨-, hends, -⟩ | ⟨-, -, -, -, -, hends, -⟩
    · exact hends fuel hfuel
    · exact hends fuel hfuel
  rw [timerCancel, hf]
  cases hget : s.links.get a with
  | none => exact ⟨s, by simp [hget]⟩
  | some u => exact ⟨_, by simp only [Option.bind_eq_bind, Option.bind_some, hget]; rfl⟩

theorem Queue.flush {c : Option (Called T F U)} (h : Queue s q)
    (hs : timerFlush fuel s t = some (s', c)) :
    t ∉ timers q ∧ s' = s ∧ c = none ∨ ∃ x ∈ q, x.2.timer = t ∧ c = some x.2.called ∧
      Queue s' (without t q) ∧ s'.now = s.now := by
  obtain ⟨a, hf, hs⟩ := Option.bind_eq_some_iff.mp hs
  rcases h.find_cases t with ⟨ht, -, hnone⟩ | ⟨q₁, x, q₂, rfl, rfl, -, hsome⟩
  · rw [hnone fuel a hf] at hs
    obtain ⟨rfl, rfl⟩ := Prod.mk.inj (Option.some.inj hs)
    exact .inl ⟨ht, rfl, rfl⟩
  · obtain ⟨rfl, hget⟩ := hsome fuel a hf
    have hx : x ∈ q₁ ++ x :: q₂ := List.mem_append_right q₁ List.mem_cons_self
    rw [hget] at hs
    simp only [(h.fields x hx).2.1, Option.isNone_some, Bool.false_eq_true, if_false] at hs
    obtain ⟨rfl, rfl⟩ := Prod.mk.inj (Option.some.inj hs)
    refine .inr ⟨x, hx, rfl, ?_, ?_, takeOut_now _⟩
    · rw [(h.fields x hx).2.2]
      rfl
    · rw [without_present h.nodup]
      exact h.takeOut

theorem Queue.flush_ends (h : Queue s q) (t : T) (hfuel : q.length < fuel) :
    ∃ r, timerFlush fuel s t = some r := by
  rcases h.find_cases t with ⟨-, hends, hnone⟩ | ⟨q₁, x, q₂, rfl, rfl, hends, hsome⟩
  · obtain ⟨a, hf⟩ := hends fuel hfuel
    rw [timerFlush, hf]
    exact ⟨(s, none), by simp [hnone fuel a hf]⟩
  · obtain ⟨a, hf⟩ := hends fuel hfuel
    have hx : x ∈ q₁ ++ x :: q₂ := List.mem_append_right q₁ List.mem_cons_self
    rw [timerFlush, hf]
    simp only [Option.bind_eq_bind, Option.bind_some, (hsome fuel a hf).2, (h.fields x hx).2.1,
      Option.isNone_some, Bool.false_eq_true, if_false]
    exact ⟨_, rfl⟩

/-- A round of the loop of a tick calls the function of the first setting, if it is due. -/
theorem Queue.round (h : Queue s q) :
    tickRound s = none ∧ (∀ x ∈ q, s.now < x.2.due) ∨ ∃ x q₂ s', q = x :: q₂ ∧
      x.2.due ≤ s.now ∧ tickRound s = some (s', x.2.called) ∧ Queue s' q₂ ∧ s'.now = s.now := by
  cases q with
  | nil =>
      have htimers : s.timers = none := h.reads
      exact .inl ⟨by rw [tickRound, htimers], fun x hx => absurd hx List.not_mem_nil⟩
  | cons x q₂ =>
      have htimers : s.timers = some x.2.timer := h.reads.1
      obtain ⟨hdue, -, -⟩ := h.fields x List.mem_cons_self
      rw [tickRound, htimers]
      simp only [hdue]
      by_cases hlate : x.2.due ≤ s.now
      · rw [if_pos hlate, h.called List.mem_cons_self]
        exact .inr ⟨x, q₂, _, rfl, hlate, rfl, @Queue.takeOut T F U s [] q₂ x _ h, rfl⟩
      · rw [if_neg hlate]
        refine .inl ⟨rfl, fun y hy => ?_⟩
        have hlt := UInt32.not_le.mp hlate
        rcases List.mem_cons.mp hy with rfl | hy
        · exact hlt
        · rcases List.rel_of_pairwise_cons h.sorted hy with hbefore | ⟨heq, -⟩
          · exact UInt32.lt_trans hlt hbefore
          · exact heq ▸ hlt

/-! ## Settings -/

/-- A timer that is not in the list is put in. -/
theorem Queue.putIn (h : Queue s (q₁ ++ q₂)) (hx : x.2.timer ∉ timers (q₁ ++ q₂))
    (h₁ : ∀ y ∈ q₁, Before y x) (h₂ : ∀ y ∈ q₂, Before x y) :
    let s₁ := s.setLink (some x.2.timer) (s.links.get (after none (timers q₁)))
    let s₂ := s₁.setLink (after none (timers q₁)) (some x.2.timer)
    Queue (s₂.write x.2.timer
      { s₂.timer x.2.timer with due := x.2.due, fn := some x.2.fn, user := x.2.user })
      (q₁ ++ x :: q₂) := by
  intro s₁ s₂
  have hreads := h.reads
  have hnodup := h.nodup
  rw [timers_append] at hreads hnodup hx
  obtain ⟨hnodup₁, hnodup₂, hdisj⟩ := List.nodup_append.mp hnodup
  have hne : ∀ u ∈ timers q₁ ++ timers q₂, (some x.2.timer : Option T) ≠ some u := by
    intro u hu heq
    rw [Option.some.inj heq] at hx
    exact hx hu
  have hlist : Reads s₁.links.next s₁.links.head (timers q₁ ++ timers q₂) := by
    rw [links_setLink]
    exact hreads.put hne
  have hnew : Reads s₁.links.next (some x.2.timer) (x.2.timer :: timers q₂) := by
    refine ⟨rfl, ?_⟩
    have hlink : s₁.links.next x.2.timer = s.links.get (after none (timers q₁)) := by
      rw [links_setLink]
      exact get_put_self (a := some x.2.timer)
    rw [hlink, links_setLink]
    exact (@reads_after T s.links none _ _ hreads).put fun u hu =>
      hne u (List.mem_append_right _ hu)
  have hput := @reads_put T s₁.links none _ _ _ _ _ hlist hnew hnodup₁ (fun _ _ => nofun)
    fun u hu hu' => by
      rcases List.mem_cons.mp hu' with heq | hu'
      · exact hx (heq ▸ List.mem_append_left _ hu)
      · exact hdisj u hu u hu' rfl
  rw [← links_setLink] at hput
  have htimers : timers (q₁ ++ x :: q₂) = timers q₁ ++ x.2.timer :: timers q₂ := timers_append
  have hkeeps : ∀ u, Keeps s s₂ u := by
    intro u
    obtain ⟨hdue, hfn, huser⟩ := @setLink_keeps T F U s _ (some x.2.timer)
      (s.links.get (after none (timers q₁))) u
    obtain ⟨hdue', hfn', huser'⟩ := @setLink_keeps T F U s₁ _ (after none (timers q₁))
      (some x.2.timer) u
    exact ⟨hdue'.trans hdue, hfn'.trans hfn, huser'.trans huser⟩
  refine ⟨?_, ?_, ?_, ?_, ?_⟩
  · rw [htimers]
    apply hput.congr
    intro u _
    by_cases hu : u = x.2.timer
    · subst hu
      show ((s₂.write x.2.timer _).timer x.2.timer).next = (s₂.timer x.2.timer).next
      rw [write_self]
    · exact congrArg Timer.next (write_of_ne hu)
  · rw [htimers]
    apply List.nodup_middle.mpr
    exact List.nodup_cons.mpr ⟨hx, hnodup⟩
  · intro y hy
    by_cases hyx : y.2.timer = x.2.timer
    · have heq : y = x := by
        rcases List.mem_append.mp hy with hy | hy
        · exact absurd (List.mem_append_left _ (mem_timers.mpr ⟨y, hy, hyx⟩)) hx
        · rcases List.mem_cons.mp hy with heq | hy
          · exact heq
          · exact absurd (List.mem_append_right _ (mem_timers.mpr ⟨y, hy, hyx⟩)) hx
      rw [heq, write_self]
      exact ⟨rfl, rfl, rfl⟩
    · obtain ⟨hdue, hfn, huser⟩ := hkeeps y.2.timer
      rw [write_of_ne hyx, hdue, hfn, huser]
      apply h.fields
      rcases List.mem_append.mp hy with hy | hy
      · exact List.mem_append_left _ hy
      · rcases List.mem_cons.mp hy with heq | hy
        · exact absurd (congrArg (fun z => z.2.timer) heq) hyx
        · exact List.mem_append_right _ hy
  · intro u hu
    rw [htimers] at hu
    have hux : u ≠ x.2.timer := fun heq =>
      hu (List.mem_append_right _ (heq ▸ List.mem_cons_self))
    rw [write_of_ne hux, (hkeeps u).2.1]
    apply h.idle
    rw [timers_append]
    intro hmem
    rcases List.mem_append.mp hmem with hmem | hmem
    · exact hu (List.mem_append_left _ hmem)
    · exact hu (List.mem_append_right _ (List.mem_cons_of_mem _ hmem))
  · obtain ⟨hs₁, hs₂, hs₁₂⟩ := List.pairwise_append.mp h.sorted
    refine List.pairwise_append.mpr ⟨hs₁, List.pairwise_cons.mpr ⟨h₂, hs₂⟩, ?_⟩
    intro y hy z hz
    rcases List.mem_cons.mp hz with rfl | hz
    · exact h₁ y hy
    · exact hs₁₂ y hy z hz

/-- A setting comes after those that are due before it, or at the same time. -/
theorem Queue.split (h : Queue s q) (x : Entry T F U) : ∃ q₁ q₂, q = q₁ ++ q₂ ∧
    (∀ y ∈ q₁, y.2.due ≤ x.2.due) ∧ ∀ y ∈ q₂, x.2.due < y.2.due := by
  have hsorted := h.sorted
  clear h
  induction q with
  | nil => exact ⟨[], [], rfl, fun _ => nofun, fun _ => nofun⟩
  | cons y q ih =>
      obtain ⟨hfirst, hrest⟩ := List.pairwise_cons.mp hsorted
      by_cases hle : y.2.due ≤ x.2.due
      · obtain ⟨q₁, q₂, rfl, h₁, h₂⟩ := ih hrest
        refine ⟨y :: q₁, q₂, rfl, fun z hz => ?_, h₂⟩
        rcases List.mem_cons.mp hz with rfl | hz
        · exact hle
        · exact h₁ z hz
      · have hlt := UInt32.not_le.mp hle
        refine ⟨[], y :: q, rfl, fun _ => nofun, fun z hz => ?_⟩
        rcases List.mem_cons.mp hz with rfl | hz
        · exact hlt
        · rcases hfirst z hz with hbefore | ⟨heq, -⟩
          · exact UInt32.lt_trans hlt hbefore
          · exact heq ▸ hlt

/-- A timer that is set is not in the list any more when it is put in. -/
theorem Queue.cleared (h : Queue s q)
    (hs : (if (s.timer t).fn.isSome then timerCancel fuel s t else some s) = some s') :
    Queue s' (without t q) ∧ s'.now = s.now := by
  by_cases hfn : (s.timer t).fn.isSome = true
  · rw [if_pos hfn] at hs
    exact h.cancel hs
  · rw [if_neg hfn] at hs
    obtain rfl := Option.some.inj hs
    have habsent : t ∉ timers q := by
      intro hmem
      obtain ⟨x, hx, rfl⟩ := mem_timers.mp hmem
      rw [(h.fields x hx).2.1] at hfn
      exact hfn rfl
    rw [without_absent habsent]
    exact ⟨h, rfl⟩

/-- Where a setting is put in. -/
theorem Queue.find_place (h : Queue s (q₁ ++ q₂)) {due : UInt32}
    (h₁ : ∀ y ∈ q₁, y.2.due ≤ due) (h₂ : ∀ y ∈ q₂, due < y.2.due) :
    (∀ fuel, (q₁ ++ q₂).length < fuel →
      ∃ a, s.links.find (fun u => (s.timer u).due > due) fuel none = some a) ∧
    ∀ fuel a, s.links.find (fun u => (s.timer u).due > due) fuel none = some a →
      a = after none (timers q₁) := by
  have hreads : Reads s.links.next (s.links.get none) (timers q₁ ++ timers q₂) := by
    rw [← timers_append]
    exact h.reads
  have hdue : ∀ y ∈ q₁ ++ q₂, (s.timer y.2.timer).due = y.2.due := fun y hy => (h.fields y hy).1
  have hpre : ∀ u ∈ timers q₁, decide ((s.timer u).due > due) = false := by
    intro u hu
    obtain ⟨y, hy, rfl⟩ := mem_timers.mp hu
    rw [hdue y (List.mem_append_left _ hy)]
    exact decide_eq_false (UInt32.not_lt.mpr (h₁ y hy))
  have hpost : ∀ u ∈ (timers q₂).head?, decide ((s.timer u).due > due) = true := by
    intro u hu
    obtain ⟨y, hy, rfl⟩ := mem_timers.mp (List.mem_of_mem_head? hu)
    rw [hdue y (List.mem_append_right _ hy)]
    exact decide_eq_true (h₂ y hy)
  refine ⟨fun fuel hfuel => ⟨_, find_eq hreads hpre hpost ?_⟩, fun fuel a hf => ?_⟩
  · rw [timers, List.length_map]
    rw [List.length_append] at hfuel
    exact Nat.lt_of_le_of_lt (Nat.le_add_right _ _) hfuel
  · exact find_some hreads hpre hpost hf

theorem Queue.set {ms : UInt32} {fn : F} {user : Option U} {i : ℕ} (h : Queue s q)
    (hi : ∀ y ∈ q, y.1 < i) (hs : timerSet fuel s t ms fn user = some s') :
    ∃ q', q'.Perm ((i, ⟨t, s.now + ms, fn, user⟩) :: without t q) ∧ Queue s' q' ∧
      s'.now = s.now := by
  rw [timerSet] at hs
  obtain ⟨s₀, hs₀, hs⟩ := Option.bind_eq_some_iff.mp hs
  obtain ⟨anchor, hanchor, hs⟩ := Option.bind_eq_some_iff.mp hs
  obtain ⟨h₀, hnow⟩ := h.cleared hs₀
  obtain ⟨q₁, q₂, hq, h₁, h₂⟩ := h₀.split (i, ⟨t, s.now + ms, fn, user⟩)
  have hmem : ∀ y ∈ q₁ ++ q₂, y ∈ q ∧ y.2.timer ≠ t := fun y hy =>
    mem_without.mp (hq ▸ hy)
  rw [hq] at h₀ ⊢
  obtain rfl := (h₀.find_place h₁ h₂).2 fuel anchor hanchor
  obtain rfl := Option.some.inj hs
  have hx : t ∉ timers (q₁ ++ q₂) := by
    intro hx
    obtain ⟨y, hy, hyt⟩ := mem_timers.mp hx
    exact (hmem y hy).2 hyt
  have hbefore : ∀ y ∈ q₁, Before y (i, ⟨t, s.now + ms, fn, user⟩) := by
    intro y hy
    rcases UInt32.le_iff_lt_or_eq.mp (h₁ y hy) with hlt | heq
    · exact .inl hlt
    · exact .inr ⟨heq, hi y (hmem y (List.mem_append_left _ hy)).1⟩
  refine ⟨q₁ ++ (i, ⟨t, s.now + ms, fn, user⟩) :: q₂, List.perm_middle, ?_, ?_⟩
  · exact h₀.putIn (x := (i, ⟨t, s.now + ms, fn, user⟩)) hx hbefore fun y hy => .inl (h₂ y hy)
  · show ((s₀.setLink _ _).setLink _ _).now = s.now
    rw [setLink_now, setLink_now, hnow]

theorem Queue.set_ends (h : Queue s q) (t : T) (ms : UInt32) (fn : F) (user : Option U)
    (hfuel : q.length < fuel) : ∃ s', timerSet fuel s t ms fn user = some s' := by
  obtain ⟨s₀, hs₀⟩ : ∃ s₀,
      (if (s.timer t).fn.isSome then timerCancel fuel s t else some s) = some s₀ := by
    split
    · exact h.cancel_ends t hfuel
    · exact ⟨s, rfl⟩
  obtain ⟨h₀, -⟩ := h.cleared hs₀
  obtain ⟨q₁, q₂, hq, h₁, h₂⟩ := h₀.split (0, ⟨t, s.now + ms, fn, user⟩)
  have hlength : (q₁ ++ q₂).length < fuel :=
    Nat.lt_of_le_of_lt (hq ▸ List.length_filter_le _ q) hfuel
  rw [hq] at h₀
  obtain ⟨a, ha⟩ := (h₀.find_place h₁ h₂).1 fuel hlength
  rw [timerSet, hs₀]
  exact ⟨_, by simp only [Option.bind_eq_bind, Option.bind_some, ha]; rfl⟩

end Sunela.Timers
