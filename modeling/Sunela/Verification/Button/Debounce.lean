import Mathlib.Algebra.Group.Nat.Defs
import Mathlib.Tactic.Common
import Sunela.Model.Button

/-! # Presses and bounces

A press turns the device on or off once. The deadline that hides the bounces of a press has passed
when the button is released, and does not hide the bounces of the release. -/

namespace Sunela.Button

/-! ## Signals -/

/-- A press or a release: the button may bounce, and then it is stable. -/
structure Phase where
  bounce : List Bool
  stable : ℕ

def Phase.levels (p : Phase) (level : Bool) : List Bool :=
  p.bounce ++ List.replicate p.stable level

/-- The last change comes less than `DEBOUNCE_MS` after the first, and nothing changes for at least
this time after it. -/
structure Phase.Valid (p : Phase) (level : Bool) : Prop where
  starts : ∀ b ∈ p.bounce.head?, b = level
  short : p.bounce.length < debounceMs.toNat
  long : debounceMs.toNat ≤ p.stable

def Phase.Clean (p : Phase) (level : Bool) : Prop := ∀ b ∈ p.bounce, b = level

/-- Presses and releases take turns. -/
def signal : Bool → List Phase → List Bool
  | _, [] => []
  | level, p :: ps => p.levels level ++ signal (!level) ps

/-- Each of the phases satisfies a condition, for the level that it ends with. -/
def Phases (P : Phase → Bool → Prop) : Bool → List Phase → Prop
  | _, [] => True
  | level, p :: ps => P p level ∧ Phases P (!level) ps

/-- The device is toggled once for each press, and not for a release. -/
def TogglesOnce (off : Loop → Bool) : Bool → List Phase → Loop → Prop
  | _, [], _ => True
  | level, p :: ps, s =>
      (eventLoop off (p.levels level) s).toggles = s.toggles + level.toNat ∧
        TogglesOnce off (!level) ps (eventLoop off (p.levels level) s)

/-! ## Rounds -/

variable {off : Loop → Bool} {s : Loop} {p : Phase} {held : List Bool} {level : Bool} {n k : ℕ}

theorem eventLoop_cons (b : Bool) :
    eventLoop off (b :: held) s = eventLoop off held (round off s b) := rfl

theorem eventLoop_append (a b : List Bool) :
    eventLoop off (a ++ b) s = eventLoop off b (eventLoop off a s) := List.foldl_append

/-- The clock is at `n`, and has not overflowed. -/
structure At (n : ℕ) (s : Loop) : Prop where
  now : s.now.toNat = n
  uptime : s.uptime = s.now + 1

variable (off) in
theorem round_clock (b : Bool) :
    (round off s b).now = s.uptime ∧ (round off s b).uptime = s.uptime + 1 := by
  simp only [round, buttonEvent, toggleOnOff]
  repeat' split
  all_goals exact ⟨rfl, rfl⟩

variable (off) in
theorem At.next (h : At n s) (hn : n + 1 < 2 ^ 32) (b : Bool) : At (n + 1) (round off s b) := by
  have huptime := @round_clock off s b
  constructor
  · rw [huptime.1, h.uptime, UInt32.toNat_add, h.now]
    exact Nat.mod_eq_of_lt hn
  · rw [huptime.1, huptime.2]

variable (off) in
/-- Nothing happens as long as the level stays the same. -/
theorem round_same (hb : s.buttonDown = level) :
    (round off s level).buttonDown = level ∧ (round off s level).debounce = s.debounce ∧
      (round off s level).toggles = s.toggles := by
  rw [round, if_neg (not_not.mpr hb)]
  exact ⟨hb, rfl, rfl⟩

variable (off) in
theorem toggles_le_round (b : Bool) : s.toggles ≤ (round off s b).toggles := by
  simp only [round, buttonEvent, toggleOnOff]
  repeat' split
  all_goals simp

variable (off) in
theorem toggles_le (held : List Bool) : s.toggles ≤ (eventLoop off held s).toggles := by
  induction held generalizing s with
  | nil => exact Nat.le_refl _
  | cons b held ih => exact Nat.le_trans (toggles_le_round off b) ih

variable (off) in
/-- While the button is stable, only the clock goes on. -/
theorem stable_loop (h : At n s) (hn : n + k < 2 ^ 32) (hb : s.buttonDown = level) :
    At (n + k) (eventLoop off (List.replicate k level) s) ∧
      (eventLoop off (List.replicate k level) s).buttonDown = level ∧
      (eventLoop off (List.replicate k level) s).debounce = s.debounce ∧
      (eventLoop off (List.replicate k level) s).toggles = s.toggles := by
  induction k generalizing n s with
  | zero => exact ⟨h, hb, rfl, rfl⟩
  | succ k ih =>
      obtain ⟨hdown, hdebounce, htoggles⟩ := round_same off hb
      obtain ⟨hat, hrest⟩ := ih (h.next off (by omega) level) (by omega) hdown
      rw [hdebounce, htoggles] at hrest
      rw [List.replicate_succ, eventLoop_cons, ← Nat.add_assoc, Nat.add_right_comm]
      exact ⟨hat, hrest⟩

variable (off) in
/-- Before the deadline, no change of the level has an effect. -/
theorem round_hidden (h : s.now < s.debounce) (b : Bool) :
    (round off s b).buttonDown = b ∧ (round off s b).debounce = s.debounce ∧
      (round off s b).toggles = s.toggles := by
  by_cases hb : s.buttonDown = b
  · exact round_same off hb
  · have hnot : (!s.buttonDown) = b := Bool.not_eq.mpr hb
    rw [round, if_pos hb, buttonEvent, if_pos h]
    exact ⟨hnot, rfl, rfl⟩

theorem hidden_loop (h : At n s) (hn : n + held.length + 1 ≤ s.debounce.toNat) :
    At (n + held.length + 1) (eventLoop off (held ++ [level]) s) ∧
      (eventLoop off (held ++ [level]) s).buttonDown = level ∧
      (eventLoop off (held ++ [level]) s).debounce = s.debounce ∧
      (eventLoop off (held ++ [level]) s).toggles = s.toggles := by
  have hlimit := s.debounce.toNat_lt
  have hlt : s.now < s.debounce := UInt32.lt_iff_toNat_lt.mpr (by
    rw [h.now]
    omega)
  induction held generalizing n s with
  | nil => exact ⟨h.next off (by omega) level, round_hidden off hlt level⟩
  | cons b held ih =>
      obtain ⟨-, hdebounce, htoggles⟩ := round_hidden off hlt b
      have hat := h.next off (by omega) b
      rw [List.length_cons] at hn
      have hrest := ih hat (by rw [hdebounce]; omega) (by rwa [hdebounce]) (by
        rw [hdebounce]
        exact UInt32.lt_iff_toNat_lt.mpr (by
          rw [hat.now]
          omega))
      rw [hdebounce, htoggles, Nat.add_right_comm n] at hrest
      exact hrest

/-! ## Phases -/

/-- A phase starts with its level, and soon comes to stay there. -/
theorem Phase.Valid.levels_eq (h : p.Valid level) :
    ∃ held k, p.levels level = level :: (held ++ [level] ++ List.replicate k level) ∧
      held.length + 1 < debounceMs.toNat := by
  obtain ⟨k, hk⟩ : ∃ k, p.stable = k + 2 :=
    ⟨p.stable - 2, (Nat.sub_add_cancel (Nat.le_trans (by decide) h.long)).symm⟩
  have hstarts := h.starts
  have hshort := h.short
  rw [Phase.levels, hk]
  cases hb : p.bounce with
  | nil => exact ⟨[], k, rfl, by decide⟩
  | cons b held =>
      rw [hb] at hstarts hshort
      obtain rfl : b = level := hstarts b rfl
      exact ⟨held, k + 1, by simp [List.replicate_succ], hshort⟩

/-- Before a phase: the bounces of the one before are over. -/
structure Ready (level : Bool) (n : ℕ) (s : Loop) : Prop where
  clock : At n s
  buttonDown : s.buttonDown = !level
  press : level = true → s.debounce = 0
  release : level = false → s.debounce.toNat ≤ n

variable (off) in
theorem Ready.round_press (h : Ready true n s) :
    (round off s true).buttonDown = true ∧
      (round off s true).debounce = s.now + debounceMs ∧
      (round off s true).toggles = s.toggles + 1 := by
  have hdown : s.buttonDown = false := h.buttonDown
  have hdebounce := h.press rfl
  have hnow : ¬ s.now < s.debounce := by
    rw [hdebounce]
    exact UInt32.not_lt_zero
  rw [round, if_pos (by simp [hdown]), buttonEvent, if_neg hnow, if_neg (by simp),
    if_neg (not_not.mpr hdebounce)]
  simp [toggleOnOff, hdown]

variable (off) in
theorem Ready.round_release (h : Ready false n s) :
    (round off s false).buttonDown = false ∧ (round off s false).debounce = 0 ∧
      (round off s false).toggles = s.toggles := by
  have hdown : s.buttonDown = true := h.buttonDown
  have hnow : ¬ s.now < s.debounce := by
    intro hlt
    have hn := UInt32.lt_iff_toNat_lt.mp hlt
    have hle := h.release rfl
    rw [h.clock.now] at hn
    omega
  rw [round, if_pos (by simp [hdown]), buttonEvent, if_neg hnow,
    if_pos (c := (!false) = true) rfl]
  simp [hdown]

variable (off) in
/-- A press toggles the device, and its bounces are hidden. -/
theorem Ready.press_loop (h : Ready true n s) (hv : p.Valid true)
    (hn : n + (p.levels true).length + debounceMs.toNat < 2 ^ 32) :
    Ready false (n + (p.levels true).length) (eventLoop off (p.levels true) s) ∧
      (eventLoop off (p.levels true) s).toggles = s.toggles + 1 := by
  obtain ⟨held, k, hlevels, hheld⟩ := hv.levels_eq
  have hms : debounceMs.toNat = 20 := rfl
  have hlength : (p.levels true).length = held.length + 1 + k + 1 := by
    rw [hlevels, List.length_cons, List.length_append, List.length_append, List.length_replicate,
      List.length_singleton]
  have hlong : debounceMs.toNat ≤ (p.levels true).length := by
    rw [Phase.levels, List.length_append, List.length_replicate]
    exact Nat.le_add_left_of_le hv.long
  obtain ⟨-, hdebounce, htoggles⟩ := h.round_press off
  have hdeadline : (round off s true).debounce.toNat = n + 20 := by
    rw [hdebounce, UInt32.toNat_add, h.clock.now, hms, Nat.mod_eq_of_lt (by omega)]
  obtain ⟨hat, hdown, hdebounce', htoggles'⟩ := @hidden_loop off _ held true _
    (h.clock.next off (by omega) true) (by rw [hdeadline]; omega)
  obtain ⟨hat', hdown', hdebounce'', htoggles''⟩ := stable_loop off (k := k) hat (by omega) hdown
  rw [hlevels, eventLoop_cons, eventLoop_append, ← hlevels]
  constructor
  · constructor
    · rwa [hlength, show n + (held.length + 1 + k + 1) = n + 1 + held.length + 1 + k by omega]
    · exact hdown'
    · exact nofun
    · intro _
      rw [hdebounce'', hdebounce', hdeadline]
      omega
  · rw [htoggles'', htoggles', htoggles]

variable (off) in
/-- A release makes the button ready for the next press. -/
theorem Ready.stable_release (h : Ready false n s) (hn : n + k + 1 < 2 ^ 32) :
    Ready true (n + k + 1) (eventLoop off (List.replicate (k + 1) false) s) ∧
      (eventLoop off (List.replicate (k + 1) false) s).toggles = s.toggles := by
  rw [List.replicate_succ, eventLoop_cons]
  obtain ⟨hdown, hdebounce, htoggles⟩ := h.round_release off
  obtain ⟨hat, hdown', hdebounce', htoggles'⟩ := stable_loop off (k := k)
    (h.clock.next off (by omega) false) (by omega) hdown
  refine ⟨⟨?_, hdown', fun _ => hdebounce'.trans hdebounce, nofun⟩, htoggles'.trans htoggles⟩
  rwa [Nat.add_right_comm]

variable (off) in
theorem Ready.release_loop (h : Ready false n s) (hv : p.Valid false) (hclean : p.Clean false)
    (hn : n + (p.levels false).length < 2 ^ 32) :
    Ready true (n + (p.levels false).length) (eventLoop off (p.levels false) s) ∧
      (eventLoop off (p.levels false) s).toggles = s.toggles := by
  have hall : p.levels false = List.replicate (p.levels false).length false := by
    apply List.eq_replicate_of_mem
    intro b hb
    rcases List.mem_append.mp hb with hb | hb
    · exact hclean b hb
    · exact List.eq_of_mem_replicate hb
  obtain ⟨k, hk⟩ : ∃ k, (p.levels false).length = k + 1 := by
    obtain ⟨held, k, hlevels, -⟩ := hv.levels_eq
    exact ⟨_, by rw [hlevels, List.length_cons]⟩
  rw [hk] at hall hn ⊢
  rw [hall]
  exact h.stable_release off hn

theorem exists_first {held : List Bool} (h : true ∈ held) :
    ∃ k rest, held = List.replicate k false ++ true :: rest := by
  induction held with
  | nil => cases h
  | cons b held ih =>
      cases b with
      | true => exact ⟨0, held, rfl⟩
      | false =>
          obtain ⟨k, rest, hheld⟩ := ih (by simpa using h)
          exact ⟨k + 1, rest, by rw [hheld]; rfl⟩

variable (off) in
/-- A bounce of the release toggles the device. -/
theorem Ready.toggles_of_bounce (h : Ready false n s) (hv : p.Valid false)
    (hclean : ¬ p.Clean false) (hn : n + (p.levels false).length < 2 ^ 32) :
    s.toggles < (eventLoop off (p.levels false) s).toggles := by
  have hmem : true ∈ p.levels false := by
    simp only [Phase.Clean, not_forall] at hclean
    obtain ⟨b, hb, hne⟩ := hclean
    rw [← (Bool.not_eq_false b).mp hne]
    exact List.mem_append_left _ hb
  obtain ⟨k, rest, hlevels⟩ := exists_first hmem
  cases k with
  | zero =>
      obtain ⟨held, k, hstart, -⟩ := hv.levels_eq
      rw [hlevels] at hstart
      cases hstart
  | succ k =>
      rw [hlevels, List.length_append, List.length_replicate] at hn
      obtain ⟨hready, htoggles⟩ := h.stable_release off (k := k) (by omega)
      obtain ⟨-, -, hpress⟩ := hready.round_press off
      rw [hlevels, eventLoop_append, eventLoop_cons]
      have hle := @toggles_le off
        (round off (eventLoop off (List.replicate (k + 1) false) s) true) rest
      omega

/-- No release bounces. -/
def ReleasesClean (ps : List Phase) : Prop :=
  Phases (fun p level => level = false → p.Clean level) true ps

theorem Ready.toggles_iff {ps : List Phase} (h : Ready level n s)
    (hv : Phases Phase.Valid level ps)
    (hn : n + (signal level ps).length + debounceMs.toNat < 2 ^ 32) :
    TogglesOnce off level ps s ↔ Phases (fun p l => l = false → p.Clean l) level ps := by
  induction ps generalizing level n s with
  | nil => exact iff_of_true trivial trivial
  | cons p ps ih =>
      rw [signal, List.length_append, ← Nat.add_assoc] at hn
      cases level with
      | true =>
          obtain ⟨hready, htoggles⟩ := h.press_loop off hv.1 (by omega)
          exact and_congr (iff_of_true htoggles nofun) (ih hready hv.2 hn)
      | false =>
          by_cases hclean : p.Clean false
          · obtain ⟨hready, htoggles⟩ := h.release_loop off hv.1 hclean (by omega)
            exact and_congr (iff_of_true htoggles fun _ => hclean) (ih hready hv.2 hn)
          · have hlt := h.toggles_of_bounce off hv.1 hclean (by omega)
            refine iff_of_false (fun hall => ?_) fun hall => hclean (hall.1 rfl)
            exact absurd hall.1 (Nat.ne_of_gt hlt)

theorem start_ready {idle : ℕ} (hidle : idle < 2 ^ 32) :
    Ready true idle (eventLoop off (List.replicate idle false) .start) := by
  have hstart : At 0 Loop.start := ⟨rfl, rfl⟩
  obtain ⟨hat, hdown, hdebounce, -⟩ := @stable_loop off _ false _ idle
    hstart (by omega) rfl
  rw [Nat.zero_add] at hat
  exact ⟨hat, hdown, fun _ => hdebounce, nofun⟩

/-- As long as the clock does not overflow, each press toggles the device once and no release
does if and only if no release bounces. -/
theorem togglesOnce_iff (off : Loop → Bool) (idle : ℕ) (ps : List Phase)
    (hv : Phases Phase.Valid true ps)
    (hn : idle + (signal true ps).length + debounceMs.toNat < 2 ^ 32) :
    TogglesOnce off true ps (eventLoop off (List.replicate idle false) .start) ↔
      ReleasesClean ps :=
  (start_ready (by omega)).toggles_iff hv hn

theorem valid_press : Phase.Valid ⟨[true, false], 20⟩ true :=
  ⟨by decide, by decide, by decide⟩

theorem valid_release : Phase.Valid ⟨[], 20⟩ false := ⟨by decide, by decide, by decide⟩

/-- A press that bounces, and a release that does not. -/
theorem togglesOnce_iff_press :
    TogglesOnce (fun _ => false) true [⟨[true, false], 20⟩, ⟨[], 20⟩]
      (eventLoop (fun _ => false) (List.replicate 5 false) .start) :=
  (togglesOnce_iff (fun _ => false) 5 [⟨[true, false], 20⟩, ⟨[], 20⟩]
    ⟨valid_press, valid_release, trivial⟩ (by decide +kernel)).mpr
    ⟨nofun, fun _ => nofun, trivial⟩

/-- A release that bounces once toggles the device. -/
theorem togglesOnce_bounce :
    ∃ ps, Phases Phase.Valid true ps ∧
      ¬ TogglesOnce (fun _ => false) true ps (eventLoop (fun _ => false) [false] .start) := by
  refine ⟨[⟨[], 20⟩, ⟨[false, true], 20⟩], ⟨⟨by decide, by decide, by decide⟩,
    ⟨by decide, by decide, by decide⟩, trivial⟩, fun h => ?_⟩
  exact absurd h.2.1 (by decide +kernel)

end Sunela.Button
