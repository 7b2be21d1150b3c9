import Mathlib.Logic.Basic

/-! # Programs over a device

A program issues commands to a device and continues with the replies. The device is
nondeterministic, so one program describes every failure and every reply. -/

namespace Sunela.Program

/-- A program returns a value, issues a command and continues with the reply, stops at a
failed assertion, or runs into undefined behaviour. Assertions can be told apart by a number. -/
inductive Prog (C : Type) (R : C → Type) (α : Type) where
  | ret (a : α)
  | call (c : C) (next : R c → Prog C R α)
  | halt (site : Nat := 0)
  | undef

variable {C : Type} {R : C → Type} {S α β γ : Type}

namespace Prog

def bind (p : Prog C R α) (next : α → Prog C R β) : Prog C R β :=
  match p with
  | .ret a => next a
  | .call c rest => .call c (fun r => (rest r).bind next)
  | .halt i => .halt i
  | .undef => .undef

instance : Monad (Prog C R) where
  pure := .ret
  bind := Prog.bind

/-- Issue one command and return its reply. -/
def exec (c : C) : Prog C R (R c) := .call c .ret

@[simp] theorem pure_def (a : α) : (pure a : Prog C R α) = .ret a := rfl

@[simp] theorem ret_bind (a : α) (next : α → Prog C R β) :
    (Prog.ret a >>= next) = next a := rfl

@[simp] theorem call_bind (c : C) (rest : R c → Prog C R α) (next : α → Prog C R β) :
    (Prog.call c rest >>= next) = .call c (fun r => rest r >>= next) := rfl

@[simp] theorem halt_bind (i : Nat) (next : α → Prog C R β) :
    ((Prog.halt i : Prog C R α) >>= next) = .halt i := rfl

@[simp] theorem undef_bind (next : α → Prog C R β) :
    ((Prog.undef : Prog C R α) >>= next) = .undef := rfl

/-- Carry out every command by a program over other commands. -/
def expand {C' : Type} {R' : C' → Type} (f : (c : C) → Prog C' R' (R c)) :
    Prog C R α → Prog C' R' α
  | .ret a => .ret a
  | .call c next => (f c).bind fun r => (next r).expand f
  | .halt i => .halt i
  | .undef => .undef

def result? : Prog C R α → Option α
  | .ret a => some a
  | _ => none

def isUndef : Prog C R α → Bool
  | .undef => true
  | _ => false

def isHalt : Prog C R α → Bool
  | .halt _ => true
  | _ => false

/-- The command that is issued next. -/
def command? : Prog C R α → Option C
  | .call c _ => some c
  | _ => none

theorem exists_of_command {p : Prog C R α} {c : C} (h : p.command? = some c) :
    ∃ next, p = .call c next := by
  cases p with
  | call d next =>
      obtain rfl := Option.some.inj h
      exact ⟨next, rfl⟩
  | _ => cases h

theorem eq_ret_of_result {p : Prog C R α} {a : α} (h : p.result? = some a) : p = .ret a := by
  cases p <;> simp_all [result?]

theorem eq_undef_of_isUndef {p : Prog C R α} (h : p.isUndef = true) : p = .undef := by
  cases p <;> simp_all [isUndef]

@[simp] theorem map_ret (g : α → β) (a : α) : (g <$> (Prog.ret a : Prog C R α)) = .ret (g a) := rfl

@[simp] theorem map_call (g : α → β) (c : C) (rest : R c → Prog C R α) :
    (g <$> Prog.call c rest) = .call c fun r => g <$> rest r := rfl

@[simp] theorem map_halt (g : α → β) (i : Nat) :
    (g <$> (Prog.halt i : Prog C R α)) = .halt i := rfl

@[simp] theorem map_undef (g : α → β) : (g <$> (Prog.undef : Prog C R α)) = .undef := rfl

theorem map_bind (g : β → γ) (p : Prog C R α) (f : α → Prog C R β) :
    g <$> (p >>= f) = p >>= fun a => g <$> f a := by
  induction p with
  | ret a => rfl
  | call c rest ih =>
      simp only [call_bind, map_call]
      congr 1
      funext r
      exact ih r
  | halt => rfl
  | undef => rfl

theorem bind_map (g : α → β) (p : Prog C R α) (f : β → Prog C R γ) :
    (g <$> p) >>= f = p >>= fun a => f (g a) := by
  induction p with
  | ret a => rfl
  | call c rest ih =>
      simp only [call_bind, map_call]
      congr 1
      funext r
      exact ih r
  | halt => rfl
  | undef => rfl

theorem expand_map {C' : Type} {R' : C' → Type} (f : (c : C) → Prog C' R' (R c)) (g : α → β)
    (p : Prog C R α) : (g <$> p).expand f = g <$> p.expand f := by
  induction p with
  | ret a => rfl
  | call c rest ih =>
      simp only [map_call, expand]
      refine Eq.trans ?_ (map_bind g (f c) fun r => (rest r).expand f).symm
      exact congrArg ((f c).bind ·) (funext ih)
  | halt => rfl
  | undef => rfl

theorem bind_assoc (p : Prog C R α) (f : α → Prog C R β) (g : β → Prog C R γ) :
    (p >>= f) >>= g = p >>= fun a => f a >>= g := by
  induction p with
  | ret a => rfl
  | call c rest ih =>
      simp only [call_bind]
      congr 1
      funext r
      exact ih r
  | halt => rfl
  | undef => rfl

@[simp] theorem bind_ret (p : Prog C R α) : (p >>= fun a => .ret a) = p := by
  induction p with
  | ret a => rfl
  | call c rest ih =>
      simp only [call_bind]
      congr 1
      funext r
      exact ih r
  | halt => rfl
  | undef => rfl

theorem expand_bind {C' : Type} {R' : C' → Type} (f : (c : C) → Prog C' R' (R c))
    (p : Prog C R α) (g : α → Prog C R β) :
    (p >>= g).expand f = p.expand f >>= fun a => (g a).expand f := by
  induction p with
  | ret a => rfl
  | call c rest ih =>
      simp only [call_bind, expand]
      refine Eq.trans ?_ (bind_assoc (f c) (fun r => (rest r).expand f) _).symm
      exact congrArg ((f c).bind ·) (funext ih)
  | halt => rfl
  | undef => rfl

end Prog

/-! ## Executions -/

/-- `Reaches step p s q t`: started in state `s`, the program `p` can get to the point where
`q` is left to run in state `t`. -/
inductive Reaches (step : S → (c : C) → R c → S → Prop) :
    Prog C R α → S → Prog C R α → S → Prop where
  | refl (p s) : Reaches step p s p s
  | call {c next r s t q u} (h : step s c r t) (rest : Reaches step (next r) t q u) :
      Reaches step (.call c next) s q u

/-- `p` started in `s` can return `a` in state `t`. -/
abbrev Returns (step : S → (c : C) → R c → S → Prop) (p : Prog C R α) (s : S) (a : α)
    (t : S) : Prop :=
  Reaches step p s (.ret a) t

/-- What is left to run of `p` after some commands, which are given with the replies to them. -/
inductive Exchanges : Prog C R α → List ((c : C) × R c) → Prog C R α → Prop where
  | refl (p : Prog C R α) : Exchanges p [] p
  | call {c : C} {next : R c → Prog C R α} {r : R c} {l : List ((c : C) × R c)}
      {q : Prog C R α} (run : Exchanges (next r) l q) :
      Exchanges (.call c next) (⟨c, r⟩ :: l) q

theorem exchanges_ret {a b : α} {l : List ((c : C) × R c)}
    (h : Exchanges (.ret a : Prog C R α) l (.ret b)) : l = [] ∧ a = b := by
  cases h with
  | refl => exact ⟨rfl, rfl⟩

theorem exchanges_call {c : C} {next : R c → Prog C R α} {a : α} {l : List ((c : C) × R c)}
    (h : Exchanges (.call c next) l (.ret a)) :
    ∃ r l', l = ⟨c, r⟩ :: l' ∧ Exchanges (next r) l' (.ret a) := by
  cases h with
  | call run => exact ⟨_, _, rfl, run⟩

/-- `p` started in `s` can issue the command `c` in state `t`. Undefined behaviour places no
bound on what follows, so it may issue anything. -/
def Issues (step : S → (c : C) → R c → S → Prop) (p : Prog C R α) (s : S) (c : C)
    (t : S) : Prop :=
  (∃ next, Reaches step p s (.call c next) t) ∨ Reaches step p s .undef t

/-- `t` can be the state after a power loss while `p`, started in `s`, runs: between two
commands, or with the command in flight cut short. -/
def Crashes (step : S → (c : C) → R c → S → Prop) (torn : S → C → S → Prop)
    (p : Prog C R α) (s t : S) : Prop :=
  ∃ q u, Reaches step p s q u ∧ (t = u ∨ ∃ c next, q = .call c next ∧ torn u c t)

variable {step step' : S → (c : C) → R c → S → Prop}

theorem Reaches.mono {p q : Prog C R α} {s t : S}
    (h : Reaches step p s q t) (hs : ∀ s c r t, step s c r t → step' s c r t) :
    Reaches step' p s q t := by
  induction h with
  | refl p s => exact .refl p s
  | call h _ ih => exact .call (hs _ _ _ _ h) ih

theorem Reaches.trans {p q r : Prog C R α} {s t u : S}
    (h : Reaches step p s q t) (h' : Reaches step q t r u) : Reaches step p s r u := by
  induction h with
  | refl p s => exact h'
  | call h _ ih => exact .call h (ih h')

theorem Reaches.bind {p q : Prog C R α} {s t : S} (f : α → Prog C R β)
    (h : Reaches step p s q t) : Reaches step (p >>= f) s (q >>= f) t := by
  induction h with
  | refl p s => exact .refl _ s
  | call h _ ih => exact .call h ih

@[simp] theorem reaches_ret {a : α} {q : Prog C R α} {s t : S} :
    Reaches step (.ret a) s q t ↔ q = .ret a ∧ t = s := by
  constructor
  · intro h
    cases h
    exact ⟨rfl, rfl⟩
  · rintro ⟨rfl, rfl⟩
    exact .refl _ _

/-- A returning sequence returns from its first part and then from its second. -/
theorem returns_bind {p : Prog C R α} {f : α → Prog C R β} {s u : S} {b : β}
    (h : Returns step (p >>= f) s b u) :
    ∃ a t, Returns step p s a t ∧ Returns step (f a) t b u := by
  induction p generalizing s with
  | ret a => exact ⟨a, s, .refl _ _, h⟩
  | call c next ih =>
      cases h with
      | call hstep rest =>
          obtain ⟨a, t, hp, hf⟩ := ih _ rest
          exact ⟨a, t, .call hstep hp, hf⟩
  | halt => cases h
  | undef => cases h

/-! ## Notes

A device with a bit that is set from the first command on that went in a certain way. -/

inductive Noting (step : S → (c : C) → R c → S → Prop) (note : (c : C) → R c → Bool) :
    S × Bool → (c : C) → R c → S × Bool → Prop where
  | step {s t : S} {b : Bool} {c : C} {r : R c} (h : step s c r t) :
      Noting step note (s, b) c r (t, b || note c r)

section Notes

variable {note : (c : C) → R c → Bool} {p q : Prog C R α} {s t : S × Bool}

/-- The device does the same without the notes. -/
theorem Reaches.unnoted (h : Reaches (Noting step note) p s q t) : Reaches step p s.1 q t.1 := by
  induction h with
  | refl p s => exact .refl _ _
  | call hstep _ ih =>
      cases hstep with
      | step hs => exact .call hs ih

/-- In a run without a note every command went the other way. -/
theorem Reaches.unnoted_of_false (h : Reaches (Noting step note) p s q t) (ht : t.2 = false) :
    s.2 = false ∧ Reaches (fun s c r t => step s c r t ∧ note c r = false) p s.1 q t.1 := by
  induction h with
  | refl p s => exact ⟨ht, .refl _ _⟩
  | call hstep _ ih =>
      obtain ⟨hb, hrest⟩ := ih ht
      cases hstep with
      | step hs =>
          obtain ⟨hfirst, hnote⟩ := Bool.or_eq_false_iff.mp hb
          exact ⟨hfirst, .call ⟨hs, hnote⟩ hrest⟩

end Notes

/-! ## Logs -/

/-- A device that keeps a log of the commands. -/
inductive Logging (step : S → (c : C) → R c → S → Prop) :
    S × List C → (c : C) → R c → S × List C → Prop where
  | step {s t : S} {l : List C} {c : C} {r : R c} (h : step s c r t) :
      Logging step (s, l) c r (t, l ++ [c])

/-- The device does the same without the log. -/
theorem Reaches.unlogged {p q : Prog C R α} {s t : S × List C}
    (h : Reaches (Logging step) p s q t) : Reaches step p s.1 q t.1 := by
  induction h with
  | refl p s => exact .refl _ _
  | call hstep _ ih =>
      cases hstep with
      | step hs => exact .call hs ih

/-! ## Contracts -/

/-- What a run is checked against: the replies of the device, what has to hold whenever a
command is issued, and what has to hold where the program stops early. -/
structure Contract (C : Type) (R : C → Type) (S : Type) where
  step : S → (c : C) → R c → S → Prop
  call : S → C → Prop
  halt : Nat → S → Prop
  undef : S → Prop

/-- The weakest precondition: every command of every run meets the contract, and every value
returned satisfies `Q`. -/
def wp (K : Contract C R S) : Prog C R α → (α → S → Prop) → S → Prop
  | .ret a, Q, s => Q a s
  | .call c next, Q, s => K.call s c ∧ ∀ r t, K.step s c r t → wp K (next r) Q t
  | .halt i, _, s => K.halt i s
  | .undef, _, s => K.undef s

variable {K K' : Contract C R S} {Q Q' : α → S → Prop} {p q : Prog C R α} {s t : S}

@[simp] theorem wp_ret {a : α} : wp K (.ret a) Q s ↔ Q a s := Iff.rfl

@[simp] theorem wp_call {c : C} {next : R c → Prog C R α} :
    wp K (.call c next) Q s ↔
      K.call s c ∧ ∀ r t, K.step s c r t → wp K (next r) Q t := Iff.rfl

@[simp] theorem wp_halt {i : Nat} : wp K (.halt i : Prog C R α) Q s ↔ K.halt i s := Iff.rfl

@[simp] theorem wp_undef : wp K (.undef : Prog C R α) Q s ↔ K.undef s := Iff.rfl

theorem wp_exec {c : C} {Q : R c → S → Prop} :
    wp K (Prog.exec c) Q s ↔ K.call s c ∧ ∀ r t, K.step s c r t → Q r t := Iff.rfl

@[simp] theorem wp_bind {f : α → Prog C R β} {Q : β → S → Prop} :
    wp K (p >>= f) Q s ↔ wp K p (fun a t => wp K (f a) Q t) s := by
  induction p generalizing s with
  | ret a => exact Iff.rfl
  | call c next ih =>
      simp only [Prog.call_bind, wp_call]
      exact and_congr_right fun _ =>
        forall_congr' fun r => forall_congr' fun t => imp_congr_right fun _ => ih r
  | halt => exact Iff.rfl
  | undef => exact Iff.rfl

/-- One contract carries over to another along an invariant `I` of the states in between. -/
theorem wp_transfer {I : S → Prop}
    (hcall : ∀ s c, I s → K.call s c →
      K'.call s c ∧ ∀ r t, K'.step s c r t → K.step s c r t ∧ I t)
    (hhalt : ∀ i s, I s → K.halt i s → K'.halt i s)
    (hundef : ∀ s, I s → K.undef s → K'.undef s)
    (hs : I s) (h : wp K p Q s) (hQ : ∀ a t, I t → Q a t → Q' a t) : wp K' p Q' s := by
  induction p generalizing s with
  | ret a => exact hQ a s hs h
  | call c next ih =>
      obtain ⟨hc, hstep⟩ := hcall s c hs h.1
      refine ⟨hc, fun r t ht => ?_⟩
      obtain ⟨hk, hI⟩ := hstep r t ht
      exact ih r hI (h.2 r t hk)
  | halt i => exact hhalt i s hs h
  | undef => exact hundef s hs h

theorem wp_mono (h : wp K p Q s) (hQ : ∀ a t, Q a t → Q' a t) : wp K p Q' s :=
  wp_transfer (I := fun _ => True) (fun _ _ _ hc => ⟨hc, fun _ _ ht => ⟨ht, trivial⟩⟩)
    (fun _ _ _ h => h) (fun _ _ h => h) trivial h (fun a t _ => hQ a t)

theorem wp_and (h : wp K p Q s) (h' : wp K p Q' s) :
    wp K p (fun a t => Q a t ∧ Q' a t) s := by
  induction p generalizing s with
  | ret a => exact ⟨h, h'⟩
  | call c next ih => exact ⟨h.1, fun r t ht => ih r (h.2 r t ht) (h'.2 r t ht)⟩
  | halt => exact h
  | undef => exact h

/-- What is known of the results of a run need not be proved again for another contract. -/
theorem wp_results {K' : Contract C R S} (hstep : K'.step = K.step)
    (h : wp K p (fun _ _ => True) s) (h' : wp K' p Q s) : wp K p Q s := by
  induction p generalizing s with
  | ret a => exact h'
  | call c next ih =>
      refine ⟨h.1, fun r t ht => ih r (h.2 r t ht) (h'.2 r t ?_)⟩
      rw [hstep]
      exact ht
  | halt => exact h
  | undef => exact h

/-- What is left of a run still meets the contract. -/
theorem wp_reaches (h : wp K p Q s) (hr : Reaches K.step p s q t) : wp K q Q t := by
  induction hr with
  | refl p s => exact h
  | call hstep _ ih => exact ih (h.2 _ _ hstep)

theorem wp_returns {a : α} (h : wp K p Q s) (hr : Returns K.step p s a t) : Q a t :=
  wp_reaches h hr

/-- A run that cannot become undefined issues only commands the contract allows. -/
theorem wp_issues {c : C} (h : wp K p Q s) (hu : ∀ t, ¬ K.undef t)
    (hi : Issues K.step p s c t) : K.call t c := by
  rcases hi with ⟨next, hr⟩ | hr
  · exact (wp_reaches h hr).1
  · exact absurd (wp_reaches h hr) (hu t)

/-- If every command is issued where `I` holds, and leaves `I` when it is cut short, then `I`
holds after every power loss. -/
theorem wp_crashes {I : S → Prop} {torn : S → C → S → Prop}
    (hcall : ∀ s c, K.call s c → I s ∧ ∀ t, torn s c t → I t)
    (hhalt : ∀ i s, K.halt i s → I s) (hundef : ∀ s, K.undef s → I s)
    (hQ : ∀ a t, Q a t → I t) (h : wp K p Q s) (hc : Crashes K.step torn p s t) : I t := by
  obtain ⟨q, u, hr, hcut⟩ := hc
  have hq := wp_reaches h hr
  rcases hcut with rfl | ⟨c, next, rfl, htorn⟩
  · cases q with
    | ret a => exact hQ a _ hq
    | call c next => exact (hcall _ c hq.1).1
    | halt i => exact hhalt i _ hq
    | undef => exact hundef _ hq
  · exact (hcall u c hq.1).2 t htorn

/-! ## Running a program -/

/-- A device that answers every command in one way. -/
def run (answer : S → (c : C) → R c × S) : Prog C R α → S → Prog C R α × S
  | .ret a, s => (.ret a, s)
  | .call c next, s => run answer (next (answer s c).1) (answer s c).2
  | .halt i, s => (.halt i, s)
  | .undef, s => (.undef, s)

theorem run_ne_call {answer : S → (c : C) → R c × S} (p : Prog C R α) (s : S) (c : C)
    (next : R c → Prog C R α) : (run answer p s).1 ≠ .call c next := by
  induction p generalizing s with
  | ret a => simp [run]
  | call c rest ih => exact ih _ _
  | halt => simp [run]
  | undef => simp [run]

/-- A sequence runs its second part where the first one has ended. -/
theorem run_bind_eq (answer : S → (c : C) → R c × S) (p : Prog C R α) (f : α → Prog C R β)
    (s : S) :
    run answer (p >>= f) s = run answer ((run answer p s).1 >>= f) (run answer p s).2 := by
  induction p generalizing s with
  | ret a => rfl
  | call c rest ih => exact ih _ _
  | halt => rfl
  | undef => rfl

theorem run_bind {answer : S → (c : C) → R c × S} {p : Prog C R α} {s t : S} {a : α}
    (h : run answer p s = (.ret a, t)) (f : α → Prog C R β) :
    run answer (p >>= f) s = run answer (f a) t := by
  rw [run_bind_eq, h, Prog.ret_bind]

theorem run_bind_halt {answer : S → (c : C) → R c × S} {p : Prog C R α} {s t : S} {i : Nat}
    (h : run answer p s = (.halt i, t)) (f : α → Prog C R β) :
    run answer (p >>= f) s = (.halt i, t) := by
  rw [run_bind_eq, h]
  rfl

theorem run_map (answer : S → (c : C) → R c × S) (g : α → β) (p : Prog C R α) (s : S) :
    run answer (g <$> p) s = (g <$> (run answer p s).1, (run answer p s).2) := by
  induction p generalizing s with
  | ret a => rfl
  | call c rest ih => exact ih _ _
  | halt => rfl
  | undef => rfl

theorem run_reaches {answer : S → (c : C) → R c × S}
    (h : ∀ s c, step s c (answer s c).1 (answer s c).2) (p : Prog C R α) (s : S) :
    Reaches step p s (run answer p s).1 (run answer p s).2 := by
  induction p generalizing s with
  | ret a => exact .refl _ _
  | call c next ih => exact .call (h s c) (ih _ _)
  | halt => exact .refl _ _
  | undef => exact .refl _ _

/-- What a run on a device that is a function returns, the device can lead to. -/
theorem returns_run {answer : S → (c : C) → R c × S}
    (h : ∀ s c, step s c (answer s c).1 (answer s c).2) {p : Prog C R α} {s : S} {a : α}
    (hr : (run answer p s).1.result? = some a) : Returns step p s a (run answer p s).2 := by
  have hrun := run_reaches h p s
  rw [Prog.eq_ret_of_result hr] at hrun
  exact hrun

/-- A device as a function, with the notes. -/
def noteAnswer (answer : S → (c : C) → R c × S) (note : (c : C) → R c → Bool) (s : S × Bool)
    (c : C) : R c × (S × Bool) :=
  ((answer s.1 c).1, (answer s.1 c).2, s.2 || note c (answer s.1 c).1)

theorem noteAnswer_noting {answer : S → (c : C) → R c × S}
    (h : ∀ s c, step s c (answer s c).1 (answer s c).2) (note : (c : C) → R c → Bool)
    (s : S × Bool) (c : C) :
    Noting step note s c (noteAnswer answer note s c).1 (noteAnswer answer note s c).2 :=
  .step (h s.1 c)

/-- A device as a function, with the log. -/
def logAnswer (answer : S → (c : C) → R c × S) (s : S × List C) (c : C) : R c × (S × List C) :=
  ((answer s.1 c).1, (answer s.1 c).2, s.2 ++ [c])

theorem logAnswer_logging {answer : S → (c : C) → R c × S}
    (h : ∀ s c, step s c (answer s c).1 (answer s c).2) (s : S × List C) (c : C) :
    Logging step s c (logAnswer answer s c).1 (logAnswer answer s c).2 :=
  .step (h s.1 c)

/-- The first commands of a run. -/
def runFor (answer : S → (c : C) → R c × S) : Nat → Prog C R α → S → Prog C R α × S
  | k + 1, .call c next, s => runFor answer k (next (answer s c).1) (answer s c).2
  | _, p, s => (p, s)

theorem runFor_reaches {answer : S → (c : C) → R c × S}
    (h : ∀ s c, step s c (answer s c).1 (answer s c).2) (k : Nat) (p : Prog C R α) (s : S) :
    Reaches step p s (runFor answer k p s).1 (runFor answer k p s).2 := by
  induction k generalizing p s with
  | zero => cases p <;> exact .refl _ _
  | succ k ih =>
      cases p with
      | call c next => exact .call (h s c) (ih _ _)
      | _ => exact .refl _ _

/-- A program that may not stop early returns on a device that answers. -/
theorem wp_exists_returns {answer : S → (c : C) → R c × S}
    (hanswer : ∀ s c, K.step s c (answer s c).1 (answer s c).2) (hhalt : ∀ i s, ¬ K.halt i s)
    (hundef : ∀ s, ¬ K.undef s) (h : wp K p Q s) : ∃ a t, Returns K.step p s a t ∧ Q a t := by
  have hr := run_reaches hanswer p s
  have hq := wp_reaches h hr
  cases hp : (run answer p s).1 with
  | ret a =>
      rw [hp] at hr hq
      exact ⟨a, _, hr, hq⟩
  | call c next => exact absurd hp (run_ne_call p s c next)
  | halt i =>
      rw [hp] at hq
      exact absurd hq (hhalt i _)
  | undef =>
      rw [hp] at hq
      exact absurd hq (hundef _)

end Sunela.Program
