import Mathlib.Data.Nat.Find
import Mathlib.Tactic.Common
import Sunela.Verification.Timer.Queue

/-! # Timers fire once and in order

What happens to each setting in a run, whatever calls the functions of timers make, the
invariant of all runs, and a bound on how many functions a tick calls. -/

namespace Sunela.Timers

section Settings

open Linked

variable {T F U : Type}

/-! ## What has happened -/

/-- The timer that an event is about. -/
def Event.timer : Event T F U → Option T
  | set x => some x.timer
  | cancel t => some t
  | flushed c => some c.timer
  | tick _ => none
  | fired c => some c.timer
  | ended _ => none

variable {events : List (Event T F U)} {e : Event T F U} {i i' j j' k b : ℕ}
  {x x' : Setting T F U} {n : UInt32}

/-- The setting was made at `i`, and nothing has happened to its timer up to `j`. -/
structure Open (events : List (Event T F U)) (i : ℕ) (x : Setting T F U) (j : ℕ) : Prop where
  made : events[i]? = some (.set x)
  lt : i < j
  unchanged : ∀ k e, i < k → k < j → events[k]? = some e → e.timer ≠ some x.timer

/-- A tick calls the function of the setting. -/
structure Fires (events : List (Event T F U)) (i : ℕ) (x : Setting T F U) (j : ℕ) : Prop where
  isOpen : Open events i x j
  fired : events[j]? = some (.fired x.called)

/-- The setting is replaced, cancelled or flushed. -/
structure Drops (events : List (Event T F U)) (i : ℕ) (x : Setting T F U) (j : ℕ) : Prop where
  isOpen : Open events i x j
  dropped : (∃ y, events[j]? = some (.set y) ∧ y.timer = x.timer) ∨
    events[j]? = some (.cancel x.timer) ∨ events[j]? = some (.flushed x.called)

/-- A tick after the setting that is late enough for it. -/
structure Late (events : List (Event T F U)) (i : ℕ) (x : Setting T F U) (b : ℕ) (n : UInt32) :
    Prop where
  tick : events[b]? = some (.tick n)
  lt : i < b
  due : x.due ≤ n

/-- What a run does for its settings. -/
structure Served (events : List (Event T F U)) : Prop where
  /-- every call by a tick is that of a setting which is open -/
  called : ∀ j c, events[j]? = some (.fired c) → ∃ i x, Fires events i x j ∧ c = x.called
  flushes : ∀ j c, events[j]? = some (.flushed c) → ∃ i x, Open events i x j ∧ c = x.called
  once : ∀ i x j j', Fires events i x j → Fires events i x j' → j = j'
  /-- the call comes in the first tick that is late enough, before it ends -/
  during : ∀ i x j, Fires events i x j → ∃ b n, Late events i x b n ∧ b < j ∧
    (∀ b' n', Late events i x b' n' → b ≤ b') ∧ ∀ k, k < j → events[k]? ≠ some (Event.ended b)
  /-- a tick that is late enough does not end before the call, unless the setting is dropped -/
  complete : ∀ i x b n k, events[i]? = some (.set x) → Late events i x b n →
    events[k]? = some (Event.ended b) → ∃ j, j < k ∧ (Fires events i x j ∨ Drops events i x j)
  ordered : ∀ i x j i' x' j', Fires events i x j → Fires events i' x' j' → j < j' →
    Before (i, x) (i', x')
  ends : ∀ k b, events[k]? = some (Event.ended b) → b < k

theorem lt_length {α : Type} {l : List α} {a : α} (h : l[i]? = some a) : i < l.length :=
  (List.getElem?_eq_some_iff.mp h).1

/-- One setting of a timer is open at a time. -/
theorem Open.unique (h : Open events i x j) (h' : Open events i' x' j)
    (ht : x.timer = x'.timer) : i = i' ∧ x = x' := by
  rcases Nat.lt_trichotomy i i' with hlt | rfl | hlt
  · exact absurd (congrArg some ht.symm) (h.unchanged i' _ hlt h'.lt h'.made)
  · have heq := h.made.symm.trans h'.made
    cases heq
    exact ⟨rfl, rfl⟩
  · exact absurd (congrArg some ht) (h'.unchanged i _ hlt h.lt h.made)

theorem Open.mono (h : Open events i x j) (hk : i < k) (hle : k ≤ j) : Open events i x k :=
  ⟨h.made, hk, fun k' e h₁ h₂ => h.unchanged k' e h₁ (Nat.lt_of_lt_of_le h₂ hle)⟩

/-- A setting is open, or something has happened to its timer. -/
theorem open_or (h : events[i]? = some (.set x)) (hj : i < j) : Open events i x j ∨
    ∃ k e, k < j ∧ Open events i x k ∧ events[k]? = some e ∧ e.timer = some x.timer := by
  induction j with
  | zero => exact absurd hj (Nat.not_lt_zero i)
  | succ j ih =>
      rcases Nat.lt_succ_iff_lt_or_eq.mp hj with hlt | rfl
      · rcases ih hlt with hopen | ⟨k, e, hk, hrest⟩
        · by_cases he : ∃ e, events[j]? = some e ∧ e.timer = some x.timer
          · obtain ⟨e, he, ht⟩ := he
            exact .inr ⟨j, e, Nat.lt_succ_self j, hopen, he, ht⟩
          · refine .inl ⟨h, hj, fun k e h₁ h₂ hke => ?_⟩
            rcases Nat.lt_succ_iff_lt_or_eq.mp h₂ with hk | rfl
            · exact hopen.unchanged k e h₁ hk hke
            · exact fun ht => he ⟨e, hke, ht⟩
        · exact .inr ⟨k, e, Nat.lt_succ_of_lt hk, hrest⟩
      · exact .inl ⟨h, hj, fun k e h₁ h₂ => absurd h₁ (Nat.not_lt.mpr (Nat.le_of_lt_succ h₂))⟩

theorem Served.fires_or_drops (h : Served events) (hopen : Open events i x k)
    (he : events[k]? = some e) (ht : e.timer = some x.timer) :
    Fires events i x k ∨ Drops events i x k := by
  cases e with
  | set y => exact .inr ⟨hopen, .inl ⟨y, he, Option.some.inj ht⟩⟩
  | cancel t =>
      obtain rfl := Option.some.inj ht
      exact .inr ⟨hopen, .inr (.inl he)⟩
  | flushed c =>
      obtain ⟨i', x', hopen', rfl⟩ := h.flushes k c he
      obtain ⟨rfl, rfl⟩ := hopen.unique hopen' (Option.some.inj ht).symm
      exact .inr ⟨hopen, .inr (.inr he)⟩
  | tick n => cases ht
  | fired c =>
      obtain ⟨i', x', hfires, rfl⟩ := h.called k c he
      obtain ⟨rfl, rfl⟩ := hopen.unique hfires.isOpen (Option.some.inj ht).symm
      exact .inl hfires
  | ended b => cases ht

/-! ## One more event -/

theorem getElem?_event {k : ℕ} {e' : Event T F U} : (events ++ [e])[k]? = some e' ↔
    events[k]? = some e' ∨ k = events.length ∧ e' = e := by
  by_cases hk : k < events.length
  · rw [List.getElem?_append_left hk]
    exact ⟨.inl, fun h => h.resolve_right fun heq => absurd heq.1 (Nat.ne_of_lt hk)⟩
  · have hnone : events[k]? = none := List.getElem?_eq_none (Nat.not_lt.mp hk)
    rw [hnone]
    by_cases heq : k = events.length
    · rw [heq, List.getElem?_concat_length]
      constructor
      · intro h
        exact .inr ⟨rfl, (Option.some.inj h).symm⟩
      · intro h
        rcases h with h | ⟨-, rfl⟩
        · cases h
        · rfl
    · have hbeyond : (events ++ [e])[k]? = none := by
        apply List.getElem?_eq_none
        rw [List.length_append, List.length_singleton]
        omega
      rw [hbeyond]
      exact ⟨nofun, fun h => h.elim nofun fun h' => absurd h'.1 heq⟩

theorem getElem?_event_lt (hk : k < events.length) : (events ++ [e])[k]? = events[k]? :=
  List.getElem?_append_left hk

theorem open_event (hj : j ≤ events.length) :
    Open (events ++ [e]) i x j ↔ Open events i x j := by
  constructor
  · intro h
    have hi := Nat.lt_of_lt_of_le h.lt hj
    refine ⟨(getElem?_event_lt hi).symm.trans h.made, h.lt, fun k e' h₁ h₂ he => ?_⟩
    exact h.unchanged k e' h₁ h₂ (getElem?_event.mpr (.inl he))
  · intro h
    have hi := Nat.lt_of_lt_of_le h.lt hj
    refine ⟨(getElem?_event_lt hi).trans h.made, h.lt, fun k e' h₁ h₂ he => ?_⟩
    exact h.unchanged k e' h₁ h₂ ((getElem?_event_lt (Nat.lt_of_lt_of_le h₂ hj)).symm.trans he)

/-- What is open after one more event. -/
theorem open_last : Open (events ++ [e]) i x (events ++ [e]).length ↔
    Open events i x events.length ∧ e.timer ≠ some x.timer ∨ i = events.length ∧ e = .set x := by
  have hlength : (events ++ [e]).length = events.length + 1 := by
    rw [List.length_append, List.length_singleton]
  rw [hlength]
  constructor
  · intro h
    rcases getElem?_event.mp h.made with hi | ⟨hi, he⟩
    · have hlt := lt_length hi
      refine .inl ⟨(open_event (Nat.le_refl _)).mp (h.mono hlt (Nat.le_succ _)), ?_⟩
      exact h.unchanged _ e hlt (Nat.lt_succ_self _) (getElem?_event.mpr (.inr ⟨rfl, rfl⟩))
    · exact .inr ⟨hi, he.symm⟩
  · rintro (⟨h, he⟩ | ⟨rfl, rfl⟩)
    · have h' := (open_event (e := e) (Nat.le_refl _)).mpr h
      refine ⟨h'.made, Nat.lt_succ_of_lt h.lt, fun k e' h₁ h₂ hk => ?_⟩
      rcases Nat.lt_succ_iff_lt_or_eq.mp h₂ with hlt | rfl
      · exact h'.unchanged k e' h₁ hlt hk
      · rcases getElem?_event.mp hk with hk | ⟨-, rfl⟩
        · exact absurd (lt_length hk) (Nat.lt_irrefl _)
        · exact he
    · refine ⟨getElem?_event.mpr (.inr ⟨rfl, rfl⟩), Nat.lt_succ_self _, fun k e' h₁ h₂ => ?_⟩
      exact absurd h₁ (Nat.not_lt.mpr (Nat.le_of_lt_succ h₂))

theorem fires_event : Fires (events ++ [e]) i x j ↔
    Fires events i x j ∨ j = events.length ∧ Open events i x j ∧ e = .fired x.called := by
  constructor
  · intro h
    rcases getElem?_event.mp h.fired with hj | ⟨rfl, he⟩
    · exact .inl ⟨(open_event (Nat.le_of_lt (lt_length hj))).mp h.isOpen, hj⟩
    · exact .inr ⟨rfl, (open_event (Nat.le_refl _)).mp h.isOpen, he.symm⟩
  · rintro (h | ⟨rfl, hopen, rfl⟩)
    · exact ⟨(open_event (Nat.le_of_lt (lt_length h.fired))).mpr h.isOpen,
        getElem?_event.mpr (.inl h.fired)⟩
    · exact ⟨(open_event (Nat.le_refl _)).mpr hopen, getElem?_event.mpr (.inr ⟨rfl, rfl⟩)⟩

theorem drops_event (h : Drops events i x j) : Drops (events ++ [e]) i x j := by
  have hj : j < events.length := by
    rcases h.dropped with ⟨y, hy, -⟩ | hc | hf
    · exact lt_length hy
    · exact lt_length hc
    · exact lt_length hf
  refine ⟨(open_event (Nat.le_of_lt hj)).mpr h.isOpen, ?_⟩
  rw [getElem?_event_lt hj]
  exact h.dropped

theorem late_event : Late (events ++ [e]) i x b n ↔
    Late events i x b n ∨ b = events.length ∧ e = .tick n ∧ i < b ∧ x.due ≤ n := by
  constructor
  · intro h
    rcases getElem?_event.mp h.tick with hb | ⟨hb, he⟩
    · exact .inl ⟨hb, h.lt, h.due⟩
    · exact .inr ⟨hb, he.symm, h.lt, h.due⟩
  · rintro (h | ⟨hb, he, hlt, hdue⟩)
    · exact ⟨getElem?_event.mpr (.inl h.tick), h.lt, h.due⟩
    · exact ⟨getElem?_event.mpr (.inr ⟨hb, he.symm⟩), hlt, hdue⟩

/-- What an event has to meet, so that settings are served. -/
structure Fair (events : List (Event T F U)) (e : Event T F U) : Prop where
  fired : ∀ c, e = .fired c → ∃ i x, Open events i x events.length ∧ c = x.called ∧
    (∃ b n, Late events i x b n) ∧ ∀ i' x' j', Fires events i' x' j' → Before (i', x') (i, x)
  flushed : ∀ c, e = .flushed c → ∃ i x, Open events i x events.length ∧ c = x.called
  ended : ∀ b, e = .ended b → b < events.length ∧
    ∀ i x n, Late events i x b n → ¬ Open events i x events.length

/-- The first tick that is late enough for a setting which is open has not ended. -/
theorem Served.first (h : Served events) (hopen : Open events i x j) {b₀ : ℕ} {n₀ : UInt32}
    (hlate : Late events i x b₀ n₀) :
    ∃ b n, Late events i x b n ∧ b ≤ b₀ ∧ (∀ b' n', Late events i x b' n' → b ≤ b') ∧
      ∀ k, k < j → events[k]? ≠ some (Event.ended b) := by
  classical
  have hex : ∃ b n, Late events i x b n := ⟨b₀, n₀, hlate⟩
  obtain ⟨n, hn⟩ := Nat.find_spec hex
  refine ⟨Nat.find hex, n, hn, Nat.find_min' hex ⟨n₀, hlate⟩,
    fun b' n' h' => Nat.find_min' hex ⟨n', h'⟩, fun k hk hend => ?_⟩
  obtain ⟨k', hk', hdone⟩ := h.complete i x _ n k hopen.made hn hend
  rcases hdone with hf | hd
  · exact hopen.unchanged k' _ hf.isOpen.lt (Nat.lt_trans hk' hk) hf.fired rfl
  · rcases hd.dropped with ⟨y, hy, ht⟩ | hc | hc
    · exact hopen.unchanged k' _ hd.isOpen.lt (Nat.lt_trans hk' hk) hy (congrArg some ht)
    · exact hopen.unchanged k' _ hd.isOpen.lt (Nat.lt_trans hk' hk) hc rfl
    · exact hopen.unchanged k' _ hd.isOpen.lt (Nat.lt_trans hk' hk) hc rfl

theorem fires_unique (h : Fires events i x j) (h' : Fires events i x j') : j = j' := by
  rcases Nat.lt_trichotomy j j' with hlt | heq | hlt
  · exact absurd rfl (h'.isOpen.unchanged j _ h.isOpen.lt hlt h.fired)
  · exact heq
  · exact absurd rfl (h.isOpen.unchanged j' _ h'.isOpen.lt hlt h'.fired)

theorem Served.append (h : Served events) (he : Fair events e) : Served (events ++ [e]) where
  called j c hj := by
    rcases getElem?_event.mp hj with hj | ⟨rfl, hc⟩
    · obtain ⟨i, x, hfires, hc⟩ := h.called j c hj
      exact ⟨i, x, fires_event.mpr (.inl hfires), hc⟩
    · obtain ⟨i, x, hopen, rfl, -⟩ := he.fired c hc.symm
      exact ⟨i, x, fires_event.mpr (.inr ⟨rfl, hopen, hc.symm⟩), rfl⟩
  flushes j c hj := by
    rcases getElem?_event.mp hj with hj | ⟨rfl, hc⟩
    · obtain ⟨i, x, hopen, hc⟩ := h.flushes j c hj
      exact ⟨i, x, (open_event (Nat.le_of_lt (lt_length hj))).mpr hopen, hc⟩
    · obtain ⟨i, x, hopen, rfl⟩ := he.flushed c hc.symm
      exact ⟨i, x, (open_event (Nat.le_refl _)).mpr hopen, rfl⟩
  once i x j j' := fires_unique
  during i x j hj := by
    have hnew : ∀ {b n j}, Open events i x j → j ≤ events.length → Late events i x b n → b < j →
        ∃ b n, Late (events ++ [e]) i x b n ∧ b < j ∧
          (∀ b' n', Late (events ++ [e]) i x b' n' → b ≤ b') ∧
          ∀ k, k < j → (events ++ [e])[k]? ≠ some (Event.ended b) := by
      intro b n j hopen hle hlate hb
      obtain ⟨b', n', hlate', hle', hmin, hend⟩ := h.first hopen hlate
      refine ⟨b', n', late_event.mpr (.inl hlate'), Nat.lt_of_le_of_lt hle' hb,
        fun b'' n'' h'' => ?_, fun k hk hk' => ?_⟩
      · rcases late_event.mp h'' with h'' | ⟨rfl, -⟩
        · exact hmin b'' n'' h''
        · exact Nat.le_of_lt (lt_length hlate'.tick)
      · rw [getElem?_event_lt (Nat.lt_of_lt_of_le hk hle)] at hk'
        exact hend k hk hk'
    rcases fires_event.mp hj with hj | ⟨rfl, hopen, hc⟩
    · obtain ⟨b, n, hlate, hb, -⟩ := h.during i x j hj
      exact hnew hj.isOpen (Nat.le_of_lt (lt_length hj.fired)) hlate hb
    · obtain ⟨i', x', hopen', hcalled, ⟨b, n, hlate⟩, -⟩ := he.fired _ hc
      obtain ⟨rfl, rfl⟩ := hopen.unique hopen' (congrArg Called.timer hcalled)
      exact hnew hopen (Nat.le_refl _) hlate (lt_length hlate.tick)
  complete i x b n k hi hlate hk := by
    have hold : ∀ j, Fires events i x j ∨ Drops events i x j →
        Fires (events ++ [e]) i x j ∨ Drops (events ++ [e]) i x j :=
      fun j hj => hj.imp (fun hf => fires_event.mpr (.inl hf)) drops_event
    rcases getElem?_event.mp hk with hk | ⟨rfl, rfl⟩
    · have hb := Nat.lt_trans (h.ends k b hk) (lt_length hk)
      have hlate : Late events i x b n :=
        (late_event.mp hlate).resolve_right fun heq => Nat.ne_of_lt hb heq.1
      have hi := (getElem?_event_lt (Nat.lt_trans hlate.lt hb)).symm.trans hi
      obtain ⟨j, hj, hdone⟩ := h.complete i x b n k hi hlate hk
      exact ⟨j, hj, hold j hdone⟩
    · obtain ⟨hb, hclosed⟩ := he.ended b rfl
      have hlate : Late events i x b n :=
        (late_event.mp hlate).resolve_right fun heq => Nat.ne_of_lt hb heq.1
      have hlt := Nat.lt_trans hlate.lt hb
      have hi := (getElem?_event_lt hlt).symm.trans hi
      rcases open_or hi hlt with hopen | ⟨j, e, hj, hopen, hje, ht⟩
      · exact absurd hopen (hclosed i x n hlate)
      · exact ⟨j, hj, hold j (h.fires_or_drops hopen hje ht)⟩
  ordered i x j i' x' j' hj hj' hlt := by
    rcases fires_event.mp hj' with hold' | ⟨rfl, hopen', hc⟩
    · rcases fires_event.mp hj with hold | ⟨rfl, -, -⟩
      · exact h.ordered i x j i' x' j' hold hold' hlt
      · exact absurd (lt_length hold'.fired) (Nat.not_lt.mpr (Nat.le_of_lt hlt))
    · rcases fires_event.mp hj with hold | ⟨rfl, -, -⟩
      · obtain ⟨i'', x'', hopen'', hcalled, -, hbefore⟩ := he.fired _ hc
        obtain ⟨rfl, rfl⟩ := hopen'.unique hopen'' (congrArg Called.timer hcalled)
        exact hbefore i x j hold
      · exact absurd hlt (Nat.lt_irrefl _)
  ends k b hk := by
    rcases getElem?_event.mp hk with hk | ⟨rfl, hend⟩
    · exact h.ends k b hk
    · exact (he.ended b hend.symm).1

end Settings

variable {T F U : Type} {m m' : Machine T F U} {q q' : List (Entry T F U)}
  {events : List (Event T F U)} {e : Event T F U} {fuel i : ℕ} {x y : Entry T F U}

/-! ## The invariant -/

/-- There has been a tick after the setting that was late enough for it. -/
def Ticked (events : List (Event T F U)) (y : Entry T F U) : Prop :=
  ∃ b n, Late events y.1 y.2 b n

theorem Ticked.append (h : Ticked events y) : Ticked (events ++ [e]) y := by
  obtain ⟨b, n, h⟩ := h
  exact ⟨b, n, late_event.mpr (.inl h)⟩

/-- The list is that of the settings which are open. -/
structure Inv (m : Machine T F U) (q : List (Entry T F U)) : Prop where
  queue : Queue m.state q
  pending : ∀ y, y ∈ q ↔ Open m.events y.1 y.2 m.events.length
  ticks : ∀ i, Frame.tick i ∈ m.frames → i < m.events.length
  clock : ∀ (j : ℕ) (n : UInt32), m.events[j]? = some (.tick n) → n ≤ m.state.now
  past : ∀ i x j, Fires m.events i x j → x.due ≤ m.state.now ∧ ∀ y ∈ q, Before (i, x) y
  /-- while a tick waits for a function, settings that are due were made before some tick -/
  waiting : ∀ i, Frame.tick i ∈ m.frames → ∀ y ∈ q, y.2.due ≤ m.state.now → Ticked m.events y
  served : Served m.events

theorem Inv.lt (h : Inv m q) (hy : y ∈ q) : y.1 < m.events.length := ((h.pending y).mp hy).lt

theorem start_inv : Inv (Machine.start : Machine T F U) [] where
  queue := ⟨rfl, List.nodup_nil, by simp, fun _ _ => rfl, List.Pairwise.nil⟩
  pending y := by
    constructor
    · intro hy
      exact absurd hy List.not_mem_nil
    · intro hy
      exact absurd hy.made (by simp [Machine.start])
  ticks := by simp [Machine.start]
  clock := by simp [Machine.start]
  past i x j hj := absurd hj.fired (by simp [Machine.start])
  waiting := by simp [Machine.start]
  served := {
    called := by simp [Machine.start]
    flushes := by simp [Machine.start]
    once := fun i x j j' => fires_unique
    during := fun i x j hj => absurd hj.fired (by simp [Machine.start])
    complete := by simp [Machine.start]
    ordered := fun i x j i' x' j' hj => absurd hj.fired (by simp [Machine.start])
    ends := by simp [Machine.start] }

/-- What has to be shown for one more event. -/
structure Grows (m : Machine T F U) (q : List (Entry T F U)) (e : Event T F U)
    (m' : Machine T F U) (q' : List (Entry T F U)) : Prop where
  events : m'.events = m.events ++ [e]
  queue : Queue m'.state q'
  now : m.state.now ≤ m'.state.now
  fair : Fair m.events e
  pending : ∀ y, y ∈ q' ↔ y ∈ q ∧ e.timer ≠ some y.2.timer ∨ y.1 = m.events.length ∧ e = .set y.2
  ticks : ∀ i, Frame.tick i ∈ m'.frames → i < m'.events.length
  clock : ∀ n, e = .tick n → n ≤ m'.state.now
  set : ∀ x, e = .set x → m.state.now ≤ x.due
  fired : ∀ y ∈ q, e = .fired y.2.called → y.2.due ≤ m'.state.now ∧ ∀ z ∈ q', Before y z
  waiting : ∀ i, Frame.tick i ∈ m'.frames → ∀ y ∈ q', y.2.due ≤ m'.state.now → Ticked m'.events y

theorem Inv.grow (h : Inv m q) (hg : Grows m q e m' q') : Inv m' q' where
  queue := hg.queue
  pending y := by rw [hg.pending, h.pending, hg.events, open_last]
  ticks := hg.ticks
  clock j n hj := by
    rw [hg.events] at hj
    rcases getElem?_event.mp hj with hj | ⟨-, he⟩
    · exact UInt32.le_trans (h.clock j n hj) hg.now
    · exact hg.clock n he.symm
  past i x j hj := by
    rw [hg.events] at hj
    rcases fires_event.mp hj with hj | ⟨rfl, hopen, he⟩
    · obtain ⟨hdue, hbefore⟩ := h.past i x j hj
      refine ⟨UInt32.le_trans hdue hg.now, fun y hy => ?_⟩
      rcases (hg.pending y).mp hy with ⟨hy, -⟩ | ⟨hy, he⟩
      · exact hbefore y hy
      · have hi : i < y.1 := by
          rw [hy]
          exact Nat.lt_trans hj.isOpen.lt (lt_length hj.fired)
        rcases UInt32.le_iff_lt_or_eq.mp (UInt32.le_trans hdue (hg.set _ he)) with hlt | heq
        · exact .inl hlt
        · exact .inr ⟨heq, hi⟩
    · exact hg.fired (i, x) ((h.pending (i, x)).mpr hopen) he
  waiting := hg.waiting
  served := by
    rw [hg.events]
    exact h.served.append hg.fair

/-- When a function has returned, fewer wait. -/
theorem Inv.returned (h : Inv m q) {frames : List Frame} (hf : ∀ f ∈ frames, f ∈ m.frames) :
    Inv { m with frames } q :=
  { h with
    ticks := fun i hi => h.ticks i (hf _ hi)
    waiting := fun i hi => h.waiting i (hf _ hi) }

/-! ## Settings that are due -/

def Event.isFired : Event T F U → Bool
  | fired _ => true
  | _ => false

/-- How many functions ticks have called. -/
def firedCount (events : List (Event T F U)) : ℕ := events.countP Event.isFired

/-- How many settings are due. -/
def dueCount (now : UInt32) (q : List (Entry T F U)) : ℕ := q.countP fun y => y.2.due ≤ now

/-- Functions of timers use up what is due, unless they advance the clock. -/
def Spends (m : Machine T F U) (q : List (Entry T F U)) (m' : Machine T F U)
    (q' : List (Entry T F U)) : Prop :=
  m.frames ≠ [] → m'.state.now = m.state.now →
    firedCount m'.events + dueCount m'.state.now q' ≤ firedCount m.events + dueCount m.state.now q

theorem firedCount_append (he : e.isFired = false) :
    firedCount (events ++ [e]) = firedCount events := by
  rw [firedCount, List.countP_append, List.countP_singleton, he]
  rfl

theorem dueCount_without (now : UInt32) (t : T) [DecidableEq T] :
    dueCount now (without t q) ≤ dueCount now q :=
  List.Sublist.countP_le List.filter_sublist

theorem spends_event (hevents : m'.events = m.events ++ [e]) (he : e.isFired = false)
    (hq : m.frames ≠ [] → dueCount m.state.now q' ≤ dueCount m.state.now q) :
    Spends m q m' q' := by
  intro hf hnow
  rw [hevents, firedCount_append he, hnow]
  exact Nat.add_le_add_left (hq hf) _

/-! ## Steps -/

theorem fair_set {x : Setting T F U} : Fair events (.set x) := ⟨by simp, by simp, by simp⟩

theorem fair_cancel {t : T} : Fair events (.cancel t) := ⟨by simp, by simp, by simp⟩

theorem fair_tick {n : UInt32} : Fair events (.tick n) := ⟨by simp, by simp, by simp⟩

variable [DecidableEq T]

/-- The loop of a tick calls the first function that is due, or ends. -/
theorem Inv.tickLoop (h : Inv m q) (hi : i < m.events.length)
    (hw : ∀ y ∈ q, y.2.due ≤ m.state.now → Ticked m.events y) :
    ∃ q', Inv (m.tickLoop i) q' ∧ (m.tickLoop i).state.now = m.state.now ∧
      firedCount (m.tickLoop i).events + dueCount m.state.now q' ≤
        firedCount m.events + dueCount m.state.now q := by
  have hlength : ∀ e : Event T F U, (m.events ++ [e]).length = m.events.length + 1 :=
    fun e => List.length_append
  rcases h.queue.round with ⟨hround, hlate⟩ | ⟨x, q₂, s, rfl, hdue, hround, hq, hnow⟩
  · have hm : m.tickLoop i = { m with events := m.events ++ [.ended i] } := by
      rw [Machine.tickLoop, hround]
    rw [hm]
    refine ⟨q, h.grow (e := .ended i) ?_, rfl, ?_⟩
    · exact {
        events := rfl
        queue := h.queue
        now := UInt32.le_refl _
        fair := by
          refine ⟨by simp, by simp, fun b hb => ?_⟩
          obtain rfl := Event.ended.inj hb
          refine ⟨hi, fun j x n hx hopen => ?_⟩
          have hnow := UInt32.le_trans hx.due (h.clock _ n hx.tick)
          exact UInt32.not_le.mpr (hlate (j, x) ((h.pending (j, x)).mpr hopen)) hnow
        pending := fun y => by simp [Event.timer]
        ticks := fun j hj => (hlength _).symm ▸ Nat.lt_succ_of_lt (h.ticks j hj)
        clock := by simp
        set := by simp
        fired := by simp
        waiting := fun j hj y hy hdue => (h.waiting j hj y hy hdue).append }
    · exact Nat.le_of_eq (congrArg (· + _) (firedCount_append rfl))
  · have hm : m.tickLoop i = ⟨s, .tick i :: m.frames, m.events ++ [.fired x.2.called]⟩ := by
      rw [Machine.tickLoop, hround]
    have hx : x ∈ x :: q₂ := List.mem_cons_self
    have hbefore : ∀ z ∈ q₂, Before x z := (List.pairwise_cons.mp h.queue.sorted).1
    have hwithout : ∀ y, y ∈ q₂ ↔ y ∈ x :: q₂ ∧ y.2.timer ≠ x.2.timer := by
      intro y
      have hrest : without x.2.timer (x :: q₂) = q₂ :=
        @without_present T F U [] q₂ x _ h.queue.nodup
      rw [← mem_without, hrest]
    rw [hm]
    refine ⟨q₂, h.grow (e := .fired x.2.called) ?_, hnow, ?_⟩
    · exact {
        events := rfl
        queue := hq
        now := hnow ▸ UInt32.le_refl _
        fair := by
          refine ⟨fun c hc => ?_, by simp, by simp⟩
          obtain rfl := Event.fired.inj hc
          exact ⟨x.1, x.2, (h.pending x).mp hx, rfl, hw x hx hdue,
            fun i' x' j' hf => (h.past i' x' j' hf).2 x hx⟩
        pending := fun y => by
          rw [hwithout, Event.timer, Setting.called]
          simp [eq_comm]
        ticks := fun j hj => by
          rw [hlength]
          rcases List.mem_cons.mp hj with heq | hj
          · obtain rfl := Frame.tick.inj heq
            exact Nat.lt_succ_of_lt hi
          · exact Nat.lt_succ_of_lt (h.ticks j hj)
        clock := by simp
        set := by simp
        fired := fun y hy he => by
          have ht : x.2.timer = y.2.timer := congrArg Called.timer (Event.fired.inj he)
          rcases List.mem_cons.mp hy with rfl | hy
          · rw [hnow]
            exact ⟨hdue, hbefore⟩
          · exact absurd ht.symm ((hwithout y).mp hy).2
        waiting := fun _ _ y hy hd =>
          (hw y (List.mem_cons_of_mem x hy) (hnow ▸ hd)).append }
    · have hone : dueCount m.state.now (x :: q₂) = dueCount m.state.now q₂ + 1 :=
        List.countP_cons_of_pos (decide_eq_true hdue)
      rw [hone, firedCount, List.countP_append]
      exact Nat.le_of_eq (Nat.add_right_comm _ _ _)

theorem Inv.exec_set (h : Inv m q) {t : T} {ms : UInt32} {fn : F} {user : Option U}
    (hc : m.Allows (.set t ms fn user)) (hm : m.exec fuel (.set t ms fn user) = some m') :
    ∃ q', Inv m' q' ∧ Spends m q m' q' := by
  obtain ⟨s, hs, hm⟩ := Option.bind_eq_some_iff.mp hm
  obtain rfl := Option.some.inj hm
  obtain ⟨q', hperm, hq, hnow⟩ := h.queue.set (fun y hy => h.lt hy) hs
  have hsum : (m.state.now + ms).toNat = m.state.now.toNat + ms.toNat := by
    rw [UInt32.toNat_add, Nat.mod_eq_of_lt hc.1]
  have hle : m.state.now ≤ m.state.now + ms := by
    rw [UInt32.le_iff_toNat_le, hsum]
    exact Nat.le_add_right _ _
  have hlt : m.frames ≠ [] → ¬ m.state.now + ms ≤ m.state.now := by
    intro hf
    have hms := UInt32.lt_iff_toNat_lt.mp (hc.2 hf)
    rw [UInt32.le_iff_toNat_le, hsum]
    exact Nat.not_le.mpr (Nat.lt_add_of_pos_right hms)
  have hmem : ∀ y, y ∈ q' ↔
      y = (m.events.length, ⟨t, m.state.now + ms, fn, user⟩) ∨ y ∈ q ∧ y.2.timer ≠ t := by
    intro y
    rw [hperm.mem_iff, List.mem_cons, mem_without]
  refine ⟨q', h.grow (e := .set ⟨t, m.state.now + ms, fn, user⟩) ?_, ?_⟩
  · exact {
      events := rfl
      queue := hq
      now := hnow ▸ UInt32.le_refl _
      fair := fair_set
      pending := fun y => by
        rw [hmem, Event.timer, or_comm, Prod.ext_iff]
        simp [eq_comm]
      ticks := fun j hj => Nat.lt_of_lt_of_le (h.ticks j hj) (by simp)
      clock := by simp
      set := fun x hx => by
        obtain rfl := Event.set.inj hx
        exact hle
      fired := by simp
      waiting := fun j hj y hy hdue => by
        rw [hnow] at hdue
        rcases (hmem y).mp hy with rfl | ⟨hy, -⟩
        · exact absurd hdue (hlt (List.ne_nil_of_mem hj))
        · exact (h.waiting j hj y hy hdue).append }
  · refine spends_event rfl rfl fun hf => ?_
    rw [dueCount, hperm.countP_eq, List.countP_cons_of_neg (by simpa using hlt hf)]
    exact dueCount_without _ t

theorem Inv.exec_cancel (h : Inv m q) {t : T} (hm : m.exec fuel (.cancel t) = some m') :
    ∃ q', Inv m' q' ∧ Spends m q m' q' := by
  obtain ⟨s, hs, hm⟩ := Option.bind_eq_some_iff.mp hm
  obtain rfl := Option.some.inj hm
  obtain ⟨hq, hnow⟩ := h.queue.cancel hs
  refine ⟨without t q, h.grow (e := .cancel t) ?_,
    spends_event rfl rfl fun _ => dueCount_without _ t⟩
  exact {
    events := rfl
    queue := hq
    now := hnow ▸ UInt32.le_refl _
    fair := fair_cancel
    pending := fun y => by
      rw [mem_without, Event.timer]
      simp [eq_comm]
    ticks := fun j hj => Nat.lt_of_lt_of_le (h.ticks j hj) (by simp)
    clock := by simp
    set := by simp
    fired := by simp
    waiting := fun j hj y hy hdue =>
      (h.waiting j hj y (mem_without.mp hy).1 (hnow ▸ hdue)).append }

theorem Inv.exec_flush (h : Inv m q) {t : T} (hm : m.exec fuel (.flush t) = some m') :
    ∃ q', Inv m' q' ∧ Spends m q m' q' := by
  obtain ⟨⟨s, c⟩, hs, hm⟩ := Option.bind_eq_some_iff.mp hm
  rcases h.queue.flush hs with ⟨-, rfl, rfl⟩ | ⟨x, hx, rfl, rfl, hq, hnow⟩
  · obtain rfl := Option.some.inj hm
    exact ⟨q, h, fun _ _ => Nat.le_refl _⟩
  · obtain rfl := Option.some.inj hm
    refine ⟨without x.2.timer q, h.grow (e := .flushed x.2.called) ?_,
      spends_event rfl rfl fun _ => dueCount_without _ _⟩
    exact {
      events := rfl
      queue := hq
      now := hnow ▸ UInt32.le_refl _
      fair := by
        refine ⟨by simp, fun c hc => ?_, by simp⟩
        obtain rfl := Event.flushed.inj hc
        exact ⟨x.1, x.2, (h.pending x).mp hx, rfl⟩
      pending := fun y => by
        rw [mem_without, Event.timer, Setting.called]
        simp [eq_comm]
      ticks := fun j hj => by
        have hj := (List.mem_cons.mp hj).resolve_left Frame.noConfusion
        exact Nat.lt_of_lt_of_le (h.ticks j hj) (by simp)
      clock := by simp
      set := by simp
      fired := by simp
      waiting := fun j hj y hy hdue => by
        have hj := (List.mem_cons.mp hj).resolve_left Frame.noConfusion
        exact (h.waiting j hj y (mem_without.mp hy).1 (hnow ▸ hdue)).append }

theorem Inv.exec_tick (h : Inv m q) {n : UInt32} (hc : m.Allows (.tick n))
    (hm : m.exec fuel (.tick n) = some m') : ∃ q', Inv m' q' ∧ Spends m q m' q' := by
  obtain rfl := Option.some.inj hm
  have hw : ∀ y ∈ q, y.2.due ≤ n → Ticked (m.events ++ [.tick n]) y := fun y hy hdue =>
    ⟨m.events.length, n, late_event.mpr (.inr ⟨rfl, rfl, h.lt hy, hdue⟩)⟩
  have hbegun : Inv { m with
      state := { m.state with now := n }, events := m.events ++ [.tick n] } q := by
    apply h.grow (e := .tick n)
    exact {
      events := rfl
      queue := ⟨h.queue.reads, h.queue.nodup, h.queue.fields, h.queue.idle, h.queue.sorted⟩
      now := hc
      fair := fair_tick
      pending := fun y => by simp [Event.timer]
      ticks := fun j hj => Nat.lt_of_lt_of_le (h.ticks j hj) (by simp)
      clock := fun n' hn => by
        obtain rfl := Event.tick.inj hn
        exact UInt32.le_refl _
      set := by simp
      fired := by simp
      waiting := fun j hj y hy hdue => hw y hy hdue }
  obtain ⟨q', hinv, hnow, hcount⟩ := hbegun.tickLoop (i := m.events.length) (by simp) hw
  refine ⟨q', hinv, fun _ hsame => ?_⟩
  rw [firedCount_append rfl] at hcount
  obtain rfl : n = m.state.now := hnow.symm.trans hsame
  rw [hsame]
  exact hcount

theorem Inv.exec_leave (h : Inv m q) (hm : m.exec fuel .leave = some m') :
    ∃ q', Inv m' q' ∧ Spends m q m' q' := by
  rw [Machine.exec] at hm
  cases hf : m.frames with
  | nil =>
      rw [hf] at hm
      obtain rfl := Option.some.inj hm
      exact ⟨q, h, fun _ _ => Nat.le_refl _⟩
  | cons f frames =>
      rw [hf] at hm
      have hrest := @Inv.returned T F U m q h frames
        fun g hg => hf ▸ List.mem_cons_of_mem f hg
      cases f with
      | flush =>
          obtain rfl := Option.some.inj hm
          exact ⟨q, hrest, fun _ _ => Nat.le_refl _⟩
      | tick i =>
          obtain rfl := Option.some.inj hm
          have hi : Frame.tick i ∈ m.frames := hf ▸ List.mem_cons_self
          obtain ⟨q', hinv, hnow, hcount⟩ := hrest.tickLoop (h.ticks i hi) (h.waiting i hi)
          refine ⟨q', hinv, fun _ _ => ?_⟩
          rw [hnow]
          exact hcount

theorem Inv.step (h : Inv m q) {c : Call T F U} (hc : m.Allows c)
    (hm : m.exec fuel c = some m') : ∃ q', Inv m' q' ∧ Spends m q m' q' := by
  cases c with
  | set t ms fn user => exact h.exec_set hc hm
  | cancel t => exact h.exec_cancel hm
  | flush t => exact h.exec_flush hm
  | tick n => exact h.exec_tick hc hm
  | leave => exact h.exec_leave hm

/-- Calls end, whatever has happened before. -/
theorem Inv.ends (h : Inv m q) (c : Call T F U) (hfuel : q.length < fuel) :
    ∃ m', m.exec fuel c = some m' := by
  cases c with
  | set t ms fn user =>
      obtain ⟨s, hs⟩ := h.queue.set_ends t ms fn user hfuel
      exact ⟨_, by rw [Machine.exec, hs]; rfl⟩
  | cancel t =>
      obtain ⟨s, hs⟩ := h.queue.cancel_ends t hfuel
      exact ⟨_, by rw [Machine.exec, hs]; rfl⟩
  | flush t =>
      obtain ⟨⟨s, c⟩, hs⟩ := h.queue.flush_ends t hfuel
      rw [Machine.exec, hs]
      cases c with
      | none => exact ⟨_, rfl⟩
      | some c => exact ⟨_, rfl⟩
  | tick n => exact ⟨_, rfl⟩
  | leave =>
      rw [Machine.exec]
      cases hf : m.frames with
      | nil => exact ⟨m, rfl⟩
      | cons f frames =>
          cases f with
          | flush => exact ⟨_, rfl⟩
          | tick i => exact ⟨_, rfl⟩

/-! ## Runs -/

theorem Reached.inv (h : Reached m) : ∃ q, Inv m q := by
  induction h with
  | start => exact ⟨[], start_inv⟩
  | step fuel c _ hc hm ih =>
      obtain ⟨q, hq⟩ := ih
      obtain ⟨q', hq', -⟩ := hq.step hc hm
      exact ⟨q', hq'⟩

/-- What holds at every point of a run. -/
structure Sound (m : Machine T F U) : Prop where
  /-- the list has each timer once, is sorted, and is that of the settings which are open -/
  listed : ∃ q, Queue m.state q ∧ ∀ y, y ∈ q ↔ Open m.events y.1 y.2 m.events.length
  served : Served m.events
  ends : ∀ c, ∃ n, ∀ fuel, n < fuel → ∃ m', m.exec fuel c = some m'

/-- What is done while functions of timers run, for as long as the clock is not advanced. -/
inductive Inside (m : Machine T F U) : Machine T F U → Prop where
  | refl : Inside m m
  | step {m' m'' : Machine T F U} (fuel : ℕ) (c : Call T F U) (h : Inside m m')
      (hf : m'.frames ≠ []) (hc : m'.Allows c) (hm : m'.exec fuel c = some m'')
      (hnow : m''.state.now = m.state.now) : Inside m m''

theorem Inside.spends (h : Inside m m') (hq : Inv m q) : m'.state.now = m.state.now ∧
    ∃ q', Inv m' q' ∧ firedCount m'.events + dueCount m.state.now q' ≤
      firedCount m.events + dueCount m.state.now q := by
  induction h with
  | refl => exact ⟨rfl, q, hq, Nat.le_refl _⟩
  | step fuel c _ hf hc hm hnow ih =>
      obtain ⟨hsame, q', hq', hle⟩ := ih
      obtain ⟨q'', hq'', hspends⟩ := hq'.step hc hm
      have hmore := hspends hf (hnow.trans hsame.symm)
      rw [hnow, hsame] at hmore
      exact ⟨hnow, q'', hq'', Nat.le_trans hmore hle⟩

end Sunela.Timers
