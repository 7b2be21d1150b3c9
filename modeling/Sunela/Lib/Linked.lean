import Mathlib.Data.List.Nodup
import Mathlib.Data.Nat.Notation
import Mathlib.Logic.Function.Basic

/-! # Linked lists

Lists in memory that are gone through by the place where the next link is, so that items can be
put in and taken out anywhere. -/

namespace Linked

variable {T : Type}

/-- Where a list begins, and which item comes after each item. -/
structure Links (T : Type) where
  head : Option T
  next : T → Option T

/-- The link at a place, which is the head or an item. -/
def Links.get (s : Links T) : Option T → Option T
  | none => s.head
  | some t => s.next t

/-- The first place from `a` on where the list ends or with a link to an item that stops the
search. Without enough fuel there is none. -/
def Links.find (s : Links T) (stop : T → Bool) : ℕ → Option T → Option (Option T)
  | 0, _ => none
  | fuel + 1, a =>
      match s.get a with
      | none => some a
      | some t => if stop t then some a else s.find stop fuel (some t)

/-- The items from a link on. -/
def Reads (next : T → Option T) : Option T → List T → Prop
  | p, [] => p = none
  | p, t :: l => p = some t ∧ Reads next (next t) l

/-- The place after some items. -/
def after (a : Option T) (l : List T) : Option T := l.foldl (fun _ t => some t) a

variable {s : Links T} {next next' : T → Option T} {a p : Option T} {t : T}
  {l pre post new : List T} {stop : T → Bool} {fuel : ℕ}

/-- Only the links of the items matter. -/
theorem Reads.congr (h : Reads next p l) (heq : ∀ t ∈ l, next' t = next t) : Reads next' p l := by
  induction l generalizing p with
  | nil => exact h
  | cons t l ih =>
      refine ⟨h.1, ?_⟩
      rw [heq t List.mem_cons_self]
      exact ih h.2 fun u hu => heq u (List.mem_cons_of_mem t hu)

theorem Reads.unique (h : Reads next p l) {l' : List T} (h' : Reads next p l') : l = l' := by
  induction l generalizing p l' with
  | nil =>
      cases l' with
      | nil => rfl
      | cons t l' => exact nomatch (Eq.symm h).trans h'.1
  | cons t l ih =>
      cases l' with
      | nil => exact nomatch (Eq.symm h').trans h.1
      | cons t' l' =>
          obtain rfl := Option.some.inj (h.1.symm.trans h'.1)
          rw [ih h.2 h'.2]

@[simp]
theorem after_nil : after a ([] : List T) = a := rfl

@[simp]
theorem after_cons : after a (t :: l) = after (some t) l := rfl

theorem after_mem : after a l = a ∨ ∃ t ∈ l, after a l = some t := by
  induction l generalizing a with
  | nil => exact .inl rfl
  | cons t l ih =>
      rw [after_cons]
      rcases @ih (some t) with h | ⟨u, hu, h⟩
      · exact .inr ⟨t, List.mem_cons_self, h⟩
      · exact .inr ⟨u, List.mem_cons_of_mem t hu, h⟩

theorem get_after (h : Reads s.next (s.get a) (pre ++ post)) :
    s.get (after a pre) = post.head? := by
  induction pre generalizing a with
  | nil =>
      cases post with
      | nil => exact h
      | cons t post => exact h.1
  | cons t pre ih => exact ih h.2

theorem reads_after (h : Reads s.next (s.get a) (pre ++ post)) :
    Reads s.next (s.get (after a pre)) post := by
  induction pre generalizing a with
  | nil => exact h
  | cons t pre ih => exact ih h.2

/-- The search goes past the items that do not stop it. -/
theorem find_eq (h : Reads s.next (s.get a) (pre ++ post)) (hpre : ∀ t ∈ pre, stop t = false)
    (hpost : ∀ t ∈ post.head?, stop t = true) (hfuel : pre.length < fuel) :
    s.find stop fuel a = some (after a pre) := by
  induction pre generalizing a fuel with
  | nil =>
      obtain ⟨fuel, rfl⟩ := Nat.exists_eq_add_of_lt hfuel
      have hget := get_after h
      rw [after_nil] at hget
      rw [Links.find, hget]
      cases post with
      | nil => rfl
      | cons t post => exact if_pos (hpost t rfl)
  | cons t pre ih =>
      cases fuel with
      | zero => exact absurd hfuel (Nat.not_lt_zero _)
      | succ fuel =>
          have hget : s.get a = some t := h.1
          rw [Links.find, hget]
          simp only [hpre t List.mem_cons_self, Bool.false_eq_true, if_false]
          exact ih h.2 (fun u hu => hpre u (List.mem_cons_of_mem t hu))
            (Nat.lt_of_succ_lt_succ hfuel)

theorem find_mono {b : Option T} {fuel' : ℕ} (h : s.find stop fuel a = some b)
    (hle : fuel ≤ fuel') : s.find stop fuel' a = some b := by
  induction fuel generalizing a fuel' with
  | zero => exact nomatch h
  | succ fuel ih =>
      cases fuel' with
      | zero => exact absurd hle (Nat.not_succ_le_zero fuel)
      | succ fuel' =>
          rw [Links.find] at h ⊢
          cases hget : s.get a with
          | none =>
              rw [hget] at h
              exact h
          | some t =>
              simp only [hget] at h ⊢
              by_cases hstop : stop t = true
              · rw [if_pos hstop] at h ⊢
                exact h
              · rw [if_neg hstop] at h ⊢
                exact ih h (Nat.le_of_succ_le_succ hle)

/-- What the search finds, if it ends. -/
theorem find_some {b : Option T} (h : Reads s.next (s.get a) (pre ++ post))
    (hpre : ∀ t ∈ pre, stop t = false) (hpost : ∀ t ∈ post.head?, stop t = true)
    (hf : s.find stop fuel a = some b) : b = after a pre := by
  have henough := find_eq h hpre hpost (Nat.lt_of_lt_of_le (Nat.lt_succ_self pre.length)
    (Nat.le_max_right fuel (pre.length + 1)))
  have hmore := find_mono hf (Nat.le_max_left fuel (pre.length + 1))
  exact Option.some.inj (hmore.symm.trans henough)

/-! ## Changes -/

variable [DecidableEq T]

def Links.put (s : Links T) (a p : Option T) : Links T :=
  match a with
  | none => { s with head := p }
  | some t => { s with next := Function.update s.next t p }

@[simp]
theorem get_put_self : (s.put a p).get a = p := by
  cases a with
  | none => rfl
  | some t => exact Function.update_self t p s.next

theorem get_put_of_ne {b : Option T} (h : b ≠ a) : (s.put a p).get b = s.get b := by
  cases a with
  | none =>
      cases b with
      | none => exact absurd rfl h
      | some u => rfl
  | some t =>
      cases b with
      | none => rfl
      | some u => exact Function.update_of_ne (fun hu => h (congrArg some hu)) p s.next

theorem Reads.put (h : Reads s.next p l) {q : Option T} (ha : ∀ t ∈ l, a ≠ some t) :
    Reads (s.put a q).next p l := by
  apply h.congr
  intro t ht
  exact get_put_of_ne (b := some t) fun heq => ha t ht heq.symm

/-- Other items can come after the first ones. -/
theorem reads_put (h : Reads s.next (s.get a) (pre ++ post)) (hnew : Reads s.next p new)
    (hpre : pre.Nodup) (ha : ∀ t ∈ pre ++ new, a ≠ some t) (hdisj : ∀ t ∈ pre, t ∉ new) :
    Reads (s.put (after a pre) p).next ((s.put (after a pre) p).get a) (pre ++ new) := by
  induction pre generalizing a with
  | nil =>
      rw [after_nil, get_put_self]
      exact hnew.put fun t ht => ha t ht
  | cons t pre ih =>
      obtain ⟨hfirst, hpre⟩ := List.nodup_cons.mp hpre
      have hne : a ≠ after (some t) pre := by
        rcases after_mem (a := some t) (l := pre) with heq | ⟨u, hu, heq⟩
        · rw [heq]
          exact ha t List.mem_cons_self
        · rw [heq]
          exact ha u (List.mem_cons_of_mem t (List.mem_append_left new hu))
      rw [after_cons, get_put_of_ne hne]
      refine ⟨h.1, ih h.2 hpre ?_ fun u hu => hdisj u (List.mem_cons_of_mem t hu)⟩
      intro u hu heq
      obtain rfl := Option.some.inj heq
      rcases List.mem_append.mp hu with hu | hu
      · exact hfirst hu
      · exact hdisj t List.mem_cons_self hu

end Linked
