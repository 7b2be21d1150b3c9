import Sunela.Model.UiBip39

/-! # The words entered are those that have been chosen

The page that is resumed tells a choice from a list that is left without one only by its state,
which is the same for both. -/

namespace Sunela.UiBip39

open Bip39 UiEntry

variable {words : List CString} {c : UiBip39Ctx} {log : List Choice} {result : List ℕ}
  {maxWords : ℕ}

/-- The word is one of those that match the keys. -/
def Choice.Matches (words : List CString) (ch : Choice) : Prop :=
  ∃ found next, bip39Match words ch.keys none = some (found, next) ∧ ch.word ∈ found

/-- Each word that has been entered is the last choice for its position. -/
def Chosen (words : List CString) (c : UiBip39Ctx) (log : List Choice) : Prop :=
  ∀ i < c.numWords, ∃ ch, (log.filter fun x => x.position = i).getLast? = some ch ∧
    c.result[i]? = some ch.word ∧ ch.Matches words

/-- The list is only left by a choice. -/
def Kept : Page → Event → Prop
  | .list _ _, .swipe left => left = false
  | _, _ => True

def Outcome.ctx : Outcome → Option UiBip39Ctx
  | .running c _ => some c
  | .returned c => some c
  | _ => none

/-! ## Invariant -/

/-- How the state and the page belong together. -/
inductive Shows (words : List CString) (c : UiBip39Ctx) : Page → Prop where
  | entry {e : UiEntryCtx} (input : c.choices = false) : Shows words c (.entry e)
  | list {found entries : List ℕ} (choices : c.choices = true) (keys : c.text ≠ .empty)
      (matched : ∃ next, bip39Match words c.text none = some (found, next)) :
      Shows words c (.list found entries)

inductive Inv (words : List CString) (log : List Choice) : Outcome → Prop where
  | running {c : UiBip39Ctx} {page : Page} (chosen : Chosen words c log)
      (shows : Shows words c page) : Inv words log (.running c page)
  | returned {c : UiBip39Ctx} (chosen : Chosen words c log) : Inv words log (.returned c)
  | failed : Inv words log .failed
  | undefined : Inv words log .undefined

theorem Chosen.less {d : UiBip39Ctx} (h : Chosen words c log) (hr : d.result = c.result)
    (hn : d.numWords ≤ c.numWords) : Chosen words d log := by
  intro i hi
  rw [hr]
  exact h i (Nat.lt_of_lt_of_le hi hn)

theorem entry_inv (h : Chosen words c log) (prev : Option CString) :
    Inv words log (entry words c prev) := by
  rw [UiBip39.entry]
  split
  · exact .failed
  · split
    · exact .failed
    · split
      · exact .failed
      · split
        · exact .running (h.less rfl (Nat.le_refl _)) (.entry rfl)
        · exact .failed

theorem uiBip39SecondOpen_inv (h : Chosen words c log) (hc : c.choices = true)
    (hk : c.text ≠ .empty) : Inv words log (uiBip39SecondOpen words c) := by
  rw [uiBip39SecondOpen]
  cases hm : bip39Match words c.text none with
  | none => exact .failed
  | some r =>
      dsimp only
      split
      · exact .running h (.list hc hk ⟨r.2, hm⟩)
      · exact .failed

/-- The page for the keys has returned. -/
theorem uiBip39Resume_input (h : Chosen words c log) (hc : c.choices = false) :
    Inv words log (uiBip39Resume words c) := by
  rw [uiBip39Resume]
  by_cases hk : c.text = .empty
  · rw [if_pos hk]
    split
    · split
      · exact .undefined
      · have hless : Chosen words { c with numWords := c.numWords - 1 } log :=
          h.less rfl (Nat.sub_le _ _)
        exact entry_inv hless _
    · exact .returned h
  · rw [if_neg hk, hc, Bool.not_false, if_pos rfl]
    exact uiBip39SecondOpen_inv (h.less rfl (Nat.le_refl _)) rfl hk

/-- The list has returned. -/
theorem uiBip39Resume_choices (h : Chosen words { c with numWords := c.numWords + 1 } log)
    (hc : c.choices = true) (hk : c.text ≠ .empty) :
    Inv words log (uiBip39Resume words c) := by
  rw [uiBip39Resume, if_neg hk, hc, Bool.not_true, if_neg Bool.false_ne_true]
  dsimp only
  split
  · exact .returned (h.less rfl (Nat.le_refl _))
  · exact entry_inv (h.less rfl (Nat.le_refl _)) none

/-- The word chosen is the last choice for its position, and the others are as before. -/
theorem Chosen.next {word : ℕ} (h : Chosen words c log) (hlt : c.numWords < c.result.length)
    (hm : Choice.Matches words ⟨c.numWords, word, c.text⟩) :
    Chosen words
      { c with result := c.result.set c.numWords word, numWords := c.numWords + 1 }
      (log ++ [⟨c.numWords, word, c.text⟩]) := by
  intro i hi
  rw [List.filter_append]
  by_cases hlast : i = c.numWords
  · subst hlast
    exact ⟨⟨c.numWords, word, c.text⟩, by simp, by simp [List.getElem?_set_self hlt], hm⟩
  · have hlt : i < c.numWords := Nat.lt_of_le_of_ne (Nat.le_of_lt_succ hi) hlast
    obtain ⟨ch, hch, hres, hmatch⟩ := h i hlt
    have hne : ¬ c.numWords = i := fun he => hlast he.symm
    exact ⟨ch, by simp [hne, hch], by rw [List.getElem?_set_ne hne]; exact hres, hmatch⟩

theorem uiBip39SecondTap_inv {found entries : List ℕ} (h : Chosen words c log)
    (hs : Shows words c (.list found entries)) (hit : Option ℕ) :
    Inv words (log ++ (choice c (.list found entries) (.tap hit)).toList)
      (uiBip39SecondTap words c found entries hit) := by
  rw [uiBip39SecondTap, choice]
  cases hp : picked entries hit with
  | none => simpa using Inv.running h hs
  | some i =>
      dsimp only [Option.bind_some]
      cases hw : found[i]? with
      | none => exact .undefined
      | some word =>
          dsimp only [Option.map_some]
          by_cases hlt : c.numWords < c.result.length
          · rw [if_pos hlt]
            cases hs with
            | list hc hk hm =>
                obtain ⟨next, hm⟩ := hm
                have hmatch : Choice.Matches words ⟨c.numWords, word, c.text⟩ :=
                  ⟨found, next, hm, List.mem_of_getElem? hw⟩
                exact uiBip39Resume_choices (h.next hlt hmatch) hc hk
          · rw [if_neg hlt]
            exact .undefined

theorem entryEvent_inv {e : UiEntryCtx} (h : Chosen words c log)
    (hs : Shows words c (.entry e)) (event : UiEntry.Event) :
    Inv words log (entryEvent words c e event) := by
  cases hs with
  | entry input =>
      rw [entryEvent]
      split
      · exact .undefined
      · split
        · exact .running (h.less rfl (Nat.le_refl _)) (.entry input)
        · exact .failed
      · split
        · exact uiBip39Resume_input (h.less rfl (Nat.le_refl _)) input
        · exact .failed

theorem step_inv {page : Page} {e : Event} (h : Inv words log (.running c page))
    (hk : Kept page e) : Inv words (log ++ (choice c page e).toList) (step words c page e) := by
  cases h with
  | running chosen shows =>
      cases page with
      | entry e' =>
          cases e with
          | entry event =>
              have hinv := entryEvent_inv chosen shows event
              rwa [← List.append_nil log] at hinv
          | tap hit => simpa [choice, step] using Inv.running chosen shows
          | swipe left => simpa [choice, step] using Inv.running chosen shows
      | list found entries =>
          cases e with
          | entry event => simpa [choice, step] using Inv.running chosen shows
          | tap hit => exact uiBip39SecondTap_inv chosen shows hit
          | swipe left =>
              obtain rfl : left = false := hk
              simpa [choice, step] using Inv.running chosen shows

theorem Ran.inv {o : Outcome} (hr : Ran words result maxWords Kept o log) : Inv words log o := by
  induction hr with
  | start => exact entry_inv (fun i hi => absurd hi (Nat.not_lt_zero i)) none
  | next run h ih => exact step_inv ih h

/-- As long as no list is left without a choice, the words entered are the last choices. -/
theorem chosen_of_kept {o : Outcome} (hr : Ran words result maxWords Kept o log)
    (hc : o.ctx = some c) : Chosen words c log := by
  cases hr.inv with
  | running chosen _ =>
      obtain rfl := Option.some.inj hc
      exact chosen
  | returned chosen =>
      obtain rfl := Option.some.inj hc
      exact chosen
  | failed => cases hc
  | undefined => cases hc

/-! ## A list that is left -/

def twoWords : List CString := [.ofBuffer (asciiBytes "able"), .ofBuffer (asciiBytes "act")]

/-- Two keys, for which there is one word. -/
theorem ran_twoKeys {allowed : Page → Event → Prop}
    (h : ∀ e event, allowed (.entry e) (.entry event)) :
    Ran twoWords (List.replicate 12 0) 12 allowed
      (.running ⟨true, [48, 49, 0, 0, 0], List.replicate 12 0, 0, 12⟩ (.list [1] [0])) [] := by
  have hfirst : step twoWords ⟨false, [0, 0, 0, 0, 0], List.replicate 12 0, 0, 12⟩
      (.entry ⟨[0, 0, 0, 0, 0], none, false, (0, 0), 2047⟩) (.entry (.tap 10 50)) =
      .running ⟨false, [48, 0, 0, 0, 0], List.replicate 12 0, 0, 12⟩
        (.entry ⟨[48, 0, 0, 0, 0], none, false, (0, 0), 3⟩) := by decide +kernel
  have hsecond : step twoWords ⟨false, [48, 0, 0, 0, 0], List.replicate 12 0, 0, 12⟩
      (.entry ⟨[48, 0, 0, 0, 0], none, false, (0, 0), 3⟩) (.entry (.tap 100 50)) =
      .running ⟨true, [48, 49, 0, 0, 0], List.replicate 12 0, 0, 12⟩ (.list [1] [0]) := by
    decide +kernel
  have hopen : uiBip39Open twoWords (List.replicate 12 0) 12 =
      .running ⟨false, [0, 0, 0, 0, 0], List.replicate 12 0, 0, 12⟩
        (.entry ⟨[0, 0, 0, 0, 0], none, false, (0, 0), 2047⟩) := by decide +kernel
  have hstart := @Ran.start twoWords (List.replicate 12 0) 12 allowed
  rw [hopen] at hstart
  have hone := hstart.next (h _ (.tap 10 50))
  rw [hfirst] at hone
  have htwo := hone.next (h _ (.tap 100 50))
  rw [hsecond] at htwo
  exact htwo

theorem chosen_of_kept_act :
    ∃ c log, c.numWords = 1 ∧ c.result[0]? = some 1 ∧ Chosen twoWords c log := by
  have hr := (@ran_twoKeys Kept fun _ _ => trivial).next (e := .tap (some 0)) trivial
  have ho : step twoWords ⟨true, [48, 49, 0, 0, 0], List.replicate 12 0, 0, 12⟩
      (.list [1] [0]) (.tap (some 0)) =
      .running ⟨false, [0, 0, 0, 0, 0], [1, 0, 0, 0, 0, 0, 0, 0, 0, 0, 0, 0], 1, 12⟩
        (.entry ⟨[0, 0, 0, 0, 0], none, false, (0, 0), 2047⟩) := by decide +kernel
  rw [ho] at hr
  exact ⟨_, _, rfl, rfl, chosen_of_kept hr rfl⟩

/-- A swipe leaves the list without a choice, and counts a word that nobody has chosen. -/
theorem swipe_not_chosen :
    ∃ o log c, Ran twoWords (List.replicate 12 0) 12 (fun _ _ => True) o log ∧
      o.ctx = some c ∧ ¬ Chosen twoWords c log := by
  have hr := (@ran_twoKeys (fun _ _ => True) fun _ _ => trivial).next (e := .swipe true) trivial
  have ho : step twoWords ⟨true, [48, 49, 0, 0, 0], List.replicate 12 0, 0, 12⟩
      (.list [1] [0]) (.swipe true) =
      .running ⟨false, [0, 0, 0, 0, 0], List.replicate 12 0, 1, 12⟩
        (.entry ⟨[0, 0, 0, 0, 0], none, false, (0, 0), 2047⟩) := by decide +kernel
  rw [ho] at hr
  refine ⟨_, _, _, hr, rfl, fun h => ?_⟩
  obtain ⟨ch, hch, -⟩ := h 0 (by decide)
  cases hch

end Sunela.UiBip39
