import Sunela.Verification.Secrets.PinChanges

/-! # What the result of a PIN change says

The change itself does what it should, but the caller is not told of storage operations that
fail: the result is then the same as for a change that was refused. -/

namespace Sunela.Secrets

open Program Storage Block Database Pin

variable {P : Platform} {H : Hashes} {torn : Torn} {f g : Flash} {v : Vars}
  {oldPin newPin pin : UInt32} {b o : ℕ}

/-! ## The PINs in force -/

/-- The PIN finds a pad. -/
def Accepts (H : Hashes) (f : Flash) (pin : UInt32) : Prop := (secretsSetup H f pin).isSome

instance (H : Hashes) (f : Flash) (pin : UInt32) : Decidable (Accepts H f pin) :=
  inferInstanceAs (Decidable (_ = _))

/-- The block has a pad for the PIN. -/
def Has (H : Hashes) (x : Block) (pin : UInt32) : Prop :=
  ∃ j < 15, slotId (pads x) j = (idHash H pin).toList

theorem has_iff {x : Block} : Has H x pin ↔ (findPad (pads x) (idHash H pin)).isSome := by
  constructor
  · intro h
    by_contra hn
    obtain ⟨j, hj, he⟩ := h
    exact findPad_eq_none.mp (Option.not_isSome_iff_eq_none.mp hn) j hj he
  · intro h
    obtain ⟨i, hi⟩ := Option.isSome_iff_exists.mp h
    exact ⟨i, (of_findPad hi).1, (of_findPad hi).2.1⟩

theorem setupLoop_isSome {pattern id : Secret} (ns : List ℕ) (found : Option Found)
    (hbad : ∀ n ∈ ns, f.bad n = false) :
    (setupLoop f pattern id ns found).isSome ↔
      found.isSome ∨ ∃ n ∈ ns, (findPad (pads (f.cells n)) id).isSome := by
  induction ns generalizing found with
  | nil => simp [setupLoop]
  | cons n ns ih =>
      have hread : storageReadBlock f n = some (f.cells n) := by
        simp [storageReadBlock, hbad n List.mem_cons_self]
      have hns := fun found => ih found fun m hm => hbad m (List.mem_cons_of_mem _ hm)
      simp only [setupLoop, hread]
      cases found with
      | some r =>
          cases applyPad pattern (Option.map Found.seq (some r)) (f.cells n) id <;> simp [hns]
      | none =>
          rw [Option.map_none, applyPad_none]
          cases hp : findPad (pads (f.cells n)) id with
          | none => simp [hns, hp]
          | some i => simp [hns, hp]

theorem accepts_iff (hg : Groups b o) (hbad : ∀ n ∈ padStarts, f.bad n = false) :
    Accepts H f pin ↔ Has H (f.cells b) pin ∨ Has H (f.cells o) pin := by
  have hstarts : padStarts = [0, storageEraseSize] := rfl
  rw [Accepts, secretsSetup, setupLoop_isSome _ _ hbad, has_iff, has_iff, hstarts]
  rcases hg.starts with ⟨rfl, rfl⟩ | ⟨rfl, rfl⟩
  · simp
  · simp [or_comm]

theorem not_has_erased (h : idHash H pin ≠ erasedId) : ¬ Has H erasedBlock pin := by
  rw [has_iff, findPad_erasedBlock h]
  exact Bool.false_ne_true

/-! ## Storage operations that fail -/

/-- The reply says that the operation failed. -/
def failedReply : (c : Cmd) → Reply c → Bool
  | .read _, r => r.isNone
  | .write _ _, ok => !ok
  | .erase _ _, ok => !ok
  | .random _, _ => false

/-- The device, and whether an operation has failed. -/
abbrev Watched (torn : Torn) : Flash × Bool → (c : Cmd) → Reply c → Flash × Bool → Prop :=
  Noting (Step torn) failedReply

theorem works_of_step {c : Cmd} {r : Reply c} (h : Step torn f c r g)
    (hr : failedReply c r = false) : Works f c r g := by
  cases h with
  | read n => exact .read n
  | write n buf => exact .write n buf
  | writeFail n buf x h => cases hr
  | erase n k => exact .erase n k
  | eraseFail n k x h => cases hr
  | random size r h => exact .random size r h

/-- A run in which no operation fails is one of a device in which none does. -/
theorem works_of_watched {α : Type} {p q : Fw α} {s t : Flash × Bool}
    (h : Reaches (Watched torn) p s q t) (ht : t.2 = false) :
    s.2 = false ∧ Reaches Works p s.1 q t.1 := by
  obtain ⟨hs, hr⟩ := h.unnoted_of_false ht
  exact ⟨hs, hr.mono fun _ _ _ _ hstep => works_of_step hstep.1 hstep.2⟩

/-- The device of `answer`, except that it does not erase the blocks from `bad` on. -/
def stubborn (bad : Option ℕ) (f : Flash) : (c : Cmd) → Reply c × Flash
  | .erase n k => if some n = bad then (false, f.setRange n k f.cells) else answer f (.erase n k)
  | c => answer f c

def watchedAnswer (bad : Option ℕ) : Flash × Bool → (c : Cmd) → Reply c × (Flash × Bool) :=
  noteAnswer (stubborn bad) failedReply

theorem stubborn_step (bad : Option ℕ) (f : Flash) (c : Cmd) :
    Step unchanged f c (stubborn bad f c).1 (stubborn bad f c).2 := by
  have hworks : Step unchanged f c _ _ := (answer_works f c).mono fun _ _ _ h => h.elim
  cases c with
  | erase n k =>
      by_cases hn : some n = bad
      · simp only [stubborn, if_pos hn]
        exact .eraseFail n k f.cells fun _ => rfl
      · simpa only [stubborn, if_neg hn] using hworks
  | read n => exact hworks
  | write n buf => exact hworks
  | random size => exact hworks

theorem watchedAnswer_watched (bad : Option ℕ) (s : Flash × Bool) (c : Cmd) :
    Watched unchanged s c (watchedAnswer bad s c).1 (watchedAnswer bad s c).2 :=
  noteAnswer_noting (stubborn_step bad) failedReply s c

/-! ## The result -/

/-- `pin_change` as an integer. -/
def resultOf (ok : Bool) : ℤ := if ok then 1 else 0

/-- The change is attempted: the old PIN is accepted by the check, and the new one is another. -/
def Attempted (P : Platform) (f : Flash) (now : UInt32) (m : Memory) (oldPin newPin : UInt32) :
    Prop :=
  (∃ m', pinRevalidate P f now m oldPin = some (true, m')) ∧ oldPin ≠ newPin

/-- A result means what the documentation of `pin_change` says. -/
structure Means (before after : UInt32 → Prop) (oldPin newPin : UInt32) (attempted failed : Prop)
    (result : ℤ) : Prop where
  zero : result = 0 → ∀ p, after p ↔ before p
  one : result = 1 → ∀ p, after p ↔ (p ≠ oldPin ∧ before p) ∨ p = newPin
  failure : attempted → failed → result = -1

theorem means_one {before after : UInt32 → Prop} {attempted : Prop} :
    Means before after oldPin newPin attempted False (resultOf true) ↔
      ∀ p, after p ↔ (p ≠ oldPin ∧ before p) ∨ p = newPin := by
  constructor
  · intro h
    exact h.one rfl
  · intro h
    exact ⟨fun h0 => absurd h0 (by decide), fun _ => h, fun _ hf => hf.elim⟩

/-- There is one slot at most for the old PIN, and a slot for the new one. No other PIN has its
pad in the other group only. -/
structure Replaceable (H : Hashes) (x y : Block) (oldPin newPin : UInt32) : Prop where
  room : Has H x oldPin ∨ (findErased (pads x)).isSome
  once : ∀ i < 15, ∀ j < 15, slotId (pads x) i = (idHash H oldPin).toList →
    slotId (pads x) j = (idHash H oldPin).toList → i = j
  others : ∀ p, p ≠ oldPin → p ≠ newPin → Has H y p → Has H x p

/-- The slots in the other group, if the current block has been erased by a change that failed.
The first slot is written over, and what is left of it are the bits that are set in the
identifiers of both PINs. -/
structure Overlaid (H : Hashes) (y : Block) (oldPin newPin : UInt32) : Prop where
  first : ∀ j < 15, slotId (pads y) j = (idHash H oldPin).toList → j = 0
  others : ∀ p, idHash H p = both (idHash H oldPin) (idHash H newPin) →
    (p ≠ oldPin ∧ Has H y p) ∨ p = newPin
  new : idHash H newPin = both (idHash H oldPin) (idHash H newPin) ∨ Has H y newPin

/-- The old PIN can be replaced in the block with its pad, or in the other one if the block has
been erased. -/
def Exchangeable (H : Hashes) (x y : Block) (oldPin newPin : UInt32) : Prop :=
  if x = erasedBlock then Overlaid H y oldPin newPin else Replaceable H x y oldPin newPin

/-! ## A change in which nothing fails -/

/-- What the changed block accepts. -/
theorem has_changed {x buf : Block} {i : ℕ} {pad : Secret}
    (hinj : Function.Injective (idHash H)) (hi : i < 15)
    (hslots : ∀ j, slot (pads buf) j =
      if j = i then padSlot (idHash H newPin) pad else slot (pads x) j) :
    Has H buf pin ↔
      pin = newPin ∨ ∃ j < 15, j ≠ i ∧ slotId (pads x) j = (idHash H pin).toList := by
  have hself : slotId (pads buf) i = (idHash H newPin).toList := by
    have h := hslots i
    rw [if_pos rfl] at h
    exact slotId_of_eq h
  have hother : ∀ j, j ≠ i → slotId (pads buf) j = slotId (pads x) j := by
    intro j hj
    rw [slotId, slotId, hslots j, if_neg hj]
  constructor
  · intro h
    obtain ⟨j, hj, he⟩ := h
    by_cases hji : j = i
    · rw [hji, hself] at he
      exact .inl (hinj (Vector.toList_inj.mp he)).symm
    · rw [hother j hji] at he
      exact .inr ⟨j, hj, hji, he⟩
  · intro h
    rcases h with rfl | ⟨j, hj, hji, he⟩
    · exact ⟨i, hi, hself⟩
    · exact ⟨j, hj, by rw [hother j hji]; exact he⟩

/-- The slot that is replaced belongs to the old PIN, or to none. -/
theorem replaced_slot {x : Block} {i : ℕ} (hinj : Function.Injective (idHash H))
    (herased : ∀ p, idHash H p ≠ erasedId)
    (h : (findPad (pads x) (idHash H oldPin)).or (findErased (pads x)) = some i)
    (hp : slotId (pads x) i = (idHash H pin).toList) : pin = oldPin := by
  rcases Option.or_eq_some_iff.mp h with hi | ⟨-, hi⟩
  · have ho := (of_findPad hi).2.1
    rw [hp] at ho
    exact hinj (Vector.toList_inj.mp ho)
  · rw [slotId_erased (of_findErased hi).2] at hp
    exact absurd (Vector.toList_inj.mp hp).symm (herased pin)

/-- The old PIN is exchanged for the new one exactly if its slot can be replaced. -/
theorem exchanged_iff {x y : Block} {i : ℕ} (hinj : Function.Injective (idHash H))
    (herased : ∀ p, idHash H p ≠ erasedId) (hne : oldPin ≠ newPin)
    (h : (findPad (pads x) (idHash H oldPin)).or (findErased (pads x)) = some i) :
    (∀ p, (p = newPin ∨ ∃ j < 15, j ≠ i ∧ slotId (pads x) j = (idHash H p).toList) ↔
      (p ≠ oldPin ∧ (Has H x p ∨ Has H y p)) ∨ p = newPin) ↔ Replaceable H x y oldPin newPin := by
  constructor
  · intro hp
    have hold : ∀ j < 15, slotId (pads x) j = (idHash H oldPin).toList → j = i := by
      intro j hj he
      by_contra hji
      rcases (hp oldPin).mp (.inr ⟨j, hj, hji, he⟩) with hn | hn
      · exact hn.1 rfl
      · exact hne hn
    refine ⟨?_, fun j hj k hk hej hek => (hold j hj hej).trans (hold k hk hek).symm,
      fun p hpo hpn hy => ?_⟩
    · rcases Option.or_eq_some_iff.mp h with hi | ⟨-, hi⟩
      · exact .inl (has_iff.mpr (by rw [hi]; rfl))
      · exact .inr (by rw [hi]; rfl)
    · rcases (hp p).mpr (.inl ⟨hpo, .inr hy⟩) with he | ⟨j, hj, -, he⟩
      · exact absurd he hpn
      · exact ⟨j, hj, he⟩
  · intro hr p
    by_cases hpn : p = newPin
    · simp [hpn]
    · simp only [hpn, false_or, or_false]
      constructor
      · intro hj
        obtain ⟨j, hj, hji, he⟩ := hj
        refine ⟨fun hpo => hji ?_, .inl ⟨j, hj, he⟩⟩
        rw [hpo] at he
        have hhas := has_iff.mp ⟨j, hj, he⟩
        obtain ⟨k, hk⟩ := Option.isSome_iff_exists.mp hhas
        rw [hk] at h
        obtain rfl : k = i := Option.some.inj h
        exact hr.once j hj k (of_findPad hk).1 he (of_findPad hk).2.1
      · intro hpo
        have hx : Has H x p := hpo.2.elim id (hr.others p hpo.1 hpn)
        obtain ⟨j, hj, he⟩ := hx
        refine ⟨j, hj, fun hji => hpo.1 ?_, he⟩
        rw [hji] at he
        exact replaced_slot hinj herased h he

/-- What a block accepts after the pad of the new PIN has been written over it. -/
theorem has_program {y buf : Block} {pad : Secret}
    (hold : slotId (pads y) 0 = (idHash H oldPin).toList)
    (hslots : ∀ j, slot (pads buf) j =
      if j = 0 then padSlot (idHash H newPin) pad else slot (pads erasedBlock) j) :
    Has H (y.program buf) pin ↔ idHash H pin = both (idHash H oldPin) (idHash H newPin) ∨
      ∃ j < 15, j ≠ 0 ∧ slotId (pads y) j = (idHash H pin).toList := by
  have hself : slotId (pads (y.program buf)) 0 =
      (both (idHash H oldPin) (idHash H newPin)).toList := by
    have h := hslots 0
    rw [if_pos rfl] at h
    exact slotId_program_both hold (slotId_of_eq h)
  have hother : ∀ j < 15, j ≠ 0 → slotId (pads (y.program buf)) j = slotId (pads y) j := by
    intro j hj h0
    have h := hslots j
    rw [if_neg h0, slot_erasedBlock hj] at h
    obtain ⟨a, ha⟩ := exists_slotId (b := y) hj
    rw [slotId_program_both ha (slotId_erased h), both_erasedId, ha]
  constructor
  · intro h
    obtain ⟨j, hj, he⟩ := h
    by_cases h0 : j = 0
    · rw [h0, hself] at he
      exact .inl (Vector.toList_inj.mp he).symm
    · rw [hother j hj h0] at he
      exact .inr ⟨j, hj, h0, he⟩
  · intro h
    rcases h with he | ⟨j, hj, h0, he⟩
    · exact ⟨0, by decide, by rw [hself, he]⟩
    · exact ⟨j, hj, by rw [hother j hj h0]; exact he⟩

/-- The same for the old PIN in the other group. -/
theorem overlaid_iff {y : Block} (hinj : Function.Injective (idHash H)) (hne : oldPin ≠ newPin)
    (hold : slotId (pads y) 0 = (idHash H oldPin).toList) :
    (∀ p, (idHash H p = both (idHash H oldPin) (idHash H newPin) ∨
        ∃ j < 15, j ≠ 0 ∧ slotId (pads y) j = (idHash H p).toList) ↔
      (p ≠ oldPin ∧ Has H y p) ∨ p = newPin) ↔ Overlaid H y oldPin newPin := by
  constructor
  · intro hp
    refine ⟨fun j hj he => ?_, fun p he => (hp p).mp (.inl he), ?_⟩
    · by_contra h0
      rcases (hp oldPin).mp (.inr ⟨j, hj, h0, he⟩) with h | h
      · exact h.1 rfl
      · exact hne h
    · rcases (hp newPin).mpr (.inr rfl) with h | ⟨j, hj, -, he⟩
      · exact .inl h
      · exact .inr ⟨j, hj, he⟩
  · intro ho p
    have hother : p ≠ oldPin → Has H y p →
        ∃ j < 15, j ≠ 0 ∧ slotId (pads y) j = (idHash H p).toList := by
      intro hpo h
      obtain ⟨j, hj, he⟩ := h
      refine ⟨j, hj, fun h0 => hpo ?_, he⟩
      rw [h0, hold] at he
      exact (hinj (Vector.toList_inj.mp he)).symm
    constructor
    · intro h
      rcases h with he | ⟨j, hj, h0, he⟩
      · exact ho.others p he
      · refine .inl ⟨fun hpo => h0 (ho.first j hj ?_), ⟨j, hj, he⟩⟩
        rw [he, hpo]
    · intro h
      rcases h with ⟨hpo, hy⟩ | rfl
      · exact .inr (hother hpo hy)
      · exact ho.new.imp id (hother hne.symm)

section Change

variable {v' : Vars} {ok : Bool} {attempted : Prop}

/-- A change of a block with pads tells which PINs are in force exactly if the slot of the old
PIN can be replaced. -/
theorem secretsChange_replaceable (hinj : Function.Injective (idHash H))
    (herased : ∀ p, idHash H p ≠ erasedId) (hg : Groups b o)
    (hbad : ∀ n ∈ padStarts, f.bad n = false) (hx : f.cells b ≠ erasedBlock)
    (hv : v.havePad = true) (hp : v.padBlock = some b) (hne : oldPin ≠ newPin)
    (hold : Accepts H f oldPin)
    (hr : Returns Works (secretsChange H v oldPin newPin) f (ok, v') g) :
    Means (Accepts H f) (Accepts H g) oldPin newPin attempted False (resultOf ok) ↔
      Replaceable H (f.cells b) (f.cells o) oldPin newPin := by
  cases hslot : (findPad (pads (f.cells b)) (idHash H oldPin)).or
      (findErased (pads (f.cells b))) with
  | none =>
      have hw := wp_secretsChange_none (K := anyContract fun _ _ _ => False)
        (Q := fun r t => r.1 = false ∧ t = f.setRange o storageEraseSize fun _ => erasedBlock) rfl
        hg (hbad b hg.mem) hx hv hp (changedBlock_none v newPin hslot) rfl trivial
        trivial trivial ⟨rfl, rfl⟩
      obtain ⟨hok, hgf⟩ := wp_returns hw hr
      have hok' : ok = false := hok
      obtain ⟨hnone, hfull⟩ := Option.or_eq_none_iff.mp hslot
      have hnot : ¬ Has H (f.cells b) oldPin := by
        rw [has_iff, hnone]
        exact Bool.false_ne_true
      constructor
      · intro hm
        have hstill := (hm.zero (by rw [hok']; rfl) oldPin).mpr hold
        rw [hgf, accepts_iff hg (by simpa using hbad), hg.erased.1, hg.erased.2] at hstill
        rcases hstill with hb | ho
        · exact absurd hb hnot
        · exact absurd ho (not_has_erased (herased oldPin))
      · intro hrep
        rcases hrep.room with hb | he
        · exact absurd hb hnot
        · rw [hfull] at he
          cases he
  | some i =>
      obtain ⟨hi, buf, hbuf, -, hslots⟩ := changedBlock_of_slot v newPin hslot
      have hw := wp_secretsChange (K := anyContract fun _ _ _ => False)
        (Q := fun r t => r.1 = true ∧ t = ((f.setRange o storageEraseSize fun _ =>
          erasedBlock).set o buf).setRange b storageEraseSize fun _ => erasedBlock) rfl hg
        (hbad b hg.mem) hx hv hp hbuf rfl rfl trivial trivial trivial trivial trivial ⟨rfl, rfl⟩
      obtain ⟨hok, hgf⟩ := wp_returns hw hr
      have hok' : ok = true := hok
      have hafter : ∀ p, Accepts H g p ↔
          p = newPin ∨ ∃ j < 15, j ≠ i ∧ slotId (pads (f.cells b)) j = (idHash H p).toList := by
        intro p
        rw [hgf, accepts_iff hg (by simpa using hbad), hg.symm.erased.1, hg.symm.erased.2,
          Flash.set_self, has_changed hinj hi hslots]
        exact or_iff_right (not_has_erased (herased p))
      rw [hok', means_one, ← exchanged_iff hinj herased hne hslot]
      simp only [hafter, accepts_iff hg hbad]

/-- If the current block has been erased, then it depends on the bits of the identifiers. -/
theorem secretsChange_overlaid (hinj : Function.Injective (idHash H))
    (herased : ∀ p, idHash H p ≠ erasedId) (hg : Groups b o)
    (hbad : ∀ n ∈ padStarts, f.bad n = false) (hx : f.cells b = erasedBlock)
    (hv : v.havePad = true) (hp : v.padBlock = some b) (hne : oldPin ≠ newPin)
    (hold : Accepts H f oldPin)
    (hr : Returns Works (secretsChange H v oldPin newPin) f (ok, v') g) :
    Means (Accepts H f) (Accepts H g) oldPin newPin attempted False (resultOf ok) ↔
      Overlaid H (f.cells o) oldPin newPin := by
  have hslot : (findPad (pads (f.cells b)) (idHash H oldPin)).or
      (findErased (pads (f.cells b))) = some 0 := by
    rw [hx, findPad_erasedBlock (herased oldPin), findErased_erasedBlock]
    rfl
  obtain ⟨-, buf, hbuf, -, hslots⟩ := changedBlock_of_slot v newPin hslot
  rw [hx] at hslots
  have hw := wp_secretsChange_erased (K := anyContract fun _ _ _ => False)
    (Q := fun r t => r.1 = true ∧ t = (f.set o ((f.cells o).program buf)).setRange b
      storageEraseSize fun _ => erasedBlock) rfl hg (hbad b hg.mem) hx hv hp hbuf rfl trivial
    trivial trivial ⟨rfl, rfl⟩
  obtain ⟨hok, hgf⟩ := wp_returns hw hr
  have hok' : ok = true := hok
  have hbefore : ∀ p, Accepts H f p ↔ Has H (f.cells o) p := by
    intro p
    rw [accepts_iff hg hbad, hx]
    exact or_iff_right (not_has_erased (herased p))
  have hafter : ∀ p, Accepts H g p ↔ Has H ((f.cells o).program buf) p := by
    intro p
    rw [hgf, accepts_iff hg (by simpa using hbad), hg.symm.erased.1, hg.symm.erased.2,
      Flash.set_self]
    exact or_iff_right (not_has_erased (herased p))
  rw [hok', means_one]
  simp only [hbefore, hafter]
  obtain ⟨k, hk, hke⟩ := (hbefore oldPin).mp hold
  by_cases hfirst : slotId (pads (f.cells o)) 0 = (idHash H oldPin).toList
  · simp only [has_program hfirst hslots]
    exact overlaid_iff hinj hne hfirst
  · have hk0 : k ≠ 0 := by
      rintro rfl
      exact hfirst hke
    constructor
    · intro h
      -- the slot of the old PIN is not written over
      have hstill : Has H ((f.cells o).program buf) oldPin := by
        have hs := hslots k
        rw [if_neg hk0, slot_erasedBlock hk] at hs
        refine ⟨k, hk, ?_⟩
        rw [slotId_program_both hke (slotId_erased hs), both_erasedId]
      rcases (h oldPin).mp hstill with ho | ho
      · exact absurd rfl ho.1
      · exact absurd ho hne
    · intro h
      exact absurd (h.first k hk hke) hk0

/-- Without storage failures the result tells which PINs are in force exactly if the old PIN can
be exchanged. -/
theorem secretsChange_means (attempted : Prop) (hinj : Function.Injective (idHash H))
    (herased : ∀ p, idHash H p ≠ erasedId) (hg : Groups b o)
    (hbad : ∀ n ∈ padStarts, f.bad n = false) (hv : v.havePad = true)
    (hp : v.padBlock = some b) (hne : oldPin ≠ newPin) (hold : Accepts H f oldPin)
    (hr : Returns Works (secretsChange H v oldPin newPin) f (ok, v') g) :
    Means (Accepts H f) (Accepts H g) oldPin newPin attempted False (resultOf ok) ↔
      Exchangeable H (f.cells b) (f.cells o) oldPin newPin := by
  unfold Exchangeable
  by_cases hx : f.cells b = erasedBlock
  · rw [if_pos hx]
    exact secretsChange_overlaid hinj herased hg hbad hx hv hp hne hold hr
  · rw [if_neg hx]
    exact secretsChange_replaceable hinj herased hg hbad hx hv hp hne hold hr

end Change

/-! ## Every run -/

theorem resultOf_ne (ok : Bool) : resultOf ok ≠ -1 := by
  cases ok <;> decide

/-- A change runs to its end only with a pad. -/
theorem secretsChange_ready {v' : Vars} {ok : Bool}
    (hr : Returns Works (secretsChange H v oldPin newPin) f (ok, v') g) :
    v.havePad = true ∧ ∃ n, v.padBlock = some n := by
  unfold secretsChange at hr
  split at hr
  · rename_i hh hb
    exact ⟨hh, _, hb⟩
  · cases hr

/-- An attempted change runs `secrets_change`. -/
theorem pinChange_attempted {m m' : Memory} {now : UInt32} {ok failed : Bool}
    (ha : Attempted P f now m oldPin newPin)
    (hr : Returns (Watched torn) (pinChange P f now m oldPin newPin) (f, false) (ok, m')
      (g, failed)) :
    Accepts P.hashes f oldPin ∧ ∃ v v', v.havePad = m.vars.havePad ∧ v.padBlock = m.vars.padBlock ∧
      Returns (Watched torn) (secretsChange P.hashes v oldPin newPin) (f, false) (ok, v')
        (g, failed) := by
  obtain ⟨⟨m₁, hm₁⟩, hne⟩ := ha
  have hvars := pinRevalidate_vars hm₁
  have haccepts : Accepts P.hashes f oldPin := by
    unfold pinRevalidate at hm₁
    unfold Accepts
    cases hs : secretsSetup P.hashes f oldPin with
    | none => simp [hs] at hm₁
    | some r => rfl
  unfold pinChange at hr
  rw [hm₁] at hr
  simp only [hne, if_false] at hr
  obtain ⟨⟨ok', v'⟩, s, hc, hr⟩ := returns_bind hr
  obtain ⟨he, hs⟩ := reaches_ret.mp hr
  simp only [Prog.ret.injEq, Prod.mk.injEq] at he
  obtain ⟨rfl, -⟩ := he
  rw [← hs] at hc
  exact ⟨haccepts, m₁.vars, v', by rw [hvars], by rw [hvars], hc⟩

/-- A change that is not attempted does nothing. -/
theorem pinChange_refused {m m' : Memory} {now : UInt32} {ok failed : Bool}
    (ha : ¬ Attempted P f now m oldPin newPin)
    (hr : Returns (Watched torn) (pinChange P f now m oldPin newPin) (f, false) (ok, m')
      (g, failed)) : ok = false ∧ g = f ∧ failed = false := by
  have hret : ∀ {m₁ : Memory}, Returns (Watched torn) (.ret (false, m₁)) (f, false) (ok, m')
      (g, failed) → ok = false ∧ g = f ∧ failed = false := by
    intro m₁ h
    obtain ⟨he, hs⟩ := reaches_ret.mp h
    simp only [Prog.ret.injEq, Prod.mk.injEq] at he hs
    exact ⟨he.1, hs.1, hs.2⟩
  unfold pinChange at hr
  cases hv : pinRevalidate P f now m oldPin with
  | none =>
      rw [hv] at hr
      cases hr
  | some r =>
      obtain ⟨valid, m₁⟩ := r
      rw [hv] at hr
      cases valid with
      | false => exact hret hr
      | true =>
          have hsame : oldPin = newPin := by
            by_contra hne
            exact ha ⟨⟨m₁, hv⟩, hne⟩
          simp only [hsame, if_true] at hr
          exact hret hr

/-- The result means what it is documented to mean exactly if the change is not attempted, or
no storage operation fails and the old PIN can be exchanged. -/
theorem pinChange_means {m m' : Memory} {now : UInt32} {ok failed : Bool}
    (hinj : Function.Injective (idHash P.hashes)) (herased : ∀ p, idHash P.hashes p ≠ erasedId)
    (hg : Groups b o) (hblock : ∀ n, m.vars.padBlock = some n → n = b)
    (hr : Returns (Watched torn) (pinChange P f now m oldPin newPin) (f, false) (ok, m')
      (g, failed)) :
    Means (Accepts P.hashes f) (Accepts P.hashes g) oldPin newPin
        (Attempted P f now m oldPin newPin)
        (failed = true ∨ ∃ n ∈ padStarts, f.bad n = true) (resultOf ok) ↔
      (Attempted P f now m oldPin newPin →
        (failed = false ∧ ∀ n ∈ padStarts, f.bad n = false) ∧
          Exchangeable P.hashes (f.cells b) (f.cells o) oldPin newPin) := by
  by_cases ha : Attempted P f now m oldPin newPin
  · obtain ⟨hold, v, v', hh, hb, hc⟩ := pinChange_attempted ha hr
    by_cases hfail : failed = false ∧ ∀ n ∈ padStarts, f.bad n = false
    · obtain ⟨hf, hbad⟩ := hfail
      have hworks := (works_of_watched hc hf).2
      have hpad : v.padBlock = some b := by
        obtain ⟨n, hn⟩ := (secretsChange_ready hworks).2
        rw [hn, hblock n (hb ▸ hn)]
      have hiff := secretsChange_means (Attempted P f now m oldPin newPin) hinj
        herased hg hbad (secretsChange_ready hworks).1 hpad ha.2 hold hworks
      have hnofail : ¬ (failed = true ∨ ∃ n ∈ padStarts, f.bad n = true) := by
        rintro (h | ⟨n, hn, h⟩)
        · rw [hf] at h
          cases h
        · rw [hbad n hn] at h
          cases h
      rw [eq_false hnofail, hiff]
      exact ⟨fun hrep _ => ⟨⟨hf, hbad⟩, hrep⟩, fun h => (h ha).2⟩
    · have hio : failed = true ∨ ∃ n ∈ padStarts, f.bad n = true := by
        by_contra hn
        refine hfail ⟨by simpa using fun h => hn (.inl h), fun n hm => ?_⟩
        by_contra hbad
        exact hn (.inr ⟨n, hm, by simpa using hbad⟩)
      constructor
      · intro hm
        exact absurd (hm.failure ha hio) (resultOf_ne ok)
      · intro h
        exact absurd (h ha).1 hfail
  · obtain ⟨rfl, rfl, rfl⟩ := pinChange_refused ha hr
    constructor
    · intro _ h
      exact absurd h ha
    · intro _
      exact ⟨fun _ _ => Iff.rfl, fun h => absurd h (by decide), fun h => absurd h ha⟩

/-! ## Runs -/

/-- The change from 1234 to 5678 on a new device, which does not erase the blocks from `bad` on. -/
def changeRun (bad : Option ℕ) : Fw (Bool × Memory) × (Flash × Bool) :=
  run (watchedAnswer bad) (pinChange plainPlatform (newFlash plainHashes 0xffff1234) 0
    { newMemory plainHashes 0xffff1234 with vars := newVars } 0xffff1234 0xffff5678)
    (newFlash plainHashes 0xffff1234, false)

theorem changeRun_returns (bad : Option ℕ) (ok failed : Bool)
    (h : (changeRun bad).1.result?.map Prod.fst = some ok) (hf : (changeRun bad).2.2 = failed) :
    ∃ m', Returns (Watched unchanged) (pinChange plainPlatform (newFlash plainHashes 0xffff1234) 0
      { newMemory plainHashes 0xffff1234 with vars := newVars } 0xffff1234 0xffff5678)
      (newFlash plainHashes 0xffff1234, false) (ok, m') ((changeRun bad).2.1, failed) := by
  obtain ⟨⟨ok', m'⟩, hr, rfl⟩ := Option.map_eq_some_iff.mp h
  refine ⟨m', ?_⟩
  rw [← hf]
  exact returns_run (watchedAnswer_watched bad) hr

theorem newFlash_attempted : Attempted plainPlatform (newFlash plainHashes 0xffff1234) 0
    { newMemory plainHashes 0xffff1234 with vars := newVars } 0xffff1234 0xffff5678 := by
  have h : (pinRevalidate plainPlatform (newFlash plainHashes 0xffff1234) 0
      { newMemory plainHashes 0xffff1234 with vars := newVars } 0xffff1234).map Prod.fst =
        some true := by decide +kernel
  obtain ⟨⟨ok, m'⟩, hr, rfl⟩ := Option.map_eq_some_iff.mp h
  exact ⟨⟨m', hr⟩, by decide⟩

/-- The only pad on the new device can be exchanged. -/
theorem newFlash_exchangeable : Exchangeable plainHashes
    ((newFlash plainHashes 0xffff1234).cells 0)
    ((newFlash plainHashes 0xffff1234).cells storageEraseSize) 0xffff1234 0xffff5678 := by
  have herased : (newFlash plainHashes 0xffff1234).cells storageEraseSize = erasedBlock := by
    decide +kernel
  have hused : (newFlash plainHashes 0xffff1234).cells 0 ≠ erasedBlock := by decide +kernel
  rw [Exchangeable, if_neg hused]
  refine ⟨.inl ⟨0, by decide, by decide +kernel⟩, by decide +kernel, fun p _ _ hp => ?_⟩
  rw [herased] at hp
  exact absurd hp (not_has_erased (idHash_plainHashes_ne p))

/-- The change on the new device. -/
theorem pinChange_means_changed : ∃ m', Returns (Watched unchanged)
    (pinChange plainPlatform (newFlash plainHashes 0xffff1234) 0
      { newMemory plainHashes 0xffff1234 with vars := newVars } 0xffff1234 0xffff5678)
    (newFlash plainHashes 0xffff1234, false) (true, m') ((changeRun none).2.1, false) ∧
    Means (Accepts plainHashes (newFlash plainHashes 0xffff1234))
      (Accepts plainHashes (changeRun none).2.1) 0xffff1234 0xffff5678
      (Attempted plainPlatform (newFlash plainHashes 0xffff1234) 0
        { newMemory plainHashes 0xffff1234 with vars := newVars } 0xffff1234 0xffff5678)
      (false = true ∨ ∃ n ∈ padStarts, (newFlash plainHashes 0xffff1234).bad n = true)
      (resultOf true) := by
  obtain ⟨m', hr⟩ := changeRun_returns none true false
    (by decide +kernel) (by decide +kernel)
  have hbad : ∀ n ∈ padStarts, (newFlash plainHashes 0xffff1234).bad n = false := by
    decide +kernel
  exact ⟨m', hr, (pinChange_means (P := plainPlatform) (b := 0) (o := storageEraseSize)
    idHash_plainHashes_injective idHash_plainHashes_ne ⟨.inl ⟨rfl, rfl⟩⟩
    (fun n hn => (Option.some.inj hn).symm) hr).mpr
      fun _ => ⟨⟨rfl, hbad⟩, newFlash_exchangeable⟩⟩

/-- The last erase fails. The result is that of a change that was refused, but both PINs are in
force. -/
theorem pinChange_means_erase : ∃ m', Returns (Watched unchanged)
    (pinChange plainPlatform (newFlash plainHashes 0xffff1234) 0
      { newMemory plainHashes 0xffff1234 with vars := newVars } 0xffff1234 0xffff5678)
    (newFlash plainHashes 0xffff1234, false) (false, m') ((changeRun (some 0)).2.1, true) ∧
    Attempted plainPlatform (newFlash plainHashes 0xffff1234) 0
      { newMemory plainHashes 0xffff1234 with vars := newVars } 0xffff1234 0xffff5678 ∧
    resultOf false ≠ -1 ∧
    ¬ Accepts plainHashes (newFlash plainHashes 0xffff1234) 0xffff5678 ∧
    Accepts plainHashes (changeRun (some 0)).2.1 0xffff5678 := by
  obtain ⟨m', hr⟩ := changeRun_returns (some 0) false true
    (by decide +kernel) (by decide +kernel)
  exact ⟨m', hr, newFlash_attempted, resultOf_ne false, by decide +kernel, by decide +kernel⟩

end Sunela.Secrets
