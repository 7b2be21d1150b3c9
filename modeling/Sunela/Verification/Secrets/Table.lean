import Sunela.Model.Secrets

/-! # The slots of a pad block -/

namespace Sunela.Secrets

open Program Storage Block

/-! ## Secrets -/

@[simp] theorem secretOf_toList (s : Secret) : secretOf s.toList = s := by
  apply Vector.ext
  intro i hi
  simp [secretOf]

theorem xor_cancel (a b : Secret) : xor a (xor a b) = b := by
  apply Vector.ext
  intro i hi
  simp [xor, ← UInt8.xor_assoc]

/-! ## Slots -/

theorem pads_length (b : Block) : (pads b).length = 992 := by
  rw [pads, List.length_drop, b.size]
  rfl

theorem slots_pads (b : Block) : slots (pads b) = List.range 15 := by
  rw [slots, pads_length]
  rfl

theorem slot_getElem? (ps : Bytes) (i k : ℕ) :
    (slot ps i)[k]? = if k < 64 then ps[64 * i + k]? else none := by
  simp only [slot, slotBytes, masterSecretBytes, List.getElem?_take, List.getElem?_drop]

theorem slot_length {ps : Bytes} {i : ℕ} (h : i < ps.length / 64) : (slot ps i).length = 64 := by
  simp only [slot, slotBytes, masterSecretBytes, List.length_take, List.length_drop]
  omega

/-- A change leaves the other slots alone. -/
theorem slot_changed {ps : Bytes} {i j : ℕ} {s : Bytes} (hs : s.length = slotBytes)
    (hi : i < ps.length / 64) :
    slot (ps.take (slotBytes * i) ++ (s ++ ps.drop (slotBytes * i + slotBytes))) j =
      if j = i then s else slot ps j := by
  have hs' : s.length = 64 := hs
  apply List.ext_getElem?
  intro k
  have hlen : (ps.take (64 * i)).length = 64 * i := by
    rw [List.length_take]
    omega
  rw [slot_getElem?]
  simp only [slotBytes, masterSecretBytes, Nat.reduceMul, List.getElem?_append, hlen, hs',
    List.getElem?_take, List.getElem?_drop]
  by_cases hj : j = i
  · subst hj
    rw [if_pos rfl]
    by_cases hk : k < 64
    · rw [if_pos hk, if_neg (by omega), if_pos (by omega)]
      congr 1
      omega
    · rw [if_neg hk, List.getElem?_eq_none (by omega)]
  · rw [if_neg hj, slot_getElem?]
    by_cases hk : k < 64
    · rw [if_pos hk, if_pos hk]
      rcases Nat.lt_or_gt_of_ne hj with hlt | hgt
      · rw [if_pos (by omega), if_pos (by omega)]
      · rw [if_neg (by omega), if_neg (by omega)]
        congr 1
        omega
    · rw [if_neg hk, if_neg hk]

/-- A slot that holds a pad. -/
def padSlot (id pad : Secret) : Bytes := id.toList ++ pad.toList

theorem toList_length (s : Secret) : s.toList.length = masterSecretBytes := Vector.length_toList

theorem padSlot_length (id pad : Secret) : (padSlot id pad).length = slotBytes := by
  rw [padSlot, List.length_append, toList_length, toList_length]
  rfl

theorem slotId_of_eq {ps : Bytes} {i : ℕ} {id pad : Secret} (h : slot ps i = padSlot id pad) :
    slotId ps i = id.toList := by
  rw [slotId, h, padSlot, List.take_left' (toList_length id)]

theorem slotPad_of_eq {ps : Bytes} {i : ℕ} {id pad : Secret} (h : slot ps i = padSlot id pad) :
    slotPad ps i = pad.toList := by
  rw [slotPad, h, padSlot, List.drop_left' (toList_length id)]

/-! ## Erased slots -/

def erasedId : Secret := Vector.replicate _ 0xff

def erasedSlot : Bytes := List.replicate slotBytes 0xff

theorem slotId_erased {ps : Bytes} {i : ℕ} (h : slot ps i = erasedSlot) :
    slotId ps i = erasedId.toList := by
  rw [slotId, h]
  rfl

theorem slot_erasedBlock {i : ℕ} (h : i < 15) : slot (pads erasedBlock) i = erasedSlot := by
  simp only [slot, pads, erasedBlock, Block.fill, List.drop_replicate, List.take_replicate,
    erasedSlot, slotBytes, masterSecretBytes, storageBlockSize]
  congr 1
  omega

/-! ## Writing over other slots -/

/-- The bits that are set in both. -/
def both (a b : Secret) : Secret := Vector.zipWith (· &&& ·) a b

theorem slotId_program (x buf : Block) (i : ℕ) : slotId (pads (x.program buf)) i =
    List.zipWith (· &&& ·) (slotId (pads x) i) (slotId (pads buf) i) := by
  simp only [slotId, slot, pads, Block.program, List.drop_zipWith, List.take_zipWith]

theorem slotId_program_both {x buf : Block} {i : ℕ} {a b : Secret}
    (ha : slotId (pads x) i = a.toList) (hb : slotId (pads buf) i = b.toList) :
    slotId (pads (x.program buf)) i = (both a b).toList := by
  rw [slotId_program, ha, hb, both, Vector.toList_zipWith]

theorem both_erasedId (a : Secret) : both a erasedId = a := by
  apply Vector.ext
  intro i hi
  have h : ∀ x : UInt8, x &&& 0xff = x := by
    intro x
    apply UInt8.toBitVec_inj.mp
    simpa using BitVec.and_allOnes (x := x.toBitVec)
  rw [both, erasedId, Vector.getElem_zipWith, Vector.getElem_replicate, h]

theorem slotId_length {b : Block} {i : ℕ} (h : i < 15) :
    (slotId (pads b) i).length = masterSecretBytes := by
  rw [slotId, List.length_take, slot_length (by rw [pads_length]; exact h)]
  rfl

/-- An identifier as a secret. -/
theorem exists_slotId {b : Block} {i : ℕ} (h : i < 15) :
    ∃ a : Secret, slotId (pads b) i = a.toList :=
  ⟨⟨(slotId (pads b) i).toArray, by simpa using slotId_length h⟩, by simp⟩

/-! ## Searches -/

theorem findPad_eq_some {b : Block} {id : Secret} {i : ℕ} (hi : i < 15)
    (h : slotId (pads b) i = id.toList) (hfirst : ∀ j < i, slotId (pads b) j ≠ id.toList) :
    findPad (pads b) id = some i := by
  rw [findPad, slots_pads, List.find?_range_eq_some]
  exact ⟨by simpa using h, List.mem_range.mpr hi, fun j hj => by simpa using hfirst j hj⟩

theorem findPad_eq_none {b : Block} {id : Secret} :
    findPad (pads b) id = none ↔ ∀ i < 15, slotId (pads b) i ≠ id.toList := by
  rw [findPad, slots_pads, List.find?_eq_none]
  simp

theorem of_findPad {b : Block} {id : Secret} {i : ℕ} (h : findPad (pads b) id = some i) :
    i < 15 ∧ slotId (pads b) i = id.toList ∧ ∀ j < i, slotId (pads b) j ≠ id.toList := by
  rw [findPad, slots_pads, List.find?_range_eq_some] at h
  obtain ⟨h1, h2, h3⟩ := h
  exact ⟨List.mem_range.mp h2, by simpa using h1, fun j hj => by simpa using h3 j hj⟩

theorem findPad_erasedBlock {id : Secret} (h : id ≠ erasedId) :
    findPad (pads erasedBlock) id = none := by
  rw [findPad_eq_none]
  intro i hi he
  rw [slotId_erased (slot_erasedBlock hi)] at he
  exact h (Vector.toList_inj.mp he).symm

end Sunela.Secrets
