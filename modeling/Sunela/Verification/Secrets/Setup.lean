import Sunela.Verification.Secrets.Table

/-! # Finding the pad and changing it -/

namespace Sunela.Secrets

open Program Storage Block

variable {H : Hashes} {f : Flash} {v : Vars} {pin oldPin newPin : UInt32} {b o : ℕ}

/-! ## Two groups -/

/-- The two groups for pads begin at these blocks. -/
structure Groups (b o : ℕ) : Prop where
  starts : b = 0 ∧ o = storageEraseSize ∨ b = storageEraseSize ∧ o = 0

theorem Groups.symm (h : Groups b o) : Groups o b :=
  ⟨h.starts.symm.imp And.symm And.symm⟩

theorem exists_groups (h : b ∈ padStarts) : ∃ o, Groups b o := by
  have hstarts : padStarts = [0, storageEraseSize] := rfl
  have h' : b = 0 ∨ b = storageEraseSize := by simpa [hstarts] using h
  rcases h' with rfl | rfl
  · exact ⟨_, ⟨.inl ⟨rfl, rfl⟩⟩⟩
  · exact ⟨_, ⟨.inr ⟨rfl, rfl⟩⟩⟩

/-- Erasing a group erases its first block and leaves the other group alone. -/
theorem Groups.erased (h : Groups b o) :
    (f.setRange o storageEraseSize fun _ => erasedBlock).cells o = erasedBlock ∧
      (f.setRange o storageEraseSize fun _ => erasedBlock).cells b = f.cells b := by
  refine ⟨Flash.setRange_of_mem f _ ⟨Nat.le_refl _, ?_⟩, Flash.setRange_of_notMem f _ ?_⟩
  · exact Nat.lt_add_of_pos_right (by decide)
  · rcases h.starts with ⟨rfl, rfl⟩ | ⟨rfl, rfl⟩ <;> decide

theorem Groups.mem (h : Groups b o) : b ∈ padStarts := by
  have hstarts : padStarts = [0, storageEraseSize] := rfl
  rcases h.starts with ⟨rfl, rfl⟩ | ⟨rfl, rfl⟩ <;> simp [hstarts]

theorem Groups.ne (h : Groups b o) : b ≠ o := by
  rcases h.starts with ⟨rfl, rfl⟩ | ⟨rfl, rfl⟩ <;> decide

/-! ## Setup -/

theorem applyPad_none {pattern id : Secret} {x : Block} : applyPad pattern none x id =
    (findPad (pads x) id).map fun i => xor pattern (secretOf (slotPad (pads x) i)) := rfl

theorem applyPad_of_findPad {pattern id : Secret} {last : Option UInt16} {x : Block}
    (h : findPad (pads x) id = none) : applyPad pattern last x id = none := by
  unfold applyPad
  split
  · rfl
  · rw [h]
    rfl

/-- The pad is found if only one group has it. -/
theorem secretsSetup_eq (hg : Groups b o) (hb : f.bad b = false)
    (ho : findPad (pads (f.cells o)) (idHash H pin) = none) :
    secretsSetup H f pin = (findPad (pads (f.cells b)) (idHash H pin)).map fun i =>
      ⟨xor (masterHash H pin) (secretOf (slotPad (pads (f.cells b)) i)), padSeq (f.cells b),
        b⟩ := by
  have hskip : ∀ (ns : List ℕ) (found : Option Found),
      setupLoop f (masterHash H pin) (idHash H pin) (o :: ns) found =
        setupLoop f (masterHash H pin) (idHash H pin) ns found := by
    intro ns found
    simp only [setupLoop]
    cases hr : storageReadBlock f o with
    | none => rfl
    | some x =>
        have hx : x = f.cells o := by
          unfold storageReadBlock at hr
          split at hr
          · cases hr
          · exact (Option.some.inj hr).symm
        simp only [hx, applyPad_of_findPad ho]
  have htake : ∀ ns : List ℕ, setupLoop f (masterHash H pin) (idHash H pin) (b :: ns) none =
      setupLoop f (masterHash H pin) (idHash H pin) ns
        ((findPad (pads (f.cells b)) (idHash H pin)).map fun i =>
          ⟨xor (masterHash H pin) (secretOf (slotPad (pads (f.cells b)) i)), padSeq (f.cells b),
            b⟩) := by
    intro ns
    have hr : storageReadBlock f b = some (f.cells b) := by simp [storageReadBlock, hb]
    simp only [setupLoop, hr, Option.map_none, applyPad_none]
    cases findPad (pads (f.cells b)) (idHash H pin) <;> rfl
  have hstarts : padStarts = [0, storageEraseSize] := rfl
  unfold secretsSetup
  rw [hstarts]
  rcases hg.starts with ⟨rfl, rfl⟩ | ⟨rfl, rfl⟩
  · rw [htake, hskip]
    rfl
  · rw [hskip, htake]
    rfl

/-! ## The changed block -/

theorem pads_blockOf {seq : UInt16} {ps : Bytes} (h : ps.length ≤ 992) :
    pads (blockOf (padHeader seq ++ ps)) = ps ++ List.replicate (992 - ps.length) 0xff := by
  have hh : (padHeader seq).length = masterSecretBytes := rfl
  have hmin : min (storageBlockSize - masterSecretBytes - ps.length) storageBlockSize =
      992 - ps.length := by
    simp only [storageBlockSize, masterSecretBytes]
    omega
  have hle : ps.length ≤ storageBlockSize - masterSecretBytes := h
  simp only [pads, blockOf, List.append_assoc]
  rw [List.drop_take, List.drop_left' hh, List.take_append, List.take_of_length_le hle,
    List.take_replicate, hmin]

/-- A block with one pad. -/
theorem slot_blockOf {seq : UInt16} {id pad : Secret} {j : ℕ} (hj : j < 15) :
    slot (pads (blockOf (padHeader seq ++ padSlot id pad))) j =
      if j = 0 then padSlot id pad else erasedSlot := by
  have hlen : (padSlot id pad).length = 64 := padSlot_length id pad
  have herased : pads erasedBlock = List.replicate 992 0xff := by
    rw [pads, erasedBlock, Block.fill, List.drop_replicate]
    rfl
  have heq : padSlot id pad ++ List.replicate (992 - (padSlot id pad).length) 0xff =
      (pads erasedBlock).take (slotBytes * 0) ++
        (padSlot id pad ++ (pads erasedBlock).drop (slotBytes * 0 + slotBytes)) := by
    rw [herased, hlen, List.drop_replicate, Nat.mul_zero, List.take_zero, List.nil_append]
    rfl
  have hle : (padSlot id pad).length ≤ 992 := by
    rw [hlen]
    decide
  rw [pads_blockOf hle, heq, slot_changed (padSlot_length id pad) (by rw [pads_length]; decide)]
  split
  · rfl
  · exact slot_erasedBlock hj

theorem findErased_erasedBlock : findErased (pads erasedBlock) = some 0 := by
  rw [findErased, slots_pads, List.find?_range_eq_some]
  refine ⟨?_, by decide, fun j hj => absurd hj (Nat.not_lt_zero j)⟩
  rw [slot_erasedBlock (by decide)]
  rfl

theorem of_findErased {ps : Bytes} {i : ℕ} (h : findErased ps = some i) :
    i < ps.length / slotBytes ∧ slot ps i = erasedSlot := by
  rw [findErased, slots, List.find?_range_eq_some] at h
  exact ⟨List.mem_range.mp h.2.1, of_decide_eq_true h.1⟩

/-- The changed block has the pad of the new PIN in one slot. -/
theorem changedBlock_of_slot (v : Vars) (newPin : UInt32) {x : Block} {i : ℕ}
    (h : (findPad (pads x) (idHash H oldPin)).or (findErased (pads x)) = some i) :
    i < 15 ∧ ∃ buf, changedBlock H v x oldPin newPin = some buf ∧ padSeq buf = v.padSeq + 1 ∧
      ∀ j, slot (pads buf) j = if j = i then padSlot (idHash H newPin)
        (xor (masterHash H newPin) v.masterSecret) else slot (pads x) j := by
  have hx := pads_length x
  have hi : i < 15 := by
    rcases Option.or_eq_some_iff.mp h with hi | ⟨-, hi⟩
    · exact (of_findPad hi).1
    · have hlt := (of_findErased hi).1
      rwa [hx] at hlt
  have hi' : i < (pads x).length / 64 := by rwa [hx]
  have hchange : changePad (pads x) (idHash H oldPin) (idHash H newPin)
      (xor (masterHash H newPin) v.masterSecret) =
        some ((pads x).take (slotBytes * i) ++ (padSlot (idHash H newPin)
          (xor (masterHash H newPin) v.masterSecret) ++
            (pads x).drop (slotBytes * i + slotBytes))) := by
    unfold changePad
    rw [h]
    rfl
  have hlen : ((pads x).take (slotBytes * i) ++ (padSlot (idHash H newPin)
      (xor (masterHash H newPin) v.masterSecret) ++
        (pads x).drop (slotBytes * i + slotBytes))).length = 992 := by
    simp only [List.length_append, List.length_take, List.length_drop, padSlot_length, hx,
      slotBytes, masterSecretBytes]
    omega
  refine ⟨hi, _, by rw [changedBlock, hchange]; rfl, ?_, fun j => ?_⟩
  · exact seqOfBytes_seqBytes _
  · rw [pads_blockOf (Nat.le_of_eq hlen), hlen, Nat.sub_self, List.replicate_zero,
      List.append_nil, slot_changed (padSlot_length _ _) hi']

/-- The changed block has the pad of the new PIN where that of the old one was. -/
theorem changedBlock_slots (v : Vars) (newPin : UInt32) {x : Block} {i : ℕ}
    (h : findPad (pads x) (idHash H oldPin) = some i) :
    ∃ buf, changedBlock H v x oldPin newPin = some buf ∧ padSeq buf = v.padSeq + 1 ∧
      ∀ j, slot (pads buf) j = if j = i then padSlot (idHash H newPin)
        (xor (masterHash H newPin) v.masterSecret) else slot (pads x) j :=
  (changedBlock_of_slot v newPin (by rw [h]; rfl)).2

theorem changedBlock_none (v : Vars) (newPin : UInt32) {x : Block}
    (h : (findPad (pads x) (idHash H oldPin)).or (findErased (pads x)) = none) :
    changedBlock H v x oldPin newPin = none := by
  rw [changedBlock, changePad, h]
  rfl

/-! ## Programs -/

section Works

variable {K : Contract Cmd Reply Flash}

theorem wp_read (hs : K.step = Works) {n : ℕ} {Q : Option Block → Flash → Prop}
    (hc : K.call f (.read n)) (hQ : Q (storageReadBlock f n) f) :
    wp K (Prog.exec (Cmd.read n)) Q f := by
  refine ⟨hc, fun r t hstep => ?_⟩
  rw [hs] at hstep
  cases hstep
  exact hQ

theorem wp_write (hs : K.step = Works) {n : ℕ} {x : Block} {Q : Bool → Flash → Prop}
    (hc : K.call f (.write n x)) (hQ : Q true (f.set n ((f.cells n).program x))) :
    wp K (storageWriteBlock x n) Q f := by
  refine ⟨hc, fun r t hstep => ?_⟩
  rw [hs] at hstep
  cases hstep with
  | write => exact hQ
  | writeFail _ _ _ h => exact h.elim

theorem wp_erase (hs : K.step = Works) {n k : ℕ} {Q : Bool → Flash → Prop}
    (hc : K.call f (.erase n k)) (hQ : Q true (f.setRange n k fun _ => erasedBlock)) :
    wp K (storageEraseBlocks n k) Q f := by
  refine ⟨hc, fun r t hstep => ?_⟩
  rw [hs] at hstep
  cases hstep with
  | erase => exact hQ
  | eraseFail _ _ _ h => exact (h 0).elim

/-- The new pads go to the other group, which is erased first. -/
theorem wp_newBlock (hs : K.step = Works) (hg : Groups b o) (hb : f.bad b = false)
    (hx : f.cells b ≠ erasedBlock) {Q : Option (ℕ × Bool) → Flash → Prop}
    (hc : K.call f (.read b)) (hQ : Q (some (o, false)) f) :
    wp K (newBlock b padStarts none) Q f := by
  have hread : storageReadBlock f b = some (f.cells b) := by simp [storageReadBlock, hb]
  have hstarts : padStarts = [0, storageEraseSize] := rfl
  have hskip : ∀ (ns : List ℕ) (best : Option (UInt16 × ℕ)),
      newBlock b (b :: ns) best = newBlock b ns best := by
    intro ns best
    rw [newBlock, if_pos rfl]
  have htake : ∀ ns : List ℕ, wp K (newBlock b ns (some (padSeq (f.cells b), o))) Q f →
      wp K (newBlock b (o :: ns) none) Q f := by
    intro ns h
    rw [newBlock, if_neg hg.ne.symm, wp_bind]
    apply wp_read hs hc
    rw [hread]
    simp only [if_neg hx]
    exact h
  rw [hstarts]
  rcases hg.starts with ⟨rfl, rfl⟩ | ⟨rfl, rfl⟩
  · rw [hskip]
    exact htake [] hQ
  · apply htake
    rw [hskip]
    exact hQ

/-- The other group counts as erased if the current block is. -/
theorem wp_newBlock_erased (hs : K.step = Works) (hg : Groups b o) (hb : f.bad b = false)
    (hx : f.cells b = erasedBlock) {Q : Option (ℕ × Bool) → Flash → Prop}
    (hc : K.call f (.read b)) (hQ : Q (some (o, true)) f) :
    wp K (newBlock b padStarts none) Q f := by
  have hread : storageReadBlock f b = some (f.cells b) := by simp [storageReadBlock, hb]
  have hstarts : padStarts = [0, storageEraseSize] := rfl
  have htake : ∀ ns : List ℕ, wp K (newBlock b (o :: ns) none) Q f := by
    intro ns
    rw [newBlock, if_neg hg.ne.symm, wp_bind]
    apply wp_read hs hc
    rw [hread]
    simp only [if_pos hx]
    exact hQ
  rw [hstarts]
  rcases hg.starts with ⟨rfl, rfl⟩ | ⟨rfl, rfl⟩
  · rw [newBlock, if_pos rfl]
    exact htake []
  · exact htake _

/-- A change of the PIN as a whole. -/
theorem wp_secretsChange (hs : K.step = Works) (hg : Groups b o) (hb : f.bad b = false)
    (hx : f.cells b ≠ erasedBlock) (hv : v.havePad = true) (hp : v.padBlock = some b)
    {buf : Block} (hbuf : changedBlock H v (f.cells b) oldPin newPin = some buf)
    {f₁ f₂ : Flash} (h₁ : f₁ = f.setRange o storageEraseSize fun _ => erasedBlock)
    (h₂ : f₂ = f₁.set o buf)
    (hread : K.call f (.read b)) (herase : K.call f (.erase o storageEraseSize))
    (hread₁ : K.call f₁ (.read b)) (hwrite : K.call f₁ (.write o buf))
    (herase₂ : K.call f₂ (.erase b storageEraseSize)) {Q : Bool × Vars → Flash → Prop}
    (hQ : Q (true, { v with padBlock := some o, padSeq := v.padSeq + 1 })
      (f₂.setRange b storageEraseSize fun _ => erasedBlock)) :
    wp K (secretsChange H v oldPin newPin) Q f := by
  have hread' : storageReadBlock f₁ b = some (f.cells b) := by
    rw [h₁]
    simp only [storageReadBlock, Flash.setRange_bad, hb, hg.erased.2, Bool.false_eq_true, if_false]
  have hprogram : f₁.set o ((f₁.cells o).program buf) = f₂ := by
    rw [h₂, h₁, hg.erased.1, program_erasedBlock]
  unfold secretsChange
  rw [hv, hp]
  simp only [wp_bind]
  apply wp_newBlock hs hg hb hx hread
  simp only [Bool.false_eq_true, if_false, wp_bind]
  apply wp_erase hs herase
  rw [← h₁]
  simp only [Bool.not_true, Bool.false_eq_true, if_false, wp_bind]
  apply wp_read hs hread₁
  rw [hread']
  simp only [hbuf, wp_bind]
  apply wp_write hs hwrite
  rw [hprogram]
  simp only [Bool.not_true, Bool.false_eq_true, if_false, wp_bind]
  apply wp_erase hs herase₂
  simp only [Bool.not_true, Bool.false_eq_true, if_false]
  rw [hv] at hQ
  exact hQ

/-- If the current block is erased, then the new pads are written over those of the other group. -/
theorem wp_secretsChange_erased (hs : K.step = Works) (hg : Groups b o) (hb : f.bad b = false)
    (hx : f.cells b = erasedBlock) (hv : v.havePad = true) (hp : v.padBlock = some b)
    {buf : Block} (hbuf : changedBlock H v (f.cells b) oldPin newPin = some buf)
    {f₁ : Flash} (h₁ : f₁ = f.set o ((f.cells o).program buf))
    (hread : K.call f (.read b)) (hwrite : K.call f (.write o buf))
    (herase : K.call f₁ (.erase b storageEraseSize)) {Q : Bool × Vars → Flash → Prop}
    (hQ : Q (true, { v with padBlock := some o, padSeq := v.padSeq + 1 })
      (f₁.setRange b storageEraseSize fun _ => erasedBlock)) :
    wp K (secretsChange H v oldPin newPin) Q f := by
  have hread' : storageReadBlock f b = some (f.cells b) := by simp [storageReadBlock, hb]
  unfold secretsChange
  rw [hv, hp]
  simp only [wp_bind]
  apply wp_newBlock_erased hs hg hb hx hread
  simp only [if_true, Prog.pure_def, wp_bind, wp_ret, Bool.not_true, Bool.false_eq_true, if_false]
  apply wp_read hs hread
  rw [hread']
  simp only [hbuf, wp_bind]
  apply wp_write hs hwrite
  rw [← h₁]
  simp only [Bool.not_true, Bool.false_eq_true, if_false, wp_bind]
  apply wp_erase hs herase
  simp only [Bool.not_true, Bool.false_eq_true, if_false]
  rw [hv] at hQ
  exact hQ

/-- A change for which there is no slot erases the other group. -/
theorem wp_secretsChange_none (hs : K.step = Works) (hg : Groups b o) (hb : f.bad b = false)
    (hx : f.cells b ≠ erasedBlock) (hv : v.havePad = true) (hp : v.padBlock = some b)
    (hbuf : changedBlock H v (f.cells b) oldPin newPin = none) {f₁ : Flash}
    (h₁ : f₁ = f.setRange o storageEraseSize fun _ => erasedBlock)
    (hread : K.call f (.read b)) (herase : K.call f (.erase o storageEraseSize))
    (hread₁ : K.call f₁ (.read b)) {Q : Bool × Vars → Flash → Prop} (hQ : Q (false, v) f₁) :
    wp K (secretsChange H v oldPin newPin) Q f := by
  have hread' : storageReadBlock f₁ b = some (f.cells b) := by
    rw [h₁]
    simp only [storageReadBlock, Flash.setRange_bad, hb, hg.erased.2, Bool.false_eq_true, if_false]
  unfold secretsChange
  rw [hv, hp]
  simp only [wp_bind]
  apply wp_newBlock hs hg hb hx hread
  simp only [Bool.false_eq_true, if_false, wp_bind]
  apply wp_erase hs herase
  rw [← h₁]
  simp only [Bool.not_true, Bool.false_eq_true, if_false, wp_bind]
  apply wp_read hs hread₁
  rw [hread']
  simp only [hbuf]
  exact hQ

end Works

end Sunela.Secrets
