import Sunela.Verification.Secrets.Setup
import Sunela.Verification.Support.PlainSecrets

/-! # Power loss while the PIN is changed

The pad of the old PIN is not touched before that of the new one is on storage. -/

namespace Sunela.Secrets

open Program Storage Block

variable {H : Hashes} {f g : Flash} {v : Vars} {oldPin newPin : UInt32} {b o : ℕ}

/-! ## Torn writes -/

/-- Clearing bits of the first string gives the second. -/
def Covers (xs ys : Bytes) : Prop := ∀ i, xs.getD i 0 &&& ys.getD i 0 = ys.getD i 0

/-- A write that was cut short has cleared some of the bits it was to clear. -/
structure PartlyWritten (old new x : Block) : Prop where
  cleared : Covers old.bytes x.bytes
  left : Covers x.bytes new.bytes

deriving instance DecidableEq for Cmd

inductive TornWrite (f : Flash) : Cmd → Flash → Prop where
  | write (n buf x) (h : PartlyWritten (f.cells n) ((f.cells n).program buf) x) :
      TornWrite f (.write n buf) (f.set n x)

theorem Covers.drop {xs ys : Bytes} (h : Covers xs ys) (n : ℕ) :
    Covers (xs.drop n) (ys.drop n) := by
  intro i
  simpa [List.getD_eq_getElem?_getD] using h (n + i)

theorem Covers.take {xs ys : Bytes} (h : Covers xs ys) (n : ℕ) :
    Covers (xs.take n) (ys.take n) := by
  intro i
  by_cases hi : i < n
  · simpa [List.getD_eq_getElem?_getD, List.getElem?_take, hi] using h i
  · simp [List.getD_eq_getElem?_getD, hi]

theorem Covers.slotId {x y : Block} (h : Covers x.bytes y.bytes) (j : ℕ) :
    Covers (slotId (pads x) j) (slotId (pads y) j) :=
  (((h.drop _).drop _).take _).take _

theorem covers_erased (ys : Secret) : Covers erasedId.toList ys.toList := by
  intro i
  by_cases hi : i < masterSecretBytes
  · have hff : erasedId.toList.getD i 0 = 0xff := by
      have : erasedId.toList = List.replicate masterSecretBytes 0xff := rfl
      rw [this, List.getD_eq_getElem?_getD, List.getElem?_replicate, if_pos hi]
      rfl
    rw [hff]
    apply UInt8.toBitVec_inj.mp
    simpa using BitVec.allOnes_and (x := (ys.toList.getD i 0).toBitVec)
  · have hz : ys.toList.getD i 0 = 0 := by
      rw [List.getD_eq_getElem?_getD, List.getElem?_eq_none]
      · rfl
      · rw [toList_length]
        omega
    rw [hz]
    exact UInt8.and_zero

/-! ## The owner's pad -/

/-- The PIN gives the master secret. -/
def Recovers (H : Hashes) (f : Flash) (secret : Secret) (pin : UInt32) : Prop :=
  (secretsSetup H f pin).map Found.secret = some secret

instance (H : Hashes) (f : Flash) (secret : Secret) (pin : UInt32) :
    Decidable (Recovers H f secret pin) :=
  inferInstanceAs (Decidable (_ = _))

/-- The pad blocks can be read, and the variables show the pad for the PIN. -/
structure ValidPad (H : Hashes) (f : Flash) (v : Vars) (pin : UInt32) (b : ℕ) : Prop where
  good : ∀ n ∈ padStarts, f.bad n = false
  havePad : v.havePad = true
  block : v.padBlock = some b
  setup : secretsSetup H f pin = some ⟨v.masterSecret, v.padSeq, b⟩

/-- The new PIN has no pad yet, and the identifier of the old one cannot be left where another
identifier is written only in part. -/
structure Distinct (H : Hashes) (x : Block) (oldPin newPin : UInt32) : Prop where
  fresh : findPad (pads x) (idHash H newPin) = none
  written : idHash H newPin ≠ erasedId
  old : ¬ Covers (idHash H oldPin).toList (idHash H newPin).toList
  others : ∀ j < 15, findPad (pads x) (idHash H oldPin) ≠ some j →
    ¬ Covers (idHash H oldPin).toList (slotId (pads x) j)

theorem Distinct.old_ne_erased {x : Block} (h : Distinct H x oldPin newPin) :
    idHash H oldPin ≠ erasedId := by
  intro he
  have hold := h.old
  rw [he] at hold
  exact hold (covers_erased _)

/-- What a setup finds is in the block that it reports. -/
theorem setupLoop_found {pattern id : Secret} {ns : List ℕ} {found : Option Found} {r : Found}
    (h : setupLoop f pattern id ns found = some r) :
    found = some r ∨ r.block ∈ ns ∧ ∃ i, findPad (pads (f.cells r.block)) id = some i ∧
      r.secret = xor pattern (secretOf (slotPad (pads (f.cells r.block)) i)) := by
  induction ns generalizing found with
  | nil => exact .inl h
  | cons n ns ih =>
      have hlater : ∀ found', setupLoop f pattern id ns found' = some r → found' = found ∨
          (∃ s q, found' = some ⟨s, q, n⟩ ∧ ∃ i, findPad (pads (f.cells n)) id = some i ∧
            s = xor pattern (secretOf (slotPad (pads (f.cells n)) i))) →
          found = some r ∨ r.block ∈ n :: ns ∧ ∃ i,
            findPad (pads (f.cells r.block)) id = some i ∧
              r.secret = xor pattern (secretOf (slotPad (pads (f.cells r.block)) i)) := by
        intro found' hf hcases
        rcases ih hf with hr | ⟨hm, hi⟩
        · rcases hcases with he | ⟨s, q, he, hs⟩
          · exact .inl (he ▸ hr)
          · rw [hr] at he
            obtain rfl := Option.some.inj he
            exact .inr ⟨List.mem_cons_self, hs⟩
        · exact .inr ⟨List.mem_cons_of_mem _ hm, hi⟩
      simp only [setupLoop] at h
      cases hread : storageReadBlock f n with
      | none =>
          rw [hread] at h
          exact hlater _ h (.inl rfl)
      | some x =>
          have hx : x = f.cells n := by
            unfold storageReadBlock at hread
            split at hread
            · cases hread
            · exact (Option.some.inj hread).symm
          subst hx
          rw [hread] at h
          simp only [] at h
          cases hap : applyPad pattern (found.map Found.seq) (f.cells n) id with
          | none =>
              rw [hap] at h
              exact hlater _ h (.inl rfl)
          | some s =>
              rw [hap] at h
              refine hlater _ h (.inr ⟨s, _, rfl, ?_⟩)
              unfold applyPad at hap
              split at hap
              · cases hap
              · obtain ⟨i, hi, rfl⟩ := Option.map_eq_some_iff.mp hap
                exact ⟨i, hi, rfl⟩

theorem ValidPad.found (h : ValidPad H f v oldPin b) :
    (∃ o, Groups b o) ∧ ∃ i, findPad (pads (f.cells b)) (idHash H oldPin) = some i ∧
      v.masterSecret = xor (masterHash H oldPin) (secretOf (slotPad (pads (f.cells b)) i)) := by
  rcases setupLoop_found h.setup with hn | ⟨hm, hi⟩
  · cases hn
  · exact ⟨exists_groups hm, hi⟩

/-! ## Every point of a change -/

/-- The old or the new PIN gives the master secret. -/
def Kept (H : Hashes) (v : Vars) (oldPin newPin : UInt32) (s : Flash) : Prop :=
  Recovers H s v.masterSecret oldPin ∨ Recovers H s v.masterSecret newPin

/-- A property holds wherever a command is issued or cut short. -/
def keptContract (I : Flash → Prop) : Contract Cmd Reply Flash where
  step := Works
  call s c := I s ∧ ∀ t, TornWrite s c t → I t
  halt _ _ := False
  undef _ := False

theorem call_read {I : Flash → Prop} {n : ℕ} (h : I f) : (keptContract I).call f (.read n) :=
  ⟨h, fun t ht => by cases ht⟩

theorem call_erase {I : Flash → Prop} {n k : ℕ} (h : I f) :
    (keptContract I).call f (.erase n k) :=
  ⟨h, fun t ht => by cases ht⟩

/-- Only one group has a pad for the PIN, and it is that for the secret. -/
theorem recovers_of_findPad {pin : UInt32} {secret : Secret} {i : ℕ} (hg : Groups b o)
    (hb : f.bad b = false) (ho : findPad (pads (f.cells o)) (idHash H pin) = none)
    (hi : findPad (pads (f.cells b)) (idHash H pin) = some i)
    (hs : secret = xor (masterHash H pin) (secretOf (slotPad (pads (f.cells b)) i))) :
    Recovers H f secret pin := by
  rw [Recovers, secretsSetup_eq hg hb ho, hi, hs]
  rfl

/-- A torn block has no pad for the old PIN. -/
theorem findPad_torn {x buf torn : Block} {i : ℕ} {pad : Secret}
    (hd : Distinct H x oldPin newPin) (hi : findPad (pads x) (idHash H oldPin) = some i)
    (hslots : ∀ j, slot (pads buf) j =
      if j = i then padSlot (idHash H newPin) pad else slot (pads x) j)
    (ht : Covers torn.bytes buf.bytes) : findPad (pads torn) (idHash H oldPin) = none := by
  rw [findPad_eq_none]
  intro j hj he
  have hc := ht.slotId j
  rw [he] at hc
  by_cases hji : j = i
  · have hs := hslots j
    rw [if_pos hji] at hs
    rw [slotId_of_eq hs] at hc
    exact hd.old hc
  · have hs : slotId (pads buf) j = slotId (pads x) j := by
      rw [slotId, slotId, hslots j, if_neg hji]
    rw [hs] at hc
    refine hd.others j hj (fun hsome => ?_) hc
    rw [hi] at hsome
    exact hji (Option.some.inj hsome).symm

/-- The changed block has the pad of the new PIN. -/
theorem findPad_changed {x buf : Block} {i : ℕ} {pad : Secret} (hi : i < 15)
    (hfresh : findPad (pads x) (idHash H newPin) = none)
    (hslots : ∀ j, slot (pads buf) j =
      if j = i then padSlot (idHash H newPin) pad else slot (pads x) j) :
    findPad (pads buf) (idHash H newPin) = some i := by
  have hself := hslots i
  rw [if_pos rfl] at hself
  apply findPad_eq_some hi (slotId_of_eq hself)
  intro j hj
  have hs : slotId (pads buf) j = slotId (pads x) j := by
    rw [slotId, slotId, hslots j, if_neg (Nat.ne_of_lt hj)]
  rw [hs]
  exact findPad_eq_none.mp hfresh j (Nat.lt_trans hj hi)

/-- After a power loss anywhere in a change of the PIN, the old or the new PIN gives the master
secret. -/
theorem secretsChange_recovers (hv : ValidPad H f v oldPin b)
    (hd : Distinct H (f.cells b) oldPin newPin)
    (hc : Crashes Works TornWrite (secretsChange H v oldPin newPin) f g) :
    Recovers H g v.masterSecret oldPin ∨ Recovers H g v.masterSecret newPin := by
  obtain ⟨⟨o, hg⟩, i, hi, hsecret⟩ := hv.found
  have hmem : b ∈ padStarts ∧ o ∈ padStarts := by
    have hstarts : padStarts = [0, storageEraseSize] := rfl
    rcases hg.starts with ⟨rfl, rfl⟩ | ⟨rfl, rfl⟩ <;> simp [hstarts]
  have hbad := hv.good b hmem.1
  obtain ⟨buf, hbuf, -, hslots⟩ := changedBlock_slots v newPin hi
  have hnew := findPad_changed (of_findPad hi).1 hd.fresh hslots
  have hself := hslots i
  rw [if_pos rfl] at hself
  have hsecret' : v.masterSecret =
      xor (masterHash H newPin) (secretOf (slotPad (pads buf) i)) := by
    rw [slotPad_of_eq hself, secretOf_toList, xor_cancel]
  have hx : f.cells b ≠ erasedBlock := by
    intro he
    rw [he, findPad_erasedBlock hd.old_ne_erased] at hi
    cases hi
  have hI : Kept H v oldPin newPin f := .inl (by rw [Recovers, hv.setup]; rfl)
  -- the other group has been erased
  have hI₁ : Kept H v oldPin newPin (f.setRange o storageEraseSize fun _ => erasedBlock) := by
    refine .inl (recovers_of_findPad hg hbad ?_ (i := i) ?_ ?_)
    · rw [hg.erased.1]
      exact findPad_erasedBlock hd.old_ne_erased
    · rw [hg.erased.2]
      exact hi
    · rw [hg.erased.2]
      exact hsecret
  -- the new block has been written in part
  have htorn : ∀ x, Covers x.bytes buf.bytes →
      Kept H v oldPin newPin ((f.setRange o storageEraseSize fun _ => erasedBlock).set o x) := by
    intro x hx
    have hcell : ((f.setRange o storageEraseSize fun _ => erasedBlock).set o x).cells b =
        f.cells b := by
      rw [Flash.set_of_ne _ _ hg.ne, hg.erased.2]
    refine .inl (recovers_of_findPad hg hbad ?_ (i := i) ?_ ?_)
    · rw [Flash.set_self]
      exact findPad_torn hd hi hslots hx
    · rw [hcell]
      exact hi
    · rw [hcell]
      exact hsecret
  -- the new block has been written
  have hI₂ : Kept H v oldPin newPin
      ((f.setRange o storageEraseSize fun _ => erasedBlock).set o buf) := by
    refine .inr (recovers_of_findPad hg.symm (hv.good o hmem.2) ?_ (i := i) ?_ ?_)
    · rw [Flash.set_of_ne _ _ hg.ne, hg.erased.2]
      exact hd.fresh
    · rw [Flash.set_self]
      exact hnew
    · rw [Flash.set_self]
      exact hsecret'
  -- the old group has been erased
  have hI₃ : Kept H v oldPin newPin (((f.setRange o storageEraseSize fun _ => erasedBlock).set o
      buf).setRange b storageEraseSize fun _ => erasedBlock) := by
    refine .inr (recovers_of_findPad hg.symm (hv.good o hmem.2) ?_ (i := i) ?_ ?_)
    · rw [hg.symm.erased.1]
      exact findPad_erasedBlock hd.written
    · rw [hg.symm.erased.2, Flash.set_self]
      exact hnew
    · rw [hg.symm.erased.2, Flash.set_self]
      exact hsecret'
  have hw : wp (keptContract (Kept H v oldPin newPin)) (secretsChange H v oldPin newPin)
      (fun _ s => Kept H v oldPin newPin s) f := by
    apply wp_secretsChange rfl hg hbad hx hv.havePad hv.block hbuf rfl rfl (call_read hI)
      (call_erase hI) (call_read hI₁) ⟨hI₁, fun t ht => ?_⟩ (call_erase hI₂) hI₃
    cases ht with
    | write _ _ x h =>
        rw [hg.erased.1, program_erasedBlock] at h
        exact htorn x h.left
  exact wp_crashes (K := keptContract (Kept H v oldPin newPin)) (fun _ _ hcall => hcall)
    (fun _ _ h => h.elim) (fun _ h => h.elim) (fun _ _ h => h) hw hc

/-! ## Tables with one and with two pads -/

/-- A storage with a block of pads and nothing else. -/
def tableFlash (x : Block) : Flash where
  cells n := if n = 0 then x else erasedBlock
  bad _ := false

/-- The master secret that the pads are for, and the variables with it. -/
def tableVars : Vars := ⟨Vector.replicate _ 1, true, 0, some 0⟩

/-- The slot with the pad for a PIN. -/
def ownSlot (pin : UInt32) : Bytes :=
  padSlot (idHash plainHashes pin) (xor (masterHash plainHashes pin) tableVars.masterSecret)

/-- The storage after a change of the PIN that is not disturbed. -/
def changedFlash (x : Block) (oldPin newPin : UInt32) : Flash :=
  (run answer (secretsChange plainHashes tableVars oldPin newPin) (tableFlash x)).2

theorem crashes_changed (x : Block) (oldPin newPin : UInt32) :
    Crashes Works TornWrite (secretsChange plainHashes tableVars oldPin newPin) (tableFlash x)
      (changedFlash x oldPin newPin) :=
  ⟨_, _, run_reaches answer_works _ _, .inl rfl⟩

theorem validPad_table {x : Block} {pin : UInt32}
    (h : secretsSetup plainHashes (tableFlash x) pin = some ⟨tableVars.masterSecret, 0, 0⟩) :
    ValidPad plainHashes (tableFlash x) tableVars pin 0 :=
  ⟨fun _ _ => rfl, rfl, rfl, h⟩

theorem not_covers {xs ys : Bytes} {i : ℕ} (h : xs.getD i 0 &&& ys.getD i 0 ≠ ys.getD i 0) :
    ¬ Covers xs ys :=
  fun hc => h (hc i)

theorem secretsChange_recovers_table :
    Recovers plainHashes (changedFlash (blockOf (padHeader 0 ++ ownSlot 0xffff1234)) 0xffff1234
      0xffff5678) tableVars.masterSecret 0xffff1234 ∨
    Recovers plainHashes (changedFlash (blockOf (padHeader 0 ++ ownSlot 0xffff1234)) 0xffff1234
      0xffff5678) tableVars.masterSecret 0xffff5678 := by
  have hslots : ∀ j < 15, findPad (pads (blockOf (padHeader 0 ++ ownSlot 0xffff1234)))
      (idHash plainHashes 0xffff1234) ≠ some j →
        (idHash plainHashes 0xffff1234).toList.getD 0 0 &&&
          (slotId (pads (blockOf (padHeader 0 ++ ownSlot 0xffff1234))) j).getD 0 0 ≠
            (slotId (pads (blockOf (padHeader 0 ++ ownSlot 0xffff1234))) j).getD 0 0 := by
    decide +kernel
  have hd : Distinct plainHashes (blockOf (padHeader 0 ++ ownSlot 0xffff1234)) 0xffff1234
      0xffff5678 :=
    { fresh := by decide +kernel
      written := by decide +kernel
      old := not_covers (i := 0) (by decide +kernel)
      others := fun j hj hne => not_covers (hslots j hj hne) }
  exact secretsChange_recovers (validPad_table (by decide +kernel)) hd (crashes_changed _ _ _)

theorem crashes_torn {α : Type} {p : Fw α} {n : ℕ} {buf x : Block} (k : ℕ)
    (hc : (runFor answer k p f).1.command? = some (.write n buf))
    (h : PartlyWritten ((runFor answer k p f).2.cells n)
      (((runFor answer k p f).2.cells n).program buf) x) :
    Crashes Works TornWrite p f ((runFor answer k p f).2.set n x) := by
  obtain ⟨next, hnext⟩ := Prog.exists_of_command hc
  exact ⟨_, _, runFor_reaches answer_works k p f, .inr ⟨_, next, hnext, .write _ _ _ h⟩⟩

theorem covers_of_all {xs ys : Bytes} (hlen : ys.length ≤ xs.length)
    (h : (xs.zip ys).all (fun p => p.1 &&& p.2 = p.2) = true) : Covers xs ys := by
  intro i
  by_cases hi : i < ys.length
  · have hx : i < xs.length := by omega
    have hz : (xs.get ⟨i, hx⟩, ys.get ⟨i, hi⟩) ∈ xs.zip ys := by
      apply List.mem_iff_getElem.mpr
      exact ⟨i, by simp [hx, hi], by simp⟩
    have := List.all_eq_true.mp h _ hz
    simpa [List.getD_eq_getElem?_getD, hx, hi] using this
  · rw [List.getD_eq_getElem?_getD (l := ys), List.getElem?_eq_none (by omega)]
    exact UInt8.and_zero

/-- A table in which the new PIN has a pad before the old one. -/
def twoPads : Block :=
  blockOf (padHeader 0 ++ (padSlot (idHash plainHashes 0xffff5678) (Vector.replicate _ 0) ++
    ownSlot 0xffff1234))

/-- The storage when the new block is to be written. -/
def pendingFlash : Flash :=
  (runFor answer 3 (secretsChange plainHashes tableVars 0xffff1235 0xffff1234)
    (tableFlash (blockOf (padHeader 0 ++ ownSlot 0xffff1235)))).2

/-- The new block with one bit of the identifier not yet cleared. -/
def tornBlock : Block :=
  blockOf (padHeader 1 ++ padSlot (idHash plainHashes 0xffff1235)
    (xor (masterHash plainHashes 0xffff1234) tableVars.masterSecret))

/-- With a pad for the new PIN in the table already, neither PIN gives the master secret in the
end. Nor does one when the identifier of the new PIN, written in part, is that of the old. -/
theorem secretsChange_recovers_fails :
    (ValidPad plainHashes (tableFlash twoPads) tableVars 0xffff1234 0 ∧
      Crashes Works TornWrite (secretsChange plainHashes tableVars 0xffff1234 0xffff5678)
        (tableFlash twoPads) (changedFlash twoPads 0xffff1234 0xffff5678) ∧
      ¬ Recovers plainHashes (changedFlash twoPads 0xffff1234 0xffff5678)
        tableVars.masterSecret 0xffff1234 ∧
      ¬ Recovers plainHashes (changedFlash twoPads 0xffff1234 0xffff5678)
        tableVars.masterSecret 0xffff5678) ∧
    (ValidPad plainHashes (tableFlash (blockOf (padHeader 0 ++ ownSlot 0xffff1235))) tableVars
        0xffff1235 0 ∧
      Crashes Works TornWrite (secretsChange plainHashes tableVars 0xffff1235 0xffff1234)
        (tableFlash (blockOf (padHeader 0 ++ ownSlot 0xffff1235)))
        (pendingFlash.set storageEraseSize tornBlock) ∧
      ¬ Recovers plainHashes (pendingFlash.set storageEraseSize tornBlock)
        tableVars.masterSecret 0xffff1235 ∧
      ¬ Recovers plainHashes (pendingFlash.set storageEraseSize tornBlock)
        tableVars.masterSecret 0xffff1234) := by
  refine ⟨⟨validPad_table (by decide +kernel), crashes_changed _ _ _, by decide +kernel,
    by decide +kernel⟩, validPad_table (by decide +kernel), ?_, by decide +kernel,
    by decide +kernel⟩
  have hcommand : (runFor answer 3 (secretsChange plainHashes tableVars 0xffff1235 0xffff1234)
      (tableFlash (blockOf (padHeader 0 ++ ownSlot 0xffff1235)))).1.command? =
        some (.write storageEraseSize (blockOf (padHeader 1 ++ ownSlot 0xffff1234))) := by
    decide +kernel
  apply crashes_torn 3 hcommand
  have hcell : pendingFlash.cells storageEraseSize = erasedBlock := by decide +kernel
  change PartlyWritten (pendingFlash.cells storageEraseSize)
    ((pendingFlash.cells storageEraseSize).program _) tornBlock
  rw [hcell, program_erasedBlock]
  have hsize : ∀ x y : Block, y.bytes.length ≤ x.bytes.length := fun x y => by
    rw [x.size, y.size]
  exact ⟨covers_of_all (hsize _ _) (by decide +kernel),
    covers_of_all (hsize _ _) (by decide +kernel)⟩

end Sunela.Secrets
