import Mathlib.Data.Set.Function
import Sunela.Verification.Alloc.Rules
import Sunela.Verification.Secrets.Setup
import Sunela.Verification.Support.PlainSecrets

/-! # Changes of the PIN keep the master secret

After any number of changes there is one pad, for the last PIN, and the other group is erased. -/

namespace Sunela.Secrets

open Program Storage Block Database Pin

variable {P : Platform} {H : Hashes} {M : Secret} {f g : Flash} {v : Vars} {pin new : UInt32}
  {b o : ℕ}

/-- A pad for one PIN is all that is stored. -/
structure Padded (H : Hashes) (M : Secret) (f : Flash) (pin : UInt32) (b o : ℕ) : Prop where
  groups : Groups b o
  good : f.bad b = false ∧ f.bad o = false
  first : slot (pads (f.cells b)) 0 = padSlot (idHash H pin) (xor (masterHash H pin) M)
  rest : ∀ i, 0 < i → i < 15 → slot (pads (f.cells b)) i = erasedSlot
  other : f.cells o = erasedBlock

/-- The variables that secrets are changed by. -/
structure Current (M : Secret) (v : Vars) (b : ℕ) : Prop where
  block : v.padBlock = some b
  have_pad : v.havePad = true
  secret : v.masterSecret = M

theorem Padded.findPad_self (h : Padded H M f pin b o) :
    findPad (pads (f.cells b)) (idHash H pin) = some 0 :=
  findPad_eq_some (by decide) (slotId_of_eq h.first) fun j hj => absurd hj (Nat.not_lt_zero j)

/-- The last PIN gives the master secret. -/
theorem Padded.setup (h : Padded H M f pin b o) (hpin : idHash H pin ≠ erasedId) :
    secretsSetup H f pin = some ⟨M, padSeq (f.cells b), b⟩ := by
  have ho : findPad (pads (f.cells o)) (idHash H pin) = none := by
    rw [h.other]
    exact findPad_erasedBlock hpin
  rw [secretsSetup_eq h.groups h.good.1 ho, h.findPad_self, Option.map_some,
    slotPad_of_eq h.first, secretOf_toList, xor_cancel]

/-- Another PIN finds no pad. -/
theorem Padded.setup_other (h : Padded H M f pin b o) {q : UInt32} (hq : idHash H q ≠ erasedId)
    (hne : idHash H q ≠ idHash H pin) : secretsSetup H f q = none := by
  have ho : findPad (pads (f.cells o)) (idHash H q) = none := by
    rw [h.other]
    exact findPad_erasedBlock hq
  have hb : findPad (pads (f.cells b)) (idHash H q) = none := by
    rw [findPad_eq_none]
    intro i hi he
    by_cases hz : i = 0
    · rw [hz, slotId_of_eq h.first] at he
      exact hne (Vector.toList_inj.mp he).symm
    · rw [slotId_erased (h.rest i (Nat.pos_of_ne_zero hz) hi)] at he
      exact hq (Vector.toList_inj.mp he).symm
  rw [secretsSetup_eq h.groups h.good.1 ho, hb]
  rfl

theorem Padded.ne_erased (h : Padded H M f pin b o) (hpin : idHash H pin ≠ erasedId) :
    f.cells b ≠ erasedBlock := by
  intro he
  have hid := slotId_of_eq h.first
  rw [he, slotId_erased (slot_erasedBlock (by decide))] at hid
  exact hpin (Vector.toList_inj.mp hid).symm

/-! ## Steps -/

/-- A change moves the pad to the other group. -/
theorem Padded.change (h : Padded H M f pin b o) (hpin : idHash H pin ≠ erasedId)
    (hv : Current M v b) :
    wp (anyContract fun _ _ _ => False) (secretsChange H v pin new)
      (fun r g => Padded H M g new o b ∧ Current M r.2 o) f := by
  obtain ⟨buf, hbuf, -, hslots⟩ := changedBlock_slots v new h.findPad_self
  apply wp_secretsChange rfl h.groups h.good.1 (h.ne_erased hpin) hv.have_pad hv.block hbuf rfl
    rfl trivial trivial trivial trivial trivial
  have hcell : (((f.setRange o storageEraseSize fun _ => erasedBlock).set o buf).setRange b
      storageEraseSize fun _ => erasedBlock).cells o = buf := by
    rw [h.groups.symm.erased.2, Flash.set_self]
  refine ⟨⟨h.groups.symm, h.good.symm, ?_, fun i hi hlt => ?_, h.groups.symm.erased.1⟩,
    ⟨rfl, hv.have_pad, hv.secret⟩⟩
  · rw [hcell, hslots, if_pos rfl, hv.secret]
  · rw [hcell, hslots, if_neg (Nat.pos_iff_ne_zero.mp hi)]
    exact h.rest i hi hlt

theorem wp_erasePads {K : Contract Cmd Reply Flash} (hs : K.step = Works)
    (hc : ∀ f n k, K.call f (.erase n k)) {Q : Unit → Flash → Prop}
    (hQ : Q () ((f.setRange 0 storageEraseSize fun _ => erasedBlock).setRange storageEraseSize
      storageEraseSize fun _ => erasedBlock)) : wp K (erasePads padStarts) Q f := by
  have hstarts : padStarts = [0, storageEraseSize] := rfl
  rw [hstarts]
  simp only [erasePads, wp_bind]
  apply wp_erase hs (hc _ _ _)
  apply wp_erase hs (hc _ _ _)
  exact hQ

/-- A new device has one pad. -/
theorem wp_secretsNew (hbad : ∀ n ∈ padStarts, f.bad n = false) :
    wp (anyContract fun _ _ _ => False) (secretsNew H v pin)
      (fun r g => Padded H r.2.masterSecret g pin 0 storageEraseSize ∧
        Current r.2.masterSecret r.2 0) f := by
  have hgroups : Groups 0 storageEraseSize := ⟨.inl ⟨rfl, rfl⟩⟩
  unfold secretsNew
  rw [wp_bind]
  apply wp_erasePads rfl fun _ _ _ => trivial
  rw [wp_bind]
  apply wp_rndBytes (lenient_any _)
  intro r _
  rw [wp_bind]
  apply wp_write rfl trivial
  simp only [Bool.not_true, Bool.false_eq_true, if_false, Prog.pure_def, wp_ret]
  have hcell : (((f.setRange 0 storageEraseSize fun _ => erasedBlock).setRange storageEraseSize
      storageEraseSize fun _ => erasedBlock).cells 0) = erasedBlock := by
    rw [hgroups.erased.2, hgroups.symm.erased.1]
  have hself : ∀ x, (((f.setRange 0 storageEraseSize fun _ => erasedBlock).setRange
      storageEraseSize storageEraseSize fun _ => erasedBlock).set 0 x).cells 0 = x := fun x =>
    Flash.set_self _ 0 x
  have hother : ∀ x, (((f.setRange 0 storageEraseSize fun _ => erasedBlock).setRange
      storageEraseSize storageEraseSize fun _ => erasedBlock).set 0 x).cells storageEraseSize =
        erasedBlock := fun x => by
    rw [Flash.set_of_ne _ _ hgroups.ne.symm, hgroups.erased.1]
  have hstarts : padStarts = [0, storageEraseSize] := rfl
  rw [hcell, program_erasedBlock]
  refine ⟨⟨hgroups, ⟨hbad _ ?_, hbad _ ?_⟩, ?_, fun i hi hlt => ?_, hother _⟩, ⟨rfl, rfl, rfl⟩⟩
  · simp [hstarts]
  · simp [hstarts]
  · rw [hself]
    exact slot_blockOf (by decide)
  · rw [hself]
    exact (slot_blockOf hlt).trans (if_neg (Nat.pos_iff_ne_zero.mp hi))

/-! ## Runs -/

/-- The states of a device whose owner uses PINs from a set, with the PIN in force. The first
state is that of a new device with master secret `M`. The pads are not touched by what else the
firmware does. -/
inductive PinRun (P : Platform) (M : Secret) (used : Set UInt32) : Memory → Flash → UInt32 → Prop
    where
  | new {m : Memory} {v : Vars} {f₀ f : Flash} {pin : UInt32} (hu : pin ∈ used)
      (hbad : ∀ n ∈ padStarts, f₀.bad n = false)
      (ends : Returns Works (secretsNew P.hashes m.vars pin) f₀ (true, v) f)
      (hM : v.masterSecret = M) : PinRun P M used { m with vars := v } f pin
  | change {m m' : Memory} {f g : Flash} {pin new now : UInt32} (run : PinRun P M used m f pin)
      (hu : new ∈ used) (ends : Returns Works (pinChange P f now m pin new) f (true, m') g) :
      PinRun P M used m' g new
  | cycle {m m' : Memory} {f : Flash} {pin : UInt32} (run : PinRun P M used m f pin)
      (h : m'.vars = (secretsSetupMaster P.hashes f (secretsInit .initial) pin).2) :
      PinRun P M used m' f pin
  | other {m m' : Memory} {f g : Flash} {pin : UInt32} (run : PinRun P M used m f pin)
      (hv : m'.vars = { m.vars with padSeq := m'.vars.padSeq })
      (hf : ∀ n < reservedBlocks, g.cells n = f.cells n ∧ g.bad n = f.bad n) :
      PinRun P M used m' g pin

theorem Padded.congr (h : Padded H M f pin b o)
    (hf : ∀ n < reservedBlocks, g.cells n = f.cells n ∧ g.bad n = f.bad n) :
    Padded H M g pin b o := by
  have hlt : b < reservedBlocks ∧ o < reservedBlocks := by
    rcases h.groups.starts with ⟨rfl, rfl⟩ | ⟨rfl, rfl⟩ <;> decide
  obtain ⟨hb, hb'⟩ := hf b hlt.1
  obtain ⟨ho, ho'⟩ := hf o hlt.2
  exact ⟨h.groups, ⟨hb'.trans h.good.1, ho'.trans h.good.2⟩, by rw [hb]; exact h.first,
    fun i hi hlt => by rw [hb]; exact h.rest i hi hlt, ho.trans h.other⟩

/-- A check of a PIN only changes the sequence number. -/
theorem pinRevalidate_vars {m m' : Memory} {now : UInt32} {ok : Bool}
    (h : pinRevalidate P f now m pin = some (ok, m')) :
    m'.vars = { m.vars with padSeq := m'.vars.padSeq } := by
  unfold pinRevalidate at h
  cases hr : secretsSetup P.hashes f pin with
  | none =>
      rw [hr] at h
      obtain ⟨rfl, rfl⟩ := Prod.mk.inj (Option.some.inj h)
      rfl
  | some r =>
      rw [hr] at h
      obtain ⟨valid, -, h⟩ := Option.bind_eq_some_iff.mp h
      cases valid with
      | true =>
          obtain ⟨rfl, rfl⟩ := Prod.mk.inj (Option.some.inj h)
          rfl
      | false =>
          obtain ⟨rfl, rfl⟩ := Prod.mk.inj (Option.some.inj h)
          rfl

/-- A successful change has gone through `secrets_change`. -/
theorem pinChange_returns {m m' : Memory} {now : UInt32}
    (h : Returns Works (pinChange P f now m pin new) f (true, m') g) :
    ∃ v, v.masterSecret = m.vars.masterSecret ∧ v.havePad = m.vars.havePad ∧
      v.padBlock = m.vars.padBlock ∧
      Returns Works (secretsChange P.hashes v pin new) f (true, m'.vars) g := by
  unfold pinChange at h
  cases hr : pinRevalidate P f now m pin with
  | none =>
      rw [hr] at h
      cases h
  | some r =>
      obtain ⟨ok, m₁⟩ := r
      have hvars := pinRevalidate_vars hr
      rw [hr] at h
      cases ok with
      | false =>
          obtain ⟨he, -⟩ := reaches_ret.mp h
          simp at he
      | true =>
          simp only [] at h
          split at h
          · obtain ⟨he, -⟩ := reaches_ret.mp h
            simp at he
          · obtain ⟨⟨ok, v⟩, g', hc, h⟩ := returns_bind h
            obtain ⟨he, rfl⟩ := reaches_ret.mp h
            simp only [Prog.ret.injEq, Prod.mk.injEq] at he
            obtain ⟨rfl, rfl⟩ := he
            exact ⟨m₁.vars, by rw [hvars], by rw [hvars], by rw [hvars], hc⟩

/-- One pad remains over whole runs, and it belongs to the PIN in force. -/
theorem pinRun_padded {used : Set UInt32} {m : Memory}
    (herased : ∀ p ∈ used, idHash P.hashes p ≠ erasedId) (hr : PinRun P M used m f pin) :
    pin ∈ used ∧ ∃ b o, Padded P.hashes M f pin b o ∧ Current M m.vars b := by
  induction hr with
  | @new m v f₀ f pin hu hbad ends hM =>
      obtain ⟨hp, hc⟩ := wp_returns (K := anyContract fun _ _ _ => False) (wp_secretsNew hbad) ends
      rw [hM] at hp hc
      exact ⟨hu, _, _, hp, hc⟩
  | @change m m' f g pin new now run hu ends ih =>
      obtain ⟨hpin, b, o, hp, hc⟩ := ih
      obtain ⟨v, hsecret, hhave, hblock, hends⟩ := pinChange_returns ends
      have hv : Current M v b :=
        ⟨hblock.trans hc.block, hhave.trans hc.have_pad, hsecret.trans hc.secret⟩
      have h := wp_returns (K := anyContract fun _ _ _ => False)
        (hp.change (herased _ hpin) hv) hends
      exact ⟨hu, _, _, h.1, h.2⟩
  | @cycle m m' f pin run h ih =>
      obtain ⟨hpin, b, o, hp, hc⟩ := ih
      have hvars : m'.vars = ⟨M, true, padSeq (f.cells b), some b⟩ := by
        rw [h, secretsSetupMaster, hp.setup (herased _ hpin)]
      exact ⟨hpin, b, o, hp, by rw [hvars], by rw [hvars], by rw [hvars]⟩
  | @other m m' f g pin run hv hf ih =>
      obtain ⟨hpin, b, o, hp, hc⟩ := ih
      exact ⟨hpin, b, o, hp.congr hf, by rw [hv]; exact hc.block, by rw [hv]; exact hc.have_pad,
        by rw [hv]; exact hc.secret⟩

/-- The PIN in force gives the master secret of the new device, and no other PIN finds a pad, if
the identifiers of the PINs are distinct and none looks like that of an erased slot. -/
theorem pinRun_setup {used : Set UInt32} {m : Memory} (hinj : Set.InjOn (idHash P.hashes) used)
    (herased : ∀ p ∈ used, idHash P.hashes p ≠ erasedId) (hr : PinRun P M used m f pin) :
    (secretsSetup P.hashes f pin).map Found.secret = some M ∧
      ∀ q ∈ used, q ≠ pin → secretsSetup P.hashes f q = none := by
  obtain ⟨hpin, b, o, hp, -⟩ := pinRun_padded herased hr
  refine ⟨by rw [hp.setup (herased _ hpin)]; rfl, fun q hq hne => ?_⟩
  exact hp.setup_other (herased q hq) fun he => hne (hinj hq hpin he)

/-! ## A new device -/

/-- The storage of a new device with one account, on which no random byte but zero is drawn. -/
def newFlash (H : Hashes) (pin : UInt32) : Flash :=
  (run answer (secretsNew H .initial pin) (plainFlash [(8, 1, [nameField [97]])])).2

def newVars : Vars := ⟨secretOf (List.replicate masterSecretBytes 0), true, 0, some 0⟩

/-- The memory with the account. -/
def newMemory (H : Hashes) (pin : UInt32) : Memory where
  vars := .initial
  pins := ⟨0, 0⟩
  db := (afterOpen (plainEnv 16) (newFlash H pin)).db
  settings := ⟨false, false, false, 0⟩
  change := none

theorem pinRun_new {used : Set UInt32} (hu : pin ∈ used) :
    PinRun P newVars.masterSecret used { newMemory P.hashes pin with vars := newVars }
      (newFlash P.hashes pin) pin := by
  have hends : Returns Works (secretsNew P.hashes .initial pin)
      (plainFlash [(8, 1, [nameField [97]])]) (true, newVars) (newFlash P.hashes pin) :=
    run_reaches answer_works _ _
  have hbad : ∀ n ∈ padStarts, (plainFlash [(8, 1, [nameField [97]])]).bad n = false :=
    fun _ _ => rfl
  exact .new (m := newMemory P.hashes pin) hu hbad hends rfl

/-- The PINs 1234 and 5678. -/
def twoPins : Set UInt32 := {0xffff1234, 0xffff5678}

theorem pinRun_setup_changed : ∃ m f,
    PinRun plainPlatform newVars.masterSecret twoPins m f 0xffff5678 ∧
      (secretsSetup plainHashes f 0xffff5678).map Found.secret = some newVars.masterSecret ∧
      secretsSetup plainHashes f 0xffff1234 = none := by
  have hinj : Set.InjOn (idHash plainPlatform.hashes) twoPins :=
    Set.injOn_pair.mpr fun h => absurd h (by decide +kernel)
  have herased : ∀ p ∈ twoPins, idHash plainPlatform.hashes p ≠ erasedId := by
    intro p hp
    rcases hp with rfl | rfl <;> decide +kernel
  have hrun : PinRun plainPlatform newVars.masterSecret twoPins
      { newMemory plainHashes 0xffff1234 with vars := newVars } (newFlash plainHashes 0xffff1234)
      0xffff1234 := pinRun_new (.inl rfl)
  have hresult : (run answer (pinChange plainPlatform (newFlash plainHashes 0xffff1234) 0
      { newMemory plainHashes 0xffff1234 with vars := newVars } 0xffff1234 0xffff5678)
      (newFlash plainHashes 0xffff1234)).1.result?.map Prod.fst = some true := by decide +kernel
  obtain ⟨⟨ok, m'⟩, hr, rfl⟩ := Option.map_eq_some_iff.mp hresult
  have hchanged := PinRun.change hrun (.inr rfl) (returns_run answer_works hr)
  have h := pinRun_setup hinj herased hchanged
  exact ⟨_, _, hchanged, h.1, h.2 0xffff1234 (.inl rfl) (by decide)⟩

/-! ## An identifier that looks erased -/

/-- Hashes in which the identifier of the PIN 00000000 is that of an erased slot. -/
def complementHashes : Hashes where
  sha256 bs := (plainHash bs).map (~~~ ·)
  cryptoBoxBeforenm _ sk := sk

def complementPlatform : Platform := { plainPlatform with hashes := complementHashes }

/-- The PIN 00000000 finds a pad on a new device with another PIN. -/
theorem pinRun_setup_erased :
    Set.InjOn (idHash complementHashes) {0xffff1234, 0} ∧
    PinRun complementPlatform newVars.masterSecret {0xffff1234, 0}
      { newMemory complementHashes 0xffff1234 with vars := newVars }
      (newFlash complementHashes 0xffff1234) 0xffff1234 ∧
    (secretsSetup complementHashes (newFlash complementHashes 0xffff1234) 0).isSome := by
  refine ⟨Set.injOn_pair.mpr fun h => absurd h (by decide +kernel), ?_, by decide +kernel⟩
  exact pinRun_new (P := complementPlatform) (.inl rfl)

end Sunela.Secrets
