import Sunela.Verification.Alloc.Rules
import Sunela.Verification.Support.PlainSecrets

/-! # Counting wrong PINs

The login page counts each PIN that it does not accept. The other pages do not count a PIN for
which no pad is found. -/

namespace Sunela.Pin

open Program Storage Block Database Secrets

variable {P : Platform} {torn : Torn} {f : Flash} {now : UInt32} {m : Memory}

/-- How a submission was answered, and whether `pin_revalidate` found no pad for its PIN. -/
structure Check where
  accepted : Option Bool
  noPad : Bool
  deriving DecidableEq

def check (P : Platform) (f : Flash) (now : UInt32) (m : Memory) (s : Submission) : Check where
  accepted := s.accepted P f now m
  noPad := (s.revalidated m).any fun pin => (secretsSetup P.hashes f pin).isNone

/-! ## One submission -/

/-- What a check does to the number of failed attempts. -/
def Check.Records (c : Check) (a a' : UInt32) : Prop :=
  match c.accepted with
  | none => a' = a
  | some true => a' = 0
  | some false => a' = if c.noPad then a else a + 1

theorem pinRevalidate_records {pin : UInt32} {ok : Bool} {m' : Memory}
    (h : pinRevalidate P f now m pin = some (ok, m')) :
    (Check.mk (some ok) (secretsSetup P.hashes f pin).isNone).Records m.pins.attempts
      m'.pins.attempts := by
  unfold pinRevalidate at h
  cases hr : secretsSetup P.hashes f pin with
  | none =>
      rw [hr] at h
      obtain ⟨rfl, rfl⟩ := Prod.mk.inj (Option.some.inj h)
      rfl
  | some r =>
      rw [hr] at h
      obtain ⟨valid, -, h⟩ := Option.bind_eq_some_iff.mp h
      cases valid with
      | true =>
          obtain ⟨rfl, rfl⟩ := Prod.mk.inj (Option.some.inj h)
          rfl
      | false =>
          obtain ⟨rfl, rfl⟩ := Prod.mk.inj (Option.some.inj h)
          rfl

theorem acceptPin_pins {pin : UInt32} {ok : Bool} {m' : Memory}
    (h : acceptPin P f m pin = some (ok, m')) : m'.pins = m.pins := by
  unfold acceptPin at h
  split at h
  · obtain ⟨rfl, rfl⟩ := Prod.mk.inj (Option.some.inj h)
    rfl
  · obtain ⟨r, -, h⟩ := Option.bind_eq_some_iff.mp h
    obtain ⟨rfl, rfl⟩ := Prod.mk.inj (Option.some.inj h)
    rfl

theorem uiPinResume_records {buf : Bytes} {m' : Memory}
    (h : uiPinResume P f now m buf = some m') :
    (check P f now m (.login buf)).Records m.pins.attempts m'.pins.attempts := by
  unfold uiPinResume at h
  by_cases hb : buf = []
  · rw [if_pos hb] at h
    obtain rfl := Option.some.inj h
    simp [check, Check.Records, Submission.accepted, hb]
  · rw [if_neg hb] at h
    obtain ⟨⟨ok, m₁⟩, ha, h⟩ := Option.bind_eq_some_iff.mp h
    obtain rfl := Option.some.inj h
    have hp := acceptPin_pins ha
    cases ok with
    | true => simp [check, Check.Records, Submission.accepted, hb, ha, pinSuccess]
    | false =>
        simp [check, Check.Records, Submission.accepted, Submission.revalidated, hb, ha, hp,
          pinFail]

/-- A page that hands on one PIN, and otherwise leaves the count alone. -/
theorem records_of_revalidated {s : Submission} {pin : UInt32} {ok : Bool} {m' : Memory}
    {a : UInt32} (hs : s.revalidated m = some pin)
    (h : pinRevalidate P f now m pin = some (ok, m')) (ha : a = m'.pins.attempts) :
    (check P f now m s).Records m.pins.attempts a := by
  have haccepted : s.accepted P f now m = some ok := by
    cases s with
    | login buf => cases hs
    | _ => simp only [Submission.accepted, hs, Option.bind_some, h, Option.map_some]
  have hr := pinRevalidate_records h
  unfold check
  rw [haccepted, hs, ha]
  exact hr

theorem records_of_none {s : Submission} (hl : ∀ buf, s ≠ .login buf) (hs : s.revalidated m = none)
    {a : UInt32} (ha : a = m.pins.attempts) :
    (check P f now m s).Records m.pins.attempts a := by
  have haccepted : s.accepted P f now m = none := by
    cases s with
    | login buf => exact absurd rfl (hl buf)
    | _ => simp only [Submission.accepted, hs, Option.bind_none]
  unfold check
  rw [haccepted]
  exact ha

theorem uiMasterResume_records {s : Submission} {buf : Bytes} {m' : Memory}
    (hl : ∀ buf, s ≠ .login buf)
    (hs : s.revalidated m = if buf = [] then none else some (pinEncode buf))
    (h : uiMasterResume P f now m buf = some m') :
    (check P f now m s).Records m.pins.attempts m'.pins.attempts := by
  unfold uiMasterResume at h
  by_cases hb : buf = []
  · rw [if_pos hb] at h hs
    obtain rfl := Option.some.inj h
    exact records_of_none hl hs rfl
  · rw [if_neg hb] at h hs
    obtain ⟨⟨ok, m₁⟩, hr, rfl⟩ := Option.map_eq_some_iff.mp h
    exact records_of_revalidated hs hr rfl

theorem wp_resumed {r : Option Memory} {Q : Memory → Flash → Prop} {g : Flash}
    (h : ∀ m', r = some m' → Q m' g) : wp (anyContract torn) (resumed r) Q g := by
  cases r with
  | none => trivial
  | some m' => exact h m' rfl

theorem wp_pinChange {oldPin newPin : UInt32} {g : Flash} :
    wp (anyContract torn) (pinChange P f now m oldPin newPin) (fun r _ => ∃ ok m₁,
      pinRevalidate P f now m oldPin = some (ok, m₁) ∧ r.2.pins = m₁.pins) g := by
  unfold pinChange
  cases hr : pinRevalidate P f now m oldPin with
  | none => trivial
  | some r =>
      obtain ⟨ok, m₁⟩ := r
      cases ok with
      | false => exact ⟨false, m₁, rfl, rfl⟩
      | true =>
          simp only []
          split
          · exact ⟨true, m₁, rfl, rfl⟩
          · rw [wp_bind]
            apply wp_of_returns
            intro r g' _
            exact ⟨true, m₁, rfl, rfl⟩

theorem wp_uiPinChangeResume {c : PinChangeCtx} {buf : Bytes} {g : Flash}
    (hc : m.change = some c) :
    wp (anyContract torn) (uiPinChangeResume P f now m c buf) (fun m' _ =>
      (check P f now m (.change buf)).Records m.pins.attempts m'.pins.attempts) g := by
  have hl : ∀ b, Submission.change buf ≠ .login b := fun _ h => by cases h
  unfold uiPinChangeResume
  by_cases hb : buf = []
  · rw [if_pos hb]
    exact records_of_none hl (by simp [Submission.revalidated, hb]) rfl
  · rw [if_neg hb]
    cases hst : c.stage with
    | old =>
        have hs : (Submission.change buf).revalidated m = some (pinEncode buf) := by
          simp [Submission.revalidated, hb, hc, hst]
        cases hr : pinRevalidate P f now m (pinEncode buf) with
        | none => trivial
        | some r =>
            obtain ⟨ok, m₁⟩ := r
            cases ok with
            | false => exact records_of_revalidated hs hr rfl
            | true => exact records_of_revalidated hs hr rfl
    | new =>
        have hs : (Submission.change buf).revalidated m = none := by
          simp [Submission.revalidated, hb, hc, hst]
        simp only []
        split
        · exact records_of_none hl hs rfl
        · exact records_of_none hl hs rfl
    | confirm =>
        simp only []
        by_cases he : pinEncode buf = c.newPin
        · have hs : (Submission.change buf).revalidated m = some c.oldPin := by
            simp [Submission.revalidated, hb, hc, hst, he]
          rw [if_neg (not_not.mpr he), wp_bind]
          apply wp_mono wp_pinChange
          intro r g' hr
          obtain ⟨ok, m₁, hr, hp⟩ := hr
          exact records_of_revalidated hs hr (congrArg Attempts.attempts hp)
        · rw [if_pos he]
          exact records_of_none hl (by simp [Submission.revalidated, hb, hc, hst, he]) rfl

/-- Each page records the check as it should, but for a PIN without a pad. -/
theorem wp_exec_records (s : Submission) (g : Flash) :
    wp (anyContract torn) (s.exec P f now m) (fun m' _ =>
      (check P f now m s).Records m.pins.attempts m'.pins.attempts) g := by
  cases s with
  | login buf => exact wp_resumed fun _ => uiPinResume_records
  | change buf =>
      simp only [Submission.exec]
      cases hc : m.change with
      | none =>
          apply records_of_none (fun _ h => by cases h) _ rfl
          simp [Submission.revalidated, hc]
      | some c => exact wp_uiPinChangeResume hc
  | showMaster buf =>
      exact wp_resumed fun _ => uiMasterResume_records (fun _ h => by cases h) rfl
  | setMaster buf =>
      exact wp_resumed fun _ => uiMasterResume_records (fun _ h => by cases h) rfl

/-! ## Runs -/

/-- The checks of a run, the last one first. In between, the firmware may do anything that
leaves the failed attempts alone. -/
inductive Submitted (torn : Torn) (P : Platform) (m₀ : Memory) (f₀ : Flash) :
    List Check → Memory → Flash → Prop where
  | start : Submitted torn P m₀ f₀ [] m₀ f₀
  | submit {l : List Check} {m m' : Memory} {f f' : Flash} {now : UInt32} {s : Submission}
      (run : Submitted torn P m₀ f₀ l m f)
      (ends : Returns (Step torn) (s.exec P f now m) f m' f') :
      Submitted torn P m₀ f₀ (check P f now m s :: l) m' f'
  | other {l : List Check} {m m' : Memory} {f f' : Flash} (run : Submitted torn P m₀ f₀ l m f)
      (h : m'.pins = m.pins) : Submitted torn P m₀ f₀ l m' f'

/-- The number of checks since the last correct PIN that have a property. -/
def sinceCorrect (p : Check → Bool) : List Check → ℕ
  | [] => 0
  | c :: l =>
      if c.accepted = some true then 0
      else (if p c then 1 else 0) + sinceCorrect p l

def Check.wrong (c : Check) : Bool := c.accepted = some false

/-- The PIN was wrong, and no pad was found for it. -/
def Check.missed (c : Check) : Bool := c.wrong && c.noPad

def Check.counted (c : Check) : Bool := c.wrong && !c.noPad

theorem sinceCorrect_wrong (l : List Check) :
    sinceCorrect Check.wrong l = sinceCorrect Check.missed l + sinceCorrect Check.counted l := by
  induction l with
  | nil => rfl
  | cons c l ih =>
      have hone : (if c.wrong then 1 else 0) =
          (if c.missed then 1 else 0) + if c.counted then 1 else 0 := by
        by_cases hw : c.wrong
        · by_cases hn : c.noPad <;> simp [Check.missed, Check.counted, hw, hn]
        · simp [Check.missed, Check.counted, hw]
      simp only [sinceCorrect, ih]
      split
      · rfl
      · omega

/-- What is recorded are the wrong PINs for which a pad was found, or that were submitted on
the login page. -/
theorem submitted_attempts {m₀ : Memory} {f₀ : Flash} {l : List Check}
    (h : Submitted torn P m₀ f₀ l m f) (h₀ : m₀.pins.attempts = 0) :
    m.pins.attempts = UInt32.ofNat (sinceCorrect Check.counted l) := by
  induction h with
  | start => exact h₀
  | other _ h ih =>
      rw [h]
      exact ih
  | @submit l m m' f f' now s run ends ih =>
      have hr := wp_returns (K := anyContract torn) (wp_exec_records s f) ends
      unfold Check.Records at hr
      cases ha : (check P f now m s).accepted with
      | none => simpa [ha, ih, sinceCorrect, Check.counted, Check.wrong] using hr
      | some ok =>
          cases ok with
          | true => simpa [ha, sinceCorrect] using hr
          | false =>
              cases hn : (check P f now m s).noPad with
              | true => simpa [ha, hn, ih, sinceCorrect, Check.counted, Check.wrong] using hr
              | false =>
                  simp only [ha, hn, ih] at hr
                  simp [hr, ha, hn, sinceCorrect, Check.counted, Check.wrong, UInt32.ofNat_add,
                    UInt32.add_comm]

/-- The attempts recorded are the wrong PINs since the last correct one exactly if a pad was
found for each of them that was not submitted on the login page, and the count did not wrap. -/
theorem attempts_eq_sinceCorrect {m₀ : Memory} {f₀ : Flash} {l : List Check}
    (h₀ : m₀.pins.attempts = 0) (h : Submitted torn P m₀ f₀ l m f) :
    m.pins.attempts.toNat = sinceCorrect Check.wrong l ↔
      sinceCorrect Check.missed l = 0 ∧ sinceCorrect Check.wrong l < 2 ^ 32 := by
  have ha : m.pins.attempts.toNat = sinceCorrect Check.counted l % 2 ^ 32 := by
    rw [submitted_attempts h h₀]
    exact UInt32.toNat_ofNat'
  have hw := sinceCorrect_wrong l
  rw [ha]
  constructor
  · intro he
    have hlt : sinceCorrect Check.counted l % 2 ^ 32 < 2 ^ 32 := Nat.mod_lt _ (by decide)
    have hle := Nat.mod_le (sinceCorrect Check.counted l) (2 ^ 32)
    omega
  · intro he
    rw [Nat.mod_eq_of_lt (by omega)]
    omega

/-! ## A storage with one account -/

theorem returns_resumed {r : Option Memory} (h : r.isSome) (d : Memory) :
    Returns (Step torn) (resumed r) f (r.getD d) f := by
  obtain ⟨m', rfl⟩ := Option.isSome_iff_exists.mp h
  exact .refl _ _

def powerUp : Memory where
  vars := .initial
  pins := ⟨0, 0⟩
  db := dbOpenEmpty
  settings := ⟨false, false, false, 0⟩
  change := none

/-- The pad belongs to the PIN 1234, and the account is in block 8. -/
def lockedFlash : Flash :=
  let pin := pinEncode [49, 50, 51, 52]
  (plainFlash [(8, 1, [nameField [97]])]).set 0 (blockOf (padHeader 0 ++
    ((idHash plainHashes pin).toList ++ (masterHash plainHashes pin).toList)))

/-- The memory after one text on the login page, at the start. -/
def afterLogin (buf : Bytes) : Memory :=
  (uiPinResume plainPlatform lockedFlash 0 powerUp buf).getD powerUp

/-- The memory after the page that shows the master secret has got a text as well. -/
def afterShow (buf buf' : Bytes) : Memory :=
  (uiShowMasterResume plainPlatform lockedFlash 0 (afterLogin buf) buf').getD powerUp

theorem submitted_login (buf : Bytes)
    (h : (uiPinResume plainPlatform lockedFlash 0 powerUp buf).isSome) :
    Submitted (fun _ _ _ => False) plainPlatform powerUp lockedFlash
      [check plainPlatform lockedFlash 0 powerUp (.login buf)] (afterLogin buf) lockedFlash :=
  .submit .start (returns_resumed h powerUp)

theorem submitted_show (buf buf' : Bytes) {l : List Check}
    (hl : Submitted (fun _ _ _ => False) plainPlatform powerUp lockedFlash l (afterLogin buf)
      lockedFlash)
    (h : (uiShowMasterResume plainPlatform lockedFlash 0 (afterLogin buf) buf').isSome) :
    Submitted (fun _ _ _ => False) plainPlatform powerUp lockedFlash
      (check plainPlatform lockedFlash 0 (afterLogin buf) (.showMaster buf') :: l)
      (afterShow buf buf') lockedFlash :=
  .submit hl (returns_resumed h powerUp)

theorem attempts_eq_sinceCorrect_login : (afterLogin [48, 48, 48, 48]).pins.attempts.toNat = 1 := by
  have hc : check plainPlatform lockedFlash 0 powerUp (.login [48, 48, 48, 48]) =
      ⟨some false, false⟩ := by decide +kernel
  have h := submitted_login [48, 48, 48, 48] (by decide +kernel)
  rw [hc] at h
  have hwrong : sinceCorrect Check.wrong [⟨some false, false⟩] = 1 := by decide
  have hlt : sinceCorrect Check.wrong [⟨some false, false⟩] < 2 ^ 32 := by omega
  rw [← hwrong]
  exact (attempts_eq_sinceCorrect rfl h).mpr ⟨by decide, hlt⟩

/-- A wrong PIN on the page that shows the master secret is not counted. -/
theorem attempts_eq_sinceCorrect_shown :
    ∃ m, Submitted (fun _ _ _ => False) plainPlatform powerUp lockedFlash
        [⟨some false, true⟩, ⟨some true, false⟩] m lockedFlash ∧
      m.pins.attempts = 0 ∧
      sinceCorrect Check.wrong [⟨some false, true⟩, ⟨some true, false⟩] = 1 := by
  have hlogin : check plainPlatform lockedFlash 0 powerUp (.login [49, 50, 51, 52]) =
      ⟨some true, false⟩ := by decide +kernel
  have hshow : check plainPlatform lockedFlash 0 (afterLogin [49, 50, 51, 52])
      (.showMaster [48, 48, 48, 48]) = ⟨some false, true⟩ := by decide +kernel
  have h := submitted_login [49, 50, 51, 52] (by decide +kernel)
  have hrun := submitted_show _ [48, 48, 48, 48] h (by decide +kernel)
  rw [hlogin, hshow] at hrun
  have hpins : (afterShow [49, 50, 51, 52] [48, 48, 48, 48]).pins.attempts = 0 := by
    decide +kernel
  exact ⟨_, hrun, hpins, by decide⟩

end Sunela.Pin
