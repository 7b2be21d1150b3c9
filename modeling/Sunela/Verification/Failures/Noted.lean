import Sunela.Verification.Failures.Held
import Sunela.Verification.Support.PlainCrypt

/-! # Records that could not be written

A device on which operations may fail, with a note of whether the record of an entry could not
be written. -/

namespace Sunela.Database

open Program Storage Span Block Fields Entry

/-- A record has not been written. Deleting a block writes zeros, which does not count. -/
def failedRecord : (c : Cmd) → Reply c → Bool
  | .write _ buf, ok => decide (buf ≠ zeroBlock) && !ok
  | .read _, _ => false
  | .erase _ _, _ => false
  | .random _, _ => false

abbrev Recording (torn : Torn) : Flash × Bool → (c : Cmd) → Reply c → Flash × Bool → Prop :=
  Noting (Step torn) failedRecord

/-- A contract that any run meets. -/
def noteContract (step : Flash × Bool → (c : Cmd) → Reply c → Flash × Bool → Prop) :
    Contract Cmd Reply (Flash × Bool) where
  step := step
  call _ _ := True
  halt _ _ := True
  undef _ := True

variable {env : Env} {torn : Torn} {db : Db} {f : Flash} {b : Bool}

/-! ## Blocks -/

theorem wp_rndBytes_noted {k : ℕ} {Q : Bytes → Flash × Bool → Prop}
    (hQ : ∀ r : Bytes, r.length = k → Q r (f, b)) :
    wp (noteContract (Recording torn)) (rndBytes k) Q (f, b) := by
  refine ⟨trivial, fun r t hstep => ?_⟩
  cases hstep with
  | step h =>
      cases h with
      | random _ _ hr =>
          rw [failedRecord, Bool.or_false]
          exact hQ r hr

/-- The bit tells whether an encrypted block has been written. -/
theorem wp_dbEncrypt_noted {content : Bytes} {n : ℕ} {Q : Bool → Flash × Bool → Prop}
    (hQ : ∀ ok g, Q ok (g, b || !ok)) :
    wp (noteContract (Recording torn)) (dbEncrypt env.c content >>= fun x => storageWriteBlock x n) Q
      (f, b) := by
  rw [wp_bind]
  unfold dbEncrypt
  split
  · trivial
  · next hl =>
      rw [wp_bind]
      apply wp_rndBytes_noted
      intro nonce hn
      rw [wp_bind]
      apply wp_rndBytes_noted
      intro rk hk
      have hne := encrypt_ne_zeroBlock (c := env.c) hn hk (Nat.le_of_not_lt hl)
      refine ⟨trivial, fun r t hstep => ?_⟩
      cases hstep with
      | step h =>
          rw [failedRecord, decide_eq_true hne, Bool.true_and]
          exact hQ r _

/-- Deleting a block leaves the tree and the bit as they are. -/
theorem wp_discard_noted {n : ℕ} :
    wp (noteContract (Recording torn)) (discard env db n)
      (fun r t => r.2.entries = db.entries ∧ r.2.erased = db.erased ∧ t.2 = b) (f, b) := by
  unfold discard blockDelete
  rw [wp_bind]
  split
  · trivial
  · refine ⟨trivial, fun r t hstep => ?_⟩
    cases hstep with
    | step h =>
        have hb : (b || failedRecord (.write n zeroBlock) r) = b := by
          rw [failedRecord, decide_eq_false (not_not.mpr rfl), Bool.false_and, Bool.or_false]
        rw [hb]
        cases r with
        | false => exact ⟨rfl, rfl, rfl⟩
        | true =>
            simp only []
            cases spanAdd db.deleted n 1 Nat.one_pos with
            | none => trivial
            | some deleted => exact ⟨rfl, rfl, rfl⟩

/-! ## Entries -/

/-- The record fits the buffer. -/
def Encodes (fs : List DbField) : Prop := (encodeFields storageBlockSize fs).isSome

instance (fs : List DbField) : Decidable (Encodes fs) := inferInstanceAs (Decidable (_ = _))

/-- An entry is written exactly if it fits and its record can be written. -/
theorem wp_writeEntry_noted {de : DbEntry} :
    wp (noteContract (Recording torn)) (writeEntry env db de) (fun r t =>
      (r.1 = true ↔ Encodes de.fields ∧ t.2 = false) ∧ r.2.entries = db.entries ∧
        r.2.erased = db.erased) (f, false) := by
  unfold writeEntry Encodes
  split
  · trivial
  · cases he : encodeFields storageBlockSize de.fields with
    | none => simp
    | some payload =>
        simp only [wp_bind, blockWrite]
        split
        · trivial
        split
        · trivial
        · apply wp_dbEncrypt_noted
          intro ok g
          cases ok with
          | true => simp [Db.addData]
          | false => simp

/-- The entry gets its new block and number in any case. It counts as stored exactly if it fits
and its record can be written. -/
theorem wp_updateEntry_noted {p new : ℕ} {de : DbEntry} {ch : Tree}
    (hfind : find p db.entries = some (de, ch)) :
    wp (noteContract (Recording torn)) (updateEntry env db p new) (fun r t =>
      (r.1 = true ↔ Encodes de.fields ∧ t.2 = false) ∧
        r.2.entries = modify p (renewed new) db.entries ∧ r.2.erased = db.erased) (f, false) := by
  unfold updateEntry
  rw [hfind]
  simp only [wp_bind]
  refine wp_mono wp_writeEntry_noted ?_
  rintro ⟨ok, db₁⟩ ⟨g, b⟩ ⟨hok, hentries, herased⟩
  cases ok with
  | false =>
      simp only [Bool.not_false, if_true, wp_bind]
      refine wp_mono wp_discard_noted ?_
      rintro r ⟨g', b'⟩ ⟨h1, h2, h3⟩
      obtain rfl : b' = b := h3
      exact ⟨hok, h1.trans hentries, h2.trans herased⟩
  | true =>
      simp only [Bool.not_true, Bool.false_eq_true, if_false]
      split
      · rw [wp_bind]
        refine wp_mono wp_discard_noted ?_
        rintro ⟨done, db₂⟩ ⟨g', b'⟩ ⟨h1, h2, h3⟩
        obtain rfl : b' = b := h3
        cases done with
        | true => exact ⟨hok, h1.trans hentries, h2.trans herased⟩
        | false => exact ⟨hok, h1.trans hentries, h2.trans herased⟩
      · exact ⟨hok, hentries, herased⟩

/-! ## Requests -/

/-- A request fails exactly if there is no erased block. -/
theorem getErasedBlock_noted {r : Option ℕ × Db} {t : Flash × Bool} (hi : db.erased.Intact)
    (hr : Returns (Recording torn) (getErasedBlock db) (f, b) r t) :
    (r.1 = none ∧ db.erased.blocks = []) ∨ ∃ n rest, r = (some n, db.popped n rest) ∧
      t = (f, b) ∧ rest.Intact ∧ db.erased.blocks = n :: rest.blocks := by
  rcases spanPullOne_cases hi with ⟨hnull, -⟩ | ⟨n, rest, hp, hrest, hb⟩
  · refine .inl ⟨?_, by rw [hnull]; rfl⟩
    obtain ⟨new, db'⟩ := r
    cases new with
    | none => rfl
    | some n => exact absurd hr.unnoted (erasedLoop_null _ hnull)
  · rw [getErasedBlock_pop hp] at hr
    obtain ⟨hr, ht⟩ := reaches_ret.mp hr
    exact .inr ⟨n, rest, (Prog.ret.inj hr), ht, hrest, hb⟩

/-! ## A device that refuses -/

/-- The device of `answer`, except that it does not write some blocks. -/
def refusing (bad : List ℕ) (f : Flash) : (c : Cmd) → Reply c × Flash
  | .write n buf => if n ∈ bad then (false, f.set n (f.cells n)) else answer f (.write n buf)
  | c => answer f c

theorem refusing_step (bad : List ℕ) (f : Flash) (c : Cmd) :
    Step unchanged f c (refusing bad f c).1 (refusing bad f c).2 := by
  have hworks : Step unchanged f c _ _ := (answer_works f c).mono fun _ _ _ h => h.elim
  cases c with
  | write n buf =>
      by_cases hn : n ∈ bad
      · simp only [refusing, if_pos hn]
        exact .writeFail n buf (f.cells n) rfl
      · simpa only [refusing, if_neg hn] using hworks
  | read n => exact hworks
  | erase n k => exact hworks
  | random size => exact hworks

theorem tears_unchanged (env : Env) : Tears env unchanged := fun _ _ _ h => .inl h

section Refused

variable {α : Type} (note : (c : Cmd) → Reply c → Bool) (bad : List ℕ)

/-- A run of a program on this device, with notes. -/
def refusedRun (p : Fw (α × Db)) (f : Flash) : Fw (α × Db) × (Flash × Bool) :=
  run (noteAnswer (refusing bad) note) p (f, false)

/-- The state it leads to. -/
def refusedState (p : Db → Fw (α × Db)) (s : State) : State :=
  let r := refusedRun note bad (p s.db) s.flash
  { db := (r.1.result?.map Prod.snd).getD s.db, flash := r.2.1 }

theorem returns_refusedState (p : Db → Fw (α × Db)) (s : State) (a : α) (failed : Bool)
    (h : (refusedRun note bad (p s.db) s.flash).1.result?.map Prod.fst = some a)
    (hf : (refusedRun note bad (p s.db) s.flash).2.2 = failed) :
    Returns (Noting (Step unchanged) note) (p s.db) (s.flash, false)
      (a, (refusedState note bad p s).db) ((refusedState note bad p s).flash, failed) := by
  obtain ⟨r, hr, rfl⟩ := Option.map_eq_some_iff.mp h
  have hdb : (refusedState note bad p s).db = r.2 := by simp [refusedState, hr]
  rw [hdb, ← hf]
  exact returns_run (noteAnswer_noting (refusing_step bad) note) hr

end Refused

end Sunela.Database
