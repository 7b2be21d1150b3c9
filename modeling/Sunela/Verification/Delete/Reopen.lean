import Sunela.Verification.Alloc.Records
import Sunela.Verification.Support.PlainCrypt

/-! # Deleted entries

Deleting an entry deletes the block it was read from or last written to. An older record of
the same path, which the scan has passed over, is found again when the database is opened. -/

namespace Sunela.Database

open Program Storage Span Block Fields Entry

/-- The path of the entry a pointer refers to. -/
def pathOf (p : ℕ) (F : Tree) : Option Path :=
  (F.chains.find? fun c => c.getLast?.any (DbEntry.is p)).map (List.map DbEntry.name)

variable {env : Env} {torn : Torn}

theorem pathOf_ne_nil {p : ℕ} {F : Tree} {q : Path} (h : pathOf p F = some q) : q ≠ [] := by
  obtain ⟨c, hc, rfl⟩ := Option.map_eq_some_iff.mp h
  simpa using Forest.chains_ne_nil (List.mem_of_find?_eq_some hc)

/-- A deletion that succeeds has done nothing but delete the block of the entry. -/
theorem dbDeleteEntry_flash {s t : State} {p : ℕ} {de : DbEntry} {ch : Tree}
    (hfind : find p s.db.entries = some (de, ch))
    (h : Ends (Step torn) (fun db => dbDeleteEntry env db p) s true t) :
    t.flash = s.flash.set de.block zeroBlock := by
  have hw : wp (anyContract torn) (dbDeleteEntry env s.db p)
      (fun r g => r.1 = true → g = s.flash.set de.block zeroBlock) s.flash := by
    unfold dbDeleteEntry
    obtain ⟨db', hsort, -⟩ :=
      sorted_eq { s.db with entries := s.db.entries.remove (DbEntry.is p) }
    rw [hfind]
    simp only [hsort, Prog.ret_bind, discard, wp_bind]
    refine wp_blockDelete (lenient_any _) (fun _ => trivial) (fun _ => ?_) fun x _ _ => ?_
    · simp only [if_true]
      cases spanAdd db'.deleted de.block 1 Nat.one_pos with
      | none => trivial
      | some deleted => exact fun _ => rfl
    · exact fun h => absurd h Bool.false_ne_true
  exact wp_returns hw h rfl

/-- In any run, an entry that has been deleted is gone when the database is opened again,
unless another block holds a record of the same path or of one below it. -/
theorem deleted_gone_iff (env : Env) (torn : Torn) :
    ∀ s₀ s t : State, Opens env s₀ →
      Reachable (Step torn) env (fun _ _ => True) s₀ s →
      ∀ p de q, find p s.db.entries = some (de, .nil) → pathOf p s.db.entries = some q →
        Ends (Step torn) (fun db => dbDeleteEntry env db p) s true t →
        ∀ st, ∃ u, dbOpen env st t.flash = some u ∧
          (look u.1.entries q = none ↔
            ∀ r ∈ records env s.flash, r.block ≠ de.block → ¬ q <+: r.path) := by
  intro s₀ s t _ _ p de q hfind hq hends st
  obtain ⟨u, hu, ho⟩ := dbOpen_opened env st t.flash
  refine ⟨u, hu, ?_⟩
  rw [ho.look q (pathOf_ne_nil hq), opened, Option.map_eq_none_iff, scanned_eq_none,
    dbDeleteEntry_flash hfind hends]
  simp only [reaches, List.any_eq_false, decide_eq_true_eq, mem_records_set_zero]
  exact ⟨fun h r hr hne => h r ⟨hr, hne⟩, fun h r hr => h r hr.1 hr.2⟩

/-! ## A record from before a power loss -/

/-- Two records of one account, as a power loss between writing the new one and deleting the
old one leaves them. -/
def twoRecords : State :=
  afterOpen (plainEnv 16) (plainFlash [(8, 1, [nameField [97]]), (9, 2, [nameField [97]])])

def twoRecordsDeleted : State := afterCall (plainEnv 16) (.deleteEntry 0) twoRecords

/-- The deletion succeeds, and the account is back when the database is opened again. -/
theorem deleted_entry_comes_back :
    Opens (plainEnv 16) twoRecords ∧
    (find 0 twoRecords.db.entries).map Prod.snd = some .nil ∧
    pathOf 0 twoRecords.db.entries = some (splitPath [97]) ∧
    Ends Works (fun db => dbDeleteEntry (plainEnv 16) db 0) twoRecords true
      twoRecordsDeleted ∧
    look (afterOpen (plainEnv 16) twoRecordsDeleted.flash).db.entries (splitPath [97]) =
      some (8, 1, [nameField [97]]) := by
  refine ⟨opens_afterOpen _ _, by decide +kernel, by decide +kernel, ?_, by decide +kernel⟩
  exact ends_afterCall (plainEnv 16) (.deleteEntry 0) twoRecords (by decide +kernel)

/-- The only account of a storage, which stays deleted. -/
def oneRecord : State := afterOpen (plainEnv 16) (plainFlash [(8, 1, [nameField [97]])])

theorem deleted_gone_iff_oneRecord :
    ∃ u, dbOpen (plainEnv 16) ⟨false, false, false, 0⟩
        (afterCall (plainEnv 16) (.deleteEntry 0) oneRecord).flash = some u ∧
      (look u.1.entries (splitPath [97]) = none ↔
        ∀ r ∈ records (plainEnv 16) oneRecord.flash, r.block ≠ 8 →
          ¬ splitPath [97] <+: r.path) :=
  deleted_gone_iff (plainEnv 16) (fun _ _ _ => False) oneRecord oneRecord
    (afterCall (plainEnv 16) (.deleteEntry 0) oneRecord) (opens_afterOpen _ _) .start 0
    ⟨0, ⟨[97], by decide⟩, 1, 8, false, [nameField [97]]⟩ (splitPath [97])
    (by decide +kernel) (by decide +kernel)
    (ends_afterCall (plainEnv 16) (.deleteEntry 0) oneRecord (by decide +kernel)) _

end Sunela.Database
