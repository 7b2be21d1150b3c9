import Sunela.Verification.Failures.Fields

/-! # Entries that are neither created nor deleted

An entry whose record cannot be written stays in the tree, and one whose record cannot be deleted
is gone from it. -/

namespace Sunela.Database

open Program Storage Span Block Fields Entry

variable {env : Env} {torn : Torn} {db db' : Db} {f g : Flash} {p : ℕ} {de : DbEntry}
  {ch : Tree} {failed : Bool}

/-! ## New entries -/

/-- The record of a new entry always fits. -/
theorem encodes_single (type : UInt8) (data : Bytes) : Encodes [.ofData type data] := by
  have hlt := (DbField.ofData type data).fits
  have hroom : ¬ storageBlockSize < (DbField.ofData type data).data.length + 2 := by
    rw [storageBlockSize]
    omega
  unfold Encodes
  rw [encodeFields, if_neg hroom, encodeFields]
  rfl

theorem newId_returns {name : CString} {id : Bytes} {s t : Flash × Bool}
    (h : Returns (Recording torn) (newId db name) s id t) : newId db name = .ret id ∧ t = s := by
  cases hid : newId db name with
  | ret a =>
      rw [hid] at h
      obtain ⟨he, ht⟩ := reaches_ret.mp h
      exact ⟨he.symm, ht⟩
  | halt =>
      rw [hid] at h
      cases h
  | undef =>
      rw [hid] at h
      cases h
  | call c next =>
      exfalso
      unfold newId at hid
      repeat' split at hid
      all_goals cases hid

/-- A new entry has a place in the tree. -/
theorem dir_of_newId {name : CString} {id : Bytes} (h : newId db name = .ret id) :
    ∀ d, db.dir = some d → (find d db.entries).isSome := by
  intro d hd
  rcases newId_cases h with ⟨hnone, -⟩ | ⟨d', parent, ch, -, -, hdir, hfind, -⟩
  · rw [hd] at hnone
    cases hnone
  · rw [hd] at hdir
    rw [Option.some.inj hdir, hfind]
    rfl

theorem mem_newEntry_of_dir (h : Held db)
    (hd : ∀ d, db.dir = some d → (find d db.entries).isSome) (new : DbEntry) :
    new ∈ (newEntry db.dir new db.entries).entries := by
  obtain ⟨c, hc⟩ := h.linked.parents_eq hd
  apply (newEntry_entries db.dir new db.entries).mem_iff.mpr
  rw [hc]
  exact List.mem_append_right _ List.mem_cons_self

/-- How a call of `db_new_entry` can end. -/
inductive NewEntryOutcome (db : Db) : Option ℕ → Db → Bool → Prop where
  | refused {db' : Db} {failed : Bool} (empty : db.erased.blocks = [])
      (tree : db'.entries = db.entries) : NewEntryOutcome db none db' failed
  | added {r : Option ℕ} {db' : Db} {failed : Bool} (erased : db.erased.blocks ≠ [])
      (result : r = none ↔ failed = true) {e : DbEntry} (entry : e ∈ db'.entries.entries)
      (ptr : e.ptr = db.fresh) : NewEntryOutcome db r db' failed

theorem dbNewEntry_outcome (h : Held db) (hi : db.erased.Intact) {name : CString} {r : Option ℕ}
    (hr : Returns (Recording torn) (dbNewEntry env db name) (f, false) (r, db') (g, failed)) :
    NewEntryOutcome db r db' failed := by
  unfold dbNewEntry at hr
  obtain ⟨⟨new, db₁⟩, u, hget, hr⟩ := returns_bind hr
  rcases getErasedBlock_noted hi hget with ⟨hnone, hempty⟩ | ⟨n, rest, he, rfl, hrest, hb⟩
  · obtain rfl : new = none := hnone
    obtain ⟨he, -⟩ := reaches_ret.mp hr
    simp only [Prog.ret.injEq, Prod.mk.injEq] at he
    obtain ⟨rfl, rfl⟩ := he
    have htree := wp_returns (K := anyContract torn) (wp_erasedLoop_tree _) hget.unnoted
    exact .refused hempty htree.entries
  · obtain ⟨rfl, rfl⟩ := Prod.mk.inj he
    simp only [] at hr
    obtain ⟨seq, u, hseq, hr⟩ := returns_bind hr
    have hw : wp (noteContract (Recording torn)) (rndBytes 2) (fun _ t => t = (f, false))
        (f, false) := wp_rndBytes_noted fun _ _ => rfl
    have hu := wp_returns (K := noteContract (Recording torn)) hw hseq
    subst hu
    obtain ⟨id, u, hid, hr⟩ := returns_bind hr
    obtain ⟨hnew, rfl⟩ := newId_returns hid
    generalize hde : (⟨db.fresh, name, seqOfBytes (seq.getD 0 0) (seq.getD 1 0), n, false,
      addField [] ftId id⟩ : DbEntry) = de
    have hptr : de.ptr = db.fresh := by rw [← hde]
    have hfits : Encodes de.fields := by
      rw [← hde]
      exact encodes_single ftId id
    have hmem : de ∈ (newEntry db.dir de db.entries).entries :=
      mem_newEntry_of_dir h (dir_of_newId hnew) de
    obtain ⟨db₂, hsort, G, generation, hperm, rfl⟩ := sorted_eq
      { (db.popped n rest).changed.changed with
        entries := newEntry db.dir de db.entries, fresh := db.fresh + 1 }
    simp only [Db.changed, Db.popped] at hsort hr hde
    rw [hde, hsort, Prog.ret_bind] at hr
    have hG : de ∈ G.entries :=
      (Forest.entries_perm (Forest.chains_perm hperm)).mem_iff.mpr hmem
    obtain ⟨⟨ok, db₃⟩, ⟨g₃, b⟩, hwrite, hr⟩ := returns_bind hr
    obtain ⟨hstored, hentries, -⟩ :=
      wp_returns (K := noteContract (Recording torn)) wp_writeEntry_noted hwrite
    have hok : ok = true ↔ b = false := hstored.trans (and_iff_right hfits)
    have hne : db.erased.blocks ≠ [] := by
      rw [hb]
      exact List.cons_ne_nil _ _
    cases ok with
    | true =>
        obtain ⟨he, ht⟩ := reaches_ret.mp hr
        simp only [Prog.ret.injEq, Prod.mk.injEq] at he ht
        obtain ⟨rfl, rfl⟩ := he
        refine .added hne ?_ (hentries ▸ hG) hptr
        rw [ht.2, hok.mp rfl]
        simp
    | false =>
        obtain ⟨⟨done, db₄⟩, ⟨g₄, b'⟩, hdisc, hr⟩ := returns_bind hr
        obtain ⟨htree, -, hb'⟩ :=
          wp_returns (K := noteContract (Recording torn)) wp_discard_noted hdisc
        obtain ⟨he, ht⟩ := reaches_ret.mp hr
        simp only [Prog.ret.injEq, Prod.mk.injEq] at he ht
        obtain ⟨rfl, rfl⟩ := he
        refine .added hne ?_ (htree.trans hentries ▸ hG) hptr
        have hb : b = true := by
          cases b with
          | true => rfl
          | false => exact absurd (hok.mpr rfl) (by decide)
        simp [ht.2, show b' = b from hb', hb]

/-! ## Deleted entries -/

/-- A write has failed. -/
def failedWrite : (c : Cmd) → Reply c → Bool
  | .write _ _, ok => !ok
  | .read _, _ => false
  | .erase _ _, _ => false
  | .random _, _ => false

/-- The entry is taken out of the tree in any case, and the call fails exactly if its block cannot
be deleted. -/
theorem wp_dbDeleteEntry_noted (hfind : find p db.entries = some (de, ch)) :
    wp (noteContract (Noting (Step torn) failedWrite)) (dbDeleteEntry env db p) (fun r t =>
      (r.1 = false ↔ t.2 = true) ∧ ∀ e ∈ r.2.entries.entries, e.ptr ≠ p) (f, false) := by
  obtain ⟨db₁, hsort, G, generation, hperm, rfl⟩ :=
    sorted_eq { db with entries := db.entries.remove (DbEntry.is p) }
  have hgone : ∀ e ∈ G.entries, e.ptr ≠ p := by
    intro e he hp
    have hmem := (Forest.entries_perm (Forest.chains_perm hperm)).mem_iff.mp he
    obtain ⟨c, hc, hl⟩ := Forest.mem_entries_iff.mp hmem
    rw [Forest.chains_remove] at hc
    have hall := List.all_eq_true.mp (List.mem_filter.mp hc).2 e (List.mem_of_getLast? hl)
    rw [is_iff.mpr hp] at hall
    cases hall
  unfold dbDeleteEntry
  simp only [hfind, hsort, Prog.ret_bind]
  unfold discard blockDelete
  rw [wp_bind, wp_bind]
  split
  · trivial
  · refine ⟨trivial, fun r t hstep => ?_⟩
    cases hstep with
    | step h =>
        cases r with
        | false => exact ⟨by simp [failedWrite], hgone⟩
        | true =>
            simp only []
            cases spanAdd db.deleted de.block 1 Nat.one_pos with
            | none => trivial
            | some deleted => exact ⟨by simp [failedWrite], hgone⟩

/-! ## Calls -/

/-- In every state that calls lead to, `db_new_entry` fails without a trace exactly if there is no
erased block or no record fails to be written, and `db_delete_entry` if its write does not fail. -/
theorem entryCall_failed (ht : Tears env torn) {s u : State} (ho : Opens env s)
    (hrun : Reachable (Step torn) env Careful s u) :
    (∀ name r db' g failed, Returns (Recording torn) (dbNewEntry env u.db name) (u.flash, false)
        (r, db') (g, failed) →
      ((r = none → db'.entries = u.db.entries) ↔
        u.db.erased.blocks = [] ∨ failed = false)) ∧
    ∀ p ok db' g failed, Returns (Noting (Step torn) failedWrite) (dbDeleteEntry env u.db p)
        (u.flash, false) (ok, db') (g, failed) →
      ((ok = false → db'.entries = u.db.entries) ↔ failed = false) := by
  have ha := reachable_alloc ht ho hrun
  have hh := reachable_held ho hrun
  constructor
  · intro name r db' g failed hr
    cases dbNewEntry_outcome hh ha.intact.1 hr with
    | refused hempty htree => exact iff_of_true (fun _ => htree) (.inl hempty)
    | added herased hresult hentry hptr =>
        have hne : db'.entries ≠ u.db.entries := by
          intro he
          rw [he] at hentry
          have hlt := hh.fresh _ hentry
          omega
        rw [or_iff_right herased]
        constructor
        · intro h
          by_contra hf
          exact hne (h (hresult.mpr (by simpa using hf)))
        · intro hf hnone
          rw [hresult.mp hnone] at hf
          cases hf
  · intro p ok db' g failed hr
    cases hfind : find p u.db.entries with
    | none =>
        unfold dbDeleteEntry at hr
        rw [hfind] at hr
        cases hr
    | some x =>
        obtain ⟨de, ch⟩ := x
        obtain ⟨hok, hgone⟩ := wp_returns (K := noteContract (Noting (Step torn) failedWrite))
          (wp_dbDeleteEntry_noted hfind) hr
        have hok : ok = false ↔ failed = true := hok
        obtain ⟨hmem, hptr⟩ := mem_entries_of_find hfind
        have hne : db'.entries ≠ u.db.entries := by
          intro he
          exact hgone de (he ▸ hmem) hptr
        constructor
        · intro h
          by_contra hf
          exact hne (h (hok.mpr (by simpa using hf)))
        · intro hf hfalse
          rw [hok.mp hfalse] at hf
          cases hf

/-- The storage after an attempt to add an account and to delete one. -/
def fullStorageAdded : State :=
  refusedState failedRecord [] (fun db => dbNewEntry (plainEnv 10) db ⟨[99], by decide⟩) fullStorage

def fullStorageDeleted : State :=
  refusedState failedWrite [] (fun db => dbDeleteEntry (plainEnv 10) db 0) fullStorage

theorem entryCall_failed_full :
    ((none = (none : Option ℕ) → fullStorageAdded.db.entries = fullStorage.db.entries) ↔
      fullStorage.db.erased.blocks = [] ∨ false = false) ∧
    ((true = false → fullStorageDeleted.db.entries = fullStorage.db.entries) ↔ false = false) := by
  have hnew := returns_refusedState failedRecord []
    (fun db => dbNewEntry (plainEnv 10) db ⟨[99], by decide⟩) fullStorage none false
    (by decide +kernel) (by decide +kernel)
  have hdel := returns_refusedState failedWrite [] (fun db => dbDeleteEntry (plainEnv 10) db 0)
    fullStorage true false (by decide +kernel) (by decide +kernel)
  have h := entryCall_failed (tears_unchanged (plainEnv 10)) (s := fullStorage) (u := fullStorage)
    (opens_afterOpen _ _) .start
  exact ⟨h.1 _ _ _ _ _ hnew, h.2 _ _ _ _ _ hdel⟩

/-- The states after a new account whose record cannot be written, and after an account whose
block cannot be deleted. -/
def loneRecordAdded : State :=
  refusedState failedRecord [9] (fun db => dbNewEntry (plainEnv 16) db ⟨[99], by decide⟩) loneRecord

def loneRecordDeleted : State :=
  refusedState failedWrite [8] (fun db => dbDeleteEntry (plainEnv 16) db 0) loneRecord

/-- Both calls fail, but the new account is in the tree, and the deleted one is not. -/
theorem entryCall_failed_write :
    Opens (plainEnv 16) loneRecord ∧
    (Returns (Recording unchanged) (dbNewEntry (plainEnv 16) loneRecord.db ⟨[99], by decide⟩)
        (loneRecord.flash, false) (none, loneRecordAdded.db) (loneRecordAdded.flash, true) ∧
      loneRecord.db.entries.entries.map DbEntry.name = [⟨[97], by decide⟩] ∧
      loneRecordAdded.db.entries.entries.map DbEntry.name =
        [⟨[97], by decide⟩, ⟨[99], by decide⟩]) ∧
    Returns (Noting (Step unchanged) failedWrite) (dbDeleteEntry (plainEnv 16) loneRecord.db 0)
        (loneRecord.flash, false) (false, loneRecordDeleted.db) (loneRecordDeleted.flash, true) ∧
      loneRecordDeleted.db.entries = .nil := by
  have hnew := returns_refusedState failedRecord [9]
    (fun db => dbNewEntry (plainEnv 16) db ⟨[99], by decide⟩) loneRecord none true
    (by decide +kernel) (by decide +kernel)
  have hdel := returns_refusedState failedWrite [8] (fun db => dbDeleteEntry (plainEnv 16) db 0)
    loneRecord false true (by decide +kernel) (by decide +kernel)
  exact ⟨opens_afterOpen _ _, ⟨hnew, by decide +kernel, by decide +kernel⟩, hdel,
    by decide +kernel⟩

end Sunela.Database
