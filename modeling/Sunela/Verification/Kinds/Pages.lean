import Sunela.Model.Pages
import Sunela.Verification.Kinds.Calls
import Sunela.Verification.Names.Pages
import Sunela.Verification.Support.PlainCrypt

/-! # The pages keep accounts and directories apart

The pages make directories only of entries that have no fields of an account yet, and they add
such fields only to entries that are no directories. -/

namespace Sunela.Accounts

open Program Storage Block Entry Fields Database TextEntry Hotp

variable {env : Env} {torn : Torn} {db db' : Db} {f : Flash} {p : ℕ} {hmacSha1 : HmacSha1}

/-- The entry has no `ft_dir` field. -/
def NoDir (db : Db) (p : ℕ) : Prop :=
  ∀ e ∈ db.entries.entries, e.ptr = p → ∀ g ∈ e.fields, g.type ≠ ftDir

theorem Lists.noDir (h : Lists db p) (hl : Linked db.entries) : NoDir db p := by
  obtain ⟨l, hlist, ⟨d, ch⟩, hr, hp, hdir⟩ := h
  intro e he hep
  have hd : d ∈ db.entries.entries := by
    rw [Forest.entries_eq_nodes]
    exact List.mem_map_of_mem (listing_parent hlist hr).2
  obtain rfl := hl.eq_of_ptr he hd (hep.trans hp.symm)
  exact (dbIsDir_eq_false.mp hdir).1

/-- The fields on the page of an account suit an entry without an `ft_dir` field. -/
theorem wp_edited_kinds (h : Kinds db) (hd : NoDir db p) {type : UInt8}
    (ht : type ∈ editedTypes) {data : Bytes} :
    wp (anyContract torn) (dbChangeField env db p type data) (fun r _ => Kinds r.2) f := by
  have hne : type ≠ ftDir := by
    rintro rfl
    exact absurd ht (by decide)
  exact wp_dbChangeField_kinds h fun e he hp => suits_account hne (hd e he hp)

theorem wp_deferUpdate_kinds (h : Kinds db) {defer : Bool} :
    wp (anyContract torn) (dbEntryDeferUpdate env db p defer)
      (fun r _ => Kinds r.2 ∧ (NoDir db p → NoDir r.2 p)) f := by
  apply wp_mono wp_dbEntryDeferUpdate_alike
  intro r g hl
  rcases hl with hl | hl
  · refine ⟨h.same hl, fun hd => ?_⟩
    exact hl.alike.symm.fields (P := fun q fs => q = p → ∀ g ∈ fs, g.type ≠ ftDir) hd
  · refine ⟨h.modify (g := fun e => { e with defer }) (fun _ => rfl)
      (fun e he _ => h.fields e he) hl, fun hd => ?_⟩
    refine hl.alike.symm.fields (P := fun q fs => q = p → ∀ g ∈ fs, g.type ≠ ftDir) fun e he => ?_
    rw [modify_entries] at he
    obtain ⟨d, hmem, rfl⟩ := List.mem_map.mp he
    by_cases hp : d.is p = true
    · rw [if_pos hp]
      exact hd d hmem
    · rw [if_neg hp]
      exact hd d hmem

theorem wp_confirmFieldDeletion_kinds (h : Kinds db) (hd : NoDir db p) {i : ℕ} :
    wp (anyContract torn) (confirmFieldDeletion env db p i) (fun r _ => Kinds r.2) f := by
  unfold confirmFieldDeletion
  cases find p db.entries with
  | none => trivial
  | some r =>
      simp only []
      cases r.1.fields[i]? with
      | none => trivial
      | some x =>
          simp only []
          cases (if x.type = ftPw then dbFieldFind r.1.fields ftPw2 else none) with
          | none => exact wp_dbDeleteField_kinds h
          | some f2 =>
              simp only [wp_bind]
              refine wp_mono (wp_deferUpdate_kinds h) fun r₁ _ h₁ => ?_
              refine wp_mono (wp_edited_kinds h₁.1 (h₁.2 hd) (by decide)) fun r₂ _ h₂ => ?_
              refine wp_mono (wp_dbDeleteType_kinds h₂) fun r₃ _ h₃ => ?_
              exact wp_mono (wp_deferUpdate_kinds h₃) fun r₄ _ h₄ => h₄.1

theorem wp_deleteField_kinds (h : Kinds db) (hd : NoDir db p) {i : ℕ} :
    wp (anyContract torn) (deleteField env db p i) (fun r _ => Kinds r.2) f := by
  unfold deleteField
  repeat' split
  all_goals first
    | exact wp_confirmFieldDeletion_kinds h hd
    | trivial

theorem wp_setCounterEntry {Q : UInt32 → Flash → Prop} (hQ : ∀ n, Q n f) :
    wp (anyContract torn) (setCounterEntry db p) Q f := by
  unfold setCounterEntry
  repeat' split
  all_goals first
    | exact hQ _
    | trivial

theorem wp_uiAccountTap_kinds (h : Kinds db) (hd : NoDir db p) {entry : Option DbField} :
    wp (anyContract torn) (uiAccountTap env hmacSha1 db p entry) (fun r _ => Kinds r.2) f := by
  unfold uiAccountTap
  cases entry with
  | none => exact h
  | some x =>
      simp only []
      cases find p db.entries with
      | none => trivial
      | some r =>
          simp only []
          split
          · trivial
          · split
            · exact h
            · simp only [wp_bind]
              refine wp_mono (wp_edited_kinds h hd (by decide)) fun r₁ _ h₁ => ?_
              exact wp_setCounterEntry fun _ => h₁
          · exact h

theorem wp_interaction_kinds (h : Kinds db) (i : Interaction) :
    wp (anyContract torn) (i.exec env db) (fun r _ => Kinds r.2) f := by
  cases i with
  | newEntry buf =>
      simp only [Interaction.exec, newEntryName]
      split
      · exact h
      · simp only [Call.exec, wp_bind]
        exact wp_mono (wp_dbNewEntry_kinds h) fun _ _ hr => hr
  | folderRename buf =>
      simp only [Interaction.exec, changedDirName]
      split
      · exact h
      · split
        · trivial
        · exact wp_dbRename_kinds h
  | accountRename selected buf =>
      simp only [Interaction.exec, changedAccountName]
      split
      · trivial
      · split
        · exact h
        · exact wp_dbRename_kinds h
  | makeDirectory selected =>
      simp only [Interaction.exec, makeDirectory, wp_bind]
      exact wp_mono (wp_dbMkdir_kinds h) fun _ _ hr => ⟨⟨hr.held.linked, hr.held.fresh⟩, hr.fields⟩
  | chdir dir => exact ⟨⟨h.held.linked, h.held.fresh⟩, h.fields⟩

theorem wp_action_kinds (h : Kinds db) {a : Action} (ha : a.Offered db) :
    wp (anyContract torn) (a.exec env hmacSha1 db) (fun r _ => Kinds r.2) f := by
  cases a with
  | interaction i => exact wp_interaction_kinds h i
  | fieldEdited selected type data =>
      simp only [Action.exec, fieldEdited]
      split
      · next ht => exact wp_edited_kinds h (Lists.noDir ha h.held.linked) ht
      · trivial
  | deleteField selected i => exact wp_deleteField_kinds h (Lists.noDir ha h.held.linked)
  | tap selected entry =>
      simp only [Action.exec, wp_bind]
      exact wp_mono (wp_uiAccountTap_kinds h (Lists.noDir ha h.held.linked)) fun _ _ hr => hr
  | confirmEntryDeletion selected => exact wp_dbDeleteEntry_kinds h
  | confirmDirDeletion =>
      simp only [Action.exec, confirmDirDeletion]
      split
      · trivial
      · simp only [wp_bind]
        exact wp_mono (wp_dbDeleteEntry_kinds h) fun _ _ hr =>
          ⟨⟨hr.held.linked, hr.held.fresh⟩, hr.fields⟩
  | moveTo fuel moving e =>
      simp only [Action.exec, wp_bind]
      exact wp_mono (wp_dbMoveBefore_kinds h) fun _ _ hr => hr
  | settingsUpdate seq payload => exact wp_dbUpdateSettings_kinds h

/-! ## Runs -/

/-- No entry passes for an account and for a directory. -/
def Exclusive (db : Db) : Prop :=
  ∀ r ∈ db.entries.nodes, ¬ (dbIsDir r = true ∧ dbIsAccount r = true)

instance (db : Db) : Decidable (Exclusive db) := List.decidableBAll _ _

theorem exclusive_of_kinds (h : Kinds db) : Exclusive db := by
  intro r hr
  have he : r.1 ∈ db.entries.entries := by
    rw [Forest.entries_eq_nodes]
    exact List.mem_map_of_mem hr
  exact (h.fields r.1 he).exclusive r.2

/-- Whatever fails, the pages do not mix what the storage has not mixed. -/
theorem acting_exclusive (env : Env) (torn : Torn) (hmacSha1 : HmacSha1) :
    ∀ s t : State, Opens env s → Unmixed (records env s.flash) →
      Acting (Step torn) env hmacSha1 s t → Exclusive t.db := by
  intro s t hs hu hr
  have h : Kinds t.db := by
    induction hr with
    | start =>
        have ho := hs.opened
        exact ⟨⟨ho.linked, fun e he => (ho.handles e he).1⟩, ho.oneKind_iff.mpr hu⟩
    | next _ ha ends ih => exact wp_returns (K := anyContract torn) (wp_action_kinds ih ha) ends
  exact exclusive_of_kinds h

/-- An account `a` with a user name. -/
def userAccount : Flash := plainFlash [(8, 1, [nameField [97], .ofData ftUser [120]])]

def emailAdded (db : Db) : Fw (Bool × Db) :=
  (Action.fieldEdited 0 ftEmail [121]).exec (plainEnv 16) (fun _ _ => []) db

def emailAccount : State := afterRun emailAdded (afterOpen (plainEnv 16) userAccount)

theorem unmixed_userAccount : Unmixed (records (plainEnv 16) userAccount) := by
  have hrec : records (plainEnv 16) userAccount =
      [⟨8, 1, splitPath [97], [nameField [97], .ofData ftUser [120]]⟩] := by decide +kernel
  intro q r hr _
  obtain ⟨hmem, rfl⟩ := newest_mem hr
  rw [hrec] at hmem ⊢
  obtain rfl := List.mem_singleton.mp hmem
  decide +kernel

theorem acting_exclusive_email : Exclusive emailAccount.db := by
  have hlists : Lists (afterOpen (plainEnv 16) userAccount).db 0 := by decide +kernel
  have hends : Ends Works emailAdded (afterOpen (plainEnv 16) userAccount) true emailAccount :=
    ends_afterRun emailAdded _ (by decide +kernel)
  exact acting_exclusive (plainEnv 16) (fun _ _ _ => False) (fun _ _ => [])
    (afterOpen (plainEnv 16) userAccount) emailAccount (opens_afterOpen _ _) unmixed_userAccount
    (.next (a := .fieldEdited 0 ftEmail [121]) .start hlists hends)

/-! ## Accounts that are directories -/

/-- The entry `a` has a user name and an `ft_dir` field. -/
def mixedEntry : State :=
  afterOpen (plainEnv 16)
    (plainFlash [(8, 1, [nameField [97], .ofData ftUser [120], .ofData ftDir []])])

/-- The account `a` has a user name, and the account `b` is in it. -/
def mixedFolder : State :=
  afterOpen (plainEnv 16)
    (plainFlash [(8, 1, [nameField [97], .ofData ftUser [120]]), (9, 1, [nameField [97, 0, 98]])])

def folderOpened (db : Db) : Fw (Bool × Db) :=
  (Action.interaction (.chdir (some 0))).exec (plainEnv 16) (fun _ _ => []) db

def accountDeleted (db : Db) : Fw (Bool × Db) :=
  (Action.confirmEntryDeletion 2).exec (plainEnv 16) (fun _ _ => []) db

/-- What has been opened is both at once, or becomes so when its only entry is deleted. -/
theorem mixed_not_exclusive :
    (Opens (plainEnv 16) mixedEntry ∧ ¬ Exclusive mixedEntry.db) ∧
    Opens (plainEnv 16) mixedFolder ∧ Exclusive mixedFolder.db ∧
    ∃ t, Acting Works (plainEnv 16) (fun _ _ => []) mixedFolder t ∧ ¬ Exclusive t.db := by
  refine ⟨⟨opens_afterOpen _ _, by decide +kernel⟩, opens_afterOpen _ _, by decide +kernel,
    afterRun accountDeleted (afterRun folderOpened mixedFolder), ?_, by decide +kernel⟩
  have hopen : Ends Works folderOpened mixedFolder true (afterRun folderOpened mixedFolder) :=
    ends_afterRun folderOpened _ (by decide +kernel)
  have hlists : Lists (afterRun folderOpened mixedFolder).db 2 := by decide +kernel
  have hdelete : Ends Works accountDeleted (afterRun folderOpened mixedFolder) true
      (afterRun accountDeleted (afterRun folderOpened mixedFolder)) :=
    ends_afterRun accountDeleted _ (by decide +kernel)
  exact .next (a := .confirmEntryDeletion 2)
    (.next (a := .interaction (.chdir (some 0))) .start trivial hopen) hlists hdelete

end Sunela.Accounts
