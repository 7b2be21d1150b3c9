import Sunela.Verification.Failures.Held
import Sunela.Verification.Generation.Counting
import Sunela.Verification.Kinds.Fields
import Sunela.Verification.Move.Loops
import Sunela.Verification.Names.Identifiers

/-! # Calls keep accounts and directories apart

Only new fields of an account and new `ft_dir` fields can bring both kinds together. -/

namespace Sunela.Database

open Program Storage Span Block Fields Entry

/-- Each pointer refers to one entry, and every entry has the fields of one kind. -/
structure Kinds (db : Db) : Prop where
  held : Held db
  fields : ∀ e ∈ db.entries.entries, OneKind e.fields

variable {env : Env} {torn : Torn} {db db' : Db} {f : Flash} {p fuel : ℕ} {type : UInt8}

theorem Kinds.same (h : Kinds db) (hl : Leads db db.entries db') : Kinds db' :=
  ⟨h.held.same hl, hl.alike.symm.fields (P := fun _ fs => OneKind fs) h.fields⟩

theorem Kinds.modify (h : Kinds db) {g : DbEntry → DbEntry} (hg : ∀ e, (g e).ptr = e.ptr)
    (hf : ∀ e ∈ db.entries.entries, e.ptr = p → OneKind (g e).fields)
    (hl : Leads db (modify p g db.entries) db') : Kinds db' := by
  refine ⟨h.held.modify hg hl, hl.alike.symm.fields (P := fun _ fs => OneKind fs) fun e he => ?_⟩
  rw [modify_entries] at he
  obtain ⟨d, hd, rfl⟩ := List.mem_map.mp he
  by_cases hp : d.is p = true
  · rw [if_pos hp]
    exact hf d hd (is_iff.mp hp)
  · rw [if_neg hp]
    exact h.fields d hd

/-! ## Fields -/

theorem wp_dbChangeField_kinds (h : Kinds db) {data : Bytes}
    (hs : ∀ e ∈ db.entries.entries, e.ptr = p → Suits type e.fields) :
    wp (anyContract torn) (dbChangeField env db p type data) (fun r _ => Kinds r.2) f := by
  apply wp_mono wp_dbChangeField_alike
  intro r g hl
  rcases hl with hl | ⟨-, hl⟩
  · exact h.modify (g := withField type data) (fun _ => rfl)
      (fun e he hp => (h.fields e he).setField (hs e he hp) data) hl
  · exact h.same hl

/-- The fields of an entry for its place in the tree suit every entry. -/
theorem wp_changeLink_kinds (h : Kinds db) (ht : type = ftId ∨ type = ftPrev) {data : Bytes} :
    wp (anyContract torn) (dbChangeField env db p type data) (fun r _ => Kinds r.2) f :=
  wp_dbChangeField_kinds h fun e _ _ => suits_link e.fields ht

theorem wp_dbDeleteField_kinds (h : Kinds db) {i : ℕ} :
    wp (anyContract torn) (dbDeleteField env db p i) (fun r _ => Kinds r.2) f := by
  apply wp_mono wp_dbDeleteField_advanced
  intro r g hl
  rcases hl with ⟨hl, -⟩ | ⟨-, hs, -⟩
  · exact h.modify (g := withoutField i) (fun _ => rfl)
      (fun e he _ => (h.fields e he).sublist (List.eraseIdx_sublist _ _)) hl
  · exact h.same hs.leads

theorem wp_dbDeleteType_kinds (h : Kinds db) {e : DbEntry} :
    wp (anyContract torn) (dbDeleteType env db e type) (fun r _ => Kinds r.2) f := by
  unfold dbDeleteType
  cases e.fields.findIdx? fun f => f.type = type with
  | none => trivial
  | some i => exact wp_dbDeleteField_kinds h

theorem wp_sorted_kinds (h : Kinds db) :
    wp (anyContract torn) db.sorted (fun db' _ => Kinds db') f := by
  obtain ⟨db', hsort, G, generation, hperm, rfl⟩ := sorted_eq db
  rw [hsort]
  exact h.same ⟨Alike.of_siblings hperm, rfl, rfl⟩

theorem wp_dbMkdir_kinds (h : Kinds db) :
    wp (anyContract torn) (dbMkdir env db p) (fun db' _ => Kinds db') f := by
  unfold dbMkdir
  cases hfind : find p db.entries with
  | none => trivial
  | some r =>
      obtain ⟨e, ch⟩ := r
      obtain ⟨he, hp⟩ := mem_entries_of_find hfind
      by_cases hkind : dbIsDir (e, ch) = true ∨ dbIsAccount (e, ch) = true
      · simp only [hkind, if_true]
        trivial
      · simp only [hkind, if_false, wp_bind]
        obtain ⟨hdir, haccount⟩ := not_or.mp hkind
        obtain ⟨hd, rfl⟩ := dbIsDir_eq_false.mp (Bool.eq_false_iff.mpr hdir)
        have ha : accountFields e.fields = false := by simpa [dbIsAccount] using haccount
        refine wp_mono (wp_dbChangeField_kinds h fun d hmem hdp => ?_) fun r g hr => hr
        obtain rfl := h.held.linked.eq_of_ptr hmem he (hdp.trans hp.symm)
        exact suits_dir (not_describes ha hd)

/-! ## Entries -/

theorem wp_dbNewEntry_kinds (h : Kinds db) {name : CString} :
    wp (anyContract torn) (dbNewEntry env db name) (fun r _ => Kinds r.2) f := by
  apply wp_mono wp_dbNewEntry_alike
  intro r g hl
  rcases hl with hl | ⟨id, -, hdir, hfresh, ha⟩
  · exact h.same hl
  · refine ⟨h.held.newEntry rfl hfresh ha, ha.symm.fields (P := fun _ fs => OneKind fs) ?_⟩
    intro e he
    rcases mem_newEntry he with rfl | he
    · exact oneKind_single _
    · exact h.fields e he

theorem wp_dbDeleteEntry_kinds (h : Kinds db) :
    wp (anyContract torn) (dbDeleteEntry env db p) (fun r _ => Kinds r.2) f :=
  wp_mono (wp_and (wp_dbDeleteEntry_held h.held) wp_dbDeleteEntry_tree) fun _ _ hr =>
    ⟨hr.1, fun e he => h.fields e (hr.2 e he)⟩

theorem wp_dbUpdateSettings_kinds (h : Kinds db) {seq : UInt16} {payload : Bytes} :
    wp (anyContract torn) (dbUpdateSettings env db seq payload) (fun r _ => Kinds r.2) f :=
  wp_mono (wp_and (wp_dbUpdateSettings_held h.held) wp_dbUpdateSettings_entries) fun _ _ hr =>
    ⟨hr.1, fun e he => h.fields e (hr.2 ▸ he)⟩

/-! ## Renaming -/

theorem wp_patchOne_kinds (h : Kinds db) {newPrefix : Bytes} {k : ℕ} :
    wp (anyContract torn) (patchOne env db p newPrefix k) (fun r _ => Kinds r.2) f := by
  unfold patchOne
  repeat' split
  all_goals first
    | exact wp_changeLink_kinds h (.inl rfl)
    | trivial

theorem wp_patchRecursive_kinds (h : Kinds db) {newPrefix : Bytes} {k : ℕ} {F : Tree} :
    wp (anyContract torn) (patchRecursive env newPrefix k F db) (fun r _ => Kinds r.2) f := by
  induction F generalizing db f with
  | nil => exact h
  | node e ch nx hc hn =>
      simp only [patchRecursive, wp_bind]
      refine wp_mono (wp_patchOne_kinds h) ?_
      rintro ⟨ok, db₁⟩ g h₁
      cases ok with
      | false => exact h₁
      | true =>
          simp only [Bool.not_true, Bool.false_eq_true, if_false, wp_bind]
          refine wp_mono (hc h₁) ?_
          rintro ⟨ok, db₂⟩ g h₂
          cases ok with
          | false => exact h₂
          | true => exact hn h₂

theorem wp_dbRename_kinds (h : Kinds db) {name : CString} :
    wp (anyContract torn) (dbRename env db p name) (fun r _ => Kinds r.2) f := by
  unfold dbRename
  repeat' split
  all_goals first
    | exact wp_patchRecursive_kinds h
    | trivial

/-! ## Moving -/

theorem wp_followersRound_kinds (h : Kinds db) {q : Fw Db}
    (hq : followersRound env p db = some q) :
    wp (anyContract torn) q (fun db' _ => Kinds db') f := by
  unfold followersRound at hq
  cases hfind : find p db.entries with
  | none =>
      rw [hfind] at hq
      obtain rfl := Option.some.inj hq
      trivial
  | some r =>
      simp only [hfind] at hq
      cases hnext : follower db p (some r.1) with
      | none =>
          rw [hnext] at hq
          cases hq
      | some e2 =>
          simp only [hnext, Option.some.injEq] at hq
          subst hq
          rw [wp_bind]
          cases dbFieldFind r.1.fields ftPrev with
          | none => exact wp_mono (wp_dbDeleteType_kinds h) fun _ _ hr => hr
          | some x => exact wp_mono (wp_changeLink_kinds h (.inr rfl)) fun _ _ hr => hr

theorem wp_followers2Round_kinds (h : Kinds db) {after : Option DbEntry} {q : Fw Db}
    (hq : followers2Round env p after db = some q) :
    wp (anyContract torn) q (fun db' _ => Kinds db') f := by
  unfold followers2Round at hq
  cases hfind : find p db.entries with
  | none =>
      rw [hfind] at hq
      obtain rfl := Option.some.inj hq
      trivial
  | some r =>
      simp only [hfind] at hq
      cases hnext : follower db p after with
      | none =>
          rw [hnext] at hq
          cases hq
      | some e2 =>
          simp only [hnext, Option.some.injEq] at hq
          subst hq
          rw [wp_bind]
          exact wp_mono (wp_changeLink_kinds h (.inr rfl)) fun _ _ hr => hr

theorem wp_moveEntry_kinds (h : Kinds db) {after : Option DbEntry} :
    wp (anyContract torn) (moveEntry env db p after) (fun db' _ => Kinds db') f := by
  unfold moveEntry
  cases find p db.entries with
  | none => trivial
  | some r =>
      cases after with
      | some a =>
          simp only [wp_bind]
          exact wp_mono (wp_changeLink_kinds h (.inr rfl)) fun _ _ hr => wp_sorted_kinds hr
      | none =>
          simp only []
          cases dbFieldFind r.1.fields ftPrev with
          | none => exact wp_sorted_kinds h
          | some x =>
              simp only [wp_bind]
              exact wp_mono (wp_dbDeleteType_kinds h) fun _ _ hr => wp_sorted_kinds hr

theorem wp_dbMoveAfter_kinds (h : Kinds db) {after : Option ℕ} :
    wp (anyContract torn) (dbMoveAfter env fuel db p after) (fun db' _ => Kinds db') f := by
  have hgo : ∀ a : Option DbEntry, wp (anyContract torn) (do
      let db ← moveFollowers env fuel db p
      let db ← moveFollowers2 env fuel db p a
      moveEntry env db p a) (fun db' _ => Kinds db') f := by
    intro a
    rw [wp_bind, moveFollowers_eq]
    refine wp_mono (wp_restart_unbounded (I := Kinds) (fun _ _ => trivial)
      (fun _ _ _ hk hq => wp_followersRound_kinds hk hq) h) fun db₁ g h₁ => ?_
    rw [wp_bind, moveFollowers2_eq]
    refine wp_mono (wp_restart_unbounded (I := Kinds) (fun _ _ => trivial)
      (fun _ _ _ hk hq => wp_followers2Round_kinds hk hq) h₁.1) fun db₂ g h₂ => ?_
    exact wp_moveEntry_kinds h₂.1
  unfold dbMoveAfter
  by_cases hp : after = some p
  · rw [if_pos hp]
    exact h
  · rw [if_neg hp]
    cases after with
    | none => exact hgo none
    | some q =>
        simp only []
        cases find q db.entries with
        | none => trivial
        | some r => exact hgo (some r.1)

theorem wp_dbMoveBefore_kinds (h : Kinds db) {before : Option ℕ} :
    wp (anyContract torn) (dbMoveBefore env fuel db p before) (fun db' _ => Kinds db') f := by
  unfold dbMoveBefore
  repeat' split
  all_goals first
    | exact wp_dbMoveAfter_kinds h
    | trivial

end Sunela.Database
