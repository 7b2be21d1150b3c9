import Sunela.Verification.Generation.Counting
import Sunela.Verification.Move.Rewire

/-! # Whether a change is visible in the generation

Most changes advance the generation a fixed number of times. A rename does so for each entry whose
path changes, and a move for each reference that it rewrites. -/

namespace Sunela.Database

open Program Storage Span Block Fields Entry Tsort

variable {env : Env} {torn : Torn} {db db' : Db} {f : Flash} {e x : DbEntry} {p : ℕ}
  {after : Option DbEntry}

/-! ## Loops -/

/-- A loop as in `Rounds`, of which each round advances the generation, unless it is refused. -/
def Counts (torn : Torn) (e : DbEntry) (P : List DbField → Prop)
    (k : List DbField → List DbField) (step : Db → Option (Fw Db)) : Prop :=
  ∀ db q f, Moving e db → step db = some q → ∃ x ∈ others e.ptr db.entries, P x.fields ∧
    wp (anyContract torn) q (fun db' _ =>
      Leads db (modify x.ptr (onFields k) db.entries) db' ∧ Advanced db 1 db' ∨
        SameTree db db' ∧ Advanced db 0 db') f

variable {P : List DbField → Prop} {k : List DbField → List DbField}
  {step : Db → Option (Fw Db)} {U : List DbField → List (List DbField)}

theorem Moving.same (h : Moving e db) (hs : SameTree db db') : Moving e db' :=
  ⟨hs.entries ▸ h.linked, hs.entries ▸ h.found⟩

/-- If a follower stays one, then the loop does not end. -/
theorem Counts.endless (C : Counts torn e P k step) (R : Rounds env e P k step)
    (hP : ∀ fs, P fs → P (k fs)) (hm : Moving e db)
    (hx : ∃ x ∈ others e.ptr db.entries, P x.fields) {fuel : ℕ} :
    wp (anyContract torn) (restart step fuel db) (fun _ _ => False) f := by
  refine wp_mono (wp_restart_unbounded (I := fun db => Moving e db ∧
    ∃ x ∈ others e.ptr db.entries, P x.fields) (fun _ _ => trivial) ?_ ⟨hm, hx⟩) ?_
  · rintro db f q ⟨hm, -⟩ hstep
    obtain ⟨x, hx, hPx, hw⟩ := C db q f hm hstep
    refine wp_mono hw ?_
    rintro db' g (⟨hl, -⟩ | ⟨hs, -⟩)
    · refine ⟨hm.change hx hl.alike, ?_⟩
      by_contra hnone
      have hall : ∀ y ∈ others e.ptr db'.entries, ¬ P y.fields := fun y hy hPy =>
        hnone ⟨y, hy, hPy⟩
      have hleft := (forall_others_change hm.linked hx hl.alike (B := fun fs => ¬ P fs)).mp hall
      exact hleft.1 (hP _ hPx)
    · exact ⟨hm.same hs, x, hs.entries ▸ hx, hPx⟩
  · rintro db f ⟨⟨hm, x, hx, hPx⟩, hdone⟩
    exact R.done hm hdone x hx hPx

/-- What a loop leaves has been reached by as many changes as there are fewer to come. -/
structure Tallied (U : List DbField → List (List DbField)) (P : List DbField → Prop)
    (e : DbEntry) (db db' : Db) : Prop where
  moving : Moving e db'
  done : ∀ x ∈ others e.ptr db'.entries, ¬ P x.fields
  count : ∃ n, Advanced db n db' ∧
    rounds U e.ptr db.entries = n + rounds U e.ptr db'.entries

/-- A loop that ends has advanced the generation with every version that it has stored. -/
theorem Counts.wp (C : Counts torn e P k step) (R : Rounds env e P k step)
    (hU : (∀ fs, P fs → U fs = k fs :: U (k fs)) ∨ ∀ fs, P fs → P (k fs)) (hm : Moving e db)
    {fuel : ℕ} :
    Program.wp (anyContract torn) (restart step fuel db)
      (fun db' _ => Tallied U P e db db') f := by
  rcases hU with hU | hP
  · refine wp_mono (wp_restart_unbounded (I := fun db' => Moving e db' ∧ ∃ n, Advanced db n db' ∧
      rounds U e.ptr db.entries = n + rounds U e.ptr db'.entries) (fun _ _ => trivial) ?_
      ⟨hm, 0, .refl db, (Nat.zero_add _).symm⟩) ?_
    · rintro db₁ f₁ q ⟨hm₁, n, h₁, hn⟩ hstep
      obtain ⟨x, hx, hPx, hw⟩ := C db₁ q f₁ hm₁ hstep
      refine wp_mono hw ?_
      rintro db₂ g (⟨hl, h₂⟩ | ⟨hs, h₂⟩)
      · have hleft := rounds_change hm₁.linked hx (hU _ hPx) hl.alike
        refine ⟨hm₁.change hx hl.alike, n + 1, h₁.trans h₂, ?_⟩
        omega
      · refine ⟨hm₁.same hs, n, h₁.trans h₂, ?_⟩
        rw [hs.entries]
        exact hn
    · rintro db' g ⟨⟨hm', hcount⟩, hdone⟩
      exact ⟨hm', R.done hm' hdone, hcount⟩
  · by_cases hx : ∃ x ∈ others e.ptr db.entries, P x.fields
    · exact wp_mono (C.endless R hP hm hx) fun _ _ h => h.elim
    · have hnone : ∀ x ∈ others e.ptr db.entries, ¬ P x.fields := fun x h hPx => hx ⟨x, h, hPx⟩
      cases fuel with
      | zero => trivial
      | succ fuel =>
          rw [R.idle hm hnone]
          exact ⟨hm, hnone, 0, .refl db, (Nat.zero_add _).symm⟩

theorem wp_dbDeleteType_advanced (hl : Linked db.entries) (hx : x ∈ db.entries.entries)
    {data : Bytes} (hprev : prevData x.fields = some data) :
    wp (anyContract torn) (dbDeleteType env db x ftPrev) (fun r _ =>
      Leads db (modify x.ptr (onFields unprev) db.entries) r.2 ∧ Advanced db 1 r.2 ∨
        r.1 = false ∧ SameTree db r.2 ∧ Advanced db 0 r.2) f := by
  obtain ⟨i, -, hsame, heq⟩ := dbDeleteType_field env hl hx hprev
  rw [heq, ← hsame]
  exact wp_dbDeleteField_advanced

theorem wp_setPrev_advanced {data : Bytes} :
    wp (anyContract torn) (dbChangeField env db p ftPrev data) (fun r _ =>
      Leads db (modify p (onFields fun fs => setField fs ftPrev data) db.entries) r.2 ∧
          Advanced db 1 r.2 ∨
        r.1 = false ∧ SameTree db r.2 ∧ Advanced db 0 r.2) f := by
  rw [← withField_prev]
  exact wp_dbChangeField_advanced

theorem counts_followers (e : DbEntry) :
    Counts torn e (fun fs => prevData fs = some e.name.bytes) (relink e)
      (followersRound env e.ptr) := by
  intro db q f hm h
  obtain ⟨d, ch, hfind, hface⟩ := hm.found
  have hname : d.name = e.name := congrArg (fun t => t.2.1) hface
  have hfields : d.fields = e.fields := congrArg (fun t => t.2.2.2) hface
  simp only [followersRound, hfind] at h
  split at h
  · cases h
  · next e2 hfollow =>
      obtain rfl := Option.some.inj h
      obtain ⟨hx, hprev⟩ := follower_some hfollow
      refine ⟨e2, hx, by simpa [hname] using hprev, ?_⟩
      unfold relink prevData
      rw [wp_bind, ← hfields]
      cases dbFieldFind d.fields ftPrev with
      | some g => exact wp_mono wp_setPrev_advanced fun r _ hr => hr.imp_right And.right
      | none =>
          have hmem := mem_entries_of_top (mem_others.mp hx).1
          exact wp_mono (wp_dbDeleteType_advanced hm.linked hmem hprev) fun r _ hr =>
            hr.imp_right And.right

theorem counts_followers2 (e : DbEntry) (after : Option DbEntry) :
    Counts torn e (fun fs => prevData fs = after.map fun d => d.name.bytes)
      (fun fs => setField fs ftPrev e.name.bytes) (followers2Round env e.ptr after) := by
  intro db q f hm h
  obtain ⟨d, ch, hfind, hface⟩ := hm.found
  have hname : d.name = e.name := congrArg (fun t => t.2.1) hface
  simp only [followers2Round, hfind] at h
  split at h
  · cases h
  · next e2 hfollow =>
      obtain rfl := Option.some.inj h
      obtain ⟨hx, hprev⟩ := follower_some hfollow
      refine ⟨e2, hx, hprev, ?_⟩
      rw [wp_bind, hname]
      exact wp_mono wp_setPrev_advanced fun r _ hr => hr.imp_right And.right

/-! ## Moves -/

/-- A follower with the name that it gets stays a follower. -/
theorem relink_self {fs : List DbField} (h : prevData e.fields = some e.name.bytes) :
    prevData (relink e fs) = some e.name.bytes := by
  simp only [relink, h]
  rw [prevData_setField, DbField.ofData_data _ (prevData_length h)]

/-- Both loops together rewrite the references that `moveUpdates` lists. -/
theorem wp_loops_advanced (hm : Moving e db) {fuel : ℕ} :
    wp (anyContract torn) (do
      let db ← moveFollowers env fuel db e.ptr
      moveFollowers2 env fuel db e.ptr after) (fun db' _ => Moving e db' ∧
      Advanced db (rounds (moveUpdates e (nameData after)) e.ptr db.entries) db') f := by
  have hfirst : (∀ fs, prevData fs = some e.name.bytes →
      moveUpdates e (nameData after) fs =
        relink e fs :: moveUpdates e (nameData after) (relink e fs)) ∨
      ∀ fs, prevData fs = some e.name.bytes → prevData (relink e fs) = some e.name.bytes := by
    by_cases hself : prevData e.fields = some e.name.bytes
    · exact .inr fun fs _ => relink_self hself
    · exact .inl fun fs => moveUpdates_eq hself
  have hsecond : (∀ fs, prevData fs = nameData after →
      follower2Updates e (nameData after) fs = setField fs ftPrev e.name.bytes ::
        follower2Updates e (nameData after) (setField fs ftPrev e.name.bytes)) ∨
      ∀ fs, prevData fs = nameData after →
        prevData (setField fs ftPrev e.name.bytes) = nameData after := by
    by_cases hname : nameData after = some (DbField.ofData ftPrev e.name.bytes).data
    · exact .inr fun fs _ => by rw [prevData_setField, hname]
    · exact .inl fun fs => follower2Updates_eq hname
  rw [wp_bind, moveFollowers_eq]
  refine wp_mono ((counts_followers e).wp (rounds_followers e) hfirst hm) ?_
  rintro db₁ g ⟨hm₁, hdone₁, n, h₁, hn⟩
  rw [moveFollowers2_eq]
  refine wp_mono ((counts_followers2 e after).wp (rounds_followers2 e after) hsecond hm₁) ?_
  rintro db₂ g ⟨hm₂, hdone₂, m, h₂, hk⟩
  have hrest : rounds (moveUpdates e (nameData after)) e.ptr db₁.entries =
      rounds (follower2Updates e (nameData after)) e.ptr db₁.entries :=
    rounds_congr fun x hx => moveUpdates_nil (hdone₁ x hx)
  have hzero : rounds (follower2Updates e (nameData after)) e.ptr db₂.entries =
      rounds (fun _ => []) e.ptr db₂.entries :=
    rounds_congr fun x hx => if_neg (hdone₂ x hx)
  have hnone : rounds (fun _ => []) e.ptr db₂.entries = 0 := by simp [rounds, total]
  refine ⟨hm₂, ?_⟩
  rw [hn, hrest, hk, hzero, hnone, Nat.add_zero]
  exact h₁.trans h₂

theorem Moving.ne_nil (h : Moving e db) : db.entries ≠ .nil := by
  obtain ⟨d, ch, hfind, -⟩ := h.found
  exact ne_nil_of_find hfind

theorem Leads.ne_nil {X : Tree} (h : Leads db X db') (hX : X ≠ .nil) : db'.entries ≠ .nil := by
  intro hnil
  have hlen := h.alike.entries.length_eq
  rw [hnil] at hlen
  cases X with
  | nil => exact hX rfl
  | node e ch nx => simp [Forest.entries] at hlen

theorem wp_moveEntryDone_advanced (hm : Moving e db) :
    wp (anyContract torn) (moveEntryDone env db e.ptr after) (fun r _ => r.1 = true →
      Advanced db ((entryUpdates (nameData after) e.fields).length + 1) r.2) f := by
  obtain ⟨d, ch, hfind, hface⟩ := hm.found
  have hfields : d.fields = e.fields := congrArg (fun t => t.2.2.2) hface
  have hne := hm.ne_nil
  -- a change that has been made, and the final sorting
  have hsort : ∀ {g : DbEntry → DbEntry} {r : Bool × Db},
      (Leads db (modify e.ptr g db.entries) r.2 ∧ Advanced db 1 r.2 ∨
        r.1 = false ∧ SameTree db r.2 ∧ Advanced db 0 r.2) → ∀ {h : Flash},
      wp (anyContract torn) (r.2.sorted >>= fun db => .ret (r.1, db))
        (fun r _ => r.1 = true → Advanced db 2 r.2) h := by
    rintro g ⟨ok, db₁⟩ hr h
    obtain ⟨db₂, hs, -⟩ := sorted_eq db₁
    simp only [hs, Prog.ret_bind]
    intro hok
    rcases hr with ⟨hl, h₁⟩ | ⟨hf, -⟩
    · have h₂ := sorted_advanced hs
      rw [if_neg (hl.ne_nil fun hn => hne (modify_eq_nil.mp hn))] at h₂
      exact h₁.trans h₂
    · exact absurd (hf.symm.trans hok) Bool.false_ne_true
  unfold moveEntryDone
  simp only [hfind]
  cases after with
  | some a =>
      rw [wp_bind]
      exact wp_mono wp_dbChangeField_advanced fun r g hr => hsort hr
  | none =>
      have hprev : (prevData e.fields).isSome = (dbFieldFind d.fields ftPrev).isSome := by
        rw [prevData, hfields, Option.isSome_map]
      cases hp : dbFieldFind d.fields ftPrev with
      | none =>
          obtain ⟨db₂, hs, -⟩ := sorted_eq db
          have h₂ := sorted_advanced hs
          rw [if_neg hne] at h₂
          rw [hp] at hprev
          simp only [hs, Prog.ret_bind, entryUpdates, nameData, Option.map_none, hprev]
          exact fun _ => h₂
      | some g =>
          rw [hp] at hprev
          obtain ⟨hd, hptr⟩ := mem_entries_of_find hfind
          have hdata : prevData d.fields = some g.data := by rw [prevData, hp]; rfl
          simp only [entryUpdates, nameData, Option.map_none, hprev]
          rw [wp_bind]
          refine wp_mono (wp_dbDeleteType_advanced hm.linked hd hdata) fun r g hr => ?_
          have hptr : d.ptr = e.ptr := hptr
          rw [hptr] at hr
          exact hsort hr

/-- How many references a move rewrites, those of the followers of the entry and of its new
predecessor, and its own. -/
def rewritten (db : Db) (p : ℕ) (after : Option ℕ) : ℕ :=
  match find p db.entries with
  | none => 0
  | some (e, _) =>
      rounds (moveUpdates e (nameData (target db after))) p db.entries +
        (entryUpdates (nameData (target db after)) e.fields).length

theorem wp_dbMoveAfterDone_advanced (hl : Linked db.entries) {fuel : ℕ} {after : Option ℕ} :
    wp (anyContract torn) (dbMoveAfterDone env fuel db p after) (fun r _ => r.1 = true →
      Advanced db (rewritten db p after + 1) r.2) f := by
  unfold dbMoveAfterDone
  by_cases hp : after = some p
  · rw [if_pos hp]
    exact fun hf => absurd hf Bool.false_ne_true
  rw [if_neg hp]
  have hgo : ∀ a, a = target db after → wp (anyContract torn) (do
      let db ← moveFollowers env fuel db p
      let db ← moveFollowers2 env fuel db p a
      moveEntryDone env db p a) (fun r _ => r.1 = true →
      Advanced db (rewritten db p after + 1) r.2) f := by
    rintro a rfl
    cases hfind : find p db.entries with
    | none =>
        cases fuel with
        | zero => trivial
        | succ fuel =>
            rw [moveFollowers, hfind]
            trivial
    | some r =>
        obtain ⟨e, ch⟩ := r
        obtain ⟨he, rfl⟩ := mem_entries_of_find hfind
        rw [← Prog.bind_assoc, wp_bind]
        refine wp_mono (wp_loops_advanced (moving_of_mem hl he)) ?_
        rintro db₁ g ⟨hm₁, h₁⟩
        refine wp_mono (wp_moveEntryDone_advanced hm₁) fun r g h₂ hok => ?_
        have hsum := h₁.trans (h₂ hok)
        rw [← Nat.add_assoc] at hsum
        rw [rewritten, hfind]
        exact hsum
  cases after with
  | none => exact hgo none rfl
  | some q =>
      dsimp only
      cases hq : find q db.entries with
      | none => trivial
      | some r => exact hgo (some r.1) (by rw [target, Option.bind_some, hq]; rfl)

/-! ## All operations -/

/-- What makes the change visible: an entry is left, or the generation does not come round. -/
def Edit.Seen (db : Db) : Edit → Prop
  | .deleteEntry p => db.entries.remove (DbEntry.is p) ≠ .nil
  | .rename p _ => ¬ 2 ^ 32 ∣ (subtree db p).length
  | .moveAfter _ p after => ¬ 2 ^ 32 ∣ rewritten db p after + 1
  | .moveBefore _ p before =>
      ∀ after, beforeTarget db before = some after → ¬ 2 ^ 32 ∣ rewritten db p after + 1
  | _ => True

/-- A successful operation advances the generation as often as it can be seen to do. -/
theorem wp_exec_seen (hl : Linked db.entries) (ed : Edit) :
    wp (anyContract torn) (ed.exec env db) (fun r _ => r.1 = true →
      (r.2.generation ≠ db.generation ↔ ed.Seen db)) f := by
  have hone : ∀ {n : ℕ} {db' : Db}, Advanced db n db' → 0 < n → n < 2 ^ 32 →
      (db'.generation ≠ db.generation ↔ True) := fun h hpos hlt =>
    h.ne_iff.trans (iff_true_intro (Nat.not_dvd_of_pos_of_lt hpos hlt))
  have hchange : ∀ {p : ℕ} {g : DbEntry → DbEntry} {r : Bool × Db},
      (Leads db (modify p g db.entries) r.2 ∧ Advanced db 1 r.2 ∨
        r.1 = false ∧ SameTree db r.2 ∧ Advanced db 0 r.2) → r.1 = true →
      (r.2.generation ≠ db.generation ↔ True) := by
    rintro p g r (⟨-, h⟩ | ⟨hf, -⟩) hok
    · exact hone h Nat.one_pos (by decide)
    · exact absurd (hf.symm.trans hok) Bool.false_ne_true
  cases ed with
  | newEntry name =>
      simp only [Edit.exec, wp_bind]
      exact wp_mono wp_dbNewEntry_advanced fun r _ h hok => hone (h hok) (by decide) (by decide)
  | dummyEntry name prev =>
      simp only [Edit.exec, dbDummyEntry]
      split
      · trivial
      · cases prev with
        | none => exact fun _ => hone (changed_advanced db) Nat.one_pos (by decide)
        | some prev =>
            exact fun _ => hone ((changed_advanced db).trans (changed_advanced db.changed))
              (by decide) (by decide)
  | deleteEntry p =>
      refine wp_mono wp_dbDeleteEntry_advanced fun r _ h _ => h.ne_iff.trans ?_
      unfold Edit.Seen
      split
      · next hnil => simp [hnil]
      · next hne => simp [hne]
  | rename p name => exact wp_mono wp_dbRename_advanced fun r _ h hok => (h hok).ne_iff
  | moveAfter fuel p after =>
      exact wp_mono (wp_dbMoveAfterDone_advanced hl) fun r _ h hok => (h hok).ne_iff
  | moveBefore fuel p before =>
      simp only [Edit.exec, dbMoveBeforeDone]
      cases ht : beforeTarget db before with
      | none => trivial
      | some after =>
          refine wp_mono (wp_dbMoveAfterDone_advanced hl) fun r _ h hok =>
            (h hok).ne_iff.trans ?_
          simp [Edit.Seen, ht]
  | changeField p type data => exact wp_mono wp_dbChangeField_advanced fun r _ h => hchange h
  | deleteField p i => exact wp_mono wp_dbDeleteField_advanced fun r _ h => hchange h
  | mkdir p =>
      simp only [Edit.exec, dbMkdirDone]
      split
      · trivial
      · split
        · trivial
        · exact wp_mono wp_dbChangeField_advanced fun r _ h => hchange h

/-- A successful change is visible in the generation, unless it deletes the last entry, or rewrites
so many identifiers or references that the generation comes round. -/
theorem exec_seen {s t : State} (hl : Linked s.db.entries) (ed : Edit)
    (h : Ends (Step torn) (fun db => ed.exec env db) s true t) :
    t.db.generation ≠ s.db.generation ↔ ed.Seen s.db :=
  wp_returns (wp_exec_seen hl ed) h rfl

/-! ## Deleting the only entry -/

/-- The storage has one account. -/
def oneAccount : State := afterOpen (plainEnv 16) (plainFlash [(12, 1, [.ofData ftId [97]])])

def emptied (db : Db) : Fw (Bool × Db) := (Edit.deleteEntry 0).exec (plainEnv 16) db

theorem exec_seen_delete :
    (afterRun emptied oneAccount).db.generation ≠ oneAccount.db.generation ↔
      (Edit.deleteEntry 0).Seen oneAccount.db :=
  @exec_seen (plainEnv 16) (fun _ _ _ => False) oneAccount (afterRun emptied oneAccount)
    (by unfold Linked; decide +kernel) (.deleteEntry 0)
    (ends_afterRun emptied oneAccount (by decide +kernel))

/-- Deleting the only account leaves the generation as it is. -/
theorem deleteEntry_unseen : Opens (plainEnv 16) oneAccount ∧
    ∃ t, Ends Works (fun db => (Edit.deleteEntry 0).exec (plainEnv 16) db) oneAccount true t ∧
      t.db.entries ≠ oneAccount.db.entries ∧ t.db.generation = oneAccount.db.generation := by
  have hresult : runResult emptied oneAccount = some true := by decide +kernel
  refine ⟨opens_afterOpen _ _, _, ends_afterRun emptied oneAccount hresult, ?_, ?_⟩
  · decide +kernel
  · decide +kernel

end Sunela.Database
