import Sunela.Verification.Move.Loops
import Sunela.Verification.Support.PlainCrypt
import Sunela.Verification.Tsort.Order

/-! # When a move ends

Both loops of a move end if no follower has to get the reference that it already has, and if there
is a block for every change. Nothing else keeps them from ending. -/

namespace Sunela.Database

open Program Storage Span Block Fields Entry Tsort

variable {env : Env} {torn : Torn} {e x : DbEntry} {p : ℕ} {db db' : Db} {f : Flash}
  {U V : List DbField → List (List DbField)}

/-- No follower keeps its reference, and what is changed can be stored. -/
structure Settles (env : Env) (db : Db) (e : DbEntry) (after : Option Bytes) : Prop where
  self : prevData e.fields = some e.name.bytes →
    ∀ x ∈ others e.ptr db.entries, prevData x.fields ≠ some e.name.bytes
  cut : ∀ x ∈ others e.ptr db.entries,
    prevData ((followerUpdates e x.fields).getLastD x.fields) = after →
    after ≠ some (DbField.ofData ftPrev e.name.bytes).data
  supplied : Supplied env (moveUpdates e after) e.ptr db

theorem demand_congr {F : Tree} (h : ∀ x ∈ others p F, U x.fields = V x.fields) :
    demand U p F = demand V p F := by
  unfold demand
  rw [List.map_congr_left fun x hx => by rw [h x hx]]

theorem rounds_congr {F : Tree} (h : ∀ x ∈ others p F, U x.fields = V x.fields) :
    rounds U p F = rounds V p F := by
  have hmap : (others p F).map (fun x => (U x.fields).length) =
      (others p F).map fun x => (V x.fields).length :=
    List.map_congr_left fun x hx => by rw [h x hx]
  exact congrArg List.sum hmap

theorem Supplied.congr (h : Supplied env U p db)
    (hUV : ∀ x ∈ others p db.entries, U x.fields = V x.fields) : Supplied env V p db where
  blocks := demand_congr hUV ▸ h.blocks
  fits := fun x hx hd fs hfs => h.fits x hx hd fs (hUV x hx ▸ hfs)

theorem Supplied.of_nil (h : ∀ x ∈ others p db.entries, U x.fields = []) :
    Supplied env U p db where
  blocks := by
    have hzero : demand U p db.entries = demand (fun _ => []) p db.entries := demand_congr h
    rw [hzero, demand]
    simp
  fits := by
    intro x hx _ fs hfs
    rw [h x hx] at hfs
    cases hfs

/-! ## The loops end -/

/-- The entry that an entry is moved behind, by name. -/
abbrev nameData (after : Option DbEntry) : Option Bytes := after.map fun d => d.name.bytes

variable {after : Option DbEntry}

theorem wp_moveFollowers2 (hr : InRange env db) (hm : Moving e db)
    (hcut : ∀ x ∈ others e.ptr db.entries, prevData x.fields = nameData after →
      nameData after ≠ some (DbField.ofData ftPrev e.name.bytes).data)
    (hs : Supplied env (follower2Updates e (nameData after)) e.ptr db) {fuel : ℕ}
    (hfuel : rounds (follower2Updates e (nameData after)) e.ptr db.entries < fuel) :
    wp (ending (Step torn)) (moveFollowers2 env fuel db e.ptr after) (fun db' _ =>
      InRange env db' ∧ Moving e db' ∧
      Alike db'.entries (settle (follower2Updates e (nameData after)) e.ptr db.entries) ∧
      db'.erased.blocks.length + demand (follower2Updates e (nameData after)) e.ptr db.entries =
        db.erased.blocks.length) f := by
  have hnil : ∀ db' : Db, (∀ x ∈ others e.ptr db'.entries, ¬ prevData x.fields = nameData after) →
      ∀ x ∈ others e.ptr db'.entries, follower2Updates e (nameData after) x.fields = [] :=
    fun db' h x hx => if_neg (h x hx)
  have hzero : ∀ db' : Db, (∀ x ∈ others e.ptr db'.entries, ¬ prevData x.fields = nameData after) →
      demand (follower2Updates e (nameData after)) e.ptr db'.entries = 0 := by
    intro db' h
    rw [demand_congr (V := fun _ => []) (hnil db' h), demand]
    simp
  rw [moveFollowers2_eq]
  by_cases hname : nameData after = some (DbField.ofData ftPrev e.name.bytes).data
  · have hnone : ∀ x ∈ others e.ptr db.entries, ¬ prevData x.fields = nameData after :=
      fun x hx hp => hcut x hx hp hname
    obtain ⟨n, rfl⟩ := Nat.exists_eq_succ_of_ne_zero (Nat.ne_of_gt (Nat.zero_lt_of_lt hfuel))
    rw [(rounds_followers2 e after).idle hm hnone]
    refine ⟨hr, hm, ?_, ?_⟩
    · rw [settle_eq hm.linked (hnil db hnone)]
      exact .refl _
    · rw [hzero db hnone]
      rfl
  · refine wp_mono ((rounds_followers2 e after).wp (B := fun _ => True)
      (fun fs => follower2Updates_eq hname) (fun _ _ _ => trivial) hr hm hs
      (fun _ _ => trivial) hfuel) ?_
    rintro db' g ⟨h, hdone⟩
    refine ⟨h.inRange, h.moving, ?_, ?_⟩
    · rw [← settle_eq h.moving.linked (hnil db' hdone)]
      exact h.alike
    · have hb := h.blocks
      rw [hzero db' hdone] at hb
      exact hb

/-- Both loops end, with all followers in their final versions. -/
theorem wp_moveLoops (hr : InRange env db) (hm : Moving e db)
    (hs : Settles env db e (nameData after)) {fuel : ℕ}
    (hfuel : rounds (moveUpdates e (nameData after)) e.ptr db.entries < fuel) :
    wp (ending (Step torn)) (do
      let db ← moveFollowers env fuel db e.ptr
      moveFollowers2 env fuel db e.ptr after) (fun db' _ => InRange env db' ∧ Moving e db' ∧
      Alike db'.entries (settle (moveUpdates e (nameData after)) e.ptr db.entries) ∧
      db'.erased.blocks.length + demand (moveUpdates e (nameData after)) e.ptr db.entries =
        db.erased.blocks.length) f := by
  have hsame : ∀ db' : Db,
      (∀ x ∈ others e.ptr db'.entries, ¬ prevData x.fields = some e.name.bytes) →
      ∀ x ∈ others e.ptr db'.entries, moveUpdates e (nameData after) x.fields =
        follower2Updates e (nameData after) x.fields := fun db' h x hx => moveUpdates_nil (h x hx)
  have hlast : ∀ fs, ¬ prevData fs = some e.name.bytes → (followerUpdates e fs).getLastD fs = fs :=
    fun fs h => by rw [followerUpdates_nil h]; rfl
  have hsettle : ∀ db' : Db,
      (∀ x ∈ others e.ptr db'.entries, ¬ prevData x.fields = some e.name.bytes) →
      Linked db'.entries → settle (follower2Updates e (nameData after)) e.ptr db'.entries =
        settle (moveUpdates e (nameData after)) e.ptr db'.entries := by
    intro db' h hl
    apply Forest.map_congr
    intro y hy
    split
    · next hmem =>
        obtain ⟨x, hx, hp⟩ := List.mem_map.mp hmem
        obtain rfl := hl.eq_of_ptr (mem_entries_of_top (mem_others.mp hx).1) hy hp
        simp only [onFields, hsame db' h x hx]
    · rfl
  rw [wp_bind, moveFollowers_eq]
  by_cases hself : prevData e.fields = some e.name.bytes
  · have hnone := hs.self hself
    obtain ⟨n, rfl⟩ := Nat.exists_eq_succ_of_ne_zero (Nat.ne_of_gt (Nat.zero_lt_of_lt hfuel))
    rw [(rounds_followers e).idle hm hnone, wp_ret]
    rw [demand_congr (hsame db hnone), ← hsettle db hnone hm.linked]
    apply wp_moveFollowers2 hr hm _ (hs.supplied.congr (hsame db hnone))
    · rwa [← rounds_congr (hsame db hnone)]
    · intro x hx hp
      apply hs.cut x hx
      rwa [hlast _ (hnone x hx)]
  · refine wp_mono ((rounds_followers e).wp (U := moveUpdates e (nameData after))
      (fun fs => moveUpdates_eq hself)
      (B := fun fs => prevData ((followerUpdates e fs).getLastD fs) = nameData after →
        nameData after ≠ some (DbField.ofData ftPrev e.name.bytes).data)
      (fun fs hP hB => ?_) hr hm hs.supplied hs.cut hfuel) ?_
    · rw [followerUpdates_eq hself hP, List.getLastD_cons] at hB
      exact hB
    · rintro db₁ g ⟨h, hdone⟩
      have hfuel₁ : rounds (follower2Updates e (nameData after)) e.ptr db₁.entries < fuel := by
        have hle := h.rounds
        rw [rounds_congr (hsame db₁ hdone)] at hle
        omega
      refine wp_mono (wp_moveFollowers2 h.inRange h.moving (fun x hx hp => h.kept x hx ?_)
        (h.supplied.congr (hsame db₁ hdone)) hfuel₁) ?_
      · rw [hlast _ (hdone x hx)]
        exact hp
      · rintro db₂ g ⟨hr₂, hm₂, ha₂, hb₂⟩
        refine ⟨hr₂, hm₂, ?_, ?_⟩
        · rw [hsettle db₁ hdone h.moving.linked] at ha₂
          exact ha₂.trans h.alike
        · have hb := h.blocks
          rw [demand_congr (hsame db₁ hdone)] at hb
          omega

/-! ## What it takes for the loops to end -/

theorem needs_moveFollowers2 {fuel : ℕ} {Q : Db → Flash → Prop} (hm : Moving e db)
    (hi : db.erased.Intact)
    (hw : wp (ending (Step torn)) (moveFollowers2 env fuel db e.ptr after) Q f) :
    (∀ x ∈ others e.ptr db.entries, prevData x.fields = nameData after →
      nameData after ≠ some (DbField.ofData ftPrev e.name.bytes).data) ∧
    Supplied env (follower2Updates e (nameData after)) e.ptr db := by
  rw [moveFollowers2_eq] at hw
  refine (rounds_followers2 e after).needs (C := fun db =>
    (∀ x ∈ others e.ptr db.entries, prevData x.fields = nameData after →
      nameData after ≠ some (DbField.ofData ftPrev e.name.bytes).data) ∧
    Supplied env (follower2Updates e (nameData after)) e.ptr db) ?_ ?_ ?_ hm hi hw
  · intro db _ _ _ hnone _
    exact ⟨fun x hx hp => absurd hp (hnone x hx), .of_nil fun x hx => if_neg (hnone x hx)⟩
  · rintro db db' hentries herased ⟨hcut, hs⟩
    rw [hentries] at hcut
    refine ⟨hcut, ?_, ?_⟩
    · rw [← hentries, ← herased]
      exact hs.blocks
    · rw [← hentries]
      exact hs.fits
  · rintro db db' x hm hx hP ha hb hfit ⟨hcut, hs⟩
    have hcut' := (forall_others_change hm.linked hx ha (B := fun fs =>
      prevData fs = nameData after →
        nameData after ≠ some (DbField.ofData ftPrev e.name.bytes).data)).mp hcut
    by_cases hname : nameData after = some (DbField.ofData ftPrev e.name.bytes).data
    · exact absurd hname (hcut'.1 (by rw [prevData_setField, hname]))
    · exact ⟨fun _ _ _ => hname, (supplied_change hm.linked hx (follower2Updates_eq hname hP) ha
        hb).mpr ⟨hfit, hs⟩⟩

theorem settles_of_ending {fuel : ℕ} {Q : Db → Flash → Prop} (hm : Moving e db)
    (hi : db.erased.Intact) (hw : wp (ending (Step torn)) (do
      let db ← moveFollowers env fuel db e.ptr
      moveFollowers2 env fuel db e.ptr after) Q f) :
    Settles env db e (nameData after) := by
  rw [wp_bind, moveFollowers_eq] at hw
  refine (rounds_followers e).needs (C := fun db => Settles env db e (nameData after)) ?_ ?_ ?_
    hm hi hw
  · intro db g hm hi hnone hQ
    obtain ⟨hcut, hs⟩ := needs_moveFollowers2 hm hi hQ
    refine ⟨fun _ => hnone, fun x hx hp => ?_, hs.congr fun x hx => ?_⟩
    · rw [followerUpdates_nil (hnone x hx)] at hp
      exact hcut x hx hp
    · exact (moveUpdates_nil (hnone x hx)).symm
  · intro db db' hentries herased h
    refine ⟨?_, ?_, ?_, ?_⟩
    · rw [← hentries]
      exact h.self
    · rw [← hentries]
      exact h.cut
    · rw [← hentries, ← herased]
      exact h.supplied.blocks
    · rw [← hentries]
      exact h.supplied.fits
  · intro db db' x hm hx hP ha hb hfit h
    by_cases hself : prevData e.fields = some e.name.bytes
    · have hnext := ((forall_others_change hm.linked hx ha
        (B := fun fs => prevData fs ≠ some e.name.bytes)).mp (h.self hself)).1
      refine absurd ?_ hnext
      simp only [relink, hself]
      rw [prevData_setField, DbField.ofData_data _ (prevData_length hself)]
    · refine ⟨fun hs => absurd hs hself, ?_, ?_⟩
      · have hcut := (forall_others_change hm.linked hx ha (B := fun fs =>
          prevData ((followerUpdates e fs).getLastD fs) = nameData after →
            nameData after ≠ some (DbField.ofData ftPrev e.name.bytes).data)).mp h.cut
        intro y hy hp
        by_cases hyx : y.ptr = x.ptr
        · obtain rfl := hm.linked.eq_of_ptr (mem_entries_of_top (mem_others.mp hy).1)
            (mem_entries_of_top (mem_others.mp hx).1) hyx
          rw [followerUpdates_eq hself hP, List.getLastD_cons] at hp
          exact hcut.1 hp
        · exact hcut.2 y hy hyx hp
      · exact (supplied_change hm.linked hx (moveUpdates_eq hself hP) ha hb).mpr
          ⟨hfit, h.supplied⟩

/-! ## `db_move_after` -/

/-- What `db_move_after` does up to the end of its loops. -/
def moveLoops (env : Env) (fuel : ℕ) (db : Db) (p : ℕ) (after : Option ℕ) : Fw Db :=
  if after = some p then return db
  else
    let go (a : Option DbEntry) : Fw Db := do
      let db ← moveFollowers env fuel db p
      moveFollowers2 env fuel db p a
    match after with
    | none => go none
    | some q =>
        match find q db.entries with
        | none => .undef
        | some (a, _) => go (some a)

/-- The entry a pointer refers to. -/
def target (db : Db) (after : Option ℕ) : Option DbEntry :=
  after.bind fun q => (find q db.entries).map Prod.fst

/-- A move changes the entry itself after its loops. -/
theorem dbMoveAfter_eq (fuel : ℕ) (db : Db) (p : ℕ) (after : Option ℕ) :
    dbMoveAfter env fuel db p after = moveLoops env fuel db p after >>= fun db' =>
      if after = some p then .ret db' else moveEntry env db' p (target db after) := by
  unfold dbMoveAfter moveLoops
  by_cases hp : after = some p
  · simp only [hp, if_true]
    rfl
  · simp only [hp, if_false]
    cases after with
    | none => exact (Prog.bind_assoc ..).symm
    | some q =>
        cases hq : find q db.entries with
        | none =>
            simp only [hq]
            rfl
        | some r =>
            simp only [target, Option.bind_some, hq, Option.map_some]
            exact (Prog.bind_assoc ..).symm

theorem moveLoops_eq (he : e ∈ db.entries.entries) (hl : Linked db.entries)
    (ha : ∀ a, after = some a → a ∈ db.entries.entries) (hne : after ≠ some e) (fuel : ℕ) :
    moveLoops env fuel db e.ptr (after.map DbEntry.ptr) = (do
      let db ← moveFollowers env fuel db e.ptr
      moveFollowers2 env fuel db e.ptr after) := by
  unfold moveLoops
  cases after with
  | none => rfl
  | some a =>
      have ha := ha a rfl
      have hp : a.ptr ≠ e.ptr := fun hp => hne (by rw [hl.eq_of_ptr ha he hp])
      obtain ⟨ch, hfind⟩ := find_of_mem hl ha
      simp [hp, hfind]

theorem moving_of_mem (hl : Linked db.entries) (he : e ∈ db.entries.entries) : Moving e db := by
  obtain ⟨ch, hfind⟩ := find_of_mem hl he
  exact ⟨hl, e, ch, hfind, rfl⟩

/-- The loops of a move end, whatever the storage does, if no follower gets the reference it
already has and there is a block for each change, and only then. -/
theorem dbMoveAfter_ends (after : Option DbEntry) (hr : InRange env db)
    (he : e ∈ db.entries.entries) (ha : ∀ a, after = some a → a ∈ db.entries.entries) :
    (∃ fuel, wp (ending (Step torn)) (moveLoops env fuel db e.ptr (after.map DbEntry.ptr))
      (fun _ _ => True) f) ↔ after = some e ∨ Settles env db e (nameData after) := by
  by_cases hne : after = some e
  · subst hne
    simp [moveLoops]
  · simp only [moveLoops_eq he hr.linked ha hne, hne, false_or]
    constructor
    · rintro ⟨fuel, hw⟩
      exact settles_of_ending (moving_of_mem hr.linked he) hr.intact.1 hw
    · intro hs
      exact ⟨_, wp_mono (wp_moveLoops hr (moving_of_mem hr.linked he) hs (Nat.lt_succ_self _))
        fun _ _ _ => trivial⟩

/-! ## Small databases -/

instance (env : Env) (fs : List DbField) : Decidable (Fits env fs) :=
  decidable_of_iff (∀ payload ∈ encodeFields storageBlockSize fs,
    headerSize + payload.length ≤ env.c.capacity) Iff.rfl

/-- A database of accounts with names of one letter, and some erased blocks. -/
def accountsDb (l : List (UInt8 × Option UInt8)) (erased : Spans) : Db :=
  { listedDb erased .null with entries := accounts l }

theorem accountsDb_inRange {l : List (UInt8 × Option UInt8)} {erased : Spans}
    (hl : ((accounts l).entries.map DbEntry.ptr).Nodup) (hi : erased.Intact)
    (hb : ∀ n ∈ erased.blocks, n ∈ dbBlocks (plainEnv 256))
    (he : ∀ e ∈ (accounts l).entries, e.block ∈ dbBlocks (plainEnv 256)) :
    InRange (plainEnv 256) (accountsDb l erased) :=
  ⟨hl, ⟨hi, trivial⟩, hb, fun e hm => .inr (he e hm)⟩

/-- There are four blocks for the changes of moving `a` to the end. -/
theorem dbMoveAfter_ends_blocks : ∃ fuel, wp (ending Works)
    (moveLoops (plainEnv 256) fuel
      (accountsDb [(97, none), (98, some 97)] (.node ⟨16, 4, by decide⟩ .null)) 97 (some 98))
    (fun _ _ => True) (plainFlash []) := by
  have hr : InRange (plainEnv 256)
      (accountsDb [(97, none), (98, some 97)] (.node ⟨16, 4, by decide⟩ .null)) :=
    accountsDb_inRange (by decide) trivial (by decide) (by decide)
  refine (dbMoveAfter_ends (e := account 97 none) (some (account 98 (some 97))) hr (by decide)
    (by decide)).mpr (.inr ⟨by decide, by decide, by decide, by decide⟩)

/-- There is no block for the change that would make `b` no follower of `a` any more. -/
theorem dbMoveAfter_ends_refused : ∃ db e, InRange (plainEnv 256) db ∧ e ∈ db.entries.entries ∧
    ∀ fuel, ¬ wp (ending Works) (moveLoops (plainEnv 256) fuel db e.ptr none) (fun _ _ => True)
      (plainFlash []) := by
  have hr : InRange (plainEnv 256) (accountsDb [(97, none), (98, some 97)] .null) :=
    accountsDb_inRange (by decide) trivial (by decide) (by decide)
  refine ⟨_, account 97 none, hr, by decide, fun fuel hw => ?_⟩
  have hs : Settles (plainEnv 256) (accountsDb [(97, none), (98, some 97)] .null)
      (account 97 none) (nameData none) :=
    settles_of_ending (moving_of_mem hr.linked (by decide)) trivial hw
  exact absurd hs.supplied.blocks (by decide)

end Sunela.Database
