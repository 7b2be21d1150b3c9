import Mathlib.Algebra.Order.BigOperators.Group.List
import Mathlib.Algebra.Order.Monoid.Canonical.Defs
import Sunela.Lib.Restart
import Sunela.Verification.Move.Change
import Sunela.Verification.Move.References

/-! # The loops of a move

Each round gives one follower another predecessor. A loop ends unless a follower stays one, or a
change is refused because there is no block for it. -/

namespace Sunela.Database

open Program Storage Span Block Fields Entry

/-! ## Rounds -/

/-- The moved entry is in the tree. -/
structure Moving (e : DbEntry) (db : Db) : Prop where
  linked : Linked db.entries
  found : ∃ d ch, find e.ptr db.entries = some (d, ch) ∧ face d = face e

/-- A loop that looks for an entry whose fields satisfy `P`, and changes them by `k`. -/
structure Rounds (env : Env) (e : DbEntry) (P : List DbField → Prop)
    (k : List DbField → List DbField) (step : Db → Option (Fw Db)) : Prop where
  done : ∀ {db}, Moving e db → step db = none → ∀ x ∈ others e.ptr db.entries, ¬ P x.fields
  round : ∀ {db p}, Moving e db → step db = some p → ∃ x ∈ others e.ptr db.entries,
    P x.fields ∧ ∃ change, Changes db x.ptr (onFields k) change ∧
      p = changeEntry env db x.ptr change >>= fun r => .ret r.2

/-- The blocks it takes to store all versions in `U` of the other entries. -/
def demand (U : List DbField → List (List DbField)) (p : ℕ) (F : Tree) : ℕ :=
  ((others p F).map fun x => cost x * (U x.fields).length).sum

/-- There are blocks for all these versions, and their records fit. -/
structure Supplied (env : Env) (U : List DbField → List (List DbField)) (p : ℕ) (db : Db) :
    Prop where
  blocks : demand U p db.entries ≤ db.erased.blocks.length
  fits : ∀ x ∈ others p db.entries, x.defer = false → ∀ fs ∈ U x.fields, Fits env fs

variable {env : Env} {torn : Torn} {e x : DbEntry} {p : ℕ} {db db' : Db} {f : Flash}
  {P : List DbField → Prop} {k : List DbField → List DbField} {step : Db → Option (Fw Db)}
  {U : List DbField → List (List DbField)}

theorem cost_eq {d e : DbEntry} (h : face d = face e) : cost d = cost e := by
  simp only [face, Prod.mk.injEq] at h
  simp [cost, h.2.2.1]

/-- Trees that are alike demand as much. -/
theorem demand_eq (U : List DbField → List (List DbField)) (p : ℕ) (F : Tree) :
    demand U p F = total (fun t => (if t.2.2.1 then 0 else 1) * (U t.2.2.2).length) p F := rfl

/-- The number of rounds that are left. -/
def rounds (U : List DbField → List (List DbField)) (p : ℕ) (F : Tree) : ℕ :=
  total (fun t => (U t.2.2.2).length) p F

theorem Supplied.head (h : Supplied env U p db) (hx : x ∈ others p db.entries)
    {v : List DbField} {rest : List (List DbField)} (hU : U x.fields = v :: rest)
    (hd : x.defer = false) : db.erased.blocks ≠ [] ∧ Fits env v := by
  refine ⟨fun hnil => ?_, h.fits x hx hd v (by simp [hU])⟩
  have hmem : cost x * (U x.fields).length ∈
      (others p db.entries).map fun x => cost x * (U x.fields).length :=
    List.mem_map_of_mem (f := fun x => cost x * (U x.fields).length) hx
  have hle := List.le_sum_of_mem hmem
  have hb := h.blocks
  rw [hnil, demand] at hb
  simp only [hU, cost, hd, Bool.false_eq_true, if_false, List.length_cons,
    List.length_nil] at hle hb
  omega

theorem demand_change (hl : Linked db.entries) (hx : x ∈ others p db.entries)
    (hU : U x.fields = k x.fields :: U (k x.fields))
    (ha : Alike db'.entries (modify x.ptr (onFields k) db.entries)) :
    demand U p db.entries = demand U p db'.entries + cost x := by
  have hm := total_modify (w := fun t => (if t.2.2.1 then 0 else 1) * (U t.2.2.2).length) hl hx
    (g := onFields k) fun _ => rfl
  have hself : cost x * (U x.fields).length = cost x * (U (k x.fields)).length + cost x := by
    rw [hU, List.length_cons, Nat.mul_succ]
  rw [demand_eq, demand_eq, ha.total]
  change _ + cost x * (U x.fields).length = _ + cost x * (U (k x.fields)).length at hm
  omega

theorem rounds_change (hl : Linked db.entries) (hx : x ∈ others p db.entries)
    (hU : U x.fields = k x.fields :: U (k x.fields))
    (ha : Alike db'.entries (modify x.ptr (onFields k) db.entries)) :
    rounds U p db.entries = rounds U p db'.entries + 1 := by
  have hm := total_modify (w := fun t => (U t.2.2.2).length) hl hx (g := onFields k) fun _ => rfl
  have hself : (U x.fields).length = (U (k x.fields)).length + 1 := by simp [hU]
  rw [rounds, rounds, ha.total]
  change _ + (U x.fields).length = _ + (U (k x.fields)).length at hm
  omega

/-- A round uses up what it needs. -/
theorem supplied_change (hl : Linked db.entries) (hx : x ∈ others p db.entries)
    (hU : U x.fields = k x.fields :: U (k x.fields))
    (ha : Alike db'.entries (modify x.ptr (onFields k) db.entries))
    (he : db'.erased.blocks.length + cost x = db.erased.blocks.length) :
    Supplied env U p db ↔
      (x.defer = false → Fits env (k x.fields)) ∧ Supplied env U p db' := by
  have hcount := demand_change hl hx hU ha
  have hfits : (∀ y ∈ others p db.entries, y.defer = false → ∀ fs ∈ U y.fields, Fits env fs) ↔
      (x.defer = false → Fits env (k x.fields)) ∧
        ∀ y ∈ others p db'.entries, y.defer = false → ∀ fs ∈ U y.fields, Fits env fs := by
    have hmem : ∀ {y}, y ∈ others p (modify x.ptr (onFields k) db.entries) ↔
        y = onFields k x ∨ y ∈ others p db.entries ∧ y.ptr ≠ x.ptr :=
      mem_others_modify hl hx (g := onFields k) fun _ => rfl
    have hface : ∀ {y z : DbEntry}, face z = face y → z.defer = y.defer ∧ z.fields = y.fields := by
      intro y z h
      simp only [face, Prod.mk.injEq] at h
      exact ⟨h.2.2.1, h.2.2.2⟩
    constructor
    · intro h
      refine ⟨fun hd => h x hx hd _ (by simp [hU]), fun y hy hd fs hfs => ?_⟩
      obtain ⟨z, hz, hzy⟩ := mem_others_of_alike ha hy
      obtain ⟨hzd, hzf⟩ := hface hzy
      rcases hmem.mp hz with rfl | ⟨hz, -⟩
      · apply h x hx (hzd.trans hd)
        rw [hU, show k x.fields = y.fields from hzf]
        exact List.mem_cons_of_mem _ hfs
      · exact h z hz (hzd.trans hd) fs (hzf ▸ hfs)
    · rintro ⟨hk, h⟩ y hy hd fs hfs
      have hback : ∀ z ∈ others p (modify x.ptr (onFields k) db.entries), z.defer = false →
          ∀ fs ∈ U z.fields, Fits env fs := by
        intro z hz hd fs hfs
        obtain ⟨y, hy, hyz⟩ := mem_others_of_alike ha.symm hz
        obtain ⟨hyd, hyf⟩ := hface hyz
        exact h y hy (hyd.trans hd) fs (hyf ▸ hfs)
      by_cases hp : y.ptr = x.ptr
      · obtain rfl := hl.eq_of_ptr (mem_entries_of_top (mem_others.mp hy).1)
          (mem_entries_of_top (mem_others.mp hx).1) hp
        rw [hU] at hfs
        rcases List.mem_cons.mp hfs with rfl | hfs
        · exact hk hd
        · exact hback _ (hmem.mpr (.inl rfl)) hd fs hfs
      · exact hback y (hmem.mpr (.inr ⟨hy, hp⟩)) hd fs hfs
  constructor
  · intro h
    have hb := h.blocks
    exact ⟨(hfits.mp h.fits).1, ⟨by omega, (hfits.mp h.fits).2⟩⟩
  · rintro ⟨hk, h⟩
    have hb := h.blocks
    exact ⟨by omega, hfits.mpr ⟨hk, h.fits⟩⟩

theorem Moving.change (hm : Moving e db) (hx : x ∈ others e.ptr db.entries)
    (ha : Alike db'.entries (modify x.ptr (onFields k) db.entries)) : Moving e db' := by
  obtain ⟨d, ch, hfind, hface⟩ := hm.found
  have hne : e.ptr ≠ x.ptr := Ne.symm (mem_others.mp hx).2
  obtain ⟨ch', hfind'⟩ := find_modify_of_ne (g := onFields k) (fun _ => rfl) hne hfind
  have hl := hm.linked.modify (p := x.ptr) (g := onFields k) fun _ => rfl
  obtain ⟨d', ch'', hd, hdf⟩ := ha.symm.find hl hfind'
  exact ⟨ha.symm.linked hl, d', ch'', hd, hdf.trans hface⟩

/-! ## How a loop ends -/

/-- What a number of rounds leave, none of which breaks `B`. -/
structure Passed (env : Env) (U : List DbField → List (List DbField)) (B : List DbField → Prop)
    (e : DbEntry) (db db' : Db) : Prop where
  inRange : InRange env db'
  moving : Moving e db'
  supplied : Supplied env U e.ptr db'
  alike : Alike (settle U e.ptr db'.entries) (settle U e.ptr db.entries)
  blocks : db'.erased.blocks.length + demand U e.ptr db.entries =
    db.erased.blocks.length + demand U e.ptr db'.entries
  rounds : rounds U e.ptr db'.entries ≤ rounds U e.ptr db.entries
  kept : ∀ x ∈ others e.ptr db'.entries, B x.fields

/-- If each round takes a follower to the next of its versions, and these can all be stored, then
the loop ends where no follower is left. -/
theorem Rounds.wp (R : Rounds env e P k step) {B : List DbField → Prop}
    (hU : ∀ fs, P fs → U fs = k fs :: U (k fs)) (hB : ∀ fs, P fs → B fs → B (k fs))
    (hr : InRange env db) (hm : Moving e db) (hs : Supplied env U e.ptr db)
    (hb : ∀ x ∈ others e.ptr db.entries, B x.fields) {fuel : ℕ}
    (hfuel : rounds U e.ptr db.entries < fuel) :
    Program.wp (ending (Step torn)) (restart step fuel db) (fun db' _ => Passed env U B e db db' ∧
      ∀ x ∈ others e.ptr db'.entries, ¬ P x.fields) f := by
  refine wp_mono (wp_restart (I := Passed env U B e db) (m := fun db => rounds U e.ptr db.entries)
    ?_ hfuel ⟨hr, hm, hs, .refl _, rfl, Nat.le_refl _, hb⟩) ?_
  · rintro db₁ f₁ q ⟨hr₁, hm₁, hs₁, ha₁, hb₁, hn₁, hk₁⟩ hstep
    obtain ⟨x, hx, hP, change, hchange, rfl⟩ := R.round hm₁ hstep
    have hx' := mem_entries_of_top (mem_others.mp hx).1
    obtain ⟨ch, hfind⟩ := find_of_mem hm₁.linked hx'
    rw [wp_bind]
    refine wp_changeEntry_ending hr₁ (g := onFields k) (fun _ => rfl) (fun _ => rfl) hchange hfind
      (hs₁.head hx (hU _ hP)) ?_
    intro ok db₂ f₂ hc _
    have halike : Alike (settle U e.ptr db₂.entries) (settle U e.ptr db₁.entries) := by
      rw [← settle_modify hm₁.linked hx (hU _ hP)]
      exact settle_alike hc.alike
    have hdemand := demand_change hm₁.linked hx (hU _ hP) hc.alike
    have hrounds := rounds_change hm₁.linked hx (hU _ hP) hc.alike
    have herased := hc.erased
    refine ⟨⟨hc.inRange, hm₁.change hx hc.alike, ?_, halike.trans ha₁, ?_, ?_, ?_⟩, ?_⟩
    · exact ((supplied_change hm₁.linked hx (hU _ hP) hc.alike hc.erased).mp hs₁).2
    · change db₂.erased.blocks.length + _ = _ + demand U e.ptr db₂.entries
      omega
    · change rounds U e.ptr db₂.entries ≤ _
      omega
    · exact (forall_others_change hm₁.linked hx hc.alike).mpr
        ⟨hB _ hP (hk₁ x hx), fun y hy _ => hk₁ y hy⟩
    · change rounds U e.ptr db₂.entries < _
      omega
  · rintro db₁ f₁ ⟨h₁, hdone⟩
    exact ⟨h₁, R.done h₁.moving hdone⟩

/-- Without followers, the loop is left at once. -/
theorem Rounds.idle (R : Rounds env e P k step) (hm : Moving e db)
    (h : ∀ x ∈ others e.ptr db.entries, ¬ P x.fields) (fuel : ℕ) :
    restart step (fuel + 1) db = .ret db := by
  unfold restart
  cases hstep : step db with
  | none => rfl
  | some q =>
      obtain ⟨x, hx, hP, -⟩ := R.round hm hstep
      exact absurd hP (h x hx)

/-- What holds wherever a loop can be left, and is not established by any round, holds where the
loop starts. -/
theorem Rounds.needs (R : Rounds env e P k step) {C : Db → Prop} {Q : Db → Flash → Prop}
    (hend : ∀ db f, Moving e db → db.erased.Intact → (∀ x ∈ others e.ptr db.entries, ¬ P x.fields) →
      Q db f → C db)
    (hrefused : ∀ db db' : Db, db'.entries = db.entries → db'.erased = db.erased → C db' → C db)
    (hround : ∀ (db db' : Db) x, Moving e db → x ∈ others e.ptr db.entries → P x.fields →
      Alike db'.entries (modify x.ptr (onFields k) db.entries) →
      db'.erased.blocks.length + cost x = db.erased.blocks.length →
      (x.defer = false → Fits env (k x.fields)) → C db' → C db)
    {fuel : ℕ} (hm : Moving e db) (hi : db.erased.Intact)
    (hw : Program.wp (ending (Step torn)) (restart step fuel db) Q f) : C db := by
  refine restart_needs (I := fun db => Moving e db ∧ db.erased.Intact) (fun _ _ h => h) ?_ ?_
    ⟨hm, hi⟩ hw
  · rintro db f ⟨hm, hi⟩ hstep hQ
    exact hend db f hm hi (R.done hm hstep) hQ
  · rintro db f q ⟨hm, hi⟩ hstep hq
    obtain ⟨x, hx, hP, change, hchange, rfl⟩ := R.round hm hstep
    have hx' := mem_entries_of_top (mem_others.mp hx).1
    obtain ⟨ch, hfind⟩ := find_of_mem hm.linked hx'
    rw [wp_bind] at hq
    rcases changeEntry_needs hm.linked hi (g := onFields k) (fun _ => rfl) hchange hfind hq with
      ⟨r, f', hr, hentries, herased, hnull⟩ | ⟨hok, r, f', hr, ha, hi', herased⟩
    · have hsame : r.2.erased = db.erased := herased.trans hnull.symm
      refine hrefused db r.2 hentries hsame (hr ⟨?_, hsame ▸ hi⟩)
      exact ⟨hentries ▸ hm.linked, hentries ▸ hm.found⟩
    · exact hround db r.2 x hm hx hP ha herased (fun hd => (hok hd).2)
        (hr ⟨hm.change hx ha, hi'⟩)

/-! ## The two loops -/

/-- What the first loop makes of the fields of a follower. -/
def relink (e : DbEntry) (fs : List DbField) : List DbField :=
  match prevData e.fields with
  | some data => setField fs ftPrev data
  | none => unprev fs

/-- The first round of the loop `again`, if there is one. -/
def followersRound (env : Env) (p : ℕ) (db : Db) : Option (Fw Db) :=
  match find p db.entries with
  | none => some .undef
  | some (e, _) =>
      match follower db p (some e) with
      | none => none
      | some e2 =>
          some ((match dbFieldFind e.fields ftPrev with
            | some f => dbChangeField env db e2.ptr ftPrev f.data
            | none => dbDeleteType env db e2 ftPrev) >>= fun r => .ret r.2)

theorem moveFollowers_eq (fuel : ℕ) (db : Db) (p : ℕ) :
    moveFollowers env fuel db p = restart (followersRound env p) fuel db := by
  induction fuel generalizing db with
  | zero => rfl
  | succ fuel ih =>
      simp only [moveFollowers, restart, followersRound]
      cases find p db.entries with
      | none => rfl
      | some r =>
          simp only []
          cases follower db p (some r.1) with
          | none => rfl
          | some e2 =>
              simp only [Prog.bind_assoc, Prog.ret_bind, ← ih]
              cases dbFieldFind r.1.fields ftPrev <;> rfl

/-- The first round of the loop `again2`, if there is one. -/
def followers2Round (env : Env) (p : ℕ) (after : Option DbEntry) (db : Db) : Option (Fw Db) :=
  match find p db.entries with
  | none => some .undef
  | some (e, _) =>
      match follower db p after with
      | none => none
      | some e2 => some (dbChangeField env db e2.ptr ftPrev e.name.bytes >>= fun r => .ret r.2)

theorem moveFollowers2_eq (fuel : ℕ) (db : Db) (p : ℕ) (after : Option DbEntry) :
    moveFollowers2 env fuel db p after = restart (followers2Round env p after) fuel db := by
  induction fuel generalizing db with
  | zero => rfl
  | succ fuel ih =>
      simp only [moveFollowers2, restart, followers2Round]
      cases find p db.entries with
      | none => rfl
      | some r =>
          simp only []
          cases follower db p after with
          | none => rfl
          | some e2 => simp only [Prog.bind_assoc, Prog.ret_bind, ← ih]

theorem changes_withField (db : Db) (q : ℕ) (type : UInt8) (data : Bytes) :
    Changes db q (withField type data) fun db => changeField db q type data := by
  intro db₁ he
  rw [← he]
  exact changeField_eq db₁ q type data

theorem changes_changeField (db : Db) (q : ℕ) (data : Bytes) :
    Changes db q (onFields fun fs => setField fs ftPrev data)
      fun db => changeField db q ftPrev data := by
  rw [← withField_prev]
  exact changes_withField db q ftPrev data

/-- The first reference of an entry is the one that is deleted. -/
theorem dbDeleteType_field (env : Env) (hl : Linked db.entries) (hx : x ∈ db.entries.entries)
    {data : Bytes} (hprev : prevData x.fields = some data) : ∃ i, i < x.fields.length ∧
    modify x.ptr (withoutField i) db.entries = modify x.ptr (onFields unprev) db.entries ∧
      dbDeleteType env db x ftPrev = dbDeleteField env db x.ptr i := by
  obtain ⟨g, hg, ht⟩ := mem_of_prevData hprev
  cases hi : x.fields.findIdx? fun f => f.type = ftPrev with
  | none => exact absurd ht (by simpa using List.findIdx?_eq_none_iff.mp hi g hg)
  | some i =>
      have hunprev : unprev x.fields = x.fields.eraseIdx i := by
        rw [unprev, List.eraseP_eq_eraseIdx, hi]
      refine ⟨i, (List.findIdx?_eq_some_iff_getElem.mp hi).1, ?_, by rw [dbDeleteType, hi]⟩
      apply Forest.map_congr
      intro y hy
      split
      · next hp =>
          obtain rfl := hl.eq_of_ptr hy hx (is_iff.mp hp)
          simp [withoutField, onFields, hunprev]
      · rfl

theorem dbDeleteType_eq (env : Env) (hl : Linked db.entries) (hx : x ∈ db.entries.entries)
    {data : Bytes} (hprev : prevData x.fields = some data) : ∃ change,
    Changes db x.ptr (onFields unprev) change ∧
      dbDeleteType env db x ftPrev = changeEntry env db x.ptr change := by
  obtain ⟨ch, hfind⟩ := find_of_mem hl hx
  obtain ⟨i, hi, hsame, hdelete⟩ := dbDeleteType_field env hl hx hprev
  have hlt : ¬ x.fields.length ≤ i := Nat.not_le_of_lt hi
  refine ⟨fun db => deleteField db x.ptr i, fun db₁ he => ?_, ?_⟩
  · rw [← hsame, ← he]
    exact deleteField_eq db₁ x.ptr i
  · simp only [hdelete, dbDeleteField, hfind, hlt, if_false]

/-- Whether a loop has found a follower. -/
theorem follower_none {prev : Option DbEntry} (h : follower db p prev = none) :
    ∀ x ∈ others p db.entries, prevData x.fields ≠ prev.map fun d => d.name.bytes := by
  intro x hx hprev
  obtain ⟨htop, hne⟩ := mem_others.mp hx
  have hnot := List.find?_eq_none.mp h x htop
  simp only [decide_eq_true_eq, not_and] at hnot
  exact hnot hne (isPrev_iff.mpr hprev)

theorem follower_some {prev : Option DbEntry} (h : follower db p prev = some x) :
    x ∈ others p db.entries ∧ prevData x.fields = prev.map fun d => d.name.bytes := by
  have hx := List.find?_some h
  simp only [decide_eq_true_eq] at hx
  exact ⟨mem_others.mpr ⟨List.mem_of_find?_eq_some h, hx.1⟩, isPrev_iff.mp hx.2⟩

theorem rounds_followers (e : DbEntry) :
    Rounds env e (fun fs => prevData fs = some e.name.bytes) (relink e)
      (followersRound env e.ptr) where
  done := by
    intro db hm h
    obtain ⟨d, ch, hfind, hface⟩ := hm.found
    have hname : d.name = e.name := congrArg (fun t => t.2.1) hface
    simp only [followersRound, hfind] at h
    split at h
    · next hnone =>
        intro x hx
        rw [← hname]
        exact follower_none hnone x hx
    · cases h
  round := by
    intro db q hm h
    obtain ⟨d, ch, hfind, hface⟩ := hm.found
    have hname : d.name = e.name := congrArg (fun t => t.2.1) hface
    have hfields : d.fields = e.fields := congrArg (fun t => t.2.2.2) hface
    simp only [followersRound, hfind] at h
    split at h
    · cases h
    · next e2 hfollow =>
        obtain rfl := Option.some.inj h
        obtain ⟨hx, hprev⟩ := follower_some hfollow
        refine ⟨e2, hx, by simpa [hname] using hprev, ?_⟩
        unfold relink prevData
        rw [← hfields]
        cases dbFieldFind d.fields ftPrev with
        | some f => exact ⟨_, changes_changeField db e2.ptr f.data, rfl⟩
        | none =>
            obtain ⟨change, hc, heq⟩ := dbDeleteType_eq env hm.linked
              (mem_entries_of_top (mem_others.mp hx).1) hprev
            exact ⟨change, hc, by rw [← heq]⟩

theorem rounds_followers2 (e : DbEntry) (after : Option DbEntry) :
    Rounds env e (fun fs => prevData fs = after.map fun d => d.name.bytes)
      (fun fs => setField fs ftPrev e.name.bytes) (followers2Round env e.ptr after) where
  done := by
    intro db hm h
    obtain ⟨d, ch, hfind, -⟩ := hm.found
    simp only [followers2Round, hfind] at h
    split at h
    · next hnone => exact follower_none hnone
    · cases h
  round := by
    intro db q hm h
    obtain ⟨d, ch, hfind, hface⟩ := hm.found
    have hname : d.name = e.name := congrArg (fun t => t.2.1) hface
    simp only [followers2Round, hfind] at h
    split at h
    · cases h
    · next e2 hfollow =>
        obtain rfl := Option.some.inj h
        obtain ⟨hx, hprev⟩ := follower_some hfollow
        refine ⟨e2, hx, hprev, _, changes_changeField db e2.ptr e.name.bytes, ?_⟩
        rw [hname]
        rfl

/-! ## The versions of a follower -/

/-- The references to a name are deleted one by one. -/
def unlinks (name : Bytes) : ℕ → List DbField → List (List DbField)
  | 0, _ => []
  | n + 1, fs => if prevData fs = some name then unprev fs :: unlinks name n (unprev fs) else []

/-- What the first loop stores of an entry. -/
def followerUpdates (e : DbEntry) (fs : List DbField) : List (List DbField) :=
  match prevData e.fields with
  | some data => if prevData fs = some e.name.bytes then [setField fs ftPrev data] else []
  | none => unlinks e.name.bytes fs.length fs

/-- What the second loop stores of an entry. -/
def follower2Updates (e : DbEntry) (after : Option Bytes) (fs : List DbField) :
    List (List DbField) :=
  if prevData fs = after then [setField fs ftPrev e.name.bytes] else []

/-- What a move stores of an entry other than the one that is moved. -/
def moveUpdates (e : DbEntry) (after : Option Bytes) (fs : List DbField) : List (List DbField) :=
  followerUpdates e fs ++ follower2Updates e after ((followerUpdates e fs).getLastD fs)

variable {after : Option Bytes} {fs : List DbField}

theorem followerUpdates_nil (h : prevData fs ≠ some e.name.bytes) : followerUpdates e fs = [] := by
  unfold followerUpdates
  split
  · exact if_neg h
  · cases fs with
    | nil => rfl
    | cons f fs => exact if_neg h

theorem followerUpdates_eq (hself : prevData e.fields ≠ some e.name.bytes)
    (h : prevData fs = some e.name.bytes) :
    followerUpdates e fs = relink e fs :: followerUpdates e (relink e fs) := by
  unfold followerUpdates relink
  cases hd : prevData e.fields with
  | some data =>
      have hnext : prevData (setField fs ftPrev data) ≠ some e.name.bytes := by
        rw [prevData_setField, DbField.ofData_data _ (prevData_length hd), ← hd]
        exact hself
      simp only [h, if_true, hnext, if_false]
  | none =>
      simp only []
      rw [unprev_length h, unlinks, if_pos h]

theorem moveUpdates_nil (h : prevData fs ≠ some e.name.bytes) :
    moveUpdates e after fs = follower2Updates e after fs := by
  rw [moveUpdates, followerUpdates_nil h]
  rfl

theorem moveUpdates_eq (hself : prevData e.fields ≠ some e.name.bytes)
    (h : prevData fs = some e.name.bytes) :
    moveUpdates e after fs = relink e fs :: moveUpdates e after (relink e fs) := by
  unfold moveUpdates
  rw [followerUpdates_eq hself h, List.getLastD_cons, List.cons_append]

theorem follower2Updates_eq (hcut : after ≠ some (DbField.ofData ftPrev e.name.bytes).data)
    (h : prevData fs = after) :
    follower2Updates e after fs =
      setField fs ftPrev e.name.bytes ::
        follower2Updates e after (setField fs ftPrev e.name.bytes) := by
  have hnext : prevData (setField fs ftPrev e.name.bytes) ≠ after := by
    rw [prevData_setField]
    exact Ne.symm hcut
  unfold follower2Updates
  rw [if_pos h, if_neg hnext]

end Sunela.Database
