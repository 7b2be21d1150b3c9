import Sunela.Verification.Move.Termination

/-! # What a move does to the references

The followers of the moved entry follow its predecessor instead, and what followed the entry that
it is moved behind follows the moved one. -/

namespace Sunela.Database

open Program Storage Span Block Fields Entry Tsort

variable {env : Env} {torn : Torn} {e x : DbEntry} {p : ℕ} {db db' : Db} {f : Flash}
  {after : Option DbEntry} {fs : List DbField}

/-! ## The moved entry -/

/-- What a move stores of the moved entry. -/
def entryUpdates (after : Option Bytes) (fs : List DbField) : List (List DbField) :=
  match after with
  | some name => [setField fs ftPrev name]
  | none => if (prevData fs).isSome then [unprev fs] else []

theorem sorted_entries {db' : Db} (h : db.sorted = .ret db') :
    dbTsort db.entries = some db'.entries := by
  obtain ⟨G, hG, hp⟩ := dbTsort_perm db.entries
  unfold Db.sorted at h
  rw [hG] at h ⊢
  simp only [Prog.pure_def, Prog.ret.injEq] at h
  split at h
  · next hn =>
      subst hn h
      rw [Forest.siblings_eq_nil.mp hp.symm.eq_nil]
  · rw [← h]

theorem InRange.sorted (h : InRange env db) (hs : db.sorted = .ret db') : InRange env db' := by
  obtain ⟨db₁, h₁, hr⟩ := sorted_eq db
  obtain rfl := Prog.ret.inj (h₁.symm.trans hs)
  exact h.retouched h.linked h.entries hr

/-- A change and the sort that ends the move. -/
theorem wp_change_sorted (hr : InRange env db) (hm : Moving e db)
    {k : List DbField → List DbField} {change : Db → Fw Db}
    (hchange : Changes db e.ptr (onFields k) change)
    (hok : e.defer = false → db.erased.blocks ≠ [] ∧ Fits env (k e.fields)) :
    wp (ending (Step torn)) (changeEntry env db e.ptr change >>= fun r => r.2.sorted)
      (fun db' _ => InRange env db' ∧ ∃ H, dbTsort H = some db'.entries ∧
        Alike H (modify e.ptr (onFields k) db.entries)) f := by
  obtain ⟨d, ch, hfind, hface⟩ := hm.found
  have hdefer : d.defer = e.defer := congrArg (fun t => t.2.2.1) hface
  have hfields : d.fields = e.fields := congrArg (fun t => t.2.2.2) hface
  rw [wp_bind]
  refine wp_changeEntry_ending hr (g := onFields k) (fun _ => rfl) (fun _ => rfl) hchange hfind
    (fun hd => ?_) ?_
  · rw [show (onFields k d).fields = k e.fields by rw [onFields, hfields]]
    exact hok (hdefer.symm.trans hd)
  · intro ok db₁ f₁ hc _
    obtain ⟨db₂, hsort, -⟩ := sorted_eq db₁
    simp only [hsort, wp_ret]
    exact ⟨hc.inRange.sorted hsort, db₁.entries, sorted_entries hsort, hc.alike⟩

/-- The moved entry goes through its version, if there is one, and the list is sorted. -/
theorem wp_moveEntry (hr : InRange env db) (hm : Moving e db)
    (hok : e.defer = false → ∀ fs ∈ entryUpdates (nameData after) e.fields,
      db.erased.blocks ≠ [] ∧ Fits env fs) :
    wp (ending (Step torn)) (moveEntry env db e.ptr after) (fun db' _ => InRange env db' ∧
      ∃ H, dbTsort H = some db'.entries ∧
        Alike H (modify e.ptr (onFields fun fs =>
          (entryUpdates (nameData after) fs).getLastD fs) db.entries)) f := by
  obtain ⟨d, ch, hfind, hface⟩ := hm.found
  have hfields : d.fields = e.fields := congrArg (fun t => t.2.2.2) hface
  unfold moveEntry
  simp only [hfind]
  cases after with
  | some a =>
      exact wp_change_sorted hr hm (changes_changeField db e.ptr a.name.bytes) fun hd =>
        hok hd _ (by simp [entryUpdates, nameData])
  | none =>
      obtain ⟨hd, hp⟩ := mem_entries_of_find hfind
      simp only []
      cases hprev : dbFieldFind d.fields ftPrev with
      | none =>
          have hnone : prevData d.fields = none := by rw [prevData, hprev]; rfl
          have hsame : modify e.ptr (onFields fun fs =>
              (entryUpdates (nameData none) fs).getLastD fs) db.entries = db.entries := by
            refine Eq.trans (Forest.map_congr (h := fun y => y) fun y hy => ?_) (Forest.map_id _)
            split
            · next hyp =>
                obtain rfl := hm.linked.eq_of_ptr hy hd ((is_iff.mp hyp).trans hp.symm)
                simp [onFields, entryUpdates, nameData, hnone]
            · rfl
          obtain ⟨db₂, hsort, -⟩ := sorted_eq db
          simp only [hsort, wp_ret]
          refine ⟨hr.sorted hsort, db.entries, sorted_entries hsort, ?_⟩
          rw [hsame]
          exact .refl _
      | some g =>
          have hsome : prevData d.fields = some g.data := by rw [prevData, hprev]; rfl
          have hsame : modify e.ptr (onFields fun fs =>
              (entryUpdates (nameData none) fs).getLastD fs) db.entries =
              modify e.ptr (onFields unprev) db.entries := by
            apply Forest.map_congr
            intro y hy
            split
            · next hyp =>
                obtain rfl := hm.linked.eq_of_ptr hy hd ((is_iff.mp hyp).trans hp.symm)
                simp [onFields, entryUpdates, nameData, hsome]
            · rfl
          obtain ⟨change, hc, heq⟩ := dbDeleteType_eq env hm.linked hd hsome
          rw [hp] at hc heq
          rw [hsame, heq]
          refine wp_change_sorted hr hm hc fun hdefer => hok hdefer _ ?_
          simp [entryUpdates, nameData, ← hfields, hsome]

/-! ## The references of a single entry -/

/-- The fields that are no references to predecessors. -/
def otherFields (fs : List DbField) : List DbField := fs.filter fun f => f.type ≠ ftPrev

theorem otherFields_setField (fs : List DbField) (data : Bytes) :
    otherFields (setField fs ftPrev data) = otherFields fs := by
  induction fs with
  | nil => simp [setField, otherFields]
  | cons g fs ih =>
      simp only [setField]
      split_ifs with hle heq
      · simp [otherFields, heq]
      · simp [otherFields]
      · simp only [otherFields, List.filter_cons] at ih ⊢
        rw [ih]

theorem otherFields_unprev (fs : List DbField) : otherFields (unprev fs) = otherFields fs := by
  induction fs with
  | nil => rfl
  | cons g fs ih =>
      by_cases hg : g.type = ftPrev
      · simp [unprev, otherFields, hg]
      · simpa [unprev, otherFields, hg] using ih

/-- There is at most one reference to a predecessor. -/
def PrevOnce (fs : List DbField) : Prop := (fs.filter fun f => f.type = ftPrev).length ≤ 1

theorem PrevOnce.unprev (h : PrevOnce fs) : prevData (unprev fs) = none := by
  induction fs with
  | nil => rfl
  | cons g fs ih =>
      by_cases hg : g.type = ftPrev
      · have hnone : fs.filter (fun f => f.type = ftPrev) = [] := by
          simpa [PrevOnce, hg] using h
        have hfind : dbFieldFind fs ftPrev = none := by
          rw [dbFieldFind, List.find?_eq_none]
          exact List.filter_eq_nil_iff.mp hnone
        simp [Database.unprev, hg, prevData, hfind]
      · have hrest : PrevOnce fs := by simpa [PrevOnce, hg] using h
        have hfind := ih hrest
        simpa [Database.unprev, hg, prevData, dbFieldFind] using hfind

/-- What an entry other than the moved one follows after the move. -/
def rewired (e : DbEntry) (after : Option Bytes) (fs : List DbField) : Option Bytes :=
  let p := if prevData fs = some e.name.bytes then prevData e.fields else prevData fs
  if p = after then some e.name.bytes else p

theorem followerUpdates_last (ho : PrevOnce fs)
    (hself : prevData e.fields ≠ some e.name.bytes) :
    prevData ((followerUpdates e fs).getLastD fs) =
      (if prevData fs = some e.name.bytes then prevData e.fields else prevData fs) ∧
    otherFields ((followerUpdates e fs).getLastD fs) = otherFields fs := by
  split
  · next h =>
      rw [followerUpdates_eq hself h, List.getLastD_cons]
      have hnext : prevData (relink e fs) = prevData e.fields := by
        unfold relink
        split
        · next data hd => rw [prevData_setField, DbField.ofData_data _ (prevData_length hd), hd]
        · next hd => rw [ho.unprev, hd]
      rw [followerUpdates_nil (by rw [hnext]; exact hself)]
      refine ⟨hnext, ?_⟩
      unfold relink
      split
      · exact otherFields_setField fs _
      · exact otherFields_unprev fs
  · next h =>
      rw [followerUpdates_nil h]
      exact ⟨rfl, rfl⟩

theorem moveUpdates_last (after : Option Bytes) (ho : PrevOnce fs)
    (hself : prevData e.fields ≠ some e.name.bytes) (hlen : e.name.bytes.length < 256) :
    prevData ((moveUpdates e after fs).getLastD fs) = rewired e after fs ∧
    otherFields ((moveUpdates e after fs).getLastD fs) = otherFields fs := by
  obtain ⟨hp, hof⟩ := followerUpdates_last ho hself
  have happend : (moveUpdates e after fs).getLastD fs =
      (follower2Updates e after ((followerUpdates e fs).getLastD fs)).getLastD
        ((followerUpdates e fs).getLastD fs) := by
    rw [moveUpdates]
    generalize follower2Updates e after ((followerUpdates e fs).getLastD fs) = l
    cases l using List.reverseRecOn with
    | nil => simp
    | append_singleton l a => simp [← List.append_assoc]
  rw [happend, rewired, ← hp, ← hof]
  unfold follower2Updates
  split
  · exact ⟨by rw [List.getLastD_cons, List.getLastD_nil, prevData_setField,
      DbField.ofData_data _ hlen], otherFields_setField _ _⟩
  · exact ⟨rfl, rfl⟩

theorem entryUpdates_last {after : Option Bytes} (ho : PrevOnce fs)
    (hlen : ∀ name, after = some name → name.length < 256) :
    prevData ((entryUpdates after fs).getLastD fs) = after ∧
    otherFields ((entryUpdates after fs).getLastD fs) = otherFields fs := by
  unfold entryUpdates
  cases after with
  | some name =>
      refine ⟨?_, otherFields_setField fs name⟩
      rw [List.getLastD_cons, List.getLastD_nil, prevData_setField,
        DbField.ofData_data _ (hlen name rfl)]
  | none =>
      cases hp : prevData fs with
      | none => exact ⟨hp, rfl⟩
      | some data => exact ⟨ho.unprev, otherFields_unprev fs⟩

/-! ## The whole move -/

/-- All changes of a move succeed: there is a block for each, and each record fits. -/
structure Affords (env : Env) (db : Db) (e : DbEntry) (after : Option Bytes) : Prop where
  blocks : demand (moveUpdates e after) e.ptr db.entries +
    cost e * (entryUpdates after e.fields).length ≤ db.erased.blocks.length
  others : ∀ x ∈ others e.ptr db.entries, x.defer = false →
    ∀ fs ∈ moveUpdates e after x.fields, Fits env fs
  self : e.defer = false → ∀ fs ∈ entryUpdates after e.fields, Fits env fs

/-- The tree after a move, but for its order. -/
def moved (e : DbEntry) (after : Option Bytes) (F : Tree) : Tree :=
  modify e.ptr (onFields fun fs => (entryUpdates after fs).getLastD fs)
    (settle (moveUpdates e after) e.ptr F)

/-- A move comes to its end, and leaves a list that has just been sorted. -/
theorem wp_dbMoveAfter (hr : InRange env db) (he : e ∈ db.entries.entries)
    (ha : ∀ a, after = some a → a ∈ db.entries.entries) (hne : after ≠ some e)
    (hs : Settles env db e (nameData after)) (hf : Affords env db e (nameData after)) {fuel : ℕ}
    (hfuel : rounds (moveUpdates e (nameData after)) e.ptr db.entries < fuel) :
    wp (ending (Step torn)) (dbMoveAfter env fuel db e.ptr (after.map DbEntry.ptr))
      (fun db' _ => InRange env db' ∧ ∃ H, dbTsort H = some db'.entries ∧
        Alike H (moved e (nameData after) db.entries)) f := by
  have hptr : after.map DbEntry.ptr ≠ some e.ptr := by
    intro hp
    obtain ⟨a, rfl, hae⟩ := Option.map_eq_some_iff.mp hp
    exact hne (by rw [hr.linked.eq_of_ptr (ha a rfl) he hae])
  have htarget : target db (after.map DbEntry.ptr) = after := by
    cases after with
    | none => rfl
    | some a =>
        obtain ⟨ch, hfind⟩ := find_of_mem hr.linked (ha a rfl)
        simp [target, hfind]
  rw [dbMoveAfter_eq, moveLoops_eq he hr.linked ha hne, wp_bind]
  simp only [if_neg hptr, htarget]
  refine wp_mono (wp_moveLoops hr (moving_of_mem hr.linked he) hs hfuel) ?_
  rintro db₁ f₁ ⟨hr₁, hm₁, ha₁, hb₁⟩
  refine wp_mono (wp_moveEntry hr₁ hm₁ fun hd fs hfs => ⟨fun hnil => ?_, hf.self hd fs hfs⟩) ?_
  · have hpos := List.length_pos_of_mem hfs
    have hblocks := hf.blocks
    simp only [hnil, List.length_nil] at hb₁
    simp only [cost, hd, Bool.false_eq_true, if_false] at hblocks
    omega
  · rintro db₂ f₂ ⟨hr₂, H, hH, hal⟩
    exact ⟨hr₂, H, hH, hal.trans (ha₁.modify fun _ _ h => face_onFields h)⟩

theorem Affords.supplied {after : Option Bytes} (h : Affords env db e after) :
    Supplied env (moveUpdates e after) e.ptr db := by
  have hb := h.blocks
  exact ⟨by omega, h.others⟩

/-- Entries without children that have distinct names, and each at most one predecessor, which is
not the entry itself. -/
structure PrevGraph (F : Tree) : Prop where
  flat : ∀ r ∈ F.siblings, r.2 = .nil
  names : (F.entries.map DbEntry.name).Nodup
  short : ∀ x ∈ F.entries, x.name.bytes.length < 256
  once : ∀ x ∈ F.entries, PrevOnce x.fields
  irreflexive : ∀ x ∈ F.entries, prevData x.fields ≠ some x.name.bytes

theorem entries_of_flat {F : Tree} (h : ∀ r ∈ F.siblings, r.2 = .nil) : F.entries = F.tops := by
  induction F with
  | nil => rfl
  | node e ch nx _ ih =>
      obtain rfl : ch = .nil := h (e, ch) (by simp [Forest.siblings])
      have hrest := ih fun r hr => h r (List.mem_cons_of_mem _ hr)
      simp [Forest.entries, Forest.tops, hrest]

/-- Nothing but the reference to the predecessor has changed. -/
structure OnlyPrev (x y : DbEntry) : Prop where
  ptr : y.ptr = x.ptr
  name : y.name = x.name
  defer : y.defer = x.defer
  fields : otherFields y.fields = otherFields x.fields

/-- The references are what they should be after `e` was moved behind `after`. -/
structure Rewired (e : DbEntry) (after : Option DbEntry) (F G : Tree) : Prop where
  ptrs : (G.entries.map DbEntry.ptr).Perm (F.entries.map DbEntry.ptr)
  self : ∃ y ∈ G.entries, OnlyPrev e y ∧ prevData y.fields = nameData after
  others : ∀ x ∈ F.entries, x ≠ e → ∃ y ∈ G.entries, OnlyPrev x y ∧
    prevData y.fields = rewired e (nameData after) x.fields

theorem OnlyPrev.of_face {x y z : DbEntry} (h : OnlyPrev x y) (hf : face z = face y) :
    OnlyPrev x z ∧ prevData z.fields = prevData y.fields := by
  simp only [face, Prod.mk.injEq] at hf
  obtain ⟨h1, h2, h3, h4⟩ := hf
  refine ⟨⟨h1.trans h.ptr, h2.trans h.name, h3.trans h.defer, ?_⟩, by rw [h4]⟩
  rw [h4]
  exact h.fields

theorem PrevGraph.settles (hg : PrevGraph db.entries) (he : e ∈ db.entries.entries)
    (ha : ∀ a, after = some a → a ∈ db.entries.entries) (hne : after ≠ some e)
    (hf : Affords env db e (nameData after)) : Settles env db e (nameData after) where
  self := fun hs => absurd hs (hg.irreflexive e he)
  cut := by
    intro x hx _ hname
    rw [DbField.ofData_data _ (hg.short e he)] at hname
    obtain ⟨a, rfl, hae⟩ := Option.map_eq_some_iff.mp hname
    have heq := List.inj_on_of_nodup_map hg.names (ha a rfl) he (CString.ext hae)
    exact hne (by rw [heq])
  supplied := hf.supplied

section Entries

variable {F : Tree} {after : Option Bytes}

/-- What becomes of an entry of the top level. -/
def rewriteEntry (e : DbEntry) (after : Option Bytes) (x : DbEntry) : DbEntry :=
  if x.ptr = e.ptr then onFields (fun fs => (entryUpdates after fs).getLastD fs) x
  else onFields (fun fs => (moveUpdates e after fs).getLastD fs) x

/-- What an entry of the top level follows after a move. -/
def newPrev (e : DbEntry) (after : Option Bytes) (x : DbEntry) : Option Bytes :=
  if x.ptr = e.ptr then after else rewired e after x.fields

theorem moved_map (e : DbEntry) (after : Option Bytes) (F : Tree) : ∃ k : DbEntry → DbEntry,
    moved e after F = F.map k ∧ ∀ x ∈ F.tops, k x = rewriteEntry e after x := by
  refine ⟨_, (by unfold moved settle Entry.modify; exact Forest.map_map _ _ _), fun x hx => ?_⟩
  simp only [Function.comp_apply, rewriteEntry]
  by_cases hp : x.ptr = e.ptr
  · have hnot : x.ptr ∉ (others e.ptr F).map DbEntry.ptr := by
      intro hm
      obtain ⟨y, hy, hyp⟩ := List.mem_map.mp hm
      exact (mem_others.mp hy).2 (hyp.trans hp)
    rw [if_neg hnot, if_pos (is_iff.mpr hp), if_pos hp]
  · have hmem : x.ptr ∈ (others e.ptr F).map DbEntry.ptr :=
      List.mem_map_of_mem (mem_others.mpr ⟨hx, hp⟩)
    rw [if_pos hmem, if_neg hp]
    exact if_neg fun h => hp (is_iff.mp h)

theorem rewriteEntry_prev (ho : PrevOnce x.fields) (hself : prevData e.fields ≠ some e.name.bytes)
    (hlen : e.name.bytes.length < 256) (ha : ∀ name, after = some name → name.length < 256) :
    OnlyPrev x (rewriteEntry e after x) ∧
      prevData (rewriteEntry e after x).fields = newPrev e after x := by
  unfold rewriteEntry newPrev
  split
  · obtain ⟨hprev, hfields⟩ := entryUpdates_last ho ha
    exact ⟨⟨rfl, rfl, rfl, hfields⟩, hprev⟩
  · obtain ⟨hprev, hfields⟩ := moveUpdates_last after ho hself hlen
    exact ⟨⟨rfl, rfl, rfl, hfields⟩, hprev⟩

end Entries

theorem moved_rewired (hl : Linked db.entries) (hg : PrevGraph db.entries)
    (he : e ∈ db.entries.entries) (ha : ∀ a, after = some a → a ∈ db.entries.entries)
    {G : Tree} (hG : Alike G (moved e (nameData after) db.entries)) :
    Rewired e after db.entries G := by
  have hflat := entries_of_flat hg.flat
  have hlen : ∀ name, nameData after = some name → name.length < 256 := by
    intro name hn
    obtain ⟨a, rfl, rfl⟩ := Option.map_eq_some_iff.mp hn
    exact hg.short a (ha a rfl)
  obtain ⟨k, hk, hktop⟩ := moved_map e (nameData after) db.entries
  have hmem : ∀ x ∈ db.entries.entries, ∃ y ∈ G.entries, OnlyPrev x y ∧
      prevData y.fields = newPrev e (nameData after) x := by
    intro x hx
    have hgo : k x ∈ (moved e (nameData after) db.entries).entries := by
      rw [hk, Forest.entries_map]
      exact List.mem_map_of_mem hx
    rw [hktop x (hflat ▸ hx)] at hgo
    obtain ⟨y, hy, hf⟩ := List.mem_map.mp (hG.symm.entries.mem_iff.mp (List.mem_map_of_mem hgo))
    obtain ⟨honly, hprev⟩ := rewriteEntry_prev (hg.once x hx) (hg.irreflexive e he)
      (hg.short e he) hlen
    obtain ⟨ho, hd⟩ := honly.of_face hf
    exact ⟨y, hy, ho, hd.trans hprev⟩
  refine ⟨?_, ?_, fun x hx hne => ?_⟩
  · have hp := hG.ptrs
    rw [hk, Forest.entries_map, List.map_map] at hp
    refine hp.trans (.of_eq (List.map_congr_left fun x hx => ?_))
    rw [Function.comp_apply, hktop x (hflat ▸ hx), rewriteEntry]
    split <;> rfl
  · obtain ⟨y, hy, ho, hd⟩ := hmem e he
    exact ⟨y, hy, ho, hd.trans (if_pos rfl)⟩
  · obtain ⟨y, hy, ho, hd⟩ := hmem x hx
    exact ⟨y, hy, ho, hd.trans (if_neg fun hp => hne (hl.eq_of_ptr hx he hp))⟩

/-- While no change is refused, a move gives the followers of the moved entry its predecessor, lets
what followed `after` follow the moved entry, and lets this follow `after`. -/
theorem dbMoveAfter_rewires (after : Option DbEntry) (hr : InRange env db)
    (hg : PrevGraph db.entries) (he : e ∈ db.entries.entries)
    (ha : ∀ a, after = some a → a ∈ db.entries.entries)
    (hne : after ≠ some e) (hf : Affords env db e (nameData after)) :
    ∃ n, ∀ fuel, n ≤ fuel →
      wp (ending (Step torn)) (dbMoveAfter env fuel db e.ptr (after.map DbEntry.ptr))
        (fun db' _ => Rewired e after db.entries db'.entries) f := by
  refine ⟨rounds (moveUpdates e (nameData after)) e.ptr db.entries + 1, fun fuel hfuel => ?_⟩
  refine wp_mono (wp_dbMoveAfter hr he ha hne (hg.settles he ha hne hf) hf hfuel) ?_
  rintro db' g ⟨-, H, hH, hal⟩
  exact moved_rewired hr.linked hg he ha ((Alike.of_siblings (dbTsort_siblings hH)).trans hal)

/-- The entries `a`, `b` and `c`, one behind the other. -/
def threeDb : Db :=
  accountsDb [(97, none), (98, some 97), (99, some 98)] (.node ⟨16, 4, by decide⟩ .null)

theorem threeDb_inRange : InRange (plainEnv 256) threeDb :=
  accountsDb_inRange (by decide) trivial (by decide) (by decide)

theorem threeDb_prevGraph : PrevGraph threeDb.entries where
  flat := by decide
  names := by decide
  short := by decide
  once := by unfold PrevOnce; decide
  irreflexive := by decide

/-- Moving `c` behind `a`. -/
theorem dbMoveAfter_rewires_three : ∃ n, ∀ fuel, n ≤ fuel → wp (ending Works)
    (dbMoveAfter (plainEnv 256) fuel threeDb 99 (some 97))
    (fun db' _ => Rewired (account 99 (some 98)) (some (account 97 none)) threeDb.entries
      db'.entries) (plainFlash []) :=
  dbMoveAfter_rewires (e := account 99 (some 98)) (some (account 97 none)) threeDb_inRange
    threeDb_prevGraph (by decide) (by decide) (by decide)
    ⟨by decide, by decide, by decide⟩

end Sunela.Database
