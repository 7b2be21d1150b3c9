import Sunela.Verification.Move.Order

/-! # Moves in directories

The entry in front of another one is searched at the top level only, so that no entry can be moved
in front of one in a directory. -/

namespace Sunela.Database

open Program Storage Span Block Fields Entry Tsort

variable {env : Env} {torn : Torn} {e b x : DbEntry} {p : ℕ} {db db' : Db} {f : Flash}
  {F G H : Tree} {after : Option DbEntry}

/-- The lists that entries are in: the top level, and what is in each directory. -/
def directories (F : Tree) : List (List DbEntry) := F.tops :: F.nodes.map fun r => r.2.tops

/-- The first item is followed by the second one. -/
def DirectlyBefore {α : Type} (a b : α) (l : List α) : Prop := ∃ U V, l = U ++ a :: b :: V

/-- The move fails no assertion and comes to its end, and if both entries are in one directory that
is in a total order, then the one is in front of the other afterwards. -/
def MovesInFront (env : Env) (torn : Torn) (db : Db) (e b : DbEntry) (f : Flash) : Prop :=
  ∃ n, ∀ fuel, n ≤ fuel →
    wp (ending (Step torn)) (dbMoveBefore env fuel db e.ptr (some b.ptr))
      (fun db' _ => ∀ l ∈ directories db.entries, e ∈ l → b ∈ l → TotalOrder l →
        ∃ l' ∈ directories db'.entries, DirectlyBefore e.ptr b.ptr (l'.map DbEntry.ptr)) f

/-- The last change of a move, which is that of the moved entry, has a block and a record that
fits. -/
def Finishes (env : Env) (db : Db) (e : DbEntry) (after : Option Bytes) : Prop :=
  e.defer = false → ∀ fs ∈ entryUpdates after e.fields,
    demand (moveUpdates e after) e.ptr db.entries < db.erased.blocks.length ∧ Fits env fs

/-! ## Directories -/

/-- An entry of the top level is in no directory. -/
theorem eq_tops_of_mem (hl : Linked F) {l : List DbEntry} (hd : l ∈ directories F)
    (hb : b ∈ F.tops) (hbl : b ∈ l) : l = F.tops := by
  rcases List.mem_cons.mp hd with rfl | hm
  · rfl
  · obtain ⟨r, hr, rfl⟩ := List.mem_map.mp hm
    obtain ⟨c, -, hc⟩ := Forest.node_chains hr
    have heq := hl.chain_eq (Forest.mem_chains_of_tops hb) (hc _ (Forest.mem_chains_of_tops hbl))
      (e := b) (by simp) (by simp)
    have hlength := congrArg List.length heq
    simp at hlength

theorem directlyBefore_reinsert {a b : ℕ} {l : List ℕ} (hb : b ∈ l) (hne : a ≠ b) :
    DirectlyBefore a b (reinsert a (some b) l) := by
  have hbe : b ∈ l.erase a := (List.mem_erase_of_ne hne.symm).mpr hb
  obtain ⟨U, V, hUV, hU⟩ := List.eq_append_cons_of_mem hbe
  refine ⟨U, V, ?_⟩
  have hskip : ∀ x ∈ U, some x ≠ some b := by
    intro x hx hxb
    exact hU (Option.some.inj hxb ▸ hx)
  rw [reinsert, if_neg fun h => hne (Option.some.inj h).symm, hUV,
    List.takeWhile_append_of_pos (by simpa using hskip),
    List.dropWhile_append_of_pos (by simpa using hskip)]
  simp

/-! ## What is in a directory -/

theorem precedes_none {l : List DbEntry} (hb : ∀ x ∈ l, x.ptr ≠ p) : precedes p l = none := by
  induction l with
  | nil => rfl
  | cons x l ih =>
      cases l with
      | nil => rfl
      | cons y l =>
          rw [precedes, if_neg (hb y (by simp))]
          exact ih fun z hz => hb z (List.mem_cons_of_mem _ hz)

/-- The search for the entry in front of one in a directory fails the assertion. -/
theorem dbMoveBefore_halts (hl : Linked db.entries) (hb : b ∈ db.entries.entries)
    (hnot : b ∉ db.entries.tops) (fuel : ℕ) :
    dbMoveBefore env fuel db p (some b.ptr) = .halt := by
  have hptr : ∀ x ∈ db.entries.tops, x.ptr ≠ b.ptr := by
    intro x hx hp
    exact hnot (hl.eq_of_ptr (mem_entries_of_top hx) hb hp ▸ hx)
  have hhead : some b.ptr ≠ db.entries.tops.head?.map DbEntry.ptr := by
    intro h
    obtain ⟨x, hx, hp⟩ := Option.map_eq_some_iff.mp h.symm
    exact hptr x (List.mem_of_head? hx) hp
  rw [dbMoveBefore, if_neg hhead]
  simp only [precedes_none hptr]

/-! ## The last change -/

theorem Finishes.affords {data : Option Bytes} (hs : Settles env db e data)
    (h : Finishes env db e data) : Affords env db e data where
  blocks := by
    have hb := hs.supplied.blocks
    cases hd : e.defer with
    | true => simpa [cost, hd] using hb
    | false =>
        cases data with
        | some name =>
            have hlt := Nat.succ_le_of_lt (h hd _ (List.mem_singleton_self _)).1
            simpa [cost, hd, entryUpdates] using hlt
        | none =>
            cases hp : (prevData e.fields).isSome with
            | false => simpa [entryUpdates, hp] using hb
            | true =>
                have hlt := Nat.succ_le_of_lt
                  (h hd (unprev e.fields) (by simp [entryUpdates, hp])).1
                simpa [cost, hd, entryUpdates, hp] using hlt
  others := hs.supplied.fits
  self := fun hd fs hfs => (h hd fs hfs).2

/-- If there is a block for the moved entry, then its record has to fit. -/
theorem fits_of_moveEntry (hm : Moving e db) (hi : db.erased.Intact)
    (hnil : db.erased.blocks ≠ []) {Q : Db → Flash → Prop}
    (hw : wp (ending (Step torn)) (moveEntry env db e.ptr after) Q f) :
    e.defer = false → ∀ fs ∈ entryUpdates (nameData after) e.fields, Fits env fs := by
  obtain ⟨d, ch, hfind, hface⟩ := hm.found
  obtain ⟨hd, hp⟩ := mem_entries_of_find hfind
  have hdefer : d.defer = e.defer := congrArg (fun t => t.2.2.1) hface
  have hfields : d.fields = e.fields := congrArg (fun t => t.2.2.2) hface
  have hneeds : ∀ {k : List DbField → List DbField} {change : Db → Fw Db},
      Changes db e.ptr (onFields k) change →
      wp (ending (Step torn)) (changeEntry env db e.ptr change >>= fun r => r.2.sorted) Q f →
      e.defer = false → Fits env (k e.fields) := by
    intro k change hchange hq hdf
    rw [wp_bind] at hq
    rcases changeEntry_needs hm.linked hi (g := onFields k) (fun _ => rfl) hchange hfind hq with
      ⟨_, _, _, _, _, hnull⟩ | ⟨hok, -⟩
    · exact absurd (by rw [hnull]; rfl) hnil
    · have hfit := (hok (hdefer.trans hdf)).2
      rwa [onFields, hfields] at hfit
  intro hdf fs hfs
  unfold moveEntry at hw
  simp only [hfind] at hw
  cases after with
  | some a =>
      obtain rfl : fs = setField e.fields ftPrev a.name.bytes := by
        simpa [entryUpdates, nameData] using hfs
      exact hneeds (changes_changeField db e.ptr a.name.bytes) hw hdf
  | none =>
      cases hprev : dbFieldFind d.fields ftPrev with
      | none =>
          have hnone : prevData e.fields = none := by rw [← hfields, prevData, hprev]; rfl
          simp [entryUpdates, nameData, hnone] at hfs
      | some g =>
          have hsome : prevData d.fields = some g.data := by rw [prevData, hprev]; rfl
          obtain ⟨change, hc, heq⟩ := dbDeleteType_eq env hm.linked hd hsome
          rw [hp] at hc heq
          simp only [hprev, heq] at hw
          have hfit := hneeds hc hw hdf
          have hfs' : fs = unprev e.fields := by
            simpa [entryUpdates, nameData, ← hfields, hsome] using hfs
          rwa [hfs']

/-! ## `db_move_before` -/

/-- The name of the entry that `b` is behind at the top level. -/
abbrev frontName (b : DbEntry) (F : Tree) : Option Bytes := nameData (inFront (some b) F.tops)

/-- A move that comes to its end is in front of an entry of the top level, its loops settle, and
its last change fits if there is a block for it. -/
theorem needs_dbMoveBefore (hr : InRange env db) (he : e ∈ db.entries.entries)
    (hb : b ∈ db.entries.entries) (h : MovesInFront env torn db e b f) :
    b ∈ db.entries.tops ∧ (inFront (some b) db.entries.tops ≠ some e →
      Settles env db e (frontName b db.entries) ∧
      (demand (moveUpdates e (frontName b db.entries)) e.ptr db.entries <
        db.erased.blocks.length → Finishes env db e (frontName b db.entries))) := by
  obtain ⟨n, hw⟩ := h
  by_cases hbt : b ∈ db.entries.tops
  · refine ⟨hbt, fun hfront => ?_⟩
    have hmem : ∀ a, inFront (some b) db.entries.tops = some a → a ∈ db.entries.entries :=
      fun a h => mem_entries_of_top (inFront_mem h)
    have hm := moving_of_mem hr.linked he
    have hptr : (inFront (some b) db.entries.tops).map DbEntry.ptr ≠ some e.ptr := by
      intro hp
      obtain ⟨a, ha, hae⟩ := Option.map_eq_some_iff.mp hp
      exact hfront (by rw [ha, hr.linked.eq_of_ptr (hmem a ha) he hae])
    have heq := fun fuel => @dbMoveBefore_eq env e.ptr db (some b) hr.linked
      (List.ne_nil_of_mem hbt) (by simpa using hbt) fuel
    rw [Option.map_some] at heq
    obtain ⟨fuel, hn, hfuel⟩ : ∃ fuel, n ≤ fuel ∧
        rounds (moveUpdates e (frontName b db.entries)) e.ptr db.entries < fuel :=
      ⟨_, Nat.le_max_left _ _, Nat.lt_of_succ_le (Nat.le_max_right _ _)⟩
    have hrun := hw fuel hn
    rw [heq, dbMoveAfter_eq, moveLoops_eq he hr.linked hmem hfront, wp_bind] at hrun
    have hs : Settles env db e (frontName b db.entries) :=
      settles_of_ending hm hr.intact.1 hrun
    refine ⟨hs, fun hleft hd fs hfs => ⟨hleft, ?_⟩⟩
    obtain ⟨db₁, f₁, hlast, hr₁, hm₁, -, hb₁⟩ :=
      exists_of_wp (wp_and hrun (wp_moveLoops hr hm hs hfuel))
    rw [if_neg hptr] at hlast
    have htarget : target db ((inFront (some b) db.entries.tops).map DbEntry.ptr) =
        inFront (some b) db.entries.tops := by
      cases hin : inFront (some b) db.entries.tops with
      | none => rfl
      | some a =>
          obtain ⟨ch, hfind⟩ := find_of_mem hr.linked (hmem a hin)
          simp [target, hfind]
    rw [htarget] at hlast
    apply fits_of_moveEntry hm₁ hr₁.intact.1 _ hlast hd fs hfs
    intro hnil
    rw [hnil, List.length_nil, Nat.zero_add] at hb₁
    exact absurd hb₁ (Nat.ne_of_lt hleft)
  · have hrun := hw n (Nat.le_refl n)
    rw [dbMoveBefore_halts hr.linked hb hbt] at hrun
    exact hrun.elim

/-- The directory `d` with the accounts `a` and `b`. -/
def folderDb : Db :=
  { listedDb (.node ⟨16, 4, spanLen_pos⟩ .null) .null with
    entries := .node (account 100 none) (accounts [(97, none), (98, some 97)]) .nil }

end Sunela.Database
