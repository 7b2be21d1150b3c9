import Mathlib.Data.List.Lex
import Sunela.Lib.Before
import Sunela.Lib.Listing
import Sunela.Verification.Open.Newest
import Sunela.Verification.Tsort.Names

/-! # The order of the listing

Opening a database makes the names of its tree grow by the paths of the records. Sorting changes
the order at the top level. -/

namespace Sunela.Alphabet

open Entry

def key (s : CString) : List ℕ := s.bytes.map UInt8.toNat

theorem key_injective : Function.Injective key := fun _ _ h =>
  CString.ext (List.map_injective_iff.mpr (fun _ _ hab => UInt8.toNat_inj.mp hab) h)

/-- Names in the order of their bytes. -/
scoped instance : LinearOrder CString where
  toPartialOrder := PartialOrder.lift key key_injective
  le_total s t := le_total (key s) (key t)
  toDecidableLE s t := inferInstanceAs (Decidable (key s ≤ key t))
  toDecidableEq := inferInstance

theorem strcmp_gt {a b : Bytes} :
    strcmp a b = .gt ↔ b.map UInt8.toNat < a.map UInt8.toNat := by
  induction a generalizing b with
  | nil => cases b <;> simp [strcmp]
  | cons x a ih =>
      cases b with
      | nil => simp [strcmp]
      | cons y b =>
          rw [strcmp, List.map_cons, List.map_cons, List.cons_lt_cons_iff, ← ih]
          by_cases hxy : x < y
          · have hlt : x.toNat < y.toNat := hxy
            rw [if_pos hxy]
            simp
            omega
          · by_cases hyx : y < x
            · rw [if_neg hxy, if_pos hyx]
              simp only [true_iff]
              exact .inl hyx
            · obtain rfl : x = y := UInt8.le_antisymm (UInt8.not_lt.mp hyx) (UInt8.not_lt.mp hxy)
              simp

theorem strcmp_names {s t : CString} : strcmp s.bytes t.bytes = .gt ↔ t < s := strcmp_gt

end Sunela.Alphabet

namespace Sunela.Database

open Storage Block Fields Entry Tsort Alphabet

/-- The names of the entries, in the order of the lists. -/
abbrev listing (F : Tree) : Forest CString := F.map DbEntry.name

theorem listing_tops (F : Tree) : (listing F).tops = F.tops.map DbEntry.name := by
  induction F with
  | nil => rfl
  | node e ch nx _ ih =>
      rw [listing, Forest.map, Forest.tops, Forest.tops, ih]
      rfl

/-! ## Placing a record -/

theorem listing_insertSorted (new : DbEntry) (F : Tree) :
    listing (insertSorted new F) =
      (listing F).insertBefore (fun t => new.name < t) new.name := by
  induction F with
  | nil => rfl
  | node e ch nx _ ih =>
      have hgt : strcmp e.name.bytes new.name.bytes = .gt ↔ new.name < e.name := strcmp_names
      rw [insertSorted] at ih ⊢
      simp only [Forest.insertBefore, listing, Forest.map, decide_eq_true_eq, hgt]
      split
      · rfl
      · exact congrArg (Forest.node e.name (ch.map DbEntry.name)) ih

theorem listing_replaceChild {F : Tree} {s : CString} {new : DbEntry} (h : new.name = s) :
    listing (F.replaceChild DbEntry.name s new) = listing F := by
  induction F with
  | nil => rfl
  | node e ch nx _ ih =>
      rw [Forest.replaceChild]
      split
      · next he => simp only [listing, Forest.map, h, he]
      · exact congrArg (Forest.node e.name (ch.map DbEntry.name)) ih

theorem storeRecord_listing {r : Record} {ptr : ℕ} {s : CString} {F G : Tree}
    (h : storeRecord r ptr s F = some G) : listing G = (listing F).grow [s] := by
  rw [Forest.grow]
  unfold storeRecord at h
  cases hc : F.child DbEntry.name s with
  | none =>
      rw [hc] at h
      obtain rfl := Option.some.inj h
      have hs : s ∉ (listing F).tops := by
        rw [listing_tops]
        exact Forest.child_eq_none.mp hc
      rw [if_neg hs]
      exact listing_insertSorted _ F
  | some d =>
      have hname : d.1.name = s := Forest.child_name hc
      have hs : s ∈ (listing F).tops := by
        rw [listing_tops]
        by_contra hs
        rw [Forest.child_eq_none.mpr hs] at hc
        cases hc
      rw [if_pos hs]
      simp only [hc] at h
      split_ifs at h <;> obtain rfl := Option.some.inj h
      · rfl
      · exact listing_replaceChild hname
      · exact listing_replaceChild hname

theorem listing_visit {F G : Tree} {s : CString} {new : DbEntry} {change : Tree → Option Tree}
    {change' : Forest CString → Forest CString} (hnew : new.name = s)
    (hchange : ∀ A B, change A = some B → listing B = change' (listing A))
    (h : F.visit DbEntry.name s new change = some G) :
    listing G = (listing F).enter s change' := by
  induction F generalizing G with
  | nil =>
      obtain ⟨ch, hch, rfl⟩ := Option.map_eq_some_iff.mp h
      have hbelow := hchange _ _ hch
      simp only [listing, Forest.map, hnew] at hbelow ⊢
      rw [hbelow, Forest.enter]
  | node e ch nx _ ih =>
      rw [Forest.visit] at h
      by_cases he : e.name = s
      · rw [if_pos he] at h
        obtain ⟨ch', hch, rfl⟩ := Option.map_eq_some_iff.mp h
        have hbelow := hchange _ _ hch
        simp only [listing, Forest.map, Forest.enter, if_pos he] at hbelow ⊢
        rw [hbelow]
      · rw [if_neg he] at h
        obtain ⟨nx', hnx, rfl⟩ := Option.map_eq_some_iff.mp h
        simp only [listing, Forest.map, Forest.enter, if_neg he]
        rw [← ih hnx]

/-- A record makes the names grow by its path. -/
theorem placeRecord_listing {r : Record} {fresh : ℕ} {p : Path} {F G : Tree}
    (h : placeRecord r fresh p F = some G) : listing G = (listing F).grow p := by
  induction p generalizing fresh F G with
  | nil => cases h
  | cons s p ih =>
      cases p with
      | nil => exact storeRecord_listing h
      | cons t p => exact listing_visit rfl (fun _ _ hAB => ih hAB) h

/-! ## Reading the blocks -/

theorem openBlock_listing {env : Env} {f : Flash} {s s' : Db × Settings} {i : ℕ}
    (h : openBlock env f s i = some s') :
    listing s'.1.entries =
      (([i].filterMap (recordIn env f)).map Record.path).foldl (fun A p => A.grow p)
        (listing s.1.entries) := by
  unfold recordIn
  cases openBlock_round h with
  | data seq payload found processed settings =>
      unfold processPayload at processed
      simp only [found, List.filterMap_cons, List.filterMap_nil]
      cases hp : parseRecord i seq payload with
      | none =>
          rw [hp] at processed
          rw [← Option.some.inj processed]
          rfl
      | some r =>
          rw [hp] at processed
          obtain ⟨G, hG, hdb⟩ := Option.bind_eq_some_iff.mp processed
          rw [← Option.some.inj hdb]
          exact placeRecord_listing hG
  | settings seq payload found taken =>
      simp only [found, List.filterMap_cons, List.filterMap_nil, taken]
      cases settingsProcess s.2 seq payload <;> rfl
  | other notData notSettings entries special block settings =>
      rw [entries]
      cases hc : contents env.c f i with
      | data seq payload => exact absurd hc (notData seq payload)
      | _ => simp [hc]

theorem foldlM_listing {env : Env} {f : Flash} {ns : List ℕ} {s s' : Db × Settings}
    (h : ns.foldlM (openBlock env f) s = some s') :
    listing s'.1.entries =
      ((ns.filterMap (recordIn env f)).map Record.path).foldl (fun A p => A.grow p)
        (listing s.1.entries) := by
  induction ns generalizing s with
  | nil =>
      obtain rfl := Option.some.inj h
      rfl
  | cons n ns ih =>
      rw [List.foldlM_cons] at h
      obtain ⟨s₁, h₁, h⟩ := Option.bind_eq_some_iff.mp h
      have hsplit : (n :: ns).filterMap (recordIn env f) =
          [n].filterMap (recordIn env f) ++ ns.filterMap (recordIn env f) := by
        rw [← List.filterMap_append]
        rfl
      rw [hsplit, List.map_append, List.foldl_append, ← openBlock_listing h₁]
      exact ih h

theorem listing_fixVirtual (F : Tree) : listing (fixVirtual F) = listing F := by
  have hname : ∀ b e, (fixEntry b e).name = e.name := by
    intro b e
    unfold fixEntry
    split_ifs <;> rfl
  induction F with
  | nil => rfl
  | node e ch nx hc hn =>
      simp only [listing] at hc hn
      simp only [listing, fixVirtual, Forest.map, hname, hc, hn]

theorem Built.told {rs : List Record} {F : Tree} {fresh : ℕ} (h : Built rs F fresh) : Told F := by
  constructor
  · exact ((Forest.tops_sublist_entries F).map DbEntry.ptr).nodup h.linked
  · exact h.distinct.nodup_names

/-- The paths of the records, in the order in which they are read. -/
def paths (env : Env) (f : Flash) : List Path := (records env f).map Record.path

/-- The tree that has been read, before it is sorted. -/
structure Read (env : Env) (f : Flash) (F G : Tree) : Prop where
  built : ∃ fresh, Built (records env f) F fresh
  grown : listing F = Forest.growAll (paths env f)
  sorted : dbTsort F = some G

/-- The entries after an open are those that have been read, once they are sorted. -/
theorem dbOpen_entries {env : Env} {f : Flash} {st : Settings} {s : Db × Settings}
    (h : dbOpen env st f = some s) : ∃ F G, Read env f F G ∧ s.1.entries = fixVirtual G := by
  obtain ⟨s', hs, hscan⟩ := @foldlM_scanned env f [] dbOpenEmpty st scanned_nil reservedBlocks
    (env.storageBlocks - reservedBlocks) (by simp) (by simp) (Nat.le_refl _)
  have hgrown := foldlM_listing hs
  unfold dbOpen dbBlocks at h
  rw [hs] at h
  simp only [Option.bind_eq_bind, Option.bind_some] at h
  obtain ⟨G, hG, h⟩ := Option.bind_eq_some_iff.mp h
  obtain rfl := Option.some.inj h
  exact ⟨_, G, ⟨⟨_, hscan.tree⟩, hgrown, hG⟩, rfl⟩

theorem dbOpen_read {env : Env} {f : Flash} {st : Settings} {s : Db × Settings}
    (h : dbOpen env st f = some s) : ∃ F G, Read env f F G ∧ listing s.1.entries = listing G := by
  obtain ⟨F, G, hread, he⟩ := dbOpen_entries h
  exact ⟨F, G, hread, he ▸ listing_fixVirtual G⟩

variable {env : Env} {f f' : Flash} {F F' G G' : Tree}

theorem Read.told (h : Read env f F G) : Told F := h.built.elim fun _ hb => hb.told

theorem Read.nodup (h : Read env f F G) : (listing F).tops.Nodup := by
  rw [listing_tops]
  exact h.told.names

theorem Read.names (h : Read env f F G) :
    Kahn.sort (prevName F) (listing F).tops = some (listing G).tops := by
  rw [listing_tops, listing_tops]
  exact dbTsort_names h.told h.sorted

/-- Sorting does not touch what is below the top level. -/
theorem Read.kids (h : Read env f F G) (s : CString) :
    Forest.kids s (listing G) = Forest.kids s (Forest.growAll (paths env f)) := by
  obtain ⟨G', hG', hperm⟩ := dbTsort_perm F
  obtain rfl := Option.some.inj (h.sorted.symm.trans hG')
  rw [← h.grown]
  apply (Forest.kids_perm h.nodup _ s).symm
  rw [Forest.siblings_map, Forest.siblings_map]
  exact hperm.symm.map _

/-! ## References -/

/-- The name that the record at the top level of a name refers to. -/
theorem prevName_eq (F : Tree) (s : CString) :
    prevName F s = (((look F [s]).map fun v => v.2.2).bind fun fs => dbFieldFind fs ftPrev).bind
      fun fld => (listing F).tops.find? fun t => t.bytes = fld.data := by
  unfold prevName
  rw [look_singleton, listing_tops]
  cases F.child DbEntry.name s with
  | none => rfl
  | some r =>
      simp only [Option.bind_eq_bind, Option.bind_some, view, List.find?_map,
        Option.pure_def, Option.map_eq_bind]
      rfl

theorem newest_of_nodup {rs : List Record} (hn : (rs.map Record.path).Nodup) {r : Record}
    (hr : r ∈ rs) : newest rs r.path = some r := by
  cases h : newest rs r.path with
  | none => exact absurd rfl (newest_eq_none.mp h r hr)
  | some r' =>
      obtain ⟨hr', hp⟩ := newest_mem h
      rw [List.inj_on_of_nodup_map hn hr' hr hp]

/-- A single record of each path is the newest one. -/
theorem inWindow_of_nodup {rs : List Record} (hn : (rs.map Record.path).Nodup) :
    InWindow (fun q => ((newest rs q).map fun r => r.seq.toNat).getD 0) rs where
  base_lt q := by
    cases newest rs q with
    | none => exact Nat.zero_lt_succ _
    | some r => exact r.seq.toNat_lt
  age_lt r hr := by
    rw [Record.age, newest_of_nodup hn hr]
    simp [Serial.offset]
  distinct r hr s hs hp _ := List.inj_on_of_nodup_map hn hr hs hp

theorem scanned_fields_perm {base : Path → ℕ} {rs rs' : List Record} (h : InWindow base rs)
    (hp : (rs.map Record.said).Perm (rs'.map Record.said)) (q : Path) :
    (scanned rs q).map (fun v => v.2.2) = (scanned rs' q).map fun v => v.2.2 := by
  have hn := newest_perm h hp q
  unfold scanned
  rw [reaches_perm hp q]
  cases hr : newest rs q with
  | none =>
      rw [hr] at hn
      rw [Option.map_eq_none_iff.mp hn.symm]
  | some r =>
      rw [hr] at hn
      obtain ⟨r', hr', hsaid⟩ := Option.map_eq_some_iff.mp hn.symm
      rw [hr']
      exact congrArg (fun v : UInt16 × Path × List DbField => some v.2.2) hsaid.symm

/-! ## Where the blocks are does not matter -/

/-- The order in which a storage is listed is that of every storage with the same blocks. -/
def Stable (env : Env) (f : Flash) : Prop :=
  ∀ f' st st' s s', (dataBlocks env f).Perm (dataBlocks env f') →
    dbOpen env st f = some s → dbOpen env st' f' = some s' →
    listing s'.1.entries = listing s.1.entries

theorem paths_perm (hp : (dataBlocks env f).Perm (dataBlocks env f')) :
    (paths env f).Perm (paths env f') := by
  have hsaid := (records_perm hp).map fun v => v.2.1
  rw [List.map_map, List.map_map] at hsaid
  exact hsaid

theorem Read.stable (h : Read env f F G) (h' : Read env f' F' G')
    (hp : (dataBlocks env f).Perm (dataBlocks env f')) (hn : (paths env f).Nodup)
    (hl : Forest.LastOnly (paths env f)) : listing G = listing G' := by
  have hgrown := hl.growAll_perm (paths_perm hp)
  have hsame : listing F = listing F' := by rw [h.grown, h'.grown, hgrown]
  have hprev : ∀ s, prevName F s = prevName F' s := by
    intro s
    obtain ⟨_, hb⟩ := h.built
    obtain ⟨_, hb'⟩ := h'.built
    rw [prevName_eq, prevName_eq, hsame, hb.look _ (by simp), hb'.look _ (by simp),
      scanned_fields_perm (inWindow_of_nodup hn) (records_perm hp)]
  have htops : (listing G).tops = (listing G').tops := by
    apply Option.some.inj
    rw [← h.names, ← h'.names, ← hsame]
    exact Kahn.sort_congr fun s _ => hprev s
  have hnodup : (listing G).tops.Nodup := (Kahn.sort_perm h.names).nodup_iff.mpr h.nodup
  apply Forest.eq_of_kids hnodup htops
  intro s
  rw [h.kids, h'.kids, hgrown]

/-! ## Moving blocks -/

/-- The storage with its blocks in the order of a list. -/
def arranged (f : Flash) (l : List ℕ) : Flash where
  cells n := f.cells (l.getD (n - reservedBlocks) n)
  bad n := f.bad (l.getD (n - reservedBlocks) n)

theorem dbBlocks_arranged {l : List ℕ} (hl : l.Perm (dbBlocks env)) :
    (dbBlocks env).map (fun n => l.getD (n - reservedBlocks) n) = l := by
  have hlen : l.length = env.storageBlocks - reservedBlocks := by
    rw [hl.length_eq, dbBlocks, List.length_range']
  change (List.range' reservedBlocks (env.storageBlocks - reservedBlocks)).map _ = l
  apply List.ext_getElem
  · rw [List.length_map, List.length_range', hlen]
  · intro i h1 h2
    rw [List.getElem_map, List.getElem_range']
    have hi : reservedBlocks + 1 * i - reservedBlocks = i := by omega
    rw [hi, List.getD_eq_getElem?_getD, List.getElem?_eq_getElem h2]
    rfl

theorem dataBlocks_arranged {l : List ℕ} (hl : l.Perm (dbBlocks env)) :
    (dataBlocks env f).Perm (dataBlocks env (arranged f l)) := by
  obtain ⟨g, hsame, hmoved⟩ : ∃ g, dataBlocks env f = (dbBlocks env).filterMap g ∧
      dataBlocks env (arranged f l) =
        ((dbBlocks env).map fun n => l.getD (n - reservedBlocks) n).filterMap g := by
    refine ⟨_, rfl, ?_⟩
    rw [List.filterMap_map]
    rfl
  rw [hsame, hmoved, dbBlocks_arranged hl]
  exact hl.symm.filterMap g

theorem paths_arranged {l : List ℕ} (hl : l.Perm (dbBlocks env)) :
    paths env (arranged f l) = (l.filterMap (recordIn env f)).map Record.path := by
  have hmoved : ∀ n, (recordIn env (arranged f l) n).map Record.path =
      (recordIn env f (l.getD (n - reservedBlocks) n)).map Record.path := by
    intro n
    have hc : contents env.c (arranged f l) n =
        contents env.c f (l.getD (n - reservedBlocks) n) := rfl
    unfold recordIn
    rw [hc]
    split
    · unfold parseRecord
      split
      · rfl
      · split_ifs <;> rfl
    · rfl
  rw [paths, records, List.map_filterMap]
  simp only [hmoved]
  rw [← List.map_filterMap, ← dbBlocks_arranged hl, List.filterMap_map, dbBlocks_arranged hl]
  rfl

/-- Two records can come first, in either order. -/
theorem arranged_first_two {r r' : Record} (hr : r ∈ records env f) (hr' : r' ∈ records env f)
    (hne : r ≠ r') : ∃ l l' ps, l.Perm (dbBlocks env) ∧ l'.Perm (dbBlocks env) ∧
      paths env (arranged f l) = r.path :: r'.path :: ps ∧
      paths env (arranged f l') = r'.path :: r.path :: ps := by
  obtain ⟨hb, hrec⟩ := mem_records.mp hr
  obtain ⟨hb', hrec'⟩ := mem_records.mp hr'
  have hblocks : r'.block ≠ r.block := by
    intro he
    rw [he, hrec] at hrec'
    exact hne (Option.some.inj hrec')
  have hmem : r'.block ∈ (dbBlocks env).erase r.block := (List.mem_erase_of_ne hblocks).mpr hb'
  have hperm := (List.perm_cons_erase hb).trans ((List.perm_cons_erase hmem).cons r.block)
  have hswap := hperm.trans (List.Perm.swap _ _ _)
  refine ⟨_, _, ((((dbBlocks env).erase r.block).erase r'.block).filterMap
    (recordIn env f)).map Record.path, hperm.symm, hswap.symm, ?_, ?_⟩
  · rw [paths_arranged hperm.symm, List.filterMap_cons_some hrec, List.filterMap_cons_some hrec']
    rfl
  · rw [paths_arranged hswap.symm, List.filterMap_cons_some hrec', List.filterMap_cons_some hrec]
    rfl

/-! ## A greater sibling -/

/-- The record at the top level of a name refers to none. -/
def Unreferring (rs : List Record) : Prop :=
  ∀ r ∈ rs, ∀ s, r.path = [s] → dbFieldFind r.fields ftPrev = none

theorem Unreferring.perm {rs rs' : List Record} (h : Unreferring rs)
    (hp : (rs.map Record.said).Perm (rs'.map Record.said)) : Unreferring rs' := by
  intro r hr s hs
  obtain ⟨r', hr', hsaid⟩ := List.mem_map.mp (hp.mem_iff.mpr (List.mem_map_of_mem hr))
  have hpath : r'.path = r.path := congrArg (fun v => v.2.1) hsaid
  have hfields : r'.fields = r.fields := congrArg (fun v => v.2.2) hsaid
  rw [← hfields]
  exact h r' hr' s (hpath.trans hs)

/-- Without references the top level is not sorted again. -/
theorem Read.grown_tops (h : Read env f F G) (hu : Unreferring (records env f)) :
    (listing G).tops = (Forest.growAll (paths env f)).tops := by
  have hprev : ∀ s, prevName F s = none := by
    intro s
    obtain ⟨_, hb⟩ := h.built
    rw [prevName_eq, hb.look _ (by simp)]
    unfold scanned
    cases hn : newest (records env f) [s] with
    | none =>
        simp only
        split <;> rfl
    | some r =>
        obtain ⟨hr, hpath⟩ := newest_mem hn
        simp only [Option.map_some, Record.shown, Option.bind_some, hu r hr s hpath,
          Option.bind_none]
  rw [← h.grown]
  apply Kahn.sort_of_settled _ h.nodup h.names
  intro front x rest _ hx
  exact absurd (fun p hp => by rw [hprev] at hp; cases hp) hx

theorem Read.grown_below (h : Read env f F G) (s : CString) (d : Path) :
    Forest.under (s :: d) (listing G) = Forest.under (s :: d) (Forest.growAll (paths env f)) := by
  rw [Forest.under, Forest.under, h.kids]

/-- Two records whose order matters below `d`. -/
theorem Stable.not_greater (hs : Stable env f) {r r' : Record} (hr : r ∈ records env f)
    (hr' : r' ∈ records env f) {d q y : Path} {s u : CString} (hp : r.path = d ++ s :: q)
    (hq : q ≠ []) (hp' : r'.path = d ++ u :: y)
    (hread : ∀ l F G, l.Perm (dbBlocks env) → Read env (arranged f l) F G →
      (Forest.under d (listing G)).tops =
        (Forest.under d (Forest.growAll (paths env (arranged f l)))).tops) : ¬ s < u := by
  intro hlt
  have hne : r ≠ r' := by
    rintro rfl
    have hsu := (List.cons.inj (List.append_cancel_left (hp.symm.trans hp'))).1
    exact absurd hsu (ne_of_lt hlt)
  obtain ⟨l, l', ps, hl, hl', hpaths, hpaths'⟩ := arranged_first_two hr hr' hne
  have st : Settings := ⟨false, false, false, 0⟩
  obtain ⟨a, ha, -⟩ := dbOpen_opened env st f
  obtain ⟨b, hb, -⟩ := dbOpen_opened env st (arranged f l)
  obtain ⟨c, hc, -⟩ := dbOpen_opened env st (arranged f l')
  obtain ⟨F, G, hF, hG⟩ := dbOpen_read hb
  obtain ⟨F', G', hF', hG'⟩ := dbOpen_read hc
  have hsame : listing G = listing G' := by
    rw [← hG, ← hG', hs _ st st a b (dataBlocks_arranged hl) ha hb,
      hs _ st st a c (dataBlocks_arranged hl') ha hc]
  have horder := hread l F G hl hF
  have horder' := hread l' F' G' hl' hF'
  rw [hpaths, hp, hp'] at horder
  rw [hpaths', hp, hp', ← hsame] at horder'
  have hn := ((Forest.growAll_distinct ((d ++ s :: q) :: (d ++ u :: y) :: ps)).under d).nodup_tops
  obtain ⟨hfirst, hsecond⟩ := @Forest.growAll_order _ _ s q ps d u y hq hlt
  rw [← horder', horder] at hsecond
  exact Before.asymm hn hfirst hsecond

/-- No name below the top level that a path goes on from has a greater sibling. -/
def LastBelow (ps : List Path) : Prop :=
  ∀ p ∈ ps, ∀ p' ∈ ps, ∀ t d s q u y, p = t :: d ++ s :: q → q ≠ [] → p' = t :: d ++ u :: y →
    ¬ s < u

/-- With one record for each path, the listing does not depend on where the records are if no
directory with records below it has a sibling that comes after it in the alphabet. Below the top
level, and where no reference puts entries in order, it does depend on it otherwise. -/
theorem dbOpen_stable (hn : (paths env f).Nodup) :
    (Forest.LastOnly (paths env f) → Stable env f) ∧
      (Stable env f → LastBelow (paths env f)) ∧
      (Unreferring (records env f) → (Stable env f ↔ Forest.LastOnly (paths env f))) := by
  have hlast : Forest.LastOnly (paths env f) → Stable env f := by
    intro hl f' st st' s s' hp hs hs'
    obtain ⟨F, G, hF, hG⟩ := dbOpen_read hs
    obtain ⟨F', G', hF', hG'⟩ := dbOpen_read hs'
    rw [hG, hG', hF.stable hF' hp hn hl]
  have hbelow : Stable env f → LastBelow (paths env f) := by
    intro hs p hp p' hp' t d s q u y he hq he'
    obtain ⟨r, hr, rfl⟩ := List.mem_map.mp hp
    obtain ⟨r', hr', rfl⟩ := List.mem_map.mp hp'
    apply hs.not_greater hr hr' he hq he'
    intro l F G _ hF
    rw [hF.grown_below]
  refine ⟨hlast, hbelow, fun hu => ⟨fun hs => ?_, hlast⟩⟩
  intro p hp p' hp' d s q u y he hq he'
  cases d with
  | cons t d => exact hbelow hs p hp p' hp' t d s q u y he hq he'
  | nil =>
      obtain ⟨r, hr, rfl⟩ := List.mem_map.mp hp
      obtain ⟨r', hr', rfl⟩ := List.mem_map.mp hp'
      apply hs.not_greater hr hr' he hq he'
      intro l F G hl hF
      exact hF.grown_tops (hu.perm (records_perm (dataBlocks_arranged hl)))

/-- An account in a directory without a record, and another account. -/
def bareParent (dir account other : UInt8) : Flash :=
  plainFlash [(8, 1, [nameField [dir, 0, account]]), (9, 1, [nameField [other]])]

def bareParentSwapped (dir account other : UInt8) : Flash :=
  plainFlash [(8, 1, [nameField [other]]), (9, 1, [nameField [dir, 0, account]])]

theorem bareParent_records (dir account other : UInt8) :
    records (plainEnv 10) (bareParent dir account other) =
      [⟨8, 1, splitPath [dir, 0, account], [nameField [dir, 0, account]]⟩,
        ⟨9, 1, splitPath [other], [nameField [other]]⟩] := by
  unfold bareParent
  rw [plainFlash_records (by simp [PlainOk, nameField, DbField.ofData, encodeField])]
  rfl

theorem bareParentSwapped_records (dir account other : UInt8) :
    records (plainEnv 10) (bareParentSwapped dir account other) =
      [⟨8, 1, splitPath [other], [nameField [other]]⟩,
        ⟨9, 1, splitPath [dir, 0, account], [nameField [dir, 0, account]]⟩] := by
  unfold bareParentSwapped
  rw [plainFlash_records (by simp [PlainOk, nameField, DbField.ofData, encodeField])]
  rfl

theorem bareParent_dataBlocks (dir account other : UInt8) :
    (dataBlocks (plainEnv 10) (bareParent dir account other)).Perm
      (dataBlocks (plainEnv 10) (bareParentSwapped dir account other)) := by
  have h : ∀ l : List (ℕ × UInt16 × List DbField), (∀ r ∈ l, PlainOk r.2.2) →
      dataBlocks (plainEnv 10) (plainFlash l) = [8, 9].filterMap fun n =>
        (l.lookup n).map fun r => (r.1, padded plainCrypt (r.2.flatMap encodeField)) := by
    intro l hl
    have hb : dbBlocks (plainEnv 10) = [8, 9] := rfl
    unfold dataBlocks
    rw [hb]
    congr 1
    funext n
    have hc : contents (plainEnv 10).c (plainFlash l) n = _ := plainFlash_contents hl n
    rw [hc]
    cases l.lookup n <;> rfl
  unfold bareParent bareParentSwapped
  rw [h _ (by simp [PlainOk, nameField, DbField.ofData, encodeField]),
    h _ (by simp [PlainOk, nameField, DbField.ofData, encodeField])]
  exact List.Perm.swap _ _ _

/-- The directory that comes into being for the account `x` in it is put behind `c`. -/
theorem dbOpen_stable_fails : ∃ (env : Env) (f f' : Flash) (st : Settings)
    (s s' : Db × Settings), (paths env f).Nodup ∧ (dataBlocks env f).Perm (dataBlocks env f') ∧
      dbOpen env st f = some s ∧ dbOpen env st f' = some s' ∧
      (listing s.1.entries).tops.map CString.bytes = [[98], [99]] ∧
      (listing s'.1.entries).tops.map CString.bytes = [[99], [98]] := by
  have st : Settings := ⟨false, false, false, 0⟩
  obtain ⟨s, hs, -⟩ := dbOpen_opened (plainEnv 10) st (bareParent 98 120 99)
  obtain ⟨s', hs', -⟩ := dbOpen_opened (plainEnv 10) st (bareParentSwapped 98 120 99)
  obtain ⟨F, G, hF, hG⟩ := dbOpen_read hs
  obtain ⟨F', G', hF', hG'⟩ := dbOpen_read hs'
  have hu : Unreferring (records (plainEnv 10) (bareParent 98 120 99)) := by
    rw [bareParent_records]
    intro r hr t _
    have hnone : ∀ b : Bytes, dbFieldFind [nameField b] ftPrev = none := fun _ => rfl
    simp only [List.mem_cons, List.not_mem_nil, or_false] at hr
    rcases hr with rfl | rfl
    · exact hnone _
    · exact hnone _
  have hu' := hu.perm (records_perm (bareParent_dataBlocks 98 120 99))
  refine ⟨plainEnv 10, _, _, st, s, s', ?_, bareParent_dataBlocks 98 120 99, hs, hs', ?_, ?_⟩
  · rw [paths, bareParent_records]
    decide
  · rw [hG, hF.grown_tops hu, paths, bareParent_records]
    decide
  · rw [hG', hF'.grown_tops hu', paths, bareParentSwapped_records]
    decide

/-- A directory may come first if its name comes last. -/
theorem dbOpen_stable_last : Stable (plainEnv 10) (bareParent 98 120 97) := by
  have hpaths : paths (plainEnv 10) (bareParent 98 120 97) =
      [splitPath [98, 0, 120], splitPath [97]] := by
    rw [paths, bareParent_records]
    rfl
  apply (dbOpen_stable (by rw [hpaths]; decide)).1
  rw [hpaths]
  intro p hp p' hp' d s q u y he hq he'
  simp only [List.mem_cons, List.not_mem_nil, or_false] at hp hp'
  rcases hp with rfl | rfl
  · obtain ⟨rfl, rfl⟩ : d = [] ∧ s = ⟨[98], by decide⟩ := by
      cases d with
      | nil => exact ⟨rfl, (List.cons.inj he).1.symm⟩
      | cons t d =>
          have hlen := congrArg List.length he
          have hq' := List.length_pos_iff.mpr hq
          simp [splitPath] at hlen
          omega
    rcases hp' with rfl | rfl
    · obtain rfl : u = ⟨[98], by decide⟩ := (List.cons.inj he').1.symm
      decide
    · obtain rfl : u = ⟨[97], by decide⟩ := (List.cons.inj he').1.symm
      decide
  · have hlen := congrArg List.length he
    have hq' := List.length_pos_iff.mpr hq
    simp [splitPath] at hlen
    omega

end Sunela.Database
