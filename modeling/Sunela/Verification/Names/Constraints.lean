import Sunela.Verification.Names.Subtrees
import Sunela.Verification.Open.Listing

/-! # Renames and the order of the entries

The entries that are to come after another refer to it by its name. A rename does not change
them. -/

namespace Sunela.Database

open Program Storage Span Block Fields Entry Tsort

variable {env : Env} {db db' : Db} {f g : Flash} {p : ℕ} {F G ch : Tree} {de e x : DbEntry}
  {name s t old new : CString}

/-- Whatever came after the entry `old` comes after it under its new name. -/
def KeepsAfter (F : Tree) (old new : CString) (G : Tree) : Prop :=
  ∀ s, prevName F s = some old → prevName G (if s = old then new else s) = some new

/-! ## References -/

/-- What an entry refers to, and what the reference says. -/
theorem prevName_some (h : prevName F s = some t) :
    t ∈ topNames F ∧ ∃ x ∈ F.tops, x.name = s ∧ prevData x.fields = some t.bytes := by
  unfold prevName at h
  cases hc : F.child DbEntry.name s with
  | none =>
      rw [hc] at h
      cases h
  | some r =>
      obtain ⟨hr, -⟩ := Forest.child_chains hc
      simp only [hc, Option.bind_eq_bind, Option.bind_some, Option.pure_def,
        Option.bind_eq_some_iff, Option.some.injEq] at h
      obtain ⟨fld, hf, y, hy, rfl⟩ := h
      have hb : y.name.bytes = fld.data := by simpa using List.find?_some hy
      refine ⟨List.mem_map_of_mem (List.mem_of_find?_eq_some hy), r.1,
        Forest.singleton_mem_chains hr, Forest.child_name hc, ?_⟩
      rw [prevData, hf, hb]
      rfl

/-- A new identifier leaves the reference as it is. -/
theorem prevData_setId (fs : List DbField) (data : Bytes) :
    prevData (setField fs ftId data) = prevData fs := by
  rw [prevData, prevData, dbFieldFind_setField_of_ne (by decide)]

/-- Trees that are alike have the same top level. -/
theorem top_of_alike {k : DbEntry → DbEntry} (ha : Alike G (F.map k)) (hx : x ∈ G.tops) :
    ∃ e ∈ F.tops, face x = face (k e) := by
  obtain ⟨c, hc, hface⟩ := ha.chain (Forest.mem_chains_of_tops hx)
  rw [Forest.chains_map] at hc
  obtain ⟨c, hmem, rfl⟩ := List.mem_map.mp hc
  cases c with
  | nil => cases hface
  | cons e c =>
      cases c with
      | nil => exact ⟨e, Forest.singleton_mem_chains hmem, (List.cons.inj hface).1.symm⟩
      | cons d c => cases (List.cons.inj hface).2

/-! ## Renames -/

/-- What the top level looks like after the rename of one of its entries. -/
theorem top_of_rename (hl : Linked db.entries) (hfind : find p db.entries = some (de, ch))
    (htop : de ∈ db.entries.tops)
    (hr : Returns Works (dbRename env db p name) f (true, db') g) (hx : x ∈ db'.entries.tops) :
    ∃ e ∈ db.entries.tops, prevData x.fields = prevData e.fields ∧
      x.name = if e = de then name else e.name := by
  obtain ⟨de', ch', id, rest, newPrefix, T, hfind', hf, hid, -, hall, hleads⟩ :=
    wp_returns (K := anyContract fun _ _ _ => False) (wp_dbRename_alike hl) hr
  rw [hfind] at hfind'
  obtain ⟨rfl, rfl⟩ := Prod.mk.inj (Option.some.inj hfind')
  obtain rfl := hall rfl
  obtain ⟨e, he, hface⟩ := top_of_alike hleads.alike hx
  refine ⟨e, he, ?_⟩
  simp only [face, Prod.mk.injEq] at hface
  obtain ⟨-, hname, -, hfields⟩ := hface
  rw [hname, hfields]
  have hde : idData de = id.data := by simp [idData, hf]
  by_cases hS : e.ptr ∈ de.ptr :: ch.entries.map DbEntry.ptr
  · obtain ⟨c₀, hs⟩ := subtree_of_find hl hfind
    obtain ⟨d, hd⟩ := hs.through [] e (Forest.mem_chains_of_tops he) hS
    have hc₀ : c₀ = [] := by
      have hlen := congrArg List.length hd
      simp only [List.length_append, List.length_cons, List.length_nil] at hlen
      exact List.eq_nil_of_length_eq_zero (by omega)
    subst hc₀
    obtain rfl : e = de := (List.cons.inj hd).1
    rw [rebased, if_pos hS, if_pos rfl]
    refine ⟨prevData_setId _ _, ?_⟩
    change idName (newPrefix ++ (idData e).drop id.data.length) = name
    rw [hde, List.drop_length, List.append_nil, idName_renamedId hid]
  · have hne : e ≠ de := fun he => hS (he ▸ List.mem_cons_self)
    rw [rebased, if_neg hS, if_neg hne]
    exact ⟨rfl, rfl⟩

/-- A rename to a new name keeps the order, in memory as after the storage has been opened again,
exactly if no entry refers to the one that is renamed. -/
theorem dbRename_keepsAfter (hl : Linked db.entries) (hd : (topNames db.entries).Nodup)
    (hfind : find p db.entries = some (de, ch)) (htop : de ∈ db.entries.tops)
    (hname : name ∉ topNames db.entries)
    (hr : Returns Works (dbRename env db p name) f (true, db') g) :
    (KeepsAfter db.entries de.name name db'.entries ∧
      ∀ st, ∃ u, dbOpen env st g = some u ∧ KeepsAfter db.entries de.name name u.1.entries) ↔
      ∀ s, prevName db.entries s ≠ some de.name := by
  have hdename : de.name ∈ topNames db.entries := List.mem_map_of_mem htop
  constructor
  · rintro ⟨hkeeps, -⟩ s hs
    obtain ⟨x, hx, rfl, hprev⟩ := (prevName_some hs).2
    obtain ⟨x', hx', hxname, hxprev⟩ := (prevName_some (hkeeps _ hs)).2
    obtain ⟨e, he, heprev, hename⟩ := top_of_rename hl hfind htop hr hx'
    have hsame : e.name = x.name := by
      rw [hename] at hxname
      by_cases hede : e = de
      · rw [if_pos hede] at hxname
        split at hxname
        · next h => rw [hede, h]
        · exact absurd (hxname ▸ List.mem_map_of_mem hx) hname
      · rw [if_neg hede] at hxname
        split at hxname
        · exact absurd (hxname ▸ List.mem_map_of_mem he) hname
        · exact hxname
    obtain rfl := List.inj_on_of_nodup_map hd he hx hsame
    rw [← heprev, hxprev, Option.some.injEq] at hprev
    exact hname (CString.ext hprev ▸ hdename)
  · intro hnone
    refine ⟨fun s hs => absurd hs (hnone s), fun st => ?_⟩
    obtain ⟨u, hu, -⟩ := dbOpen_opened env st g
    exact ⟨u, hu, fun s hs => absurd hs (hnone s)⟩

/-! ## Two accounts -/

/-- Two accounts that do not refer to each other, and the same with the first renamed. -/
def freeAccounts : State :=
  afterOpen (plainEnv 16) (plainFlash [(8, 1, [nameField [97]]), (9, 1, [nameField [98]])])

theorem z_nulFree : (0 : UInt8) ∉ ([122] : Bytes) := by decide

def freeRenamed : State :=
  afterRun (fun db => dbRename (plainEnv 16) db 0 ⟨[122], z_nulFree⟩) freeAccounts

theorem dbRename_keepsAfter_free :
    KeepsAfter freeAccounts.db.entries ⟨[97], by decide⟩ ⟨[122], by decide⟩
      freeRenamed.db.entries ∧
    ∀ st, ∃ u, dbOpen (plainEnv 16) st freeRenamed.flash = some u ∧
      KeepsAfter freeAccounts.db.entries ⟨[97], by decide⟩ ⟨[122], by decide⟩ u.1.entries := by
  have hr : Ends Works (fun db => dbRename (plainEnv 16) db 0 ⟨[122], by decide⟩) freeAccounts true
      freeRenamed := ends_afterRun _ _ (by decide +kernel)
  have hfind : find 0 freeAccounts.db.entries =
      some (⟨0, ⟨[97], by decide⟩, 1, 8, false, [nameField [97]]⟩, .nil) := by decide +kernel
  have hnone : ∀ x ∈ freeAccounts.db.entries.tops, prevData x.fields = none := by decide +kernel
  refine (dbRename_keepsAfter (opens_afterOpen (plainEnv 16) _).opened.linked (by decide +kernel)
    hfind (by decide +kernel) (by decide +kernel) hr).mpr fun s hs => ?_
  obtain ⟨x, hx, -, hprev⟩ := (prevName_some hs).2
  rw [hnone x hx] at hprev
  cases hprev

/-- The second account is to come after the first. -/
def tiedAccounts : State :=
  afterOpen (plainEnv 16)
    (plainFlash [(8, 1, [nameField [97]]), (9, 1, [nameField [98], .ofData ftPrev [97]])])

def tiedRenamed : State :=
  afterRun (fun db => dbRename (plainEnv 16) db 0 ⟨[122], z_nulFree⟩) tiedAccounts

/-- Once the first account has another name, the second refers to none, in memory as after the
storage has been opened again. -/
theorem dbRename_keepsAfter_tied :
    Opens (plainEnv 16) tiedAccounts ∧
    Ends Works (fun db => dbRename (plainEnv 16) db 0 ⟨[122], by decide⟩) tiedAccounts true
      tiedRenamed ∧
    topNames tiedAccounts.db.entries = [⟨[97], by decide⟩, ⟨[98], by decide⟩] ∧
    prevName tiedAccounts.db.entries ⟨[98], by decide⟩ = some ⟨[97], by decide⟩ ∧
    topNames tiedRenamed.db.entries = [⟨[122], by decide⟩, ⟨[98], by decide⟩] ∧
    prevName tiedRenamed.db.entries ⟨[98], by decide⟩ = none ∧
    topNames (afterOpen (plainEnv 16) tiedRenamed.flash).db.entries =
      [⟨[98], by decide⟩, ⟨[122], by decide⟩] ∧
    prevName (afterOpen (plainEnv 16) tiedRenamed.flash).db.entries ⟨[98], by decide⟩ = none ∧
    ¬ KeepsAfter tiedAccounts.db.entries ⟨[97], by decide⟩ ⟨[122], by decide⟩
      tiedRenamed.db.entries := by
  have hprev : prevName tiedAccounts.db.entries ⟨[98], by decide⟩ = some ⟨[97], by decide⟩ := by
    decide +kernel
  have hnone : prevName tiedRenamed.db.entries ⟨[98], by decide⟩ = none := by decide +kernel
  refine ⟨opens_afterOpen _ _, ends_afterRun _ _ (by decide +kernel), by decide +kernel, hprev,
    by decide +kernel, hnone, by decide +kernel, by decide +kernel, fun hkeeps => ?_⟩
  have hafter := hkeeps _ hprev
  rw [if_neg (by decide), hnone] at hafter
  cases hafter

end Sunela.Database
