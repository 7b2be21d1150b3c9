import Sunela.Verification.Failures.Noted

/-! # Changes of fields that are refused

A change that is refused for want of an erased block leaves everything as it was. One whose
record is too large or cannot be written has changed the entry already. -/

namespace Sunela.Database

open Program Storage Span Block Fields Entry

variable {env : Env} {torn : Torn} {db db' : Db} {f : Flash} {p : ℕ} {de : DbEntry} {ch : Tree}
  {fs : List DbField} {ok : Bool} {t : Flash × Bool}

/-! ## One change -/

/-- How a change of an entry can end: it is deferred, there is no erased block, or it is stored in
the first one. The new record is kept if it fits and could be written. -/
inductive Outcome (torn : Torn) (db : Db) (f : Flash) (p : ℕ) (de : DbEntry)
    (k : DbEntry → DbEntry) : Bool → Db → Flash × Bool → Prop where
  | deferred {G : Tree} {db' : Db} (defer : de.defer = true)
      (tree : G.siblings.Perm (modify p k db.entries).siblings) (entries : db'.entries = G)
      (erased : db'.erased = db.erased) : Outcome torn db f p de k true db' (f, false)
  | refused {db' : Db} {t : Flash × Bool} (defer : de.defer = false)
      (empty : db.erased.blocks = [])
      (run : Returns (Step torn) (getErasedBlock db) f (none, db') t.1) :
      Outcome torn db f p de k false db' t
  | stored {n : ℕ} {rest : Spans} {G : Tree} {db' : Db} {ok : Bool} {t : Flash × Bool}
      (defer : de.defer = false) (first : db.erased.blocks = n :: rest.blocks)
      (intact : rest.Intact) (tree : G.siblings.Perm (modify p k db.entries).siblings)
      (entries : db'.entries = modify p (renewed n) G) (erased : db'.erased = rest)
      (kept : ok = true ↔ Encodes (k de).fields ∧ t.2 = false) :
      Outcome torn db f p de k ok db' t

theorem changeEntry_outcome (h : Held db) (hi : db.erased.Intact)
    (hfind : find p db.entries = some (de, ch)) {k : DbEntry → DbEntry} {change : Db → Fw Db}
    (hk : ∀ e, (k e).ptr = e.ptr)
    (hchange : ∀ db, ∃ db', change db = .ret db' ∧ Retouched (modify p k db.entries) db db')
    (hr : Returns (Recording torn) (changeEntry env db p change) (f, false) (ok, db') t) :
    Outcome torn db f p de k ok db' t := by
  unfold changeEntry at hr
  simp only [hfind] at hr
  split at hr
  · next hd =>
      obtain ⟨db₁, hc, G, generation, hperm, rfl⟩ := hchange db
      rw [hc] at hr
      obtain ⟨he, rfl⟩ := reaches_ret.mp hr
      simp only [Prog.ret.injEq, Prod.mk.injEq] at he
      obtain ⟨rfl, rfl⟩ := he
      exact .deferred hd hperm rfl rfl
  · next hd =>
      have hd' : de.defer = false := Bool.eq_false_iff.mpr hd
      obtain ⟨r, u, hget, hr⟩ := returns_bind hr
      rcases getErasedBlock_noted hi hget with ⟨hnone, hempty⟩ | ⟨n, rest, rfl, rfl, hrest, hb⟩
      · obtain ⟨new, db₁⟩ := r
        obtain rfl : new = none := hnone
        obtain ⟨he, rfl⟩ := reaches_ret.mp hr
        simp only [Prog.ret.injEq, Prod.mk.injEq] at he
        obtain ⟨rfl, rfl⟩ := he
        exact .refused hd' hempty hget.unnoted
      · obtain ⟨db₁, hc, G, generation, hperm, rfl⟩ := hchange (db.popped n rest)
        simp only [hc, Prog.ret_bind] at hr
        obtain ⟨ch', hfind'⟩ := find_modify h.linked hk hperm hfind
        obtain ⟨hok, hentries, herased⟩ :=
          wp_returns (K := noteContract (Recording torn)) (wp_updateEntry_noted hfind') hr
        exact .stored hd' hb hrest hperm hentries herased hok

/-! ## Calls -/

/-- The calls that change a field of the entry `p`, with the fields they find and leave. -/
inductive FieldCall (p : ℕ) (fs : List DbField) : Call → List DbField → Prop where
  | change (type data) : FieldCall p fs (.changeField p type data) (setField fs type data)
  | delete (i) (hi : i < fs.length) : FieldCall p fs (.deleteField p i) (fs.eraseIdx i)

/-- The entry is the same, and its record, if it has one, is too. -/
structure Untouched (env : Env) (f : Flash) (de : DbEntry) (db' : Db) (g : Flash) : Prop where
  entry : ∃ ch, find de.ptr db'.entries = some (de, ch)
  record : (contents env.c f de.block).IsRecord →
    contents env.c g de.block = contents env.c f de.block

theorem fieldCall_outcome {c : Call} (h : Held db) (hi : db.erased.Intact)
    (hfind : find p db.entries = some (de, ch)) (hc : FieldCall p de.fields c fs)
    (hr : Returns (Recording torn) (c.exec env db) (f, false) (ok, db') t) :
    ∃ k, (k de).fields = fs ∧ Outcome torn db f p de k ok db' t := by
  cases hc with
  | change type data =>
      exact ⟨withField type data, rfl, changeEntry_outcome h hi hfind (fun _ => rfl)
        (fun db => changeField_eq db p type data) hr⟩
  | delete i hlt =>
      simp only [Call.exec, dbDeleteField, hfind, Nat.not_le.mpr hlt, if_false] at hr
      exact ⟨withoutField i, rfl, changeEntry_outcome h hi hfind (fun _ => rfl)
        (fun db => deleteField_eq db p i) hr⟩

/-- A request that finds no erased block leaves the entries and their records as they are. -/
theorem getErasedBlock_untouched (ht : Tears env torn) (ha : Alloc env db f) (hs : Spare db)
    (hfind : find p db.entries = some (de, ch)) {g : Flash} {r : Option ℕ}
    (hr : Returns (Step torn) (getErasedBlock db) f (r, db') g) : Untouched env f de db' g := by
  have hserved := wp_returns (K := requestContract env torn) (wp_getErasedBlock ht ha hs) hr
  refine ⟨⟨ch, ?_⟩, fun hrec => ?_⟩
  · rw [hserved.tree.entries, (mem_entries_of_find hfind).2]
    exact hfind
  · rcases hserved.records de.block with he | ⟨hfree, -⟩
    · exact he
    · exact absurd hrec hfree

/-- An entry that has got another block is not the same. -/
theorem not_untouched_of_renewed (ha : Alloc env db f) (hfind : find p db.entries = some (de, ch))
    {n : ℕ} (hn : n ∈ db.erased.blocks) {G : Tree} (he : db'.entries = modify p (renewed n) G)
    {g : Flash} : ¬ Untouched env f de db' g := by
  intro hu
  obtain ⟨ch', hfind'⟩ := hu.entry
  obtain ⟨hde, hp⟩ := mem_entries_of_find hfind
  obtain ⟨hmem, -⟩ := mem_entries_of_find hfind'
  rw [he, modify_entries] at hmem
  obtain ⟨x, -, hx⟩ := List.mem_map.mp hmem
  by_cases hxp : x.is p
  · rw [if_pos hxp] at hx
    have hblock : de.block = n := (congrArg DbEntry.block hx).symm
    exact ha.entries de hde (hblock ▸ hn)
  · rw [if_neg hxp] at hx
    exact hxp (hx ▸ is_iff.mpr hp)

/-- In every state that calls lead to, a refused change of a field leaves the entry and its record
as they were exactly if updates are deferred, there is no erased block, or the record fits and
could be written. -/
theorem fieldCall_refused (ht : Tears env torn) {s u : State} (ho : Opens env s)
    (hrun : Reachable (Step torn) env Careful s u) {c : Call} (hcareful : Careful u c)
    (hfind : find p u.db.entries = some (de, ch)) (hc : FieldCall p de.fields c fs) {g : Flash}
    {failed : Bool}
    (hr : Returns (Recording torn) (c.exec env u.db) (u.flash, false) (ok, db') (g, failed)) :
    (ok = false → Untouched env u.flash de db' g) ↔
      de.defer = true ∨ u.db.erased.blocks = [] ∨ (Encodes fs ∧ failed = false) := by
  have ha := reachable_alloc ht ho hrun
  obtain ⟨k, hk, hout⟩ := fieldCall_outcome (reachable_held ho hrun) ha.intact.1 hfind hc hr
  cases hout with
  | deferred hd _ _ _ => exact iff_of_true (fun h => absurd h (by decide)) (.inl hd)
  | refused hd hempty hget =>
      have hspare : Spare u.db := by
        apply hcareful.2
        cases hc with
        | change type data => exact ⟨de, ch, hfind, hd⟩
        | delete i hi => exact ⟨de, ch, hfind, hd⟩
      exact iff_of_true (fun _ => getErasedBlock_untouched ht ha hspare hfind hget)
        (.inr (.inl hempty))
  | stored hd hfirst _ _ hentries _ hkept =>
      rw [hk] at hkept
      have hn := not_untouched_of_renewed (g := g) ha hfind
        (by rw [hfirst]; exact List.mem_cons_self) hentries
      constructor
      · intro h
        refine .inr (.inr (hkept.mp ?_))
        cases ok with
        | false => exact absurd (h rfl) hn
        | true => rfl
      · intro h hf
        rcases h with h | h | h
        · rw [hd] at h
          cases h
        · rw [hfirst] at h
          cases h
        · rw [hkept.mpr h] at hf
          cases hf

/-! ## Two refusals -/

/-- Two accounts that take up all of the storage. -/
def fullStorage : State :=
  afterOpen (plainEnv 10) (plainFlash [(8, 1, [nameField [97]]), (9, 1, [nameField [98]])])

/-- The storage after a change, which is refused for want of a block. -/
def fullStorageChanged : State :=
  refusedState failedRecord [] ((Call.changeField 0 3 [120]).exec (plainEnv 10)) fullStorage

theorem fieldCall_refused_full :
    (false = false → Untouched (plainEnv 10) fullStorage.flash
        ⟨0, ⟨[97], by decide⟩, 1, 8, false, [nameField [97]]⟩ fullStorageChanged.db
        fullStorageChanged.flash) ↔
      false = true ∨ fullStorage.db.erased.blocks = [] ∨
        (Encodes (setField [nameField [97]] 3 [120]) ∧ false = false) := by
  have hcareful : Careful fullStorage (.changeField 0 3 [120]) := by
    refine ⟨?_, fun _ => .inr (by decide +kernel)⟩
    show (find 0 _).isSome = true
    decide +kernel
  have hfind : find 0 fullStorage.db.entries =
      some (⟨0, ⟨[97], by decide⟩, 1, 8, false, [nameField [97]]⟩, .nil) := by decide +kernel
  have hr := returns_refusedState failedRecord [] ((Call.changeField 0 3 [120]).exec (plainEnv 10))
    fullStorage false false (by decide +kernel) (by decide +kernel)
  exact fieldCall_refused (tears_unchanged _) (opens_afterOpen _ _) .start hcareful hfind
    (.change 3 [120]) hr

/-- The only account of a storage. -/
def loneRecord : State := afterOpen (plainEnv 16) (plainFlash [(8, 1, [nameField [97]])])

/-- The state after a change whose record cannot be written. -/
def loneRecordChanged : State :=
  refusedState failedRecord [9] ((Call.changeField 0 3 [120]).exec (plainEnv 16)) loneRecord

/-- The call fails, but the entry has the new field and refers to a block without a record. -/
theorem fieldCall_refused_write :
    Opens (plainEnv 16) loneRecord ∧
    Returns (Recording unchanged) ((Call.changeField 0 3 [120]).exec (plainEnv 16) loneRecord.db)
      (loneRecord.flash, false) (false, loneRecordChanged.db) (loneRecordChanged.flash, true) ∧
    (find 0 loneRecord.db.entries).map Prod.fst =
      some ⟨0, ⟨[97], by decide⟩, 1, 8, false, [nameField [97]]⟩ ∧
    (find 0 loneRecordChanged.db.entries).map Prod.fst =
      some ⟨0, ⟨[97], by decide⟩, 2, 9, false, [nameField [97], .ofData 3 [120]]⟩ ∧
    contents (plainEnv 16).c loneRecordChanged.flash 9 = .erased := by
  have hr := returns_refusedState failedRecord [9] ((Call.changeField 0 3 [120]).exec (plainEnv 16))
    loneRecord false true (by decide +kernel) (by decide +kernel)
  exact ⟨opens_afterOpen _ _, hr, by decide +kernel, by decide +kernel, by decide +kernel⟩

end Sunela.Database
