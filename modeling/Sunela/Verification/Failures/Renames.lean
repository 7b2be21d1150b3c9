import Sunela.Verification.Failures.Fields
import Sunela.Verification.Names.Subtrees

/-! # Renames that stop half-way

A rename writes one record after the other and stops at the first that fails. Only one that finds
no erased block for the first record leaves everything as it was. -/

namespace Sunela.Database

open Program Storage Span Block Fields Entry

variable {env : Env} {torn : Torn} {db db' : Db} {f g : Flash} {p k : ℕ} {F H ch : Tree}
  {S : List ℕ} {e de : DbEntry} {ok failed : Bool} {t : Flash × Bool} {newPrefix : Bytes}
  {name : CString}

/-! ## One entry -/

/-- What it takes to rewrite the entries: a block for each of them that is not deferred, and a
record that fits and can be written. -/
def Rewritable (db : Db) (newPrefix : Bytes) (k : ℕ) (es : List DbEntry) (failed : Bool) : Prop :=
  (es.map cost).sum ≤ db.erased.blocks.length ∧
    (∀ e ∈ es, e.defer = false → Encodes (patched newPrefix k e)) ∧ failed = false

theorem Retouched.leads {F : Tree} (h : Retouched F db db') : Leads db F db' := by
  obtain ⟨G, generation, hperm, rfl⟩ := h
  exact ⟨Alike.of_siblings hperm, rfl, rfl⟩

/-- How the rewriting of one entry can end. -/
inductive PatchOutcome (torn : Torn) (db : Db) (f : Flash) (F : Tree) (S : List ℕ)
    (newPrefix : Bytes) (k : ℕ) (e : DbEntry) : Bool → Db → Flash × Bool → Prop where
  | refused {db' : Db} {t : Flash × Bool} (defer : e.defer = false)
      (empty : db.erased.blocks = [])
      (run : Returns (Step torn) (getErasedBlock db) f (none, db') t.1) :
      PatchOutcome torn db f F S newPrefix k e false db' t
  | rewritten {ok : Bool} {db' : Db} {t : Flash × Bool} (held : Held db')
      (intact : db'.erased.Intact)
      (tree : Alike db'.entries (F.map (rebased (S ++ [e.ptr]) newPrefix k)))
      (erased : db'.erased.blocks.length + cost e = db.erased.blocks.length)
      (result : ok = true ↔ (e.defer = false → Encodes (patched newPrefix k e)) ∧ t.2 = false) :
      PatchOutcome torn db f F S newPrefix k e ok db' t

/-- The rewriting of an entry is a change of its identifier. -/
theorem patchOne_returns {r : Bool × Db} {s t : Flash × Bool}
    (hr : Returns (Recording torn) (patchOne env db p newPrefix k) s r t) :
    ∃ d ch, find p db.entries = some (d, ch) ∧ Returns (Recording torn)
      (dbChangeField env db p ftId (newPrefix ++ (idData d).drop k)) s r t := by
  unfold patchOne at hr
  cases hfind : find p db.entries with
  | none =>
      rw [hfind] at hr
      cases hr
  | some x =>
      obtain ⟨d, ch⟩ := x
      refine ⟨d, ch, rfl, ?_⟩
      simp only [hfind] at hr
      cases hf : d.fields with
      | nil =>
          rw [hf] at hr
          cases hr
      | cons id rest =>
          have hid : idData d = id.data := by simp [idData, hf]
          simp only [hf] at hr
          rw [hid]
          split at hr
          · cases hr
          · split at hr
            · next hl =>
                rw [List.drop_eq_nil_of_le (Nat.le_of_eq hl), List.append_nil]
                exact hr
            · split at hr
              · cases hr
              · exact hr

theorem patchOne_outcome (h : Held db) (hi : db.erased.Intact) (hF : Linked F)
    (ha : Alike db.entries (F.map (rebased S newPrefix k))) (he : e ∈ F.entries)
    (heS : e.ptr ∉ S)
    (hr : Returns (Recording torn) (patchOne env db e.ptr newPrefix k) (f, false) (ok, db') t) :
    PatchOutcome torn db f F S newPrefix k e ok db' t := by
  obtain ⟨d, ch, hfind, hr⟩ := patchOne_returns hr
  have hface := face_of_find hF ha he heS hfind
  simp only [face, Prod.mk.injEq] at hface
  obtain ⟨-, -, hdefer, hfields⟩ := hface
  have hid : idData d = idData e := by rw [idData, idData, hfields]
  rw [hid] at hr
  have hheld := wp_returns (K := anyContract torn) (wp_changeEntry_held h
    (g := withField ftId (newPrefix ++ (idData e).drop k)) (fun _ => rfl)
    fun db => changeField_eq db e.ptr ftId _) hr.unnoted
  have halike : ∀ G, G.siblings.Perm (modify e.ptr
      (withField ftId (newPrefix ++ (idData e).drop k)) db.entries).siblings →
      Alike G (F.map (rebased (S ++ [e.ptr]) newPrefix k)) := by
    intro G hG
    rw [← modify_rebased hF he heS]
    exact (Alike.of_siblings hG).trans (ha.modify fun _ _ hx => face_withField _ _ hx)
  have hnew : (withField ftId (newPrefix ++ (idData e).drop k) d).fields =
      patched newPrefix k e := by
    rw [withField, hfields, patched]
  have hout := changeEntry_outcome h hi hfind
    (k := withField ftId (newPrefix ++ (idData e).drop k)) (fun _ => rfl)
    (fun db => changeField_eq db e.ptr ftId _) hr
  cases hout with
  | deferred hd htree hentries herased =>
      have hde : e.defer = true := hdefer ▸ hd
      refine .rewritten hheld (herased ▸ hi) (hentries ▸ halike _ htree) ?_ ?_
      · rw [herased, cost, if_pos hde, Nat.add_zero]
      · simp [hde]
  | refused hd hempty hget => exact .refused (hdefer ▸ hd) hempty hget
  | stored hd hfirst hintact htree hentries herased hkept =>
      have hde : e.defer = false := hdefer ▸ hd
      refine .rewritten hheld (herased ▸ hintact) ?_ ?_ ?_
      · rw [hentries]
        exact (Alike.of_face (g := renewed _) (fun _ => rfl) e.ptr).trans (halike _ htree)
      · rw [herased, hfirst, cost, hde]
        rfl
      · rw [hkept, hnew]
        simp [hde]

/-! ## A subtree -/

/-- All entries are rewritten exactly if that is possible for each of them. The first one is not
touched only if there is no block for it. -/
theorem patchRecursive_noted (h : Held db) (hi : db.erased.Intact) (hF : Linked F)
    (ha : Alike db.entries (F.map (rebased S newPrefix k))) (hH : ∀ e ∈ H.entries, e ∈ F.entries)
    (hS : (S ++ H.entries.map DbEntry.ptr).Nodup)
    (hr : Returns (Recording torn) (patchRecursive env newPrefix k H db) (f, false) (ok, db')
      (g, failed)) :
    (ok = true ↔ Rewritable db newPrefix k H.entries failed) ∧
      ∃ T, (ok = true → T = H.entries.map DbEntry.ptr ∧ Held db' ∧ db'.erased.Intact ∧
        db'.erased.blocks.length + (H.entries.map cost).sum = db.erased.blocks.length) ∧
        Alike db'.entries (F.map (rebased (S ++ T) newPrefix k)) ∧
        ∀ e ch nx, H = .node e ch nx → e.ptr ∈ T ∧ cost e ≤ db.erased.blocks.length ∨
          e.defer = false ∧ db.erased.blocks = [] ∧
            Returns (Step torn) (getErasedBlock db) f (none, db') g := by
  induction H generalizing db f S ok db' g failed with
  | nil =>
      obtain ⟨he, ht⟩ := reaches_ret.mp hr
      simp only [Prog.ret.injEq, Prod.mk.injEq] at he ht
      obtain ⟨rfl, rfl⟩ := he
      obtain ⟨rfl, rfl⟩ := ht
      exact ⟨by simp [Rewritable, Forest.entries], [], fun _ => ⟨rfl, h, hi, rfl⟩,
        by simpa using ha, fun _ _ _ hH => by cases hH⟩
  | node e ch nx hc hn =>
      have heF : e ∈ F.entries := hH e (by simp [Forest.entries])
      have hsplit : (Forest.node e ch nx).entries.map DbEntry.ptr =
          [e.ptr] ++ ch.entries.map DbEntry.ptr ++ nx.entries.map DbEntry.ptr := by
        simp [Forest.entries]
      have hcost : ((Forest.node e ch nx).entries.map cost).sum =
          cost e + (ch.entries.map cost).sum + (nx.entries.map cost).sum := by
        simp [Forest.entries, Nat.add_assoc]
      rw [hsplit, ← List.append_assoc, ← List.append_assoc] at hS
      have hSch := (List.nodup_append.mp hS).1
      have heS : e.ptr ∉ S := fun hm =>
        (List.nodup_append.mp (List.nodup_append.mp hSch).1).2.2 _ hm _ (by simp) rfl
      unfold patchRecursive at hr
      obtain ⟨⟨ok₁, db₁⟩, ⟨f₁, b₁⟩, hone, hr⟩ := returns_bind hr
      cases patchOne_outcome h hi hF ha heF heS hone with
      | refused hd hempty hget =>
          obtain ⟨he, ht⟩ := reaches_ret.mp hr
          simp only [Prog.ret.injEq, Prod.mk.injEq] at he
          obtain ⟨rfl, rfl⟩ := he
          have htree := wp_returns (K := anyContract torn) (wp_erasedLoop_tree _) hget
          refine ⟨iff_of_false Bool.false_ne_true fun hw => ?_, [],
            fun hf => absurd hf Bool.false_ne_true, ?_, ?_⟩
          · have hle := hw.1
            rw [hcost, hempty, cost, hd] at hle
            simp only [Bool.false_eq_true, if_false, List.length_nil] at hle
            omega
          · rw [htree.entries, List.append_nil]
            exact ha
          · intro e' ch' nx' hnode
            obtain ⟨rfl, rfl, rfl⟩ := Forest.node.inj hnode
            have hg : g = f₁ := congrArg Prod.fst ht
            exact .inr ⟨hd, hempty, hg ▸ hget⟩
      | rewritten hheld hintact htree herased hres =>
          have hfirst : ∀ T e' ch' nx', Forest.node e ch nx = .node e' ch' nx' →
              e'.ptr ∈ [e.ptr] ++ T ∧ cost e' ≤ db.erased.blocks.length ∨
                e'.defer = false ∧ db.erased.blocks = [] ∧
                  Returns (Step torn) (getErasedBlock db) f (none, db') g := by
            intro T e' ch' nx' hnode
            obtain ⟨rfl, -, -⟩ := Forest.node.inj hnode
            exact .inl ⟨List.mem_append_left _ List.mem_cons_self, by omega⟩
          cases ok₁ with
          | false =>
              obtain ⟨he, ht⟩ := reaches_ret.mp hr
              simp only [Prog.ret.injEq, Prod.mk.injEq] at he ht
              obtain ⟨rfl, rfl⟩ := he
              obtain ⟨rfl, rfl⟩ := ht
              refine ⟨iff_of_false Bool.false_ne_true fun hw => ?_, [e.ptr],
                fun hf => absurd hf Bool.false_ne_true, htree, hfirst []⟩
              exact Bool.false_ne_true (hres.mpr
                ⟨hw.2.1 e (by simp [Forest.entries]), hw.2.2⟩)
          | true =>
              obtain ⟨hfits, hb₁⟩ := hres.mp rfl
              have hb₁ : b₁ = false := hb₁
              subst hb₁
              simp only [Bool.not_true, Bool.false_eq_true, if_false] at hr
              obtain ⟨⟨ok₂, db₂⟩, ⟨f₂, b₂⟩, hchild, hr⟩ := returns_bind hr
              obtain ⟨hall, T, hT, hch, -⟩ := hc hheld hintact htree
                (fun x hx => hH x (by simp [Forest.entries, hx])) hSch hchild
              cases ok₂ with
              | false =>
                  obtain ⟨he, ht⟩ := reaches_ret.mp hr
                  simp only [Prog.ret.injEq, Prod.mk.injEq] at he ht
                  obtain ⟨rfl, rfl⟩ := he
                  obtain ⟨rfl, rfl⟩ := ht
                  refine ⟨iff_of_false Bool.false_ne_true fun hw => ?_, [e.ptr] ++ T,
                    fun hf => absurd hf Bool.false_ne_true, by rwa [← List.append_assoc],
                    hfirst T⟩
                  have hle := hw.1
                  rw [hcost] at hle
                  exact Bool.false_ne_true (hall.mpr ⟨by omega,
                    fun x hx => hw.2.1 x (by simp [Forest.entries, hx]), hw.2.2⟩)
              | true =>
                  obtain ⟨rfl, hheld₂, hintact₂, herased₂⟩ := hT rfl
                  obtain ⟨hle, hfits₂, hb₂⟩ := hall.mp rfl
                  subst hb₂
                  simp only [Bool.not_true, Bool.false_eq_true, if_false] at hr
                  obtain ⟨hall₃, T, hT₃, hnx, -⟩ := hn hheld₂ hintact₂ hch
                    (fun x hx => hH x (by simp [Forest.entries, hx])) hS hr
                  refine ⟨hall₃.trans ?_, [e.ptr] ++ ch.entries.map DbEntry.ptr ++ T,
                    fun hok => ?_, by simpa [List.append_assoc] using hnx,
                    by simpa [List.append_assoc] using hfirst (ch.entries.map DbEntry.ptr ++ T)⟩
                  · constructor
                    · intro hw
                      refine ⟨by rw [hcost]; have := hw.1; omega, fun x hx => ?_, hw.2.2⟩
                      simp only [Forest.entries, List.mem_cons, List.mem_append] at hx
                      rcases hx with rfl | hx | hx
                      · exact hfits
                      · exact hfits₂ x hx
                      · exact hw.2.1 x hx
                    · intro hw
                      have hle₃ := hw.1
                      rw [hcost] at hle₃
                      exact ⟨by omega, fun x hx => hw.2.1 x (by simp [Forest.entries, hx]),
                        hw.2.2⟩
                  · obtain ⟨rfl, hheld₃, hintact₃, herased₃⟩ := hT₃ hok
                    exact ⟨hsplit.symm, hheld₃, hintact₃, by rw [hcost]; omega⟩

/-! ## Names, identifiers and paths -/

/-- What a rename is about. -/
def label (e : DbEntry) : ℕ × CString × Bytes := (e.ptr, e.name, idData e)

/-- An entry is found at the path when the storage is opened. -/
def FoundAt (env : Env) (st : Settings) (f : Flash) (q : Path) : Prop :=
  ∃ u, dbOpen env st f = some u ∧ (look u.1.entries q).isSome

/-- The entries have the names and identifiers they had, and opening the storage finds the same
paths. -/
structure AsBefore (env : Env) (db : Db) (f : Flash) (db' : Db) (g : Flash) : Prop where
  labels : (db'.entries.entries.map label).Perm (db.entries.entries.map label)
  paths : ∀ st q, FoundAt env st g q ↔ FoundAt env st f q

theorem SameRecords.records (h : SameRecords env f g) : records env g = records env f :=
  List.filterMap_congr fun n _ => h.recordIn n

theorem foundAt_iff {st : Settings} {q : Path} (hq : q ≠ []) :
    FoundAt env st f q ↔ (opened (records env f) q).isSome := by
  obtain ⟨u, hu, ho⟩ := dbOpen_opened env st f
  rw [← ho.look q hq]
  constructor
  · rintro ⟨u', hu', h⟩
    rw [hu] at hu'
    rwa [Option.some.inj hu']
  · intro h
    exact ⟨u, hu, h⟩

theorem SameRecords.foundAt (h : SameRecords env f g) (st : Settings) (q : Path) :
    FoundAt env st g q ↔ FoundAt env st f q := by
  by_cases hq : q = []
  · subst hq
    exact iff_of_false (fun ⟨_, _, hl⟩ => Bool.false_ne_true hl)
      fun ⟨_, _, hl⟩ => Bool.false_ne_true hl
  · rw [foundAt_iff hq, foundAt_iff hq, h.records]

theorem Alike.labels {F G : Tree} (h : Alike F G) :
    (F.entries.map label).Perm (G.entries.map label) := by
  have hface : ∀ F : Tree, F.entries.map label = (F.entries.map face).map fun t =>
      (t.1, t.2.1, (t.2.2.2.head?.map DbField.data).getD []) := by
    intro F
    rw [List.map_map]
    rfl
  rw [hface, hface]
  exact h.entries.map _

/-- An entry that has been rewritten with another name is not as it was. -/
theorem not_labels_of_rebased (hF : Linked db.entries) {T : List ℕ}
    (hde : de ∈ db.entries.entries) (hT : de.ptr ∈ T) (hname : name ≠ de.name)
    (hnew : renamedId (idData de) name = some newPrefix)
    (ha : Alike db'.entries (db.entries.map (rebased T newPrefix (idData de).length))) :
    ¬ (db'.entries.entries.map label).Perm (db.entries.entries.map label) := by
  intro hp
  have hlabel := ha.labels.symm.trans hp
  have hmem : label (rebased T newPrefix (idData de).length de) ∈
      db.entries.entries.map label := by
    refine hlabel.mem_iff.mp (List.mem_map_of_mem ?_)
    rw [Forest.entries_map]
    exact List.mem_map_of_mem hde
  obtain ⟨e, he, hl⟩ := List.mem_map.mp hmem
  simp only [label, Prod.mk.injEq] at hl
  obtain ⟨hptr, hn, -⟩ := hl
  rw [rebased_ptr] at hptr
  obtain rfl := hF.eq_of_ptr he hde hptr
  rw [rebased, if_pos hT] at hn
  have hrenamed : (withField ftId (newPrefix ++ (idData e).drop (idData e).length) e).name =
      idName (newPrefix ++ (idData e).drop (idData e).length) := rfl
  rw [hrenamed, List.drop_length, List.append_nil, idName_renamedId hnew] at hn
  exact hname hn.symm

/-! ## `db_rename` -/

/-- The identifier the entry is to get. -/
def renamedTo (de : DbEntry) (name : CString) : Bytes := (renamedId (idData de) name).getD []

/-- There is no block for the first record, or a block for each and every record can be written. -/
def AllOrNothing (db : Db) (de : DbEntry) (ch : Tree) (name : CString) (failed : Bool) : Prop :=
  de.defer = false ∧ db.erased.blocks = [] ∨
    Rewritable db (renamedTo de name) (idData de).length (de :: ch.entries) failed

theorem dbRename_returns (hfind : find p db.entries = some (de, ch))
    {r : Bool × Db} {s t : Flash × Bool}
    (hr : Returns (Recording torn) (dbRename env db p name) s r t) :
    renamedId (idData de) name = some (renamedTo de name) ∧
      Returns (Recording torn) (patchRecursive env (renamedTo de name) (idData de).length
        (.node de ch .nil) db) s r t := by
  unfold dbRename at hr
  simp only [hfind] at hr
  cases hf : de.fields with
  | nil =>
      rw [hf] at hr
      cases hr
  | cons id rest =>
      have hid : idData de = id.data := by simp [idData, hf]
      simp only [hf] at hr
      split at hr
      · cases hr
      · rw [renamedTo, hid]
        cases hnew : renamedId id.data name with
        | none =>
            rw [hnew] at hr
            cases hr
        | some newPrefix =>
            rw [hnew] at hr
            exact ⟨rfl, hr⟩

/-- In every state that calls lead to, a rename that fails has changed nothing if there was no
block for the first record, or else could not have failed. For another name there is no other
way. -/
theorem dbRename_asBefore (ht : Tears env torn) {s u : State} (ho : Opens env s)
    (hrun : Reachable (Step torn) env Careful s u)
    (hfind : find p u.db.entries = some (de, ch)) (hspare : de.defer = false → Spare u.db)
    (hr : Returns (Recording torn) (dbRename env u.db p name) (u.flash, false) (ok, db')
      (g, failed)) :
    (AllOrNothing u.db de ch name failed → ok = false → AsBefore env u.db u.flash db' g) ∧
      (name ≠ de.name → (ok = false → AsBefore env u.db u.flash db' g) →
        AllOrNothing u.db de ch name failed) := by
  have halloc := reachable_alloc ht ho hrun
  have hheld := reachable_held ho hrun
  have hnode := Forest.node_sublist (List.mem_of_find?_eq_some hfind)
  have hone : (Forest.node de ch .nil).entries = de :: ch.entries := by simp [Forest.entries]
  have hde : de ∈ u.db.entries.entries := hnode.subset List.mem_cons_self
  obtain ⟨hid, hr⟩ := dbRename_returns hfind hr
  have hstart : Alike u.db.entries
      (u.db.entries.map (rebased [] (renamedTo de name) (idData de).length)) := by
    have hnone : rebased [] (renamedTo de name) (idData de).length = fun e => e := by
      funext e
      simp [rebased]
    rw [hnone, Forest.map_id]
    exact .refl _
  obtain ⟨hall, T, -, halike, hfirst⟩ := patchRecursive_noted hheld halloc.intact.1 hheld.linked
    hstart (fun e he => hnode.subset (hone ▸ he))
    (by rw [hone, List.nil_append]; exact List.Nodup.sublist (hnode.map DbEntry.ptr) hheld.linked)
    hr
  rw [hone] at hall
  rw [List.nil_append] at halike
  have hfirst := hfirst de ch .nil rfl
  constructor
  · intro hcond hok
    rcases hcond with ⟨hd, hempty⟩ | hcond
    · rcases hfirst with ⟨-, hle⟩ | ⟨-, -, hget⟩
      · rw [cost, hd, hempty] at hle
        exact absurd hle (by decide)
      · have hserved := wp_returns (K := requestContract env torn)
          (wp_getErasedBlock ht halloc (hspare hd)) hget
        refine ⟨?_, hserved.records.foundAt⟩
        rw [hserved.tree.entries]
    · rw [hall.mpr hcond] at hok
      cases hok
  · intro hname h
    cases ok with
    | true => exact .inr (hall.mp rfl)
    | false =>
        rcases hfirst with ⟨hT, -⟩ | ⟨hd, hempty, -⟩
        · exact absurd (h rfl).labels (not_labels_of_rebased hheld.linked hde hT hname hid halike)
        · exact .inl ⟨hd, hempty⟩

/-- A rename in a full storage, which is refused for want of a block. -/
def fullStorageRenamed : State :=
  refusedState failedRecord [] (fun db => dbRename (plainEnv 10) db 0 ⟨[122], by decide⟩)
    fullStorage

theorem dbRename_asBefore_full :
    (AllOrNothing fullStorage.db ⟨0, ⟨[97], by decide⟩, 1, 8, false, [nameField [97]]⟩ .nil
        ⟨[122], by decide⟩ false → false = false → AsBefore (plainEnv 10) fullStorage.db
          fullStorage.flash fullStorageRenamed.db fullStorageRenamed.flash) ∧
      ((⟨[122], by decide⟩ : CString) ≠ ⟨[97], by decide⟩ →
        (false = false → AsBefore (plainEnv 10) fullStorage.db fullStorage.flash
          fullStorageRenamed.db fullStorageRenamed.flash) →
        AllOrNothing fullStorage.db ⟨0, ⟨[97], by decide⟩, 1, 8, false, [nameField [97]]⟩ .nil
          ⟨[122], by decide⟩ false) := by
  have hspare : Spare fullStorage.db := .inr (by decide +kernel)
  have hfind : find 0 fullStorage.db.entries =
      some (⟨0, ⟨[97], by decide⟩, 1, 8, false, [nameField [97]]⟩, .nil) := by decide +kernel
  have hr := returns_refusedState failedRecord []
    (fun db => dbRename (plainEnv 10) db 0 ⟨[122], by decide⟩) fullStorage false false
    (by decide +kernel) (by decide +kernel)
  exact dbRename_asBefore (tears_unchanged _) (opens_afterOpen _ _) .start hfind (fun _ => hspare) hr

/-- A directory with one account, and a single erased block. -/
def folder : State :=
  afterOpen (plainEnv 11) (plainFlash [(8, 1, [nameField [97], .ofData ftDir []]),
    (9, 1, [nameField [97, 0, 98]])])

/-- The state after a rename of the directory. -/
def folderRenamed : State :=
  refusedState failedRecord [] (fun db => dbRename (plainEnv 11) db 0 ⟨[122], by decide⟩) folder

/-- The second record finds no block. The rename fails, but the directory has its new name, in
memory as on the storage, while the account is still below the old one. -/
theorem dbRename_asBefore_folder :
    Opens (plainEnv 11) folder ∧
    Returns (Recording unchanged) (dbRename (plainEnv 11) folder.db 0 ⟨[122], by decide⟩)
      (folder.flash, false) (false, folderRenamed.db) (folderRenamed.flash, false) ∧
    folder.db.entries.entries.map label =
      [(0, ⟨[97], by decide⟩, [97]), (2, ⟨[98], by decide⟩, [97, 0, 98])] ∧
    folderRenamed.db.entries.entries.map label =
      [(0, ⟨[122], by decide⟩, [122]), (2, ⟨[98], by decide⟩, [97, 0, 98])] ∧
    ∀ st, ¬ FoundAt (plainEnv 11) st folder.flash [⟨[122], by decide⟩] ∧
      FoundAt (plainEnv 11) st folderRenamed.flash [⟨[122], by decide⟩] ∧
      FoundAt (plainEnv 11) st folderRenamed.flash [⟨[97], by decide⟩, ⟨[98], by decide⟩] := by
  have hr := returns_refusedState failedRecord []
    (fun db => dbRename (plainEnv 11) db 0 ⟨[122], by decide⟩) folder false false
    (by decide +kernel) (by decide +kernel)
  refine ⟨opens_afterOpen _ _, hr, by decide +kernel, by decide +kernel, fun st => ?_⟩
  rw [foundAt_iff (by simp), foundAt_iff (by simp), foundAt_iff (by simp)]
  exact ⟨by decide +kernel, by decide +kernel, by decide +kernel⟩

end Sunela.Database
