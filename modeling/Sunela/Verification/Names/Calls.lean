import Sunela.Verification.Names.Alike

/-! # What calls do to the names

Whether or not the storage works, a call either leaves the tree alone or changes it as it
should. -/

namespace Sunela.Database

open Program Storage Span Block Fields Entry

variable {env : Env} {torn : Torn} {db : Db} {f : Flash} {newPrefix : Bytes} {k : ℕ}

/-! ## Requests and writes -/

theorem wp_reclaim_tree {spans : Spans} {take : Spans → Db}
    (hs : ∀ rest, SameTree db (take rest)) :
    wp (anyContract torn) (reclaim db spans take) (fun r _ => SameTree db r.2) f := by
  unfold reclaim
  split
  · trivial
  · exact .refl db
  · refine ⟨trivial, fun ok g _ => ?_⟩
    cases ok <;> exact (hs _).trans ⟨rfl, rfl, rfl, rfl⟩

theorem wp_erasedLoop_tree (fuel : ℕ) :
    wp (anyContract torn) (erasedLoop fuel db) (fun r _ => SameTree db r.2) f := by
  induction fuel generalizing db f with
  | zero => trivial
  | succ fuel ih =>
      rw [erasedLoop]
      split
      · trivial
      · exact ⟨rfl, rfl, rfl, rfl⟩
      · rw [wp_bind]
        refine wp_mono (wp_reclaim_tree fun _ => ⟨rfl, rfl, rfl, rfl⟩) ?_
        rintro ⟨again, db₁⟩ g h₁
        cases again with
        | true => exact wp_mono ih fun r _ h => h₁.trans h
        | false =>
            simp only [Bool.false_eq_true, if_false, wp_bind]
            refine wp_mono (wp_reclaim_tree fun _ => ⟨rfl, rfl, rfl, rfl⟩) ?_
            rintro ⟨again, db₂⟩ g h₂
            cases again with
            | true => exact wp_mono ih fun r _ h => (h₁.trans h₂).trans h
            | false => exact h₁.trans h₂

theorem wp_discard_tree {n : ℕ} :
    wp (anyContract torn) (discard env db n) (fun r _ => SameTree db r.2) f := by
  unfold discard
  rw [wp_bind]
  refine wp_blockDelete (lenient_any f) (fun _ => trivial) (fun _ => ?_) fun _ _ _ => .refl db
  simp only [if_true]
  cases spanAdd db.deleted n 1 Nat.one_pos with
  | none => trivial
  | some deleted => exact ⟨rfl, rfl, rfl, rfl⟩

theorem wp_writeEntry_tree {de : DbEntry} :
    wp (anyContract torn) (writeEntry env db de) (fun r _ => SameTree db r.2) f := by
  refine wp_of_returns fun r g hr => ?_
  unfold writeEntry at hr
  split at hr
  · cases hr
  · split at hr
    · obtain ⟨he, -⟩ := reaches_ret.mp hr
      rw [Prog.ret.inj he]
      exact .refl db
    · obtain ⟨ok, g', -, hret⟩ := returns_bind hr
      obtain ⟨he, -⟩ := reaches_ret.mp hret
      rw [Prog.ret.inj he]
      cases ok <;> exact ⟨rfl, rfl, rfl, rfl⟩

/-- The tree is like `X`, and neither the directory nor the unused pointers have changed. -/
structure Leads (db : Db) (X : Tree) (db' : Db) : Prop where
  alike : Alike db'.entries X
  dir : db'.dir = db.dir
  fresh : db'.fresh = db.fresh

theorem SameTree.leads {db' : Db} (h : SameTree db db') : Leads db db.entries db' :=
  ⟨h.entries ▸ .refl _, h.dir, h.fresh⟩

theorem Leads.trans {a b c : Db} {X : Tree} (h : Leads a X b) (h' : Leads b b.entries c) :
    Leads a X c :=
  ⟨h'.alike.trans h.alike, h'.dir.trans h.dir, h'.fresh.trans h.fresh⟩

theorem wp_updateEntry_alike {p new : ℕ} :
    wp (anyContract torn) (updateEntry env db p new) (fun r _ => Leads db db.entries r.2) f := by
  unfold updateEntry
  cases find p db.entries with
  | none => trivial
  | some r =>
      have hmod : Leads db db.entries { db with entries := modify p (renewed new) db.entries } :=
        ⟨Alike.of_face (g := renewed new) (fun _ => rfl) p, rfl, rfl⟩
      simp only [wp_bind]
      refine wp_mono wp_writeEntry_tree ?_
      rintro ⟨ok, db₁⟩ g h₁
      cases ok with
      | false =>
          simp only [Bool.not_false, if_true, wp_bind]
          refine wp_mono wp_discard_tree fun r _ h₂ => ?_
          exact (hmod.trans h₁.leads).trans h₂.leads
      | true =>
          simp only [Bool.not_true, Bool.false_eq_true, if_false]
          split
          · rw [wp_bind]
            refine wp_mono wp_discard_tree ?_
            rintro ⟨done, db₂⟩ g h₂
            have h := (hmod.trans h₁.leads).trans h₂.leads
            cases done <;> exact ⟨h.alike, h.dir, h.fresh⟩
          · exact hmod.trans h₁.leads

/-! ## Calls -/

/-- A change is made, or the call fails and leaves the tree as it is. -/
theorem wp_changeEntry_alike {p : ℕ} {g : DbEntry → DbEntry} {change : Db → Fw Db}
    (hchange : ∀ db, ∃ db', change db = .ret db' ∧ Retouched (modify p g db.entries) db db') :
    wp (anyContract torn) (changeEntry env db p change) (fun r _ =>
      Leads db (modify p g db.entries) r.2 ∨ r.1 = false ∧ Leads db db.entries r.2) f := by
  have hmade : ∀ db₁, SameTree db db₁ → ∃ db₂, change db₁ = .ret db₂ ∧
      Leads db (modify p g db.entries) db₂ := by
    intro db₁ hs
    obtain ⟨db₂, hc, G, generation, hperm, rfl⟩ := hchange db₁
    rw [hs.entries] at hperm
    exact ⟨_, hc, Alike.of_siblings hperm, hs.dir, hs.fresh⟩
  unfold changeEntry
  cases find p db.entries with
  | none => trivial
  | some r =>
      simp only []
      split
      · obtain ⟨db₂, hc, h⟩ := hmade db (.refl db)
        rw [hc]
        exact .inl h
      · rw [wp_bind]
        refine wp_mono (wp_erasedLoop_tree _) ?_
        rintro ⟨new, db₁⟩ g hs
        cases new with
        | none => exact .inr ⟨rfl, hs.leads⟩
        | some new =>
            obtain ⟨db₂, hc, h⟩ := hmade db₁ hs
            simp only [hc, Prog.ret_bind]
            exact wp_mono wp_updateEntry_alike fun r _ hr => .inl (h.trans hr)

theorem wp_dbChangeField_alike {p : ℕ} {type : UInt8} {data : Bytes} :
    wp (anyContract torn) (dbChangeField env db p type data) (fun r _ =>
      Leads db (modify p (withField type data) db.entries) r.2 ∨
        r.1 = false ∧ Leads db db.entries r.2) f :=
  wp_changeEntry_alike fun db => changeField_eq db p type data

/-- A new entry is added, even if it cannot be stored, or the call fails before that. -/
theorem wp_dbNewEntry_alike {name : CString} :
    wp (anyContract torn) (dbNewEntry env db name) (fun r _ =>
      Leads db db.entries r.2 ∨
      ∃ id, newId db name = .ret id ∧ r.2.dir = db.dir ∧ r.2.fresh = db.fresh + 1 ∧
        Alike r.2.entries (newEntry db.dir
          ⟨db.fresh, name, 0, 0, false, addField [] ftId id⟩ db.entries)) f := by
  unfold dbNewEntry
  rw [wp_bind]
  refine wp_mono (wp_erasedLoop_tree _) ?_
  rintro ⟨new, db₁⟩ g hs
  cases new with
  | none => exact .inl hs.leads
  | some new =>
      simp only [wp_bind]
      refine wp_rndBytes (lenient_any g) fun seq _ => ?_
      refine wp_newId (lenient_any g) trivial fun id hid => ?_
      have hid : newId db name = .ret id := by
        unfold newId at hid ⊢
        rw [← hs.dir, ← hs.entries]
        exact hid
      generalize hde : (⟨db₁.fresh, name, seqOfBytes (seq.getD 0 0) (seq.getD 1 0), new, false,
        addField [] ftId id⟩ : DbEntry) = de
      obtain ⟨db₂, hsort, G, generation, hperm, rfl⟩ := sorted_eq
        { db₁.changed.changed with
          entries := newEntry db₁.dir de db₁.entries, fresh := db₁.fresh + 1 }
      have halike : Alike G (newEntry db.dir
          ⟨db.fresh, name, 0, 0, false, addField [] ftId id⟩ db.entries) := by
        refine (Alike.of_siblings hperm).trans ?_
        rw [← hs.dir, ← hs.entries, ← hs.fresh]
        exact Alike.newEntry (by rw [← hde]; rfl)
      simp only [Db.changed] at hsort ⊢
      rw [hsort]
      simp only [wp_ret]
      refine wp_mono wp_writeEntry_tree ?_
      rintro ⟨ok, db₃⟩ g h₃
      cases ok with
      | true =>
          refine .inr ⟨id, hid, h₃.dir.trans hs.dir, h₃.fresh.trans ?_, ?_⟩
          · exact congrArg (· + 1) hs.fresh
          · rw [h₃.entries]
            exact halike
      | false =>
          simp only [Bool.false_eq_true, if_false, wp_bind]
          refine wp_mono wp_discard_tree fun r _ h₄ => ?_
          have h := h₃.trans h₄
          refine .inr ⟨id, hid, h.dir.trans hs.dir, h.fresh.trans ?_, ?_⟩
          · exact congrArg (· + 1) hs.fresh
          · rw [h.entries]
            exact halike

/-! ## Pointers -/

/-- Each pointer refers to one entry, and has been given out before. -/
structure Held (db : Db) : Prop where
  linked : Linked db.entries
  fresh : ∀ e ∈ db.entries.entries, e.ptr < db.fresh

theorem Held.leads (h : Held db) {k : DbEntry → DbEntry} {db' : Db}
    (hk : ∀ e, (k e).ptr = e.ptr) (hl : Leads db (db.entries.map k) db') : Held db' := by
  have hptrs : (db.entries.map k).entries.map DbEntry.ptr = db.entries.entries.map DbEntry.ptr := by
    rw [Forest.entries_map, List.map_map]
    exact List.map_congr_left fun e _ => hk e
  have hlinked : Linked (db.entries.map k) := by
    unfold Linked
    rw [hptrs]
    exact h.linked
  refine ⟨hl.alike.symm.linked hlinked, fun e he => ?_⟩
  have hm : e.ptr ∈ (db.entries.map k).entries.map DbEntry.ptr :=
    hl.alike.ptrs.mem_iff.mp (List.mem_map_of_mem he)
  rw [hptrs] at hm
  obtain ⟨d, hdm, hp⟩ := List.mem_map.mp hm
  rw [hl.fresh, ← hp]
  exact h.fresh d hdm

theorem Held.same (h : Held db) {db' : Db} (hl : Leads db db.entries db') : Held db' := by
  rw [← Forest.map_id db.entries] at hl
  exact h.leads (fun _ => rfl) hl

theorem Held.newEntry (h : Held db) {db' : Db} {new : DbEntry} (hn : new.ptr = db.fresh)
    (hfresh : db'.fresh = db.fresh + 1) (ha : Alike db'.entries (newEntry db.dir new db.entries)) :
    Held db' := by
  have hfree : ∀ e ∈ db.entries.entries, e.ptr ≠ new.ptr := fun e he =>
    hn ▸ Nat.ne_of_lt (h.fresh e he)
  refine ⟨ha.symm.linked (Linked.newEntry h.linked hfree), fun e he => ?_⟩
  have hm := ha.ptrs.mem_iff.mp (List.mem_map_of_mem he)
  rw [((newEntry_entries db.dir _ db.entries).map DbEntry.ptr).mem_iff, List.map_append,
    List.mem_append] at hm
  rw [hfresh]
  rcases hm with hm | hm
  · obtain ⟨d, hd, hp⟩ := List.mem_map.mp hm
    rw [← hp]
    exact Nat.lt_succ_of_lt (h.fresh d hd)
  · obtain ⟨d, hd, hp⟩ := List.mem_map.mp hm
    rw [← hp, List.eq_of_mem_replicate hd, hn]
    exact Nat.lt_succ_self _

/-! ## Renaming -/

theorem rebased_ptr (S : List ℕ) (newPrefix : Bytes) (k : ℕ) (e : DbEntry) :
    (rebased S newPrefix k e).ptr = e.ptr := by
  unfold rebased
  split <;> rfl

theorem wp_patchOne_alike {p : ℕ} :
    wp (anyContract torn) (patchOne env db p newPrefix k) (fun r _ =>
      ∃ d ch, find p db.entries = some (d, ch) ∧
        (Leads db (modify p (withField ftId (newPrefix ++ (idData d).drop k)) db.entries) r.2 ∨
          r.1 = false ∧ Leads db db.entries r.2)) f := by
  unfold patchOne
  cases hfind : find p db.entries with
  | none => trivial
  | some res =>
      obtain ⟨d, ch⟩ := res
      have hpatch : ∀ data, data = newPrefix ++ (idData d).drop k →
          wp (anyContract torn) (dbChangeField env db p ftId data) (fun r _ =>
            ∃ d' ch', some (d, ch) = some (d', ch') ∧
              (Leads db (modify p (withField ftId (newPrefix ++ (idData d').drop k)) db.entries)
                r.2 ∨ r.1 = false ∧ Leads db db.entries r.2)) f := by
        rintro data rfl
        exact wp_mono wp_dbChangeField_alike fun r _ hr => ⟨d, ch, rfl, hr⟩
      simp only []
      cases hf : d.fields with
      | nil => trivial
      | cons id rest =>
          have hid : idData d = id.data := by simp [idData, hf]
          simp only []
          split
          · trivial
          · split
            · next hl =>
                refine hpatch _ ?_
                rw [hid, List.drop_eq_nil_of_le (Nat.le_of_eq hl), List.append_nil]
            · split
              · trivial
              · exact hpatch _ (by rw [hid])

/-- An entry that has not had its turn yet is as it was. -/
theorem face_of_find {F G : Tree} (hF : Linked F) {S : List ℕ}
    (ha : Alike G (F.map (rebased S newPrefix k))) {e d : DbEntry} {ch : Tree} (he : e ∈ F.entries)
    (heS : e.ptr ∉ S) (hfind : find e.ptr G = some (d, ch)) : face d = face e := by
  obtain ⟨hd, hp⟩ := mem_entries_of_find hfind
  have hm : face d ∈ (F.map (rebased S newPrefix k)).entries.map face :=
    ha.entries.mem_iff.mp (List.mem_map_of_mem hd)
  rw [Forest.entries_map, List.map_map] at hm
  obtain ⟨e₀, he₀, hface⟩ := List.mem_map.mp hm
  have hptr : e₀.ptr = e.ptr :=
    (rebased_ptr S newPrefix k e₀).symm.trans ((congrArg Prod.fst hface).trans hp)
  obtain rfl := hF.eq_of_ptr he₀ he hptr
  simpa [rebased, heS] using hface.symm

theorem idData_of_find {F G : Tree} (hF : Linked F) {S : List ℕ}
    (ha : Alike G (F.map (rebased S newPrefix k))) {e d : DbEntry} {ch : Tree} (he : e ∈ F.entries)
    (heS : e.ptr ∉ S) (hfind : find e.ptr G = some (d, ch)) : idData d = idData e := by
  have hfields : d.fields = e.fields :=
    congrArg (fun x => x.2.2.2) (face_of_find hF ha he heS hfind)
  rw [idData, idData, hfields]

/-- The entries that have had their turn come first. -/
theorem wp_patchRecursive_alike {F H : Tree} (hF : Linked F) {S : List ℕ}
    (ha : Alike db.entries (F.map (rebased S newPrefix k))) (hH : ∀ e ∈ H.entries, e ∈ F.entries)
    (hS : (S ++ H.entries.map DbEntry.ptr).Nodup) :
    wp (anyContract torn) (patchRecursive env newPrefix k H db) (fun r _ =>
      ∃ T, T <+: H.entries.map DbEntry.ptr ∧ (r.1 = true → T = H.entries.map DbEntry.ptr) ∧
        Leads db (F.map (rebased (S ++ T) newPrefix k)) r.2) f := by
  induction H generalizing db f S with
  | nil => exact ⟨[], by simp, fun _ => rfl, by simpa using ha, rfl, rfl⟩
  | node e ch nx hc hn =>
      have heF : e ∈ F.entries := hH e (by simp [Forest.entries])
      have hsplit : (Forest.node e ch nx).entries.map DbEntry.ptr =
          [e.ptr] ++ ch.entries.map DbEntry.ptr ++ nx.entries.map DbEntry.ptr := by
        simp [Forest.entries]
      rw [hsplit] at hS ⊢
      rw [← List.append_assoc, ← List.append_assoc] at hS
      have hSch := (List.nodup_append.mp hS).1
      have heS : e.ptr ∉ S := fun hm =>
        (List.nodup_append.mp (List.nodup_append.mp hSch).1).2.2 _ hm _ (by simp) rfl
      have hfalse : ∀ {Q : Prop}, false = true → Q := fun h => absurd h Bool.false_ne_true
      simp only [patchRecursive, wp_bind]
      refine wp_mono wp_patchOne_alike ?_
      rintro ⟨ok, db₁⟩ f₁ ⟨d, ch', hfind, h₁⟩
      have hstep : Leads db (F.map (rebased (S ++ [e.ptr]) newPrefix k)) db₁ ∨
          ok = false ∧ Leads db (F.map (rebased S newPrefix k)) db₁ := by
        refine h₁.imp (fun h => ⟨h.alike.trans ?_, h.dir, h.fresh⟩) fun h =>
          ⟨h.1, h.2.alike.trans ha, h.2.dir, h.2.fresh⟩
        rw [idData_of_find hF ha heF heS hfind, ← modify_rebased hF heF heS]
        exact ha.modify fun _ _ he => face_withField _ _ he
      cases ok with
      | false =>
          rcases hstep with h | ⟨-, h⟩
          · exact ⟨[e.ptr], by simp, hfalse, h⟩
          · exact ⟨[], by simp, hfalse, by simpa using h⟩
      | true =>
          have h₁ := hstep.resolve_right (by simp)
          simp only [Bool.not_true, Bool.false_eq_true, if_false, wp_bind]
          refine wp_mono (hc h₁.alike (fun x hx => hH x (by simp [Forest.entries, hx])) hSch) ?_
          rintro ⟨ok, db₂⟩ f₂ ⟨T, hpre, hall, hch⟩
          have h₂ : Leads db (F.map (rebased (S ++ [e.ptr] ++ T) newPrefix k)) db₂ :=
            ⟨hch.alike, hch.dir.trans h₁.dir, hch.fresh.trans h₁.fresh⟩
          cases ok with
          | false =>
              refine ⟨[e.ptr] ++ T, ?_, hfalse, by simpa using h₂⟩
              exact ((List.prefix_append_right_inj [e.ptr]).mpr hpre).trans
                (List.prefix_append _ _)
          | true =>
              rw [hall rfl] at h₂
              simp only [Bool.not_true, Bool.false_eq_true, if_false]
              refine wp_mono (hn h₂.alike (fun x hx => hH x (by simp [Forest.entries, hx])) hS) ?_
              rintro ⟨ok, db₃⟩ f₃ ⟨T', hpre', hall', h₃⟩
              refine ⟨[e.ptr] ++ ch.entries.map DbEntry.ptr ++ T',
                (List.prefix_append_right_inj _).mpr hpre', fun hok => by rw [hall' hok], ?_, ?_, ?_⟩
              · simpa using h₃.alike
              · exact h₃.dir.trans h₂.dir
              · exact h₃.fresh.trans h₂.fresh

/-- A rename reaches the entry first, then those below it, and perhaps not all of them. -/
theorem wp_dbRename_alike (hF : Linked db.entries) {p : ℕ} {name : CString} :
    wp (anyContract torn) (dbRename env db p name) (fun r _ =>
      ∃ de ch id rest newPrefix T, find p db.entries = some (de, ch) ∧
        de.fields = id :: rest ∧ renamedId id.data name = some newPrefix ∧
        T <+: de.ptr :: ch.entries.map DbEntry.ptr ∧
        (r.1 = true → T = de.ptr :: ch.entries.map DbEntry.ptr) ∧
        Leads db (db.entries.map (rebased T newPrefix id.data.length)) r.2) f := by
  unfold dbRename
  cases hfind : find p db.entries with
  | none => trivial
  | some res =>
      obtain ⟨de, ch⟩ := res
      simp only []
      split
      · trivial
      · next id rest hf =>
          split
          · trivial
          · split
            · trivial
            · next newPrefix hid =>
                have hsub := Forest.node_sublist (List.mem_of_find?_eq_some hfind)
                have hone : (Forest.node de ch .nil).entries = de :: ch.entries := by
                  simp [Forest.entries]
                have ha : Alike db.entries
                    (db.entries.map (rebased [] newPrefix id.data.length)) := by
                  have hnone : rebased [] newPrefix id.data.length = fun e => e := by
                    funext e
                    simp [rebased]
                  rw [hnone, Forest.map_id]
                  exact .refl _
                refine wp_mono (wp_patchRecursive_alike hF ha (fun e he => ?_) ?_) ?_
                · rw [hone] at he
                  exact hsub.subset he
                · rw [hone, List.nil_append]
                  exact List.Nodup.sublist (hsub.map DbEntry.ptr) hF
                · rintro r g ⟨T, hpre, hall, h⟩
                  rw [hone] at hpre hall
                  exact ⟨de, ch, id, rest, newPrefix, T, rfl, hf, hid, hpre, hall, h⟩

end Sunela.Database
