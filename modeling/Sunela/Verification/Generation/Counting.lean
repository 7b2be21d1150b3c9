import Sunela.Model.Edit
import Sunela.Verification.Names.Calls

/-! # The generation of the database

How often the functions advance the generation, by which others notice that the database has
changed. -/

namespace Sunela.Database

open Program Storage Span Block Fields Entry Tsort

/-- The generation has been advanced `n` times. -/
def Advanced (db : Db) (n : ℕ) (db' : Db) : Prop :=
  db'.generation = db.generation + UInt32.ofNat n

variable {env : Env} {torn : Torn} {db db' : Db} {f : Flash} {m n p : ℕ}

theorem Advanced.refl (db : Db) : Advanced db 0 db := by simp [Advanced]

theorem Advanced.trans {a b c : Db} (h : Advanced a m b) (h' : Advanced b n c) :
    Advanced a (m + n) c := by
  unfold Advanced at *
  rw [h', h, UInt32.ofNat_add, UInt32.add_assoc]

/-- The generation shows no more than the number of times modulo its range. -/
theorem Advanced.ne_iff (h : Advanced db n db') :
    db'.generation ≠ db.generation ↔ ¬ 2 ^ 32 ∣ n := by
  have hzero : UInt32.ofNat n = 0 ↔ 2 ^ 32 ∣ n := by
    rw [Nat.dvd_iff_mod_eq_zero, ← UInt32.toNat_inj, UInt32.toNat_ofNat']
    rfl
  rw [h, ← hzero, not_iff_not]
  constructor
  · intro heq
    have hcancel : db.generation + UInt32.ofNat n = db.generation + 0 := by rw [heq, UInt32.add_zero]
    exact (UInt32.add_right_inj _).mp hcancel
  · intro heq
    rw [heq, UInt32.add_zero]

theorem changed_advanced (db : Db) : Advanced db 1 db.changed := rfl

/-! ## Requests and writes -/

theorem wp_reclaim_advanced {spans : Spans} {take : Spans → Db}
    (hs : ∀ rest, Advanced db 0 (take rest)) :
    wp (anyContract torn) (reclaim db spans take) (fun r _ => Advanced db 0 r.2) f := by
  unfold reclaim
  split
  · trivial
  · exact .refl db
  · refine ⟨trivial, fun ok g _ => ?_⟩
    cases ok <;> exact hs _

theorem wp_erasedLoop_advanced (fuel : ℕ) :
    wp (anyContract torn) (erasedLoop fuel db) (fun r _ => Advanced db 0 r.2) f := by
  induction fuel generalizing db f with
  | zero => trivial
  | succ fuel ih =>
      rw [erasedLoop]
      split
      · trivial
      · exact .refl db
      · rw [wp_bind]
        refine wp_mono (wp_reclaim_advanced fun _ => .refl db) ?_
        rintro ⟨again, db₁⟩ g h₁
        cases again with
        | true => exact wp_mono ih fun r _ h => h₁.trans h
        | false =>
            simp only [Bool.false_eq_true, if_false, wp_bind]
            refine wp_mono (wp_reclaim_advanced fun _ => .refl db₁) ?_
            rintro ⟨again, db₂⟩ g h₂
            cases again with
            | true => exact wp_mono ih fun r _ h => (h₁.trans h₂).trans h
            | false => exact h₁.trans h₂

theorem wp_discard_advanced :
    wp (anyContract torn) (discard env db n) (fun r _ => Advanced db 0 r.2) f := by
  unfold discard
  rw [wp_bind]
  refine wp_blockDelete (lenient_any f) (fun _ => trivial) (fun _ => ?_) fun _ _ _ => .refl db
  simp only [if_true]
  cases spanAdd db.deleted n 1 Nat.one_pos with
  | none => trivial
  | some deleted => exact .refl db

theorem wp_writeEntry_advanced {de : DbEntry} :
    wp (anyContract torn) (writeEntry env db de) (fun r _ => Advanced db 0 r.2) f := by
  refine wp_of_returns fun r g hr => ?_
  unfold writeEntry at hr
  split at hr
  · cases hr
  · split at hr
    · obtain ⟨he, -⟩ := reaches_ret.mp hr
      rw [Prog.ret.inj he]
      exact .refl db
    · obtain ⟨ok, g', -, hret⟩ := returns_bind hr
      obtain ⟨he, -⟩ := reaches_ret.mp hret
      rw [Prog.ret.inj he]
      cases ok <;> exact .refl db

theorem wp_updateEntry_advanced :
    wp (anyContract torn) (updateEntry env db p n) (fun r _ => Advanced db 0 r.2) f := by
  unfold updateEntry
  cases find p db.entries with
  | none => trivial
  | some r =>
      simp only [wp_bind]
      refine wp_mono wp_writeEntry_advanced ?_
      rintro ⟨ok, db₁⟩ g h₁
      have h₁ : Advanced db 0 db₁ := h₁
      cases ok with
      | false =>
          simp only [Bool.not_false, if_true, wp_bind]
          exact wp_mono wp_discard_advanced fun r _ h₂ => h₁.trans h₂
      | true =>
          simp only [Bool.not_true, Bool.false_eq_true, if_false]
          split
          · rw [wp_bind]
            refine wp_mono wp_discard_advanced ?_
            rintro ⟨done, db₂⟩ g h₂
            cases done <;> exact h₁.trans h₂
          · exact h₁

/-! ## Sorting and changes -/

/-- Sorting advances the generation, unless there is nothing to be sorted. -/
theorem sorted_advanced (h : db.sorted = .ret db') :
    Advanced db (if db.entries = .nil then 0 else 1) db' := by
  obtain ⟨G, hG, hperm⟩ := dbTsort_perm db.entries
  have hnil : G = .nil ↔ db.entries = .nil := by
    rw [← Forest.siblings_eq_nil, ← Forest.siblings_eq_nil, ← List.length_eq_zero_iff,
      hperm.length_eq, List.length_eq_zero_iff]
  rw [Db.sorted, hG] at h
  dsimp only at h
  by_cases hn : G = .nil
  · rw [if_pos hn] at h
    rw [if_pos (hnil.mp hn), ← Prog.ret.inj h]
    exact .refl db
  · rw [if_neg hn] at h
    rw [if_neg fun hd => hn (hnil.mpr hd), ← Prog.ret.inj h]
    exact changed_advanced db

theorem modify_eq_nil {F : Tree} {g : DbEntry → DbEntry} : modify p g F = .nil ↔ F = .nil := by
  cases F with
  | nil => exact Iff.rfl
  | node e ch nx => exact iff_of_false nofun nofun

/-- The change advances the generation once, if there is an entry to be changed. -/
def AdvancesOnce (change : Db → Fw Db) : Prop :=
  ∀ db db', db.entries ≠ .nil → change db = .ret db' → Advanced db 1 db'

theorem changeField_once (p : ℕ) (type : UInt8) (data : Bytes) :
    AdvancesOnce fun db => changeField db p type data := by
  intro db db' hne h
  unfold changeField at h
  dsimp only at h
  split at h
  · have hadv := sorted_advanced h
    rwa [if_neg fun hn => hne (modify_eq_nil.mp hn)] at hadv
  · rw [← Prog.ret.inj h]
    exact changed_advanced _

theorem deleteField_once (p i : ℕ) : AdvancesOnce fun db => deleteField db p i := by
  intro db db' hne h
  unfold deleteField at h
  dsimp only at h
  have hne' : ¬ modify p (withoutField i) db.entries = .nil := fun hn => hne (modify_eq_nil.mp hn)
  rw [if_neg hne'] at h
  have hadv := sorted_advanced h
  rwa [if_neg hne'] at hadv

theorem ne_nil_of_find {r : DbEntry × Tree} (h : find p db.entries = some r) :
    db.entries ≠ .nil := by
  intro hn
  rw [hn] at h
  cases h

/-- A change is made and advances the generation, or the call fails and changes nothing. -/
theorem wp_changeEntry_advanced {g : DbEntry → DbEntry} {change : Db → Fw Db}
    (hchange : ∀ db, ∃ db', change db = .ret db' ∧ Retouched (modify p g db.entries) db db')
    (honce : AdvancesOnce change) :
    wp (anyContract torn) (changeEntry env db p change) (fun r _ =>
      Leads db (modify p g db.entries) r.2 ∧ Advanced db 1 r.2 ∨
        r.1 = false ∧ SameTree db r.2 ∧ Advanced db 0 r.2) f := by
  have hmade : ∀ db₁, SameTree db db₁ → Advanced db 0 db₁ → db.entries ≠ .nil →
      ∃ db₂, change db₁ = .ret db₂ ∧ Leads db (modify p g db.entries) db₂ ∧
        Advanced db 1 db₂ := by
    intro db₁ hs h₁ hne
    obtain ⟨db₂, hc, G, generation, hperm, rfl⟩ := hchange db₁
    have h₂ := h₁.trans (honce db₁ _ (by rwa [hs.entries]) hc)
    rw [hs.entries] at hperm
    exact ⟨_, hc, ⟨Alike.of_siblings hperm, hs.dir, hs.fresh⟩, h₂⟩
  unfold changeEntry
  cases hfind : find p db.entries with
  | none => trivial
  | some r =>
      have hne := ne_nil_of_find hfind
      simp only []
      split
      · obtain ⟨db₂, hc, h⟩ := hmade db (.refl db) (.refl db) hne
        rw [hc]
        exact .inl h
      · rw [wp_bind]
        refine wp_mono (wp_and (wp_erasedLoop_tree _) (wp_erasedLoop_advanced _)) ?_
        rintro ⟨new, db₁⟩ g ⟨hs, h₁⟩
        cases new with
        | none => exact .inr ⟨rfl, hs, h₁⟩
        | some new =>
            obtain ⟨db₂, hc, hl, h₂⟩ := hmade db₁ hs h₁ hne
            simp only [hc, Prog.ret_bind]
            refine wp_mono (wp_and wp_updateEntry_alike wp_updateEntry_advanced) ?_
            rintro r g ⟨hr, h₃⟩
            exact .inl ⟨hl.trans hr, h₂.trans h₃⟩

theorem wp_dbChangeField_advanced {type : UInt8} {data : Bytes} :
    wp (anyContract torn) (dbChangeField env db p type data) (fun r _ =>
      Leads db (modify p (withField type data) db.entries) r.2 ∧ Advanced db 1 r.2 ∨
        r.1 = false ∧ SameTree db r.2 ∧ Advanced db 0 r.2) f :=
  wp_changeEntry_advanced (fun db => changeField_eq db p type data) (changeField_once p type data)

theorem wp_dbDeleteField_advanced {i : ℕ} :
    wp (anyContract torn) (dbDeleteField env db p i) (fun r _ =>
      Leads db (modify p (withoutField i) db.entries) r.2 ∧ Advanced db 1 r.2 ∨
        r.1 = false ∧ SameTree db r.2 ∧ Advanced db 0 r.2) f := by
  unfold dbDeleteField
  cases find p db.entries with
  | none => trivial
  | some r =>
      dsimp only
      split
      · trivial
      · exact wp_changeEntry_advanced (fun db => deleteField_eq db p i) (deleteField_once p i)

/-! ## Renaming -/

theorem wp_patchOne_advanced {newPrefix : Bytes} {k : ℕ} :
    wp (anyContract torn) (patchOne env db p newPrefix k)
      (fun r _ => r.1 = true → Advanced db 1 r.2) f := by
  have hchange : ∀ data, wp (anyContract torn) (dbChangeField env db p ftId data)
      (fun r _ => r.1 = true → Advanced db 1 r.2) f := by
    intro data
    refine wp_mono wp_dbChangeField_advanced ?_
    rintro r g (⟨-, h⟩ | ⟨hf, -⟩) hok
    · exact h
    · rw [hf] at hok
      cases hok
  unfold patchOne
  cases find p db.entries with
  | none => trivial
  | some r =>
      dsimp only
      split
      · trivial
      · split
        · trivial
        · split
          · exact hchange _
          · split
            · trivial
            · exact hchange _

/-- A rename advances the generation once for each entry that gets another identifier. -/
theorem wp_patchRecursive_advanced {newPrefix : Bytes} {k : ℕ} {F : Tree} :
    wp (anyContract torn) (patchRecursive env newPrefix k F db)
      (fun r _ => r.1 = true → Advanced db F.entries.length r.2) f := by
  induction F generalizing db f with
  | nil => exact fun _ => .refl db
  | node e ch nx ihch ihnx =>
      rw [patchRecursive, wp_bind]
      refine wp_mono wp_patchOne_advanced ?_
      rintro ⟨ok, db₁⟩ g h₁
      cases ok with
      | false => exact fun hf => absurd hf Bool.false_ne_true
      | true =>
          simp only [Bool.not_true, Bool.false_eq_true, if_false, wp_bind]
          refine wp_mono ihch ?_
          rintro ⟨ok, db₂⟩ g h₂
          cases ok with
          | false => exact fun hf => absurd hf Bool.false_ne_true
          | true =>
              simp only [Bool.not_true, Bool.false_eq_true, if_false]
              refine wp_mono ihnx fun r g h₃ hok => ?_
              have h := ((h₁ rfl).trans (h₂ rfl)).trans (h₃ hok)
              have hlen : (Forest.node e ch nx).entries.length =
                  1 + ch.entries.length + nx.entries.length := by
                simp [Forest.entries]
                omega
              rwa [hlen]

/-- What is below an entry, and the entry itself. -/
def subtree (db : Db) (p : ℕ) : List DbEntry :=
  match find p db.entries with
  | none => []
  | some (e, ch) => e :: ch.entries

theorem wp_dbRename_advanced {name : CString} :
    wp (anyContract torn) (dbRename env db p name)
      (fun r _ => r.1 = true → Advanced db (subtree db p).length r.2) f := by
  unfold dbRename subtree
  cases find p db.entries with
  | none => trivial
  | some r =>
      obtain ⟨e, ch⟩ := r
      dsimp only
      split
      · trivial
      · split
        · trivial
        · split
          · trivial
          · refine wp_mono wp_patchRecursive_advanced fun r g h hok => ?_
            have hone : (Forest.node e ch .nil).entries = e :: ch.entries := by
              simp [Forest.entries]
            rw [← hone]
            exact h hok

/-! ## Creation and deletion -/

/-- There is an entry after one has been added to a directory that exists. -/
theorem newEntry_ne_nil {dir : Option ℕ} {new : DbEntry} {F : Tree}
    (hdir : ∀ d, dir = some d → (find d F).isSome) : newEntry dir new F ≠ .nil := by
  intro hnil
  have hlen := (newEntry_entries dir new F).length_eq
  rw [hnil] at hlen
  cases dir with
  | none => simp [Forest.entries, parents] at hlen
  | some d =>
      obtain ⟨e, he, -⟩ := find_isSome.mp (hdir d rfl)
      have hpos := List.length_pos_of_mem he
      rw [List.length_append] at hlen
      simp [Forest.entries] at hlen
      omega

theorem newId_dir {name : CString} {id : Bytes} (h : newId db name = .ret id) {d : ℕ}
    (hd : db.dir = some d) : (find d db.entries).isSome := by
  rcases newId_cases h with ⟨hnone, -⟩ | ⟨d', parent, ch, g, rest, hd', hfind, -⟩
  · rw [hnone] at hd
    cases hd
  · rw [hd] at hd'
    obtain rfl := Option.some.inj hd'
    rw [hfind]
    rfl

theorem wp_dbNewEntry_advanced {name : CString} :
    wp (anyContract torn) (dbNewEntry env db name)
      (fun r _ => r.1.isSome → Advanced db 3 r.2) f := by
  unfold dbNewEntry
  rw [wp_bind]
  refine wp_mono (wp_erasedLoop_advanced _) ?_
  rintro ⟨new, db₁⟩ g h₁
  cases new with
  | none => exact fun hf => absurd hf Bool.false_ne_true
  | some new =>
      simp only [wp_bind]
      refine wp_rndBytes (lenient_any g) fun seq _ => ?_
      refine wp_newId (lenient_any g) trivial fun id hid => ?_
      obtain ⟨db₂, hsort, -⟩ := sorted_eq { db₁.changed.changed with
        entries := newEntry db₁.dir ⟨db₁.fresh, name, seqOfBytes (seq.getD 0 0) (seq.getD 1 0), new,
          false, addField [] ftId id⟩ db₁.entries, fresh := db₁.fresh + 1 }
      have h₂ := sorted_advanced hsort
      rw [if_neg (newEntry_ne_nil fun d => newId_dir hid)] at h₂
      have h : Advanced db 3 db₂ :=
        ((h₁.trans (changed_advanced db₁)).trans (changed_advanced db₁.changed)).trans h₂
      simp only [Db.changed] at hsort ⊢
      rw [hsort]
      simp only [wp_ret]
      refine wp_mono wp_writeEntry_advanced ?_
      rintro ⟨ok, db₃⟩ g h₃
      cases ok with
      | true => exact fun _ => h.trans h₃
      | false =>
          simp only [Bool.false_eq_true, if_false, wp_bind]
          exact wp_mono wp_discard_advanced fun _ _ _ hf => absurd hf Bool.false_ne_true

theorem wp_dbDeleteEntry_advanced :
    wp (anyContract torn) (dbDeleteEntry env db p) (fun r _ =>
      Advanced db (if db.entries.remove (DbEntry.is p) = .nil then 0 else 1) r.2) f := by
  unfold dbDeleteEntry
  cases find p db.entries with
  | none => trivial
  | some r =>
      obtain ⟨db₁, hsort, -⟩ :=
        sorted_eq { db with entries := db.entries.remove (DbEntry.is p) }
      have h₁ : Advanced { db with entries := db.entries.remove (DbEntry.is p) } _ db₁ :=
        sorted_advanced hsort
      simp only [wp_bind, hsort, wp_ret]
      refine wp_mono wp_discard_advanced ?_
      rintro ⟨ok, db₂⟩ g h₂
      have h : Advanced db (if db.entries.remove (DbEntry.is p) = .nil then 0 else 1) db₂ :=
        h₁.trans h₂
      cases ok <;> exact h

end Sunela.Database
