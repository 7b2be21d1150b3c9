import Sunela.Verification.Alloc.Runs

/-! # The blocks of entries

In every run, also one in which storage operations fail, what is found in the block of an
entry is a record of its own path or no record at all. -/

namespace Sunela.Database

open Program Storage Span Block Fields Entry

/-- A record in the block of the entry has the path of the entry. -/
def Holds (env : Env) (f : Flash) (e : DbEntry) : Prop :=
  e.block ≠ 0 → ∀ r q, recordIn env f e.block = some r → Storable e.fields q → r.path = q

/-- Fields are in order, and blocks belong to their entries unless changes are deferred. -/
structure Tidy (env : Env) (db : Db) (f : Flash) : Prop where
  linked : Linked db.entries ∧ ∀ e ∈ db.entries.entries, e.ptr < db.fresh
  sorted : ∀ e ∈ db.entries.entries, Sorted e.fields
  holds : ∀ e ∈ db.entries.entries, e.defer = false → Holds env f e

variable {env : Env} {torn : Torn} {db : Db} {f g : Flash}

/-! ## Steps -/

/-- Nothing is found in the storage that was not there before. -/
def NoMore (env : Env) (f g : Flash) : Prop :=
  ∀ n r, recordIn env g n = some r → recordIn env f n = some r

theorem Holds.noMore {e : DbEntry} (h : Holds env f e) (hm : NoMore env f g) : Holds env g e :=
  fun hz r q hr => h hz r q (hm _ r hr)

theorem Tidy.noMore (h : Tidy env db f) (hm : NoMore env f g) : Tidy env db g :=
  ⟨h.linked, h.sorted, fun e he hd => (h.holds e he hd).noMore hm⟩

theorem Tidy.same (h : Tidy env db f) {db' : Db} (he : db'.entries = db.entries)
    (hf : db'.fresh = db.fresh) : Tidy env db' f :=
  ⟨by rw [he, hf]; exact h.linked, by rw [he]; exact h.sorted, by rw [he]; exact h.holds⟩

theorem SameRecords.noMore (h : SameRecords env f g) : NoMore env f g := fun n r hr => by
  rwa [h.recordIn n] at hr

theorem noMore_set {n : ℕ} {x : Block} (h : ∀ r, recordIn env (f.set n x) n = some r →
    recordIn env f n = some r) : NoMore env f (f.set n x) := by
  intro m r hr
  by_cases hm : m = n
  · subst hm
    exact h r hr
  · rwa [recordIn_of_cells (Flash.set_of_ne f x hm) rfl] at hr

/-- Deleting a block, well or badly, brings in no records. -/
theorem noMore_delete {n : ℕ} {x : Block}
    (hx : x = f.cells n ∨ x = zeroBlock ∨ env.c.decrypt x = none) :
    NoMore env f (f.set n x) := by
  refine noMore_set fun r hr => ?_
  rcases hx with he | he | he
  · rwa [recordIn_of_cells (g := f.set n x) ((Flash.set_self f n x).trans he) rfl] at hr
  · rw [recordIn_of_free (free_of_cell (.inr (.inl ((Flash.set_self f n x).trans he))))] at hr
    simp at hr
  · rw [recordIn_of_free (free_of_cell (.inr (.inr (by rwa [Flash.set_self]))))] at hr
    simp at hr

theorem wp_discard_noMore (ht : Tears env torn) {n : ℕ} :
    wp (anyContract torn) (discard env db n) (fun r g => r.2.entries = db.entries ∧
      r.2.fresh = db.fresh ∧ NoMore env f g) f := by
  unfold discard
  rw [wp_bind]
  refine wp_blockDelete (lenient_any f) (fun _ => trivial) (fun _ => ?_) fun x _ hx => ?_
  · simp only [if_true]
    cases spanAdd db.deleted n 1 Nat.one_pos with
    | none => trivial
    | some deleted => exact ⟨rfl, rfl, noMore_delete (.inr (.inl rfl))⟩
  · exact ⟨rfl, rfl, noMore_delete (ht _ _ _ hx)⟩

/-- After an entry was written, well or badly, its block holds its record or none. -/
theorem wp_writeEntry_holds (ht : Tears env torn) {de : DbEntry}
    (hcell : f.cells de.block = erasedBlock) :
    wp (anyContract torn) (writeEntry env db de) (fun r g => r.2.entries = db.entries ∧
      r.2.fresh = db.fresh ∧ Holds env g de ∧
      ∀ n, n ≠ de.block → recordIn env g n = recordIn env f n) f := by
  have herased : ∀ {g : Flash}, g.cells de.block = erasedBlock → Holds env g de := by
    intro g hg _ r q hr
    rw [recordIn_of_free (free_of_cell (.inl hg))] at hr
    simp at hr
  have hother : ∀ x n, n ≠ de.block → recordIn env (f.set de.block x) n = recordIn env f n :=
    fun x n hn => recordIn_of_cells (Flash.set_of_ne f x hn) rfl
  have hpacked : ∀ b payload, encodeFields storageBlockSize de.fields = some payload →
      Packed env 4 de.seq payload b → Holds env (f.set de.block b) de := by
    intro b payload he hp _ r q hr hs
    have hbad : f.bad de.block = false := (f.set_bad de.block b) ▸ bad_of_recordIn hr
    rw [recordIn_packed he hs hp hbad] at hr
    rw [← Option.some.inj hr]
  refine wp_writeEntry (lenient_any f) hcell (fun _ _ _ _ => trivial)
    (fun _ => ⟨rfl, rfl, herased hcell, fun _ _ => rfl⟩)
    (fun b payload he _ hp => ⟨rfl, rfl, hpacked b payload he hp, hother b⟩)
    fun b x payload he hp hx => ⟨rfl, rfl, ?_, hother x⟩
  rcases ht _ _ _ hx with rfl | rfl | hdec
  · exact herased (Flash.set_self f _ _)
  · exact hpacked _ payload he hp
  · intro _ r q hr
    rw [recordIn_of_free (free_of_cell (.inr (.inr (by rwa [Flash.set_self]))))] at hr
    simp at hr

/-! ## Calls -/

theorem wp_getErasedBlock_any (ht : Tears env torn) (h : Alloc env db f) (hs : Spare db) :
    wp (anyContract torn) (getErasedBlock db) (fun r g => Served env db f r.1 r.2 g) f :=
  wp_transfer (K := requestContract env torn) (I := fun _ => True)
    (fun _ _ _ _ => ⟨trivial, fun _ _ hstep => ⟨hstep, trivial⟩⟩) (fun _ _ _ _ => trivial)
    (fun _ _ _ => trivial) trivial (wp_getErasedBlock ht h hs) fun _ _ _ h => h

theorem Tidy.served (h : Tidy env db f) {r : Option ℕ} {db' : Db} (hs : Served env db f r db' g) :
    Tidy env db' g :=
  (h.noMore hs.records.noMore).same hs.tree.entries hs.tree.fresh

/-- Change one entry, and perhaps the order of all. -/
theorem Tidy.modify (h : Tidy env db f) {p : ℕ} {g : DbEntry → DbEntry}
    (hptr : ∀ e, (g e).ptr = e.ptr) (hsorted : ∀ e, Sorted e.fields → Sorted (g e).fields)
    (hg : ∀ e ∈ db.entries.entries, e.ptr = p → (g e).defer = false → Holds env f (g e))
    {F : Tree} {generation : UInt32} (hF : F.siblings.Perm (modify p g db.entries).siblings) :
    Tidy env { db with entries := F, generation } f := by
  have hperm := Forest.entries_perm (Forest.chains_perm hF)
  have hmem : ∀ e ∈ F.entries, ∃ d ∈ db.entries.entries, e = d ∨ (d.ptr = p ∧ e = g d) := by
    intro e he
    have he' := hperm.mem_iff.mp he
    rw [modify_entries] at he'
    obtain ⟨d, hd, rfl⟩ := List.mem_map.mp he'
    refine ⟨d, hd, ?_⟩
    split
    · next hp => exact .inr ⟨is_iff.mp hp, rfl⟩
    · exact .inl rfl
  refine ⟨⟨(h.linked.1.modify hptr).perm (Forest.chains_perm hF).symm, fun e he => ?_⟩,
    fun e he => ?_, fun e he hd => ?_⟩
  · obtain ⟨d, hd, rfl | ⟨-, rfl⟩⟩ := hmem e he
    · exact h.linked.2 e hd
    · rw [hptr]
      exact h.linked.2 d hd
  · obtain ⟨d, hd, rfl | ⟨-, rfl⟩⟩ := hmem e he
    · exact h.sorted e hd
    · exact hsorted d (h.sorted d hd)
  · obtain ⟨d, hd', rfl | ⟨hp, rfl⟩⟩ := hmem e he
    · exact h.holds e hd' hd
    · exact hg d hd' hp hd

/-- What holds before an entry is stored: the others are in order, and elsewhere. -/
structure Storing (env : Env) (db : Db) (f : Flash) (p new : ℕ) : Prop where
  linked : Linked db.entries ∧ ∀ e ∈ db.entries.entries, e.ptr < db.fresh
  sorted : ∀ e ∈ db.entries.entries, Sorted e.fields
  others : ∀ e ∈ db.entries.entries, e.ptr ≠ p → e.block ≠ new ∧ (e.defer = false → Holds env f e)
  cell : f.cells new = erasedBlock

/-- Once the entry is stored, it too is in order, even if it still defers updates. -/
theorem wp_updateEntry_tidy (ht : Tears env torn) {p new : ℕ} (h : Storing env db f p new) :
    wp (anyContract torn) (updateEntry env db p new) (fun r g => Tidy env r.2 g ∧
      ∀ e ∈ r.2.entries.entries, e.ptr = p → Holds env g e) f := by
  unfold updateEntry
  cases hfind : find p db.entries with
  | none => trivial
  | some r =>
      obtain ⟨de, ch⟩ := r
      obtain ⟨hde, hp⟩ := mem_entries_of_find hfind
      have hmem : ∀ e, e ∈ (modify p (renewed new) db.entries).entries ↔
          e = renewed new de ∨ (e ∈ db.entries.entries ∧ e.ptr ≠ p) := fun e =>
        mem_modify h.linked.1 hde hp
      simp only [wp_bind]
      refine wp_mono (wp_writeEntry_holds ht h.cell) ?_
      rintro ⟨ok, db₁⟩ g ⟨he, hf, hholds, hother⟩
      have hlinked : Linked db₁.entries ∧ ∀ e ∈ db₁.entries.entries, e.ptr < db₁.fresh := by
        rw [he, hf]
        refine ⟨h.linked.1.modify fun _ => rfl, fun e hm => ?_⟩
        rcases (hmem e).mp hm with rfl | ⟨hm, -⟩
        · exact h.linked.2 de hde
        · exact h.linked.2 e hm
      have hself : ∀ e ∈ db₁.entries.entries, e.ptr = p → Holds env g e := by
        rw [he]
        intro e hm hptr
        rcases (hmem e).mp hm with rfl | ⟨-, hne⟩
        · exact hholds
        · exact absurd hptr hne
      have htidy : Tidy env db₁ g := by
        refine ⟨hlinked, fun e hm => ?_, fun e hm hd => ?_⟩
        · rw [he] at hm
          rcases (hmem e).mp hm with rfl | ⟨hm, -⟩
          · exact h.sorted de hde
          · exact h.sorted e hm
        · by_cases hptr : e.ptr = p
          · exact hself e hm hptr
          · rw [he] at hm
            rcases (hmem e).mp hm with rfl | ⟨hm, -⟩
            · exact absurd hp hptr
            · obtain ⟨hb, hown⟩ := h.others e hm hptr
              intro hz r q hr
              rw [hother _ hb] at hr
              exact hown hd hz r q hr
      have hdiscard : ∀ n (k : Bool × Db → Bool × Db), (∀ r, (k r).2.entries = r.2.entries ∧
          (k r).2.fresh = r.2.fresh) → wp (anyContract torn) (discard env db₁ n)
            (fun r g => Tidy env (k r).2 g ∧
              ∀ e ∈ (k r).2.entries.entries, e.ptr = p → Holds env g e) g := by
        intro n k hk
        refine wp_mono (wp_discard_noMore ht) ?_
        rintro r g' ⟨he', hf', hm⟩
        obtain ⟨h₁, h₂⟩ := hk r
        refine ⟨(htidy.noMore hm).same (h₁.trans he') (h₂.trans hf'), ?_⟩
        rw [h₁, he']
        exact fun e hm' hptr => (hself e hm' hptr).noMore hm
      cases ok with
      | false =>
          simp only [Bool.not_false, if_true, wp_bind]
          exact hdiscard new (fun r => (false, r.2)) fun _ => ⟨rfl, rfl⟩
      | true =>
          simp only [Bool.not_true, Bool.false_eq_true, if_false]
          split
          · simp only [wp_bind]
            refine wp_mono (hdiscard de.block (fun r => (true, if r.1 then r.2.addData (-1)
              else r.2)) fun r => ?_) fun _ _ h => h
            simp only []
            split <;> exact ⟨rfl, rfl⟩
          · exact ⟨htidy, hself⟩

/-- A request leaves an entry ready to be stored. -/
theorem Tidy.storing (h : Tidy env db f) {p new : ℕ} (hh : Handed env db f new) :
    Storing env db f p new :=
  ⟨h.linked, h.sorted, fun e he _ => ⟨hh.entries e he, h.holds e he⟩, hh.cell⟩

theorem wp_changeEntry_tidy (ht : Tears env torn) (ha : Alloc env db f) (h : Tidy env db f)
    {p : ℕ} {g : DbEntry → DbEntry} {change : Db → Fw Db} (hptr : ∀ e, (g e).ptr = e.ptr)
    (hdefer : ∀ e, (g e).defer = e.defer)
    (hsorted : ∀ e, Sorted e.fields → Sorted (g e).fields)
    (hchange : ∀ db, ∃ db', change db = .ret db' ∧ Retouched (modify p g db.entries) db db')
    (hs : (∃ de ch, find p db.entries = some (de, ch) ∧ de.defer = false) → Spare db) :
    wp (anyContract torn) (changeEntry env db p change) (fun r g => Tidy env r.2 g) f := by
  unfold changeEntry
  cases hfind : find p db.entries with
  | none => trivial
  | some r =>
      obtain ⟨de, ch⟩ := r
      obtain ⟨hde, hp⟩ := mem_entries_of_find hfind
      simp only []
      split
      · next hd =>
          obtain ⟨db', hc, G, generation, hperm, rfl⟩ := hchange db
          rw [hc]
          refine h.modify hptr hsorted (fun e he hep hnd => ?_) hperm
          rw [hdefer, h.linked.1.eq_of_ptr he hde (hep.trans hp.symm), hd] at hnd
          exact absurd hnd.symm Bool.false_ne_true
      · next hd =>
          have hnd : de.defer = false := by simpa using hd
          rw [wp_bind]
          refine wp_mono (wp_getErasedBlock_any ht ha (hs ⟨de, ch, hfind, hnd⟩)) ?_
          rintro ⟨new, db₁⟩ f₁ hserved
          have h₁ := h.served hserved
          cases new with
          | none => exact h₁
          | some new =>
              have hh := (hserved.handed new rfl).1
              obtain ⟨db₂, hc, G, generation, hperm, rfl⟩ := hchange db₁
              have hentries := Forest.entries_perm (Forest.chains_perm hperm)
              have hfind₁ : find p db₁.entries = some (de, ch) := by
                rw [hserved.tree.entries]
                exact hfind
              obtain ⟨hde₁, -⟩ := mem_entries_of_find hfind₁
              have hmem : ∀ e ∈ G.entries, e = g de ∨ (e ∈ db₁.entries.entries ∧ e.ptr ≠ p) :=
                fun e he => (mem_modify h₁.linked.1 hde₁ hp).mp (hentries.mem_iff.mp he)
              simp only [hc, Prog.ret_bind]
              refine wp_mono (wp_updateEntry_tidy ht (p := p) ⟨⟨?_, fun e he => ?_⟩,
                fun e he => ?_, fun e he hne => ?_, hh.cell⟩) fun _ _ hr => hr.1
              · exact (h₁.linked.1.modify hptr).perm (Forest.chains_perm hperm).symm
              · rcases hmem e he with rfl | ⟨he, -⟩
                · rw [hptr]
                  exact h₁.linked.2 de hde₁
                · exact h₁.linked.2 e he
              · rcases hmem e he with rfl | ⟨he, -⟩
                · exact hsorted de (h₁.sorted de hde₁)
                · exact h₁.sorted e he
              · rcases hmem e he with rfl | ⟨he, -⟩
                · exact absurd ((hptr de).trans hp) hne
                · exact ⟨hh.entries e he, h₁.holds e he⟩

theorem wp_dbNewEntry_tidy (ht : Tears env torn) (ha : Alloc env db f) (h : Tidy env db f)
    {name : CString} (hs : Spare db) :
    wp (anyContract torn) (dbNewEntry env db name) (fun r g => Tidy env r.2 g) f := by
  unfold dbNewEntry
  rw [wp_bind]
  refine wp_mono (wp_getErasedBlock_any ht ha hs) ?_
  rintro ⟨new, db₁⟩ f₁ hserved
  have h₁ := h.served hserved
  cases new with
  | none => exact h₁
  | some new =>
      have hh := (hserved.handed new rfl).1
      simp only [wp_bind]
      refine wp_rndBytes (lenient_any f₁) fun seq _ => ?_
      refine wp_newId (lenient_any f₁) trivial fun id _ => ?_
      obtain ⟨db₂, hsort, G, generation, hperm, rfl⟩ := sorted_eq { db₁.changed.changed with
        entries := newEntry db₁.dir ⟨db₁.fresh, name, seqOfBytes (seq.getD 0 0) (seq.getD 1 0),
          new, false, addField [] ftId id⟩ db₁.entries
        fresh := db₁.fresh + 1 }
      have hentries := Forest.entries_perm (Forest.chains_perm hperm)
      have hmem := fun e he => mem_newEntry (e := e) (hentries.mem_iff.mp he)
      rw [hsort]
      simp only [wp_ret]
      refine wp_mono (wp_writeEntry_holds ht hh.cell) ?_
      rintro ⟨ok, db₃⟩ g ⟨he, hf, hholds, hother⟩
      have htidy : Tidy env db₃ g := by
        refine ⟨⟨?_, fun e hm => ?_⟩, fun e hm => ?_, fun e hm hd => ?_⟩
        · rw [he]
          refine Linked.perm (Linked.newEntry h₁.linked.1 fun e he => ?_)
            (Forest.chains_perm hperm).symm
          exact Nat.ne_of_lt (h₁.linked.2 e he)
        · rw [he] at hm
          rw [hf]
          rcases hmem e hm with rfl | hm
          · exact Nat.lt_succ_self _
          · exact Nat.lt_succ_of_lt (h₁.linked.2 e hm)
        · rw [he] at hm
          rcases hmem e hm with rfl | hm
          · exact addField_sorted .nil ftId id
          · exact h₁.sorted e hm
        · rw [he] at hm
          rcases hmem e hm with rfl | hm
          · exact hholds
          · intro hz r q hr
            rw [hother _ (hh.entries e hm)] at hr
            exact h₁.holds e hm hd hz r q hr
      cases ok with
      | true => exact htidy
      | false =>
          simp only [Bool.false_eq_true, if_false, wp_bind]
          refine wp_mono (wp_discard_noMore ht) ?_
          rintro r k ⟨he', hf', hm⟩
          exact (htidy.noMore hm).same he' hf'

theorem wp_dbDeleteEntry_tidy (ht : Tears env torn) (h : Tidy env db f) {p : ℕ} :
    wp (anyContract torn) (dbDeleteEntry env db p) (fun r g => Tidy env r.2 g) f := by
  unfold dbDeleteEntry
  cases hfind : find p db.entries with
  | none => trivial
  | some r =>
      obtain ⟨de, ch⟩ := r
      obtain ⟨db', hsort, G, generation, hperm, rfl⟩ :=
        sorted_eq { db with entries := db.entries.remove (DbEntry.is p) }
      have hmem : ∀ e ∈ G.entries, e ∈ db.entries.entries := fun e he =>
        mem_remove ((Forest.entries_perm (Forest.chains_perm hperm)).mem_iff.mp he)
      have h' : Tidy env { db with entries := G, generation } f :=
        ⟨⟨(h.linked.1.remove p).perm (Forest.chains_perm hperm).symm,
          fun e he => h.linked.2 e (hmem e he)⟩, fun e he => h.sorted e (hmem e he),
          fun e he => h.holds e (hmem e he)⟩
      simp only [hsort, Prog.ret_bind, wp_bind]
      refine wp_mono (wp_discard_noMore ht) ?_
      rintro ⟨ok, db₁⟩ g ⟨he, hf, hm⟩
      cases ok with
      | true => exact (h'.noMore hm).same he hf
      | false => exact (h'.noMore hm).same he hf

theorem wp_dbEntryDeferUpdate_tidy (ht : Tears env torn) (ha : Alloc env db f)
    (h : Tidy env db f) {p : ℕ} {defer : Bool} (hs : defer = false → Spare db) :
    wp (anyContract torn) (dbEntryDeferUpdate env db p defer) (fun r g => Tidy env r.2 g) f := by
  unfold dbEntryDeferUpdate
  cases hfind : find p db.entries with
  | none => trivial
  | some r =>
      cases defer with
      | true =>
          exact h.modify (g := fun e => { e with defer := true }) (fun _ => rfl) (fun _ h => h)
            (fun _ _ _ hd => absurd hd.symm Bool.false_ne_true) (List.Perm.refl _)
      | false =>
          simp only [Bool.false_eq_true, if_false, wp_bind]
          refine wp_mono (wp_getErasedBlock_any ht ha (hs rfl)) ?_
          rintro ⟨new, db₁⟩ f₁ hserved
          have h₁ := h.served hserved
          cases new with
          | none => exact h₁
          | some new =>
              simp only [wp_bind]
              refine wp_mono (wp_updateEntry_tidy ht
                (h₁.storing (p := p) (hserved.handed new rfl).1)) ?_
              rintro ⟨ok, db₂⟩ g ⟨h₂, hself⟩
              cases ok with
              | true =>
                  exact h₂.modify (g := fun e => { e with defer := false }) (fun _ => rfl)
                    (fun _ h => h) (fun e he hep _ => hself e he hep) (List.Perm.refl _)
              | false => exact h₂

theorem wp_dbUpdateSettings_tidy (ht : Tears env torn) (ha : Alloc env db f)
    (h : Tidy env db f) {seq : UInt16} {payload : Bytes} (hs : Spare db) :
    wp (anyContract torn) (dbUpdateSettings env db seq payload)
      (fun r g => Tidy env r.2 g) f := by
  unfold dbUpdateSettings
  rw [wp_bind]
  refine wp_mono (wp_getErasedBlock_any ht ha hs) ?_
  rintro ⟨new, db₁⟩ f₁ hserved
  have h₁ := h.served hserved
  cases new with
  | none => exact h₁
  | some new =>
      have hh := (hserved.handed new rfl).1
      have hset : ∀ x, Tidy env db₁ (f₁.set new x) := fun x =>
        ⟨h₁.linked, h₁.sorted, fun e he hd hz r q hr =>
          h₁.holds e he hd hz r q (by
            rwa [recordIn_of_cells (Flash.set_of_ne f₁ x (hh.entries e he)) rfl] at hr)⟩
      have hdiscard : ∀ {db f n} (k : Bool × Db → Bool × Db), Tidy env db f →
          (∀ r, (k r).2.entries = r.2.entries ∧ (k r).2.fresh = r.2.fresh) →
          wp (anyContract torn) (discard env db n) (fun r g => Tidy env (k r).2 g) f := by
        intro db f n k h hk
        refine wp_mono (wp_discard_noMore ht) ?_
        rintro r g ⟨he, hf, hm⟩
        exact (h.noMore hm).same ((hk r).1.trans he) ((hk r).2.trans hf)
      simp only [wp_bind, blockWrite]
      split
      · trivial
      split
      · trivial
      · refine wp_writePacked (lenient_any f₁) hh.cell (fun _ _ => trivial) (fun b _ => ?_)
          fun _ x _ _ => ?_
        · have hb : Tidy env (db₁.addSpecial 1) (f₁.set new b) := (hset b).same rfl rfl
          simp only [if_true]
          cases (db₁.addSpecial 1).settingsBlock with
          | none => exact hb.same rfl rfl
          | some old =>
              simp only [wp_bind]
              refine hdiscard (fun r => (true, { (if r.1 then r.2.addSpecial (-1) else r.2) with
                settingsBlock := some new })) hb fun r => ?_
              simp only []
              split <;> exact ⟨rfl, rfl⟩
        · simp only [Bool.false_eq_true, if_false, wp_bind]
          exact hdiscard (fun r => (false, r.2)) (hset x) fun _ => ⟨rfl, rfl⟩

theorem wp_exec_tidy (ht : Tears env torn) (ha : Alloc env db f) (h : Tidy env db f) {c : Call}
    (hs : c.Requests db → Spare db) :
    wp (anyContract torn) (c.exec env db) (fun r g => Tidy env r.2 g) f := by
  cases c with
  | newEntry name =>
      simp only [Call.exec, wp_bind]
      exact wp_dbNewEntry_tidy ht ha h (hs trivial)
  | changeField p type data =>
      exact wp_changeEntry_tidy (g := withField type data) ht ha h (fun _ => rfl) (fun _ => rfl)
        (fun _ he => setField_sorted he type data) (fun db => changeField_eq db p type data) hs
  | deleteField p i =>
      simp only [Call.exec, dbDeleteField]
      split
      · trivial
      · split
        · trivial
        · exact wp_changeEntry_tidy (g := withoutField i) ht ha h (fun _ => rfl) (fun _ => rfl)
            (fun e he => List.Pairwise.sublist (List.eraseIdx_sublist e.fields i) he)
            (fun db => deleteField_eq db p i) hs
  | deleteEntry p => exact wp_dbDeleteEntry_tidy ht h
  | deferUpdate p defer => exact wp_dbEntryDeferUpdate_tidy ht ha h hs
  | updateSettings seq payload => exact wp_dbUpdateSettings_tidy ht ha h (hs trivial)
  | chdir dir => exact h.same rfl rfl
  | tsort =>
      obtain ⟨db', hsort, G, generation, hperm, rfl⟩ := sorted_eq db
      have hmem : ∀ e ∈ G.entries, e ∈ db.entries.entries := fun e he =>
        (Forest.entries_perm (Forest.chains_perm hperm)).mem_iff.mp he
      simp only [Call.exec, hsort, Prog.ret_bind]
      exact ⟨⟨h.linked.1.perm (Forest.chains_perm hperm).symm,
        fun e he => h.linked.2 e (hmem e he)⟩, fun e he => h.sorted e (hmem e he),
        fun e he => h.holds e (hmem e he)⟩

/-! ## Runs -/

/-- The database is tidy right after it has been opened. -/
theorem Opened.tidy (h : Opened env f db) : Tidy env db f := by
  have hshown : ∀ e ∈ db.entries.entries, e.block = 0 ∧ Sorted e.fields ∨
      ∃ r, recordIn env f e.block = some r ∧ Storable e.fields r.path := by
    intro e he
    obtain ⟨q, hq, hl⟩ := look_of_mem h.distinct he
    rw [h.look q hq] at hl
    rcases opened_cases hl with ⟨r, hn, hs⟩ | ⟨-, -, hs⟩
    · right
      obtain ⟨hr, -⟩ := newest_mem hn
      have hrec := (mem_records.mp hr).2
      have hb : e.block = r.block := by
        have hb' := congrArg Prod.fst hs
        rwa [fixShown_block] at hb'
      have hfields : e.fields = (fixShown (isParent (records env f) q) r.shown).2.2 :=
        congrArg (fun s => s.2.2) hs
      refine ⟨r, hb ▸ hrec, ?_⟩
      rw [hfields]
      exact Storable.fixShown (s := r.shown) (recordIn_storable hrec) _
    · left
      obtain ⟨hb, -, hf⟩ := Prod.mk.inj hs |>.imp_right Prod.mk.inj
      exact ⟨hb, hf ▸ addField_sorted .nil ftDir []⟩
  refine ⟨⟨h.linked, fun e he => (h.handles e he).1⟩, fun e he => ?_, fun e he _ hz r q hr hs => ?_⟩
  · rcases hshown e he with ⟨-, hs⟩ | ⟨r, -, hs⟩
    · exact hs
    · exact hs.sorted
  · rcases hshown e he with ⟨hb, -⟩ | ⟨r', hr', hs'⟩
    · exact absurd hb hz
    · obtain rfl := Option.some.inj (hr.symm.trans hr')
      exact hs'.path_unique hs

theorem reachable_tidy (ht : Tears env torn) {s t : State} (ho : Opens env s)
    (hr : Reachable (Step torn) env Careful s t) : Tidy env t.db t.flash := by
  induction hr with
  | start => exact ho.opened.tidy
  | next run h ends ih =>
      have hw := wp_returns (K := anyContract torn)
        (wp_exec_tidy ht (reachable_alloc ht ho run) ih h.2) ends
      exact hw

end Sunela.Database
