import Sunela.Verification.Alloc.Accounting
import Sunela.Verification.Names.Alike

/-! # Entries and their records

While nothing fails, every entry has one record, and every record belongs to an entry. The
record is that of the entry unless its updates are deferred. -/

namespace Sunela.Database

open Program Storage Span Block Fields Entry

/-- Entries and records correspond, and the records of the entries in `sync` are up to date. -/
structure Filed (env : Env) (db : Db) (f : Flash) (sync : DbEntry → Prop) : Prop where
  linked : Linked db.entries ∧ ∀ e ∈ db.entries.entries, e.ptr < db.fresh
  intact : db.erased.Intact
  erased : ∀ n ∈ db.erased.blocks, n ∈ dbBlocks env ∧ f.bad n = false ∧ f.cells n = erasedBlock
  nodup : db.erased.blocks.Nodup
  storable : ∀ e ∈ db.entries.entries, ∃ q, Storable e.fields q
  blocks : ∀ d ∈ db.entries.entries, ∀ e ∈ db.entries.entries, d.block = e.block → d = e
  stored : ∀ e ∈ db.entries.entries, ∃ r ∈ records env f, r.block = e.block ∧
    (sync e → r.fields = e.fields)
  covered : ∀ r ∈ records env f, ∃ e ∈ db.entries.entries, e.block = r.block

/-- Between two operations, only the records of entries that defer updates are out of date. -/
abbrev Filing (env : Env) (db : Db) (f : Flash) : Prop :=
  Filed env db f fun e => e.defer = false

variable {env : Env} {db : Db} {f g : Flash} {sync sync' : DbEntry → Prop}

/-! ## Steps -/

theorem Filed.mono (h : Filed env db f sync)
    (hs : ∀ e ∈ db.entries.entries, sync' e → sync e) : Filed env db f sync' :=
  { h with
    stored := fun e he => by
      obtain ⟨r, hr, hb, hf⟩ := h.stored e he
      exact ⟨r, hr, hb, fun hse => hf (hs e he hse)⟩ }

/-- Neither the lists nor the counts matter, except for the list of erased blocks. -/
theorem Filed.same (h : Filed env db f sync) {db' : Db} (he : db'.entries = db.entries)
    (hf : db'.fresh = db.fresh) (hr : db'.erased = db.erased) : Filed env db' f sync := by
  obtain ⟨h1, h2, h3, h4, h5, h6, h7, h8⟩ := h
  refine ⟨?_, ?_, ?_, ?_, ?_, ?_, ?_, ?_⟩ <;> simp only [he, hf, hr] <;> assumption

theorem Filed.popped (h : Filed env db f sync) {n : ℕ} {rest : Spans} (hi : rest.Intact)
    (hb : db.erased.blocks = n :: rest.blocks) : Filed env (db.popped n rest) f sync :=
  { h with
    intact := hi
    erased := fun m hm => h.erased m (by rw [hb]; exact List.mem_cons_of_mem _ hm)
    nodup := by
      have hn := h.nodup
      rw [hb] at hn
      exact (List.nodup_cons.mp hn).2 }

theorem Filed.retouched (h : Filed env db f sync) {F : Tree} {generation : UInt32}
    (hF : F.siblings.Perm db.entries.siblings) :
    Filed env { db with entries := F, generation } f sync := by
  have hmem : ∀ e, e ∈ F.entries ↔ e ∈ db.entries.entries := fun e =>
    (Forest.entries_perm (Forest.chains_perm hF)).mem_iff
  refine { h with
    linked := ⟨h.linked.1.perm (Forest.chains_perm hF).symm,
      fun e he => h.linked.2 e ((hmem e).mp he)⟩
    storable := fun e he => h.storable e ((hmem e).mp he)
    blocks := fun d hd e he => h.blocks d ((hmem d).mp hd) e ((hmem e).mp he)
    stored := fun e he => h.stored e ((hmem e).mp he)
    covered := fun r hr => ?_ }
  obtain ⟨e, he, hb⟩ := h.covered r hr
  exact ⟨e, (hmem e).mpr he, hb⟩

/-- An entry changes, but not its place on storage. -/
theorem Filed.modify (h : Filed env db f sync) {p : ℕ} {g : DbEntry → DbEntry}
    (hptr : ∀ e, (g e).ptr = e.ptr) (hblock : ∀ e, (g e).block = e.block)
    (hstorable : ∀ e q, Storable e.fields q → ∃ q', Storable (g e).fields q')
    (hother : ∀ e ∈ db.entries.entries, e.ptr ≠ p → sync' e → sync e)
    (hself : ∀ e ∈ db.entries.entries, e.ptr = p → sync' (g e) →
      sync e ∧ (g e).fields = e.fields) :
    Filed env { db with entries := modify p g db.entries } f sync' := by
  have hmem : ∀ e ∈ (Entry.modify p g db.entries).entries, ∃ d ∈ db.entries.entries,
      (d.ptr ≠ p ∧ e = d) ∨ (d.ptr = p ∧ e = g d) := by
    intro e he
    rw [modify_entries] at he
    obtain ⟨d, hd, rfl⟩ := List.mem_map.mp he
    refine ⟨d, hd, ?_⟩
    split
    · next hp => exact .inr ⟨is_iff.mp hp, rfl⟩
    · next hp => exact .inl ⟨fun hq => hp (is_iff.mpr hq), rfl⟩
  refine { h with
    linked := ⟨h.linked.1.modify hptr, fun e he => ?_⟩
    storable := fun e he => ?_
    blocks := fun d hd e he hb => ?_
    stored := fun e he => ?_
    covered := fun r hr => ?_ }
  · obtain ⟨d, hd, ⟨-, rfl⟩ | ⟨-, rfl⟩⟩ := hmem e he
    · exact h.linked.2 e hd
    · rw [hptr]
      exact h.linked.2 d hd
  · obtain ⟨d, hd, ⟨-, rfl⟩ | ⟨-, rfl⟩⟩ := hmem e he
    · exact h.storable e hd
    · obtain ⟨q, hq⟩ := h.storable d hd
      exact hstorable d q hq
  · obtain ⟨d', hd', hd⟩ := hmem d hd
    obtain ⟨e', he', he⟩ := hmem e he
    have heq : d' = e' := by
      refine h.blocks d' hd' e' he' ?_
      rcases hd with ⟨-, rfl⟩ | ⟨-, rfl⟩ <;> rcases he with ⟨-, rfl⟩ | ⟨-, rfl⟩ <;>
        simpa only [hblock] using hb
    subst heq
    rcases hd with ⟨hne, rfl⟩ | ⟨hp, rfl⟩ <;> rcases he with ⟨hne', rfl⟩ | ⟨hp', rfl⟩
    · rfl
    · exact absurd hp' hne
    · exact absurd hp hne'
    · rfl
  · obtain ⟨d, hd, ⟨hne, rfl⟩ | ⟨hp, rfl⟩⟩ := hmem e he
    · obtain ⟨r, hr, hb, hf⟩ := h.stored e hd
      exact ⟨r, hr, hb, fun hs => hf (hother e hd hne hs)⟩
    · obtain ⟨r, hr, hb, hf⟩ := h.stored d hd
      refine ⟨r, hr, hb.trans (hblock d).symm, fun hs => ?_⟩
      obtain ⟨hs', hfields⟩ := hself d hd hp hs
      rw [hfields]
      exact hf hs'
  · obtain ⟨e, he, hb⟩ := h.covered r hr
    refine ⟨if e.is p then g e else e, ?_, ?_⟩
    · rw [modify_entries]
      exact List.mem_map_of_mem he
    · split
      · rw [hblock]
        exact hb
      · exact hb

/-! ## Storing an entry -/

/-- A request that succeeds has taken the first erased block. -/
theorem wp_getErasedBlock_taken (hi : db.erased.Intact) :
    wp (anyContract fun _ _ _ => False) (getErasedBlock db) (fun r g => ∀ n, r.1 = some n →
      g = f ∧ ∃ rest, r.2 = db.popped n rest ∧ rest.Intact ∧
        db.erased.blocks = n :: rest.blocks) f := by
  refine wp_of_returns ?_
  rintro ⟨r, db'⟩ g hr n rfl
  obtain ⟨hg, rest, -, hdb, hrest, hb⟩ := getErasedBlock_some hi hr
  exact ⟨hg, rest, hdb, hrest, hb⟩

theorem wp_discard_works {n : ℕ} :
    wp (anyContract fun _ _ _ => False) (discard env db n) (fun r g => r.1 = true ∧
      g = f.set n zeroBlock ∧ r.2.entries = db.entries ∧ r.2.fresh = db.fresh ∧
      r.2.erased = db.erased) f := by
  unfold discard
  rw [wp_bind]
  refine wp_blockDelete (lenient_works f) (fun _ => trivial) (fun _ => ?_) fun _ _ hx => hx.elim
  simp only [if_true]
  cases spanAdd db.deleted n 1 Nat.one_pos with
  | none => trivial
  | some deleted => exact ⟨rfl, rfl, rfl, rfl, rfl⟩

/-- The block has just been taken from the list of erased ones. -/
structure Taken (env : Env) (db : Db) (f : Flash) (n : ℕ) : Prop where
  mem : n ∈ dbBlocks env
  bad : f.bad n = false
  cell : f.cells n = erasedBlock
  erased : n ∉ db.erased.blocks

theorem Filed.taken (h : Filed env db f sync) {n : ℕ} {rest : Spans}
    (hb : db.erased.blocks = n :: rest.blocks) : Taken env (db.popped n rest) f n := by
  obtain ⟨hm, hbad, hcell⟩ := h.erased n (by simp [hb])
  have hn := h.nodup
  rw [hb] at hn
  exact ⟨hm, hbad, hcell, (List.nodup_cons.mp hn).1⟩

/-- A new record takes the place of the old one, or the place of none for a new entry. -/
theorem Filed.record (h : Filed env db f sync) {new : ℕ} (ht : Taken env db f new)
    (de : DbEntry) {q : Path} {payload : Bytes} {b : Block} (hs : Storable de.fields q)
    (he : encodeFields storageBlockSize de.fields = some payload)
    (hp : Packed env 4 de.seq payload b) :
    recordIn env (f.set new b) new = some ⟨new, de.seq, q, de.fields⟩ ∧
    (∀ r, r ∈ records env (f.set new b) ↔
      r ∈ records env f ∨ r = ⟨new, de.seq, q, de.fields⟩) ∧
    (∀ e ∈ db.entries.entries, e.block ≠ new) ∧
    ∀ n ∈ db.erased.blocks, (f.set new b).cells n = erasedBlock := by
  have hnone : recordIn env f new = none := recordIn_of_free (free_of_cell (.inl ht.cell))
  have hrec := recordIn_packed he hs hp ht.bad
  refine ⟨hrec, fun r => mem_records_set_packed ht.mem hnone hrec, fun e hm hb => ?_,
    fun n hn => ?_⟩
  · obtain ⟨r, hr, hrb, -⟩ := h.stored e hm
    have hr := (mem_records.mp hr).2
    rw [hrb, hb, hnone] at hr
    simp at hr
  · have hne : n ≠ new := fun heq => ht.erased (heq ▸ hn)
    rw [Flash.set_of_ne f b hne]
    exact (h.erased n hn).2.2

/-- An entry whose fields have changed is stored. -/
theorem wp_updateEntry_filed {p new : ℕ} (ht : Taken env db f new)
    (h : Filed env db f fun e => e.ptr ≠ p ∧ e.defer = false) :
    wp (anyContract fun _ _ _ => False) (updateEntry env db p new) (fun r g => r.1 = true →
      Filed env r.2 g (fun e => e.ptr = p ∨ e.defer = false) ∧
        Alike r.2.entries db.entries) f := by
  unfold updateEntry
  cases hfind : find p db.entries with
  | none => trivial
  | some res =>
      obtain ⟨de, ch⟩ := res
      obtain ⟨hde, hptr⟩ := mem_entries_of_find hfind
      obtain ⟨q, hq⟩ := h.storable de hde
      have hmem : ∀ e, e ∈ (modify p (renewed new) db.entries).entries ↔
          e = renewed new de ∨ (e ∈ db.entries.entries ∧ e.ptr ≠ p) := fun e =>
        mem_modify h.linked.1 hde hptr
      simp only [wp_bind]
      refine wp_writeEntry (lenient_works f) ht.cell (fun _ _ _ _ => trivial) (fun _ => ?_)
        (fun b payload he _ hp => ?_) fun _ _ _ _ _ hx => hx.elim
      · simp only [Bool.not_false, if_true, wp_bind]
        exact wp_mono wp_discard_works fun _ _ _ hf => absurd hf Bool.false_ne_true
      · obtain ⟨hrec, hrecords, hne, herased⟩ :=
          h.record ht (renewed new de) hq he hp
        obtain ⟨r₀, hr₀, hblock₀, -⟩ := h.stored de hde
        have hz : de.block ≠ 0 := hblock₀ ▸ (records_valid env f r₀ hr₀).1
        simp only [Bool.not_true, Bool.false_eq_true, if_false, ne_eq, hz, not_false_eq_true,
          if_true, wp_bind]
        refine wp_mono wp_discard_works ?_
        rintro ⟨done, db₂⟩ g ⟨rfl, rfl, hentries, hfresh, her⟩ -
        have hentries' : db₂.entries = modify p (renewed new) db.entries := hentries
        have her' : db₂.erased = db.erased := her
        have hfresh' : db₂.fresh = db.fresh := hfresh
        have hleft : ∀ r, r ∈ records env ((f.set new b).set de.block zeroBlock) ↔
            (r ∈ records env f ∧ r.block ≠ de.block) ∨
              r = ⟨new, (renewed new de).seq, q, de.fields⟩ := by
          intro r
          rw [mem_records_set_zero, hrecords r]
          constructor
          · rintro ⟨hr | hr, hb⟩
            · exact .inl ⟨hr, hb⟩
            · exact .inr hr
          · rintro (⟨hr, hb⟩ | rfl)
            · exact ⟨.inl hr, hb⟩
            · exact ⟨.inr rfl, (hne de hde).symm⟩
        have hfiled : Filed env { db with entries := modify p (renewed new) db.entries }
            ((f.set new b).set de.block zeroBlock)
            (fun e => e.ptr = p ∨ e.defer = false) := by
          refine { h with
            linked := ⟨h.linked.1.modify fun _ => rfl, fun e he => ?_⟩
            erased := fun n hn => ?_
            storable := fun e he => ?_
            blocks := fun d hd e he hb => ?_
            stored := fun e he => ?_
            covered := fun r hr => ?_ }
          · rcases (hmem e).mp he with rfl | ⟨he, -⟩
            · exact h.linked.2 de hde
            · exact h.linked.2 e he
          · obtain ⟨h1, h2, -⟩ := h.erased n hn
            refine ⟨h1, h2, ?_⟩
            have hne : n ≠ de.block := by
              rintro rfl
              have hr := (mem_records.mp hr₀).2
              rw [hblock₀, recordIn_of_free (free_of_cell (.inl (h.erased _ hn).2.2))] at hr
              simp at hr
            rw [Flash.set_of_ne _ _ hne]
            exact herased n hn
          · rcases (hmem e).mp he with rfl | ⟨he, -⟩
            · exact ⟨q, hq⟩
            · exact h.storable e he
          · rcases (hmem d).mp hd with rfl | ⟨hd, hdp⟩ <;>
              rcases (hmem e).mp he with rfl | ⟨he, hep⟩
            · rfl
            · exact absurd hb.symm (hne e he)
            · exact absurd hb (hne d hd)
            · exact h.blocks d hd e he hb
          · rcases (hmem e).mp he with rfl | ⟨he, hep⟩
            · exact ⟨_, (hleft _).mpr (.inr rfl), rfl, fun _ => rfl⟩
            · obtain ⟨r, hr, hb, hf⟩ := h.stored e he
              refine ⟨r, (hleft r).mpr (.inl ⟨hr, fun heq => hep ?_⟩), hb, fun hs => ?_⟩
              · rw [h.blocks e he de hde (hb.symm.trans heq)]
                exact hptr
              · exact hf ⟨hep, hs.resolve_left hep⟩
          · rcases (hleft r).mp hr with ⟨hr, hb⟩ | rfl
            · obtain ⟨e, he, heb⟩ := h.covered r hr
              refine ⟨e, (hmem e).mpr (.inr ⟨he, fun hep => hb ?_⟩), heb⟩
              rw [← heb, h.linked.1.eq_of_ptr he hde (hep.trans hptr.symm)]
            · exact ⟨_, (hmem _).mpr (.inl rfl), rfl⟩
        refine ⟨(hfiled.same hentries' hfresh' her').same rfl rfl rfl, ?_⟩
        simp only [if_true]
        show Alike db₂.entries db.entries
        rw [hentries']
        exact Alike.of_face (g := renewed new) (fun _ => rfl) p

/-! ## Calls -/

/-- After a success, entries and records correspond, and the tree is like `X`. -/
def Succeeds (env : Env) (X : Tree) (r : Bool × Db) (g : Flash) : Prop :=
  r.1 = true → Filing env r.2 g ∧ Alike r.2.entries X

theorem wp_changeEntry_filed (h : Filing env db f) {p : ℕ} {g : DbEntry → DbEntry}
    {change : Db → Fw Db} (hptr : ∀ e, (g e).ptr = e.ptr) (hblock : ∀ e, (g e).block = e.block)
    (hdefer : ∀ e, (g e).defer = e.defer)
    (hstorable : ∀ e q, Storable e.fields q → ∃ q', Storable (g e).fields q')
    (hchange : ∀ db, ∃ db', change db = .ret db' ∧ Retouched (modify p g db.entries) db db') :
    wp (anyContract fun _ _ _ => False) (changeEntry env db p change)
      (Succeeds env (modify p g db.entries)) f := by
  unfold changeEntry
  cases hfind : find p db.entries with
  | none => trivial
  | some r =>
      obtain ⟨de, ch⟩ := r
      obtain ⟨hde, hp⟩ := mem_entries_of_find hfind
      simp only []
      split
      · next hd =>
          obtain ⟨db', hc, G, generation, hperm, rfl⟩ := hchange db
          rw [hc]
          intro _
          have hm : Filing env { db with entries := modify p g db.entries } f := by
            refine h.modify hptr hblock hstorable (fun _ _ _ hs => hs) fun e he hep hnd => ?_
            rw [hdefer, h.linked.1.eq_of_ptr he hde (hep.trans hp.symm), hd] at hnd
            exact absurd hnd.symm Bool.false_ne_true
          exact ⟨(hm.retouched hperm).same rfl rfl rfl, Alike.of_siblings hperm⟩
      · rw [wp_bind]
        refine wp_mono (wp_getErasedBlock_taken h.intact) ?_
        rintro ⟨new, db₁⟩ f₁ htaken
        cases new with
        | none => exact fun hf => absurd hf Bool.false_ne_true
        | some new =>
            obtain ⟨rfl, rest, rfl, hi, hb⟩ := htaken new rfl
            obtain ⟨db₂, hc, G, generation, hperm, rfl⟩ := hchange (db.popped new rest)
            have hm : Filed env { db.popped new rest with entries := modify p g db.entries } f₁
                fun e => e.ptr ≠ p ∧ e.defer = false := by
              refine (h.popped hi hb).modify hptr hblock hstorable (fun _ _ _ hs => hs.2)
                fun e he hep hs => ?_
              rw [hptr] at hs
              exact absurd hep hs.1
            simp only [hc, Prog.ret_bind]
            refine wp_mono (wp_updateEntry_filed ?_ ((hm.retouched hperm).same rfl rfl rfl)) ?_
            · obtain ⟨h1, h2, h3, h4⟩ := h.taken hb
              exact ⟨h1, h2, h3, h4⟩
            · rintro r g hr hok
              obtain ⟨hfiled, halike⟩ := hr hok
              exact ⟨hfiled.mono fun e _ hs => .inr hs,
                halike.trans (Alike.of_siblings hperm)⟩

theorem wp_dbEntryDeferUpdate_filed (h : Filing env db f) {p : ℕ} {defer : Bool} :
    wp (anyContract fun _ _ _ => False) (dbEntryDeferUpdate env db p defer)
      (Succeeds env (modify p (fun e => { e with defer }) db.entries)) f := by
  unfold dbEntryDeferUpdate
  cases hfind : find p db.entries with
  | none => trivial
  | some r =>
      cases defer with
      | true =>
          intro _
          refine ⟨Filed.modify (g := fun e => { e with defer := true }) h (fun _ => rfl)
            (fun _ => rfl) (fun _ q hq => ⟨q, hq⟩) (fun _ _ _ hs => hs)
            fun _ _ _ hs => absurd hs.symm Bool.false_ne_true, .refl _⟩
      | false =>
          simp only [Bool.false_eq_true, if_false, wp_bind]
          refine wp_mono (wp_getErasedBlock_taken h.intact) ?_
          rintro ⟨new, db₁⟩ f₁ htaken
          cases new with
          | none => exact fun hf => absurd hf Bool.false_ne_true
          | some new =>
              obtain ⟨rfl, rest, rfl, hi, hb⟩ := htaken new rfl
              simp only [wp_bind]
              refine wp_mono (wp_updateEntry_filed (p := p) (h.taken hb)
                ((h.popped hi hb).mono fun _ _ hs => hs.2)) ?_
              rintro ⟨ok, db₂⟩ g hr
              cases ok with
              | false => exact fun hf => absurd hf Bool.false_ne_true
              | true =>
                  obtain ⟨hfiled, halike⟩ := hr rfl
                  intro _
                  refine ⟨Filed.modify (g := fun e => { e with defer := false }) hfiled
                    (fun _ => rfl) (fun _ => rfl) (fun _ q hq => ⟨q, hq⟩)
                    (fun _ _ _ hs => .inr hs) fun _ _ hep _ => ⟨.inl hep, rfl⟩, ?_⟩
                  exact halike.modify fun e e' he => by simp_all [face]

/-- A new entry is stored in the first erased block. -/
theorem wp_dbNewEntry_filed (h : Filing env db f) {name : CString} :
    wp (anyContract fun _ _ _ => False) (dbNewEntry env db name) (fun r g =>
      r.1.isSome = true → Filing env r.2 g ∧ ∃ id, newId db name = .ret id ∧
        Alike r.2.entries (newEntry db.dir
          ⟨db.fresh, name, 0, 0, false, addField [] ftId id⟩ db.entries)) f := by
  unfold dbNewEntry
  rw [wp_bind]
  refine wp_mono (wp_getErasedBlock_taken h.intact) ?_
  rintro ⟨new, db₁⟩ f₁ htaken
  cases new with
  | none => exact fun hf => absurd hf Bool.false_ne_true
  | some new =>
      obtain ⟨rfl, rest, rfl, hi, hb⟩ := htaken new rfl
      simp only [wp_bind]
      refine wp_rndBytes (lenient_works f₁) fun seq _ => ?_
      refine wp_newId (lenient_works f₁) trivial fun id hid => ?_
      have hid : newId db name = .ret id := hid
      have ht : Taken env (db.popped new rest) f₁ new := h.taken hb
      let de : DbEntry := ⟨db.fresh, name, seqOfBytes (seq.getD 0 0) (seq.getD 1 0), new, false,
        addField [] ftId id⟩
      have hde : Storable de.fields (splitPath (DbField.ofData ftId id).data) :=
        ⟨addField_sorted .nil ftId id, _, [], rfl, rfl, rfl⟩
      obtain ⟨c, hc⟩ := h.linked.1.parents_eq fun d (hd : db.dir = some d) => by
        rcases newId_cases hid with ⟨hn, -⟩ | ⟨d', _, _, _, _, hd', hfind, -⟩
        · rw [hn] at hd
          simp at hd
        · obtain rfl := Option.some.inj (hd'.symm.trans hd)
          simp [hfind]
      obtain ⟨db₂, hsort, G, generation, hperm, rfl⟩ := sorted_eq
        { (db.popped new rest).changed.changed with
          entries := newEntry db.dir de db.entries, fresh := db.fresh + 1 }
      have hmem : ∀ e, e ∈ G.entries ↔ e = de ∨ e ∈ db.entries.entries := by
        intro e
        rw [(Forest.entries_perm (Forest.chains_perm hperm)).mem_iff,
          (newEntry_entries db.dir de db.entries).mem_iff, hc, List.mem_append, or_comm]
        simp
      simp only [Db.popped, Db.changed] at hsort ⊢
      rw [hsort]
      simp only [wp_ret]
      refine wp_writeEntry (lenient_works f₁) ht.cell (fun _ _ _ _ => trivial) (fun _ => ?_)
        (fun b payload he _ hp => ?_) fun _ _ _ _ _ hx => hx.elim
      · simp only [Bool.false_eq_true, if_false, wp_bind]
        exact wp_mono wp_discard_works fun _ _ _ hf => absurd hf Bool.false_ne_true
      · obtain ⟨hrec, hrecords, hne, herased⟩ := (h.popped hi hb).record ht de hde he hp
        have hfiled : Filing env { db.popped new rest with
            entries := G, generation, fresh := db.fresh + 1 } (f₁.set new b) := by
          refine { h.popped hi hb with
            linked := ⟨?_, fun e he => ?_⟩
            erased := fun n hn => ?_
            storable := fun e he => ?_
            blocks := fun d hd e he hb => ?_
            stored := fun e he => ?_
            covered := fun r hr => ?_ }
          · refine Linked.perm (Linked.newEntry h.linked.1 fun e he => ?_)
              (Forest.chains_perm hperm).symm
            exact Nat.ne_of_lt (h.linked.2 e he)
          · rcases (hmem e).mp he with rfl | he
            · exact Nat.lt_succ_self _
            · exact Nat.lt_succ_of_lt (h.linked.2 e he)
          · obtain ⟨h1, h2, -⟩ := (h.popped hi hb).erased n hn
            exact ⟨h1, h2, herased n hn⟩
          · rcases (hmem e).mp he with rfl | he
            · exact ⟨_, hde⟩
            · exact h.storable e he
          · rcases (hmem d).mp hd with rfl | hd <;> rcases (hmem e).mp he with rfl | he
            · rfl
            · exact absurd hb.symm (hne e he)
            · exact absurd hb (hne d hd)
            · exact h.blocks d hd e he hb
          · rcases (hmem e).mp he with rfl | he
            · exact ⟨_, (hrecords _).mpr (.inr rfl), rfl, fun _ => rfl⟩
            · obtain ⟨r, hr, hb, hf⟩ := h.stored e he
              exact ⟨r, (hrecords r).mpr (.inl hr), hb, hf⟩
          · rcases (hrecords r).mp hr with hr | rfl
            · obtain ⟨e, he, heb⟩ := h.covered r hr
              exact ⟨e, (hmem e).mpr (.inr he), heb⟩
            · exact ⟨de, (hmem de).mpr (.inl rfl), rfl⟩
        exact fun _ => ⟨hfiled.same rfl rfl rfl, id, hid,
          (Alike.of_siblings hperm).trans (Alike.newEntry rfl)⟩

theorem wp_dbDeleteEntry_filed (h : Filing env db f) {p : ℕ} {de : DbEntry}
    (hfind : find p db.entries = some (de, .nil)) :
    wp (anyContract fun _ _ _ => False) (dbDeleteEntry env db p)
      (Succeeds env (db.entries.remove (DbEntry.is p))) f := by
  unfold dbDeleteEntry
  obtain ⟨hde, hp⟩ := mem_entries_of_find hfind
  obtain ⟨db', hsort, G, generation, hperm, rfl⟩ :=
    sorted_eq { db with entries := db.entries.remove (DbEntry.is p) }
  have hmem : ∀ e, e ∈ G.entries ↔ e ∈ db.entries.entries ∧ e.ptr ≠ p := by
    intro e
    rw [(Forest.entries_perm (Forest.chains_perm hperm)).mem_iff,
      entries_remove_leaf h.linked.1 hfind, List.mem_filter]
    simp [DbEntry.is]
  obtain ⟨r₀, hr₀, hb₀, -⟩ := h.stored de hde
  rw [hfind]
  simp only [hsort, Prog.ret_bind, wp_bind]
  refine wp_mono wp_discard_works ?_
  rintro ⟨done, db₂⟩ g ⟨rfl, rfl, hentries, hfresh, her⟩ -
  have hfiled : Filing env { db with entries := G } (f.set de.block zeroBlock) := by
    refine { h with
      linked := ⟨?_, fun e he => h.linked.2 e ((hmem e).mp he).1⟩
      erased := fun n hn => ?_
      storable := fun e he => h.storable e ((hmem e).mp he).1
      blocks := fun d hd e he => h.blocks d ((hmem d).mp hd).1 e ((hmem e).mp he).1
      stored := fun e he => ?_
      covered := fun r hr => ?_ }
    · exact (h.linked.1.remove p).perm (Forest.chains_perm hperm).symm
    · obtain ⟨h1, h2, h3⟩ := h.erased n hn
      refine ⟨h1, h2, ?_⟩
      have hne : n ≠ de.block := by
        rintro rfl
        have hr := (mem_records.mp hr₀).2
        rw [hb₀, recordIn_of_free (free_of_cell (.inl h3))] at hr
        simp at hr
      rw [Flash.set_of_ne f _ hne]
      exact h3
    · obtain ⟨he, hep⟩ := (hmem e).mp he
      obtain ⟨r, hr, hb, hf⟩ := h.stored e he
      refine ⟨r, mem_records_set_zero.mpr ⟨hr, fun heq => hep ?_⟩, hb, hf⟩
      rw [h.blocks e he de hde (hb.symm.trans heq)]
      exact hp
    · obtain ⟨hr, hb⟩ := mem_records_set_zero.mp hr
      obtain ⟨e, he, heb⟩ := h.covered r hr
      refine ⟨e, (hmem e).mpr ⟨he, fun hep => hb ?_⟩, heb⟩
      rw [← heb, h.linked.1.eq_of_ptr he hde (hep.trans hp.symm)]
  refine ⟨(hfiled.same hentries hfresh her).same rfl rfl rfl, ?_⟩
  simp only [if_true]
  show Alike db₂.entries (db.entries.remove (DbEntry.is p))
  rw [show db₂.entries = G from hentries]
  exact Alike.of_siblings hperm

end Sunela.Database
