import Sunela.Verification.PowerLoss.Blocks

/-! # Power loss while an entry is updated

The new record is complete before the old one is deleted, and both have the same path, so
whatever is left on storage shows the entry either as it was or as it was to be. -/

namespace Sunela.Database

open Program Storage Span Block Fields Entry

/-- A contract under which `I` holds after a power loss at any point. -/
def crashContract (torn : Torn) (I : Flash → Prop) : Contract Cmd Reply Flash where
  step := Step torn
  call s c := I s ∧ ∀ t, CutShort torn s c t → I t
  halt _ := I
  undef _ := False

/-- Compared with `f`, the storage `g` has the same records of other paths than `q`. Those of
`q` are old or have the fields `fs`, and there is one. -/
structure Survives (env : Env) (q : Path) (fs : List DbField) (f g : Flash) : Prop where
  others : ∀ n r, r.path ≠ q → (recordIn env g n = some r ↔ recordIn env f n = some r)
  own : ∀ r ∈ records env g, r.path = q → r ∈ records env f ∨ r.fields = fs
  exists_own : ∃ r ∈ records env g, r.path = q

variable {env : Env} {torn : Torn} {db : Db} {f g : Flash} {q : Path} {fs : List DbField}

/-! ## What is shown -/

/-- The records of another path are the same, in the same order. -/
theorem Survives.filter_eq (h : Survives env q fs f g) {q' : Path} (hq : q' ≠ q) :
    (records env g).filter (fun r => r.path = q') =
      (records env f).filter fun r => r.path = q' := by
  unfold records
  rw [List.filter_filterMap, List.filter_filterMap]
  apply List.filterMap_congr
  intro n _
  apply Option.ext
  intro r
  simp only [Option.filter_eq_some_iff, decide_eq_true_eq]
  constructor
  · rintro ⟨hr, hp⟩
    exact ⟨(h.others n r (hp ▸ hq)).mp hr, hp⟩
  · rintro ⟨hr, hp⟩
    exact ⟨(h.others n r (hp ▸ hq)).mpr hr, hp⟩

theorem Survives.exists_path (h : Survives env q fs f g) {r₀ : Record}
    (hr₀ : r₀ ∈ records env f) (hq : r₀.path = q) (P : Path → Prop) :
    (∃ r ∈ records env g, P r.path) ↔ ∃ r ∈ records env f, P r.path := by
  constructor
  · rintro ⟨r, hr, hP⟩
    by_cases hp : r.path = q
    · exact ⟨r₀, hr₀, by rw [hq, ← hp]; exact hP⟩
    · obtain ⟨hm, hrec⟩ := mem_records.mp hr
      exact ⟨r, mem_records.mpr ⟨hm, (h.others _ r hp).mp hrec⟩, hP⟩
  · rintro ⟨r, hr, hP⟩
    by_cases hp : r.path = q
    · obtain ⟨r', hr', hp'⟩ := h.exists_own
      exact ⟨r', hr', by rw [hp', ← hp]; exact hP⟩
    · obtain ⟨hm, hrec⟩ := mem_records.mp hr
      exact ⟨r, mem_records.mpr ⟨hm, (h.others _ r hp).mpr hrec⟩, hP⟩

/-- All other entries are shown as before, and the entry itself in one of two ways. -/
theorem Survives.opened (h : Survives env q fs f g) {r₀ : Record} (hr₀ : r₀ ∈ records env f)
    (hq : r₀.path = q) (honly : ∀ r ∈ records env f, r.path = q → r = r₀) :
    (∀ q', q' ≠ q → opened (records env g) q' = opened (records env f) q') ∧
    (opened (records env g) q = opened (records env f) q ∨ ∃ block seq,
      opened (records env g) q =
        some (fixShown (isParent (records env f) q) (block, seq, fs))) := by
  have hreaches : ∀ q', reaches (records env g) q' = reaches (records env f) q' := by
    intro q'
    have he := h.exists_path hr₀ hq fun p => q' <+: p
    rw [Bool.eq_iff_iff]
    simpa [reaches, List.any_eq_true] using he
  have hparent : ∀ q', isParent (records env g) q' = isParent (records env f) q' := by
    intro q'
    have he := h.exists_path hr₀ hq fun p => q' <+: p ∧ q' ≠ p
    rw [Bool.eq_iff_iff]
    simpa [isParent, List.any_eq_true] using he
  constructor
  · intro q' hne
    unfold Database.opened scanned newest
    rw [h.filter_eq hne, hreaches, hparent]
  · have hold : newest (records env f) q = some r₀ := by
      cases hn : newest (records env f) q with
      | none => exact absurd hq (newest_eq_none.mp hn r₀ hr₀)
      | some r =>
          obtain ⟨hr, hp⟩ := newest_mem hn
          rw [honly r hr hp]
    cases hn : newest (records env g) q with
    | none =>
        obtain ⟨r, hr, hp⟩ := h.exists_own
        exact absurd hp (newest_eq_none.mp hn r hr)
    | some r =>
        obtain ⟨hr, hp⟩ := newest_mem hn
        unfold Database.opened scanned
        simp only [hn, hold, hparent, Option.map_some]
        rcases h.own r hr hp with hr' | hf
        · rw [honly r hr' hp]
          exact .inl rfl
        · exact .inr ⟨r.block, r.seq, by rw [← hf]; rfl⟩

/-! ## One block changes -/

/-- Before the first write the records are all the same. -/
theorem survives_of_same (fs : List DbField) {r₀ : Record} (hr₀ : r₀ ∈ records env f)
    (hq : r₀.path = q) (h : SameRecords env f g) : Survives env q fs f g := by
  have hrecords : records env g = records env f :=
    List.filterMap_congr fun n _ => h.recordIn n
  refine ⟨fun n r _ => by rw [h.recordIn n], fun r hr _ => .inl (hrecords ▸ hr), ?_⟩
  exact ⟨r₀, hrecords ▸ hr₀, hq⟩

/-- A block without a record of another path takes on other content. -/
theorem Survives.set (h : Survives env q fs f g) {n : ℕ} {x : Block}
    (hn : ∀ r, recordIn env g n = some r → r.path = q)
    (hx : ∀ r, recordIn env (g.set n x) n = some r →
      recordIn env g n = some r ∨ (r.path = q ∧ r.fields = fs))
    (hsome : ∃ r ∈ records env (g.set n x), r.path = q) :
    Survives env q fs f (g.set n x) := by
  have hother : ∀ m, m ≠ n → recordIn env (g.set n x) m = recordIn env g m := fun m hm =>
    recordIn_of_cells (Flash.set_of_ne g x hm) rfl
  refine ⟨fun m r hp => ?_, fun r hr hp => ?_, hsome⟩
  · rw [← h.others m r hp]
    by_cases hm : m = n
    · subst hm
      constructor
      · intro hr
        rcases hx r hr with hr' | ⟨hp', -⟩
        · exact hr'
        · exact absurd hp' hp
      · intro hr
        exact absurd (hn r hr) hp
    · rw [hother m hm]
  · obtain ⟨hm, hrec⟩ := mem_records.mp hr
    by_cases hb : r.block = n
    · rw [hb] at hrec
      rcases hx r hrec with hr' | ⟨-, hf⟩
      · exact h.own r (mem_records.mpr ⟨hm, by rw [hb]; exact hr'⟩) hp
      · exact .inr hf
    · rw [hother _ hb] at hrec
      exact h.own r (mem_records.mpr ⟨hm, hrec⟩) hp

theorem lenient_crash {I : Flash → Prop} (h : I f) : Lenient (crashContract torn I) torn f :=
  ⟨rfl, fun _ => h, fun _ => ⟨h, fun _ hcut => by cases hcut⟩⟩

/-- A block is deleted where all that can be found in it afterwards is allowed. -/
theorem wp_discard_crash (ht : Tears env torn) {I : Flash → Prop} {n : ℕ}
    (hi : db.deleted.Intact) (hI : I f)
    (hx : ∀ x, x = f.cells n ∨ x = zeroBlock ∨ env.c.decrypt x = none → I (f.set n x)) :
    wp (crashContract torn I) (discard env db n) (fun _ g => I g) f := by
  refine wp_discard (lenient_crash hI) hi (fun _ => ⟨hI, fun t hcut => ?_⟩)
    (fun _ _ _ _ _ => hx _ (.inr (.inl rfl))) fun x _ htorn => hx x (ht _ _ _ htorn)
  cases hcut with
  | write _ _ x htorn =>
      rw [program_zeroBlock] at htorn
      exact hx x (ht _ _ _ htorn)

/-- The request before the first write changes no records. -/
theorem wp_getErasedBlock_crash (ht : Tears env torn) {I : Flash → Prop} (h : Alloc env db f)
    (hs : Spare db) (hI : ∀ g, SameRecords env f g → I g) :
    wp (crashContract torn I) (getErasedBlock db) (fun r g => Served env db f r.1 r.2 g) f := by
  refine wp_transfer (K := requestContract env torn) (I := SameRecords env f)
    (fun s c hs hc => ?_) (fun _ s hs _ => hI s hs) (fun _ _ hu => hu) (.refl env f)
    (wp_getErasedBlock ht h hs) fun _ _ _ h => h
  obtain ⟨n, k, rfl, hfree⟩ := hc
  refine ⟨⟨hI s hs, fun t hcut => hI t ?_⟩, fun r t hstep => ⟨hstep, ?_⟩⟩
  · cases hcut with
    | erase _ _ x hx => exact hs.trans (sameRecords_setRange hfree fun i => ht _ _ _ (hx i))
  · cases hstep with
    | erase => exact hs.trans (sameRecords_setRange hfree fun _ => .inr (.inl rfl))
    | eraseFail _ _ x hx => exact hs.trans (sameRecords_setRange hfree fun i => ht _ _ _ (hx i))

/-! ## The update -/

/-- What is known when the update starts to write: the block of the entry holds a record of
its path or none, and there is a record of the path. -/
structure Updating (env : Env) (q : Path) (f : Flash) (de : DbEntry) (new : ℕ) (r₀ : Record) :
    Prop where
  fields : Storable de.fields q
  old : de.block ≠ 0 → ∀ r, recordIn env f de.block = some r → r.path = q
  cell : f.cells new = erasedBlock
  bad : f.bad new = false
  mem : new ∈ dbBlocks env
  ne : de.block ≠ new
  record : r₀ ∈ records env f ∧ r₀.path = q

theorem wp_updateEntry_survives (ht : Tears env torn) {p new : ℕ} {de : DbEntry} {ch : Tree}
    {r₀ : Record} (hfind : find p db.entries = some (de, ch)) (hi : db.deleted.Intact)
    (h : Updating env q f de new r₀) :
    wp (crashContract torn (Survives env q de.fields f)) (updateEntry env db p new)
      (fun _ g => Survives env q de.fields f g) f := by
  have hsame := survives_of_same de.fields h.record.1 h.record.2 (.refl env f)
  have hnone : ∀ {g : Flash} {x : Block}, (x = erasedBlock ∨ x = zeroBlock ∨
      env.c.decrypt x = none) → recordIn env (g.set new x) new = none := fun hx =>
    recordIn_of_free (free_of_cell (by rwa [Flash.set_self]))
  have hfree : recordIn env f new = none := recordIn_of_free (free_of_cell (.inl h.cell))
  have hne : r₀.block ≠ new := by
    intro he
    have hr := (mem_records.mp h.record.1).2
    rw [he, hfree] at hr
    simp at hr
  -- what the write of the new record can leave
  have hwrite : ∀ b payload x, encodeFields storageBlockSize de.fields = some payload →
      Packed env 4 (renewed new de).seq payload b →
      (x = erasedBlock ∨ x = b ∨ env.c.decrypt x = none) →
      Survives env q de.fields f (f.set new x) ∧
        ∀ r, recordIn env (f.set new x) new = some r → r.path = q ∧ r.fields = de.fields := by
    intro b payload x he hp hx
    have hrec : ∀ r, recordIn env (f.set new x) new = some r →
        r.path = q ∧ r.fields = de.fields := by
      intro r hr
      rcases hx with hx | rfl | hx
      · rw [hnone (.inl hx)] at hr
        simp at hr
      · rw [recordIn_packed he h.fields hp h.bad] at hr
        obtain rfl := Option.some.inj hr
        exact ⟨rfl, rfl⟩
      · rw [hnone (.inr (.inr hx))] at hr
        simp at hr
    exact ⟨hsame.set (by simp [hfree]) (fun r hr => .inr (hrec r hr))
      ⟨r₀, mem_records_set h.record.1 hne, h.record.2⟩, hrec⟩
  -- the block that was written to is given up again
  have hgiveUp : ∀ (db : Db) (g : Flash), db.deleted.Intact → Survives env q de.fields f g →
      r₀ ∈ records env g → (∀ r, recordIn env g new = some r → r.path = q) →
      wp (crashContract torn (Survives env q de.fields f)) (discard env db new)
        (fun _ g => Survives env q de.fields f g) g := by
    intro db g hi hg hr hnew
    refine wp_discard_crash ht hi hg fun x hx => ?_
    exact hg.set hnew (fun r hrec => .inl (noMore_delete hx _ r hrec))
      ⟨r₀, mem_records_set hr hne, h.record.2⟩
  unfold updateEntry
  rw [hfind]
  simp only [wp_bind]
  refine wp_writeEntry (lenient_crash hsame) h.cell
    (fun b payload he hp => ⟨hsame, fun t hcut => ?_⟩) (fun _ => ?_)
    (fun b payload he _ hp => ?_) fun b x payload he hp hx => ?_
  · cases hcut with
    | write _ _ x hx =>
        have hx' : torn erasedBlock b x := by
          rw [show f.cells (renewed new de).block = erasedBlock from h.cell,
            program_erasedBlock] at hx
          exact hx
        exact (hwrite b payload x he hp (ht _ _ _ hx')).1
  · simp only [Bool.not_false, if_true, wp_bind]
    exact hgiveUp _ f hi hsame h.record.1 (by simp [hfree])
  · obtain ⟨hg, hrec⟩ := hwrite b payload b he hp (.inr (.inl rfl))
    simp only [Bool.not_true, Bool.false_eq_true, if_false]
    split
    · next hz =>
        have hnew : recordIn env (f.set new b) new =
            some ⟨new, (renewed new de).seq, q, de.fields⟩ :=
          recordIn_packed he h.fields hp h.bad
        have hmem : (⟨new, (renewed new de).seq, q, de.fields⟩ : Record) ∈
            records env (f.set new b) := mem_records.mpr ⟨h.mem, hnew⟩
        simp only [wp_bind]
        refine wp_mono (wp_discard_crash ht hi hg fun x hx => ?_) fun _ _ h => h
        refine hg.set (fun r hr => ?_) (fun r hr => .inl (noMore_delete hx _ r hr))
          ⟨_, mem_records_set hmem h.ne.symm, rfl⟩
        rw [recordIn_of_cells (f := f) (Flash.set_of_ne f b h.ne) rfl] at hr
        exact h.old hz r hr
    · exact hg
  · obtain ⟨hg, hrec⟩ := hwrite b payload x he hp (ht _ _ _ hx)
    simp only [Bool.not_false, if_true, wp_bind]
    exact hgiveUp _ _ hi hg (mem_records_set h.record.1 hne) fun r hr => (hrec r hr).1

theorem wp_changeEntry_survives (ht : Tears env torn) (ha : Alloc env db f) (h : Tidy env db f)
    {p : ℕ} {de : DbEntry} {ch : Tree} {g : DbEntry → DbEntry} {change : Db → Fw Db}
    {r₀ : Record} (hfind : find p db.entries = some (de, ch)) (hnd : de.defer = false)
    (hptr : ∀ e, (g e).ptr = e.ptr) (hblock : (g de).block = de.block)
    (hchange : ∀ db, ∃ db', change db = .ret db' ∧ Retouched (modify p g db.entries) db db')
    (hs : Spare db) (hold : Storable de.fields q) (hnew : Storable (g de).fields q)
    (hr₀ : r₀ ∈ records env f ∧ r₀.path = q) :
    wp (crashContract torn (Survives env q (g de).fields f)) (changeEntry env db p change)
      (fun _ t => Survives env q (g de).fields f t) f := by
  unfold changeEntry
  rw [hfind]
  simp only [hnd, Bool.false_eq_true, if_false]
  rw [wp_bind]
  refine wp_mono (wp_getErasedBlock_crash ht ha hs fun t ht =>
    survives_of_same _ hr₀.1 hr₀.2 ht) ?_
  rintro ⟨new, db₁⟩ f₁ hserved
  cases new with
  | none => exact survives_of_same _ hr₀.1 hr₀.2 hserved.records
  | some new =>
      obtain ⟨hh, rfl⟩ := hserved.handed new rfl
      obtain ⟨hde, -⟩ := mem_entries_of_find hfind
      have hfind₁ : find p db₁.entries = some (de, ch) := by
        rw [hserved.tree.entries]
        exact hfind
      obtain ⟨db₂, hc, G, generation, hperm, rfl⟩ := hchange db₁
      obtain ⟨ch', hfind'⟩ := find_modify (h.served hserved).linked.1 hptr hperm hfind₁
      simp only [hc, Prog.ret_bind]
      refine wp_updateEntry_survives ht hfind' hserved.alloc.intact.2.1
        { fields := hnew
          old := fun hz r hr => ?_
          cell := hh.cell
          bad := hh.bad
          mem := hh.mem
          ne := ?_
          record := hr₀ }
      · rw [hblock] at hz hr
        exact h.holds de hde hnd hz r q hr hold
      · rw [hblock]
        exact hh.entries de (hserved.tree.entries ▸ hde)

/-- The calls that change a field other than the identifier of the entry `p`, with the fields
they find and leave. -/
inductive Edits (p : ℕ) (fs : List DbField) : Call → List DbField → Prop where
  | change (type data) (h : type ≠ ftEnd ∧ type ≠ ftId) :
      Edits p fs (.changeField p type data) (setField fs type data)
  | delete (i) (hi : i < fs.length) (h : fs[i].type ≠ ftId) :
      Edits p fs (.deleteField p i) (fs.eraseIdx i)

theorem wp_edit_survives (ht : Tears env torn) (ha : Alloc env db f) (h : Tidy env db f)
    {p : ℕ} {de : DbEntry} {ch : Tree} {c : Call} {r₀ : Record}
    (hfind : find p db.entries = some (de, ch)) (hnd : de.defer = false)
    (hc : Edits p de.fields c fs) (hs : Spare db) (hold : Storable de.fields q)
    (hr₀ : r₀ ∈ records env f ∧ r₀.path = q) :
    wp (crashContract torn (Survives env q fs f)) (c.exec env db)
      (fun _ t => Survives env q fs f t) f := by
  cases hc with
  | change type data hne =>
      exact wp_changeEntry_survives (g := withField type data) ht ha h hfind hnd (fun _ => rfl)
        rfl (fun db => changeField_eq db p type data) hs hold (hold.setField hne data) hr₀
  | delete i hi hne =>
      have hpos : 0 < i := by
        rcases Nat.eq_zero_or_pos i with rfl | hpos
        · obtain ⟨id, rest, hfs, hid, -⟩ := hold.id
          simp only [hfs, List.getElem_cons_zero] at hne
          exact absurd hid hne
        · exact hpos
      simp only [Call.exec, dbDeleteField, hfind, Nat.not_le.mpr hi, if_false]
      exact wp_changeEntry_survives (g := withoutField i) ht ha h hfind hnd (fun _ => rfl)
        rfl (fun db => deleteField_eq db p i) hs hold (hold.eraseIdx hpos) hr₀

/-- In any run, if the power fails while an entry is updated that has one record, the entry is
shown as before or with its new fields when the database is opened again, and all other
entries are shown as before. -/
theorem edit_survives (ht : Tears env torn) {s₀ s : State} (ho : Opens env s₀)
    (hr : Reachable (Step torn) env Careful s₀ s) {p : ℕ} {de : DbEntry} {ch : Tree} {id : DbField}
    {rest : List DbField} (hfind : find p s.db.entries = some (de, ch)) (hnd : de.defer = false)
    (hfields : de.fields = id :: rest) (hid : id.type = ftId)
    (hone : ∃ r₀ ∈ records env s.flash, ∀ r ∈ records env s.flash,
      r.path = splitPath id.data ↔ r = r₀)
    {c : Call} {fs : List DbField} (hc : Careful s c) (hedit : Edits p de.fields c fs)
    {g : Flash} (hcrash : Crashes (Step torn) (CutShort torn) (c.exec env s.db) s.flash g) :
    ∀ st, ∃ u v, dbOpen env st s.flash = some u ∧ dbOpen env st g = some v ∧
      (∀ q, q ≠ [] → q ≠ splitPath id.data → look v.1.entries q = look u.1.entries q) ∧
      (look v.1.entries (splitPath id.data) = look u.1.entries (splitPath id.data) ∨
        ∃ block seq, look v.1.entries (splitPath id.data) =
          some (fixShown (isParent (records env s.flash) (splitPath id.data))
            (block, seq, fs))) := by
  intro st
  have htidy := reachable_tidy ht ho hr
  have hold : Storable de.fields (splitPath id.data) :=
    ⟨htidy.sorted de (mem_entries_of_find hfind).1, id, rest, hfields, hid, rfl⟩
  have hrequests : c.Requests s.db := by
    cases hedit <;> exact ⟨de, ch, hfind, hnd⟩
  obtain ⟨r₀, hr₀, honly⟩ := hone
  have hpath := (honly r₀ hr₀).mpr rfl
  have hsurvives : Survives env (splitPath id.data) fs s.flash g :=
    wp_crashes (K := crashContract torn (Survives env (splitPath id.data) fs s.flash))
      (fun _ _ h => h) (fun _ _ h => h) (fun _ h => h.elim) (fun _ _ h => h)
      (wp_edit_survives ht (reachable_alloc ht ho hr) htidy hfind hnd hedit (hc.2 hrequests)
        hold ⟨hr₀, hpath⟩) hcrash
  obtain ⟨hother, hself⟩ := hsurvives.opened hr₀ hpath fun r hm hp => (honly r hm).mp hp
  obtain ⟨u, hu, hou⟩ := dbOpen_opened env st s.flash
  obtain ⟨v, hv, hov⟩ := dbOpen_opened env st g
  refine ⟨u, v, hu, hv, fun q hq hne => ?_, ?_⟩
  · rw [hou.look q hq, hov.look q hq, hother q hne]
  · rw [hou.look _ (splitPath_ne_nil _), hov.look _ (splitPath_ne_nil _)]
    exact hself

/-! ## An entry that loses its identifier -/

/-- An account with one more field, and erased blocks. -/
def noted : State :=
  afterOpen (plainEnv 16) (plainFlash [(8, 1, [nameField [97], .ofData 3 [120]])])

/-- The storage once the identifier of the account has been deleted. -/
def unnamed : State := afterCall (plainEnv 16) (.deleteField 0 0) noted

/-- When the identifier is deleted, the entry is shown neither as before nor without it. -/
theorem unnamed_lost :
    Opens (plainEnv 16) noted ∧
    (find 0 noted.db.entries).map (fun r => (r.1.defer, r.1.fields)) =
      some (false, [nameField [97], .ofData 3 [120]]) ∧
    (records (plainEnv 16) noted.flash).map Record.path = [splitPath [97]] ∧
    Crashes Works (CutShort fun _ _ _ => False)
      ((Call.deleteField 0 0).exec (plainEnv 16) noted.db) noted.flash unnamed.flash ∧
    (afterOpen (plainEnv 16) unnamed.flash).db.entries = .nil := by
  have hresult : callResult (plainEnv 16) (.deleteField 0 0) noted = some true := by
    decide +kernel
  refine ⟨opens_afterOpen _ _, by decide +kernel, by decide +kernel,
    ⟨_, _, ends_afterCall _ _ _ hresult, .inl rfl⟩, by decide +kernel⟩

/-- The note is deleted, and power fails at the end. -/
theorem edit_survives_noted :
    ∃ u v, dbOpen (plainEnv 16) ⟨false, false, false, 0⟩ noted.flash = some u ∧
      dbOpen (plainEnv 16) ⟨false, false, false, 0⟩
        (afterCall (plainEnv 16) (.deleteField 0 1) noted).flash = some v ∧
      (∀ q, q ≠ [] → q ≠ splitPath [97] → look v.1.entries q = look u.1.entries q) ∧
      (look v.1.entries (splitPath [97]) = look u.1.entries (splitPath [97]) ∨
        ∃ block seq, look v.1.entries (splitPath [97]) =
          some (fixShown (isParent (records (plainEnv 16) noted.flash) (splitPath [97]))
            (block, seq, [nameField [97]]))) := by
  have ht : Tears (plainEnv 16) fun _ _ _ => False := fun _ _ _ h => h.elim
  have hresult : callResult (plainEnv 16) (.deleteField 0 1) noted = some true := by
    decide +kernel
  have hone : ∃ r₀ ∈ records (plainEnv 16) noted.flash, ∀ r ∈ records (plainEnv 16) noted.flash,
      r.path = splitPath [97] ↔ r = r₀ := by
    have hrecords : records (plainEnv 16) noted.flash =
        [⟨8, 1, splitPath [97], [nameField [97], .ofData 3 [120]]⟩] := by decide +kernel
    rw [hrecords]
    simp
  have hfind : find 0 noted.db.entries = some (⟨0, ⟨[97], by decide⟩, 1, 8, false,
      [nameField [97], .ofData 3 [120]]⟩, .nil) := by decide +kernel
  have hcareful : Careful noted (.deleteField 0 1) :=
    ⟨⟨_, _, hfind, by decide⟩, fun _ => .inl (by decide +kernel)⟩
  exact edit_survives ht (opens_afterOpen (plainEnv 16) _) .start hfind rfl rfl rfl hone hcareful
    (.delete 1 (by decide) (by decide)) ⟨_, _, ends_afterCall _ _ _ hresult, .inl rfl⟩ _

end Sunela.Database
