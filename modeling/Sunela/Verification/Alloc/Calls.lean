import Sunela.Verification.Alloc.Records

/-! # Records are neither erased nor overwritten

Every call keeps the lists, the tree and the storage in line, whatever fails on the way, as
long as no request frees a span that stays linked. -/

namespace Sunela.Database

open Program Storage Span Block Fields Entry Tsort

/-- The command does no harm: it erases only blocks without a record, and writes to erased
blocks unless it deletes. -/
def Safe (env : Env) (f : Flash) : Cmd → Prop
  | .erase n k => ∀ i, n ≤ i ∧ i < n + k → Free env f i
  | .write n buf => buf = zeroBlock ∨ f.cells n = erasedBlock
  | .read _ => True
  | .random _ => True

def safeContract (env : Env) (torn : Torn) : Contract Cmd Reply Flash where
  step := Step torn
  call := Safe env
  halt _ _ := True
  undef _ := False

variable {env : Env} {torn : Torn} {db : Db} {f : Flash}

theorem lenient_safe (f : Flash) : Lenient (safeContract env torn) torn f :=
  ⟨rfl, fun _ => trivial, fun _ => trivial⟩

/-- A block outside the erased list takes on other content. -/
theorem Alloc.set (h : Alloc env db f) {n : ℕ} {x : Block} (hn : n ∉ db.erased.blocks)
    (hfree : n ∈ db.deleted.blocks ∨ n ∈ db.empty.blocks → Free env (f.set n x) n) :
    Alloc env db (f.set n x) := by
  have hother : ∀ m, m ≠ n → Free env f m → Free env (f.set n x) m := fun m hm =>
    free_of_eq (Flash.set_of_ne f x hm) rfl
  refine { h with erased := fun m hm => ?_, deleted := fun m hm => ?_, empty := fun m hm => ?_ }
  · obtain ⟨h1, h2, h3⟩ := h.erased m hm
    have hne : m ≠ n := fun he => hn (he ▸ hm)
    exact ⟨h1, h2, (Flash.set_of_ne f x hne).trans h3⟩
  · refine ⟨?_, (h.deleted m hm).2⟩
    by_cases he : m = n
    · exact he ▸ hfree (.inl (he ▸ hm))
    · exact hother m he (h.deleted m hm).1
  · refine ⟨?_, (h.empty m hm).2⟩
    by_cases he : m = n
    · exact he ▸ hfree (.inr (he ▸ hm))
    · exact hother m he (h.empty m hm).1

theorem wp_discard_safe (ht : Tears env torn) (h : Alloc env db f) {n : ℕ}
    (hn : n ∉ db.erased.blocks) :
    wp (safeContract env torn) (discard env db n)
      (fun r g => Alloc env r.2 g ∧ r.2.erased = db.erased) f := by
  refine wp_discard (lenient_safe f) h.intact.2.1 (fun _ => .inl rfl)
    (fun deleted _ _ hi hb => ?_) fun x _ hx => ?_
  · have hzero : Free env (f.set n zeroBlock) n :=
      free_of_cell (.inr (.inl (Flash.set_self f n _)))
    have hset := h.set hn fun _ => hzero
    refine ⟨{ hset with intact := ⟨h.intact.1, hi, h.intact.2.2⟩, deleted := ?_ }, rfl⟩
    intro m hm
    rcases hb m hm with rfl | hm
    · exact ⟨hzero, hn⟩
    · exact hset.deleted m hm
  · refine ⟨h.set hn fun hl => ?_, rfl⟩
    have hfree : Free env f n := hl.elim (fun hl => (h.deleted n hl).1) fun hl => (h.empty n hl).1
    rcases ht _ _ _ hx with he | he | he
    · exact free_of_eq ((Flash.set_self f n x).trans he) rfl hfree
    · exact free_of_cell (.inr (.inl ((Flash.set_self f n x).trans he)))
    · exact free_of_cell (.inr (.inr (by rwa [Flash.set_self])))

theorem wp_getErasedBlock_safe (ht : Tears env torn) (h : Alloc env db f) (hs : Spare db) :
    wp (safeContract env torn) (getErasedBlock db) (fun r g => Served env db f r.1 r.2 g) f := by
  refine wp_transfer (K := requestContract env torn) (I := fun _ => True) (fun s c _ hc => ?_)
    (fun _ _ _ h => h) (fun _ _ h => h) trivial (wp_getErasedBlock ht h hs) fun _ _ _ h => h
  obtain ⟨n, k, rfl, hfree⟩ := hc
  exact ⟨hfree, fun _ _ hstep => ⟨hstep, trivial⟩⟩

/-! ## Storing an entry -/

/-- The block may be written to. -/
structure Ready (db : Db) (f : Flash) (n : ℕ) : Prop where
  cell : f.cells n = erasedBlock
  erased : n ∉ db.erased.blocks
  deleted : n ∉ db.deleted.blocks
  empty : n ∉ db.empty.blocks

theorem Handed.ready {n : ℕ} (h : Handed env db f n) : Ready db f n :=
  ⟨h.cell, h.erased, h.deleted, h.empty⟩

theorem wp_writeEntry_safe (h : Alloc env db f) {de : DbEntry} (hr : Ready db f de.block) :
    wp (safeContract env torn) (writeEntry env db de)
      (fun r g => Alloc env r.2 g ∧ r.2.erased = db.erased) f := by
  have hset : ∀ x, Alloc env db (f.set de.block x) := fun x =>
    h.set hr.erased fun hl => absurd hl (not_or.mpr ⟨hr.deleted, hr.empty⟩)
  refine wp_writeEntry (lenient_safe f) hr.cell (fun _ _ _ _ => .inr hr.cell) (fun _ => ⟨h, rfl⟩)
    (fun b _ _ _ _ => ⟨{ hset b with }, rfl⟩) fun _ x _ _ _ _ => ⟨hset x, rfl⟩

theorem wp_updateEntry_safe (ht : Tears env torn) (h : Alloc env db f) {p new : ℕ}
    (hp : (find p db.entries).isSome) (hr : Ready db f new) :
    wp (safeContract env torn) (updateEntry env db p new) (fun r g => Alloc env r.2 g) f := by
  unfold updateEntry
  obtain ⟨⟨de, ch⟩, hfind⟩ := Option.isSome_iff_exists.mp hp
  have hde := (mem_entries_of_find hfind).1
  have hold : de.block ∉ db.erased.blocks := h.entries de hde
  rw [hfind]
  have h' : Alloc env { db with entries := modify p (renewed new) db.entries } f := by
    refine { h with entries := fun e he => ?_ }
    rw [modify_entries] at he
    obtain ⟨d, hd, rfl⟩ := List.mem_map.mp he
    split
    · exact hr.erased
    · exact h.entries d hd
  simp only [wp_bind]
  refine wp_mono (wp_writeEntry_safe h' ⟨hr.cell, hr.erased, hr.deleted, hr.empty⟩) ?_
  rintro ⟨ok, db₁⟩ g ⟨hg, he⟩
  have hnew : new ∉ db₁.erased.blocks := by rw [he]; exact hr.erased
  have hold' : de.block ∉ db₁.erased.blocks := by rw [he]; exact hold
  cases ok with
  | false =>
      simp only [Bool.not_false, if_true, wp_bind]
      exact wp_mono (wp_discard_safe ht hg hnew) fun _ _ hd => hd.1
  | true =>
      simp only [Bool.not_true, Bool.false_eq_true, if_false]
      split
      · simp only [wp_bind]
        refine wp_mono (wp_discard_safe ht hg hold') ?_
        rintro ⟨done, db₂⟩ k ⟨hk, -⟩
        cases done with
        | true => exact { hk with }
        | false => exact hk
      · exact hg

theorem Alloc.retouched (h : Alloc env db f) {F : Tree}
    (hF : ∀ e ∈ F.entries, e.block ∉ db.erased.blocks) {db' : Db} (hr : Retouched F db db') :
    Alloc env db' f := by
  obtain ⟨G, g, hp, rfl⟩ := hr
  refine { h with entries := fun e he => ?_ }
  exact hF e ((Forest.entries_perm (Forest.chains_perm hp)).mem_iff.mp he)

/-- A change to an entry that leaves its block alone. -/
theorem wp_changeEntry_safe (ht : Tears env torn) (h : Alloc env db f) {p : ℕ}
    {g : DbEntry → DbEntry} {change : Db → Fw Db} (hg : ∀ e, (g e).block = e.block)
    (hptr : ∀ e, (g e).ptr = e.ptr)
    (hchange : ∀ db, ∃ db', change db = .ret db' ∧ Retouched (modify p g db.entries) db db')
    (hp : (find p db.entries).isSome)
    (hs : (∃ de ch, find p db.entries = some (de, ch) ∧ de.defer = false) → Spare db) :
    wp (safeContract env torn) (changeEntry env db p change)
      (fun r g => Alloc env r.2 g) f := by
  unfold changeEntry
  obtain ⟨⟨de, ch⟩, hfind⟩ := Option.isSome_iff_exists.mp hp
  rw [hfind]
  have hchanged : ∀ db f, Alloc env db f → ∃ db', change db = .ret db' ∧ Alloc env db' f ∧
      db'.erased = db.erased ∧ db'.deleted = db.deleted ∧ db'.empty = db.empty ∧
      ((find p db.entries).isSome → (find p db'.entries).isSome) := by
    intro db f h
    obtain ⟨db', hc, hr⟩ := hchange db
    have hal := h.retouched (fun e he => by
      rw [modify_entries] at he
      obtain ⟨d, hd, rfl⟩ := List.mem_map.mp he
      split
      · rw [hg]
        exact h.entries d hd
      · exact h.entries d hd) hr
    obtain ⟨G, gen, hperm, rfl⟩ := hr
    refine ⟨_, hc, hal, rfl, rfl, rfl, fun hf => ?_⟩
    obtain ⟨e, he, hep⟩ := find_isSome.mp hf
    have hm : (if e.is p then g e else e) ∈ (modify p g db.entries).entries := by
      rw [modify_entries]
      exact List.mem_map_of_mem he
    refine find_isSome.mpr ⟨_, (Forest.entries_perm (Forest.chains_perm hperm)).mem_iff.mpr hm, ?_⟩
    split
    · rw [hptr]
      exact hep
    · exact hep
  simp only []
  split
  · obtain ⟨db', hc, hal, -⟩ := hchanged db f h
    rw [hc]
    exact hal
  · next hd =>
      rw [wp_bind]
      refine wp_mono (wp_getErasedBlock_safe ht h (hs ⟨de, ch, hfind, by simpa using hd⟩)) ?_
      rintro ⟨new, db₁⟩ f₁ hserved
      cases new with
      | none => exact hserved.alloc
      | some new =>
          have hready := (hserved.handed new rfl).1.ready
          obtain ⟨db', hc, hal, he, hd, hem, hfind'⟩ := hchanged db₁ f₁ hserved.alloc
          simp only [hc, Prog.ret_bind]
          refine wp_updateEntry_safe ht hal (hfind' ?_) ⟨hready.cell, ?_, ?_, ?_⟩
          · rw [hserved.tree.entries]
            exact hp
          · rw [he]
            exact hready.erased
          · rw [hd]
            exact hready.deleted
          · rw [hem]
            exact hready.empty

/-! ## Calls -/

/-- A call is made on entries that are in the tree, and a new entry in a directory that has
an identifier. -/
def Call.Sane (db : Db) : Call → Prop
  | .newEntry _ => ∀ d, db.dir = some d →
      ∃ parent ch, find d db.entries = some (parent, ch) ∧ parent.fields ≠ []
  | .changeField p _ _ => (find p db.entries).isSome
  | .deleteField p i => ∃ de ch, find p db.entries = some (de, ch) ∧ i < de.fields.length
  | .deleteEntry p => (find p db.entries).isSome
  | .deferUpdate p _ => (find p db.entries).isSome
  | .updateSettings _ _ => True
  | .chdir _ => True
  | .tsort => True

/-- The call requests a block. -/
def Call.Requests (db : Db) : Call → Prop
  | .newEntry _ => True
  | .changeField p _ _ => ∃ de ch, find p db.entries = some (de, ch) ∧ de.defer = false
  | .deleteField p _ => ∃ de ch, find p db.entries = some (de, ch) ∧ de.defer = false
  | .deleteEntry _ => False
  | .deferUpdate _ defer => defer = false
  | .updateSettings _ _ => True
  | .chdir _ => False
  | .tsort => False

theorem wp_newId_safe {K : Contract Cmd Reply Flash} (hl : Lenient K torn f) {name : CString}
    {Q : Bytes → Flash → Prop} (hs : (Call.newEntry name).Sane db) (hQ : ∀ id, Q id f) :
    wp K (newId db name) Q f := by
  unfold newId
  cases hd : db.dir with
  | none => exact hQ _
  | some d =>
      obtain ⟨parent, ch, hfind, hfields⟩ := hs d hd
      simp only [hfind]
      cases hf : parent.fields with
      | nil => exact absurd hf hfields
      | cons id rest =>
          simp only []
          split
          · exact hl.halt _
          · exact hQ _

theorem wp_dbNewEntry_safe (ht : Tears env torn) (h : Alloc env db f) {name : CString}
    (hs : (Call.newEntry name).Sane db) (hspare : Spare db) :
    wp (safeContract env torn) (dbNewEntry env db name) (fun r g => Alloc env r.2 g) f := by
  unfold dbNewEntry
  rw [wp_bind]
  refine wp_mono (wp_getErasedBlock_safe ht h hspare) ?_
  rintro ⟨new, db₁⟩ f₁ hserved
  cases new with
  | none => exact hserved.alloc
  | some new =>
      have hready := (hserved.handed new rfl).1.ready
      simp only [wp_bind]
      refine wp_rndBytes (lenient_safe f₁) fun seq _ => ?_
      refine wp_newId_safe (lenient_safe f₁) (fun d hd => ?_) fun id => ?_
      · rw [hserved.tree.entries]
        exact hs d (hserved.tree.dir ▸ hd)
      · obtain ⟨db₂, hsort, hr⟩ := sorted_eq { db₁.changed.changed with
          entries := newEntry db₁.dir ⟨db₁.fresh, name, seqOfBytes (seq.getD 0 0) (seq.getD 1 0),
            new, false, addField [] ftId id⟩ db₁.entries
          fresh := db₁.fresh + 1 }
        rw [hsort]
        obtain ⟨G, gen, hperm, rfl⟩ := hr
        have hal : Alloc env { db₁ with
            entries := G, generation := gen, fresh := db₁.fresh + 1 } f₁ := by
          refine { hserved.alloc with entries := fun e he => ?_ }
          have he' := (Forest.entries_perm (Forest.chains_perm hperm)).mem_iff.mp he
          rcases mem_newEntry he' with rfl | he'
          · exact hready.erased
          · exact hserved.alloc.entries e he'
        simp only [wp_ret]
        refine wp_mono (wp_writeEntry_safe hal ⟨hready.cell, hready.erased, hready.deleted,
          hready.empty⟩) ?_
        rintro ⟨ok, db₃⟩ f₃ ⟨h₃, he₃⟩
        cases ok with
        | true => exact h₃
        | false =>
            simp only [Bool.false_eq_true, if_false, wp_bind]
            have hnew : new ∉ db₃.erased.blocks := by rw [he₃]; exact hready.erased
            exact wp_mono (wp_discard_safe ht h₃ hnew) fun _ _ hd => hd.1

theorem wp_dbDeleteEntry_safe (ht : Tears env torn) (h : Alloc env db f) {p : ℕ}
    (hp : (find p db.entries).isSome) :
    wp (safeContract env torn) (dbDeleteEntry env db p) (fun r g => Alloc env r.2 g) f := by
  unfold dbDeleteEntry
  obtain ⟨⟨de, ch⟩, hfind⟩ := Option.isSome_iff_exists.mp hp
  have hde := h.entries de (mem_entries_of_find hfind).1
  obtain ⟨db', hsort, hr⟩ := sorted_eq { db with entries := db.entries.remove (DbEntry.is p) }
  obtain ⟨G, gen, hperm, rfl⟩ := hr
  have hal : Alloc env { db with entries := G, generation := gen } f := by
    refine { h with entries := fun e he => ?_ }
    exact h.entries e
      (mem_remove ((Forest.entries_perm (Forest.chains_perm hperm)).mem_iff.mp he))
  rw [hfind]
  simp only [hsort, Prog.ret_bind, wp_bind]
  refine wp_mono (wp_discard_safe ht hal hde) ?_
  rintro ⟨ok, db₁⟩ g ⟨hg, -⟩
  cases ok with
  | true => exact { hg with }
  | false => exact hg

theorem wp_dbEntryDeferUpdate_safe (ht : Tears env torn) (h : Alloc env db f) {p : ℕ}
    {defer : Bool} (hp : (find p db.entries).isSome) (hs : defer = false → Spare db) :
    wp (safeContract env torn) (dbEntryDeferUpdate env db p defer)
      (fun r g => Alloc env r.2 g) f := by
  have hfinish : ∀ db f, Alloc env db f →
      Alloc env { db with entries := modify p (fun e => { e with defer }) db.entries } f := by
    intro db f h
    refine { h with entries := fun e he => ?_ }
    rw [modify_entries] at he
    obtain ⟨d, hd, rfl⟩ := List.mem_map.mp he
    split <;> exact h.entries d hd
  unfold dbEntryDeferUpdate
  obtain ⟨⟨de, ch⟩, hfind⟩ := Option.isSome_iff_exists.mp hp
  rw [hfind]
  cases defer with
  | true => exact hfinish db f h
  | false =>
      simp only [Bool.false_eq_true, if_false, wp_bind]
      refine wp_mono (wp_getErasedBlock_safe ht h (hs rfl)) ?_
      rintro ⟨new, db₁⟩ f₁ hserved
      cases new with
      | none => exact hserved.alloc
      | some new =>
          simp only [wp_bind]
          refine wp_mono (wp_updateEntry_safe ht hserved.alloc ?_
            (hserved.handed new rfl).1.ready) ?_
          · rw [hserved.tree.entries]
            exact hp
          · rintro ⟨ok, db₂⟩ f₂ h₂
            cases ok with
            | true => exact hfinish db₂ f₂ h₂
            | false => exact h₂

theorem wp_dbUpdateSettings_safe (ht : Tears env torn) (h : Alloc env db f) {seq : UInt16}
    {payload : Bytes} (hs : Spare db) :
    wp (safeContract env torn) (dbUpdateSettings env db seq payload)
      (fun r g => Alloc env r.2 g) f := by
  unfold dbUpdateSettings
  rw [wp_bind]
  refine wp_mono (wp_getErasedBlock_safe ht h hs) ?_
  rintro ⟨new, db₁⟩ f₁ hserved
  cases new with
  | none => exact hserved.alloc
  | some new =>
      have hready := (hserved.handed new rfl).1.ready
      have hset : ∀ x, Alloc env db₁ (f₁.set new x) := fun x =>
        hserved.alloc.set hready.erased fun hl =>
          absurd hl (not_or.mpr ⟨hready.deleted, hready.empty⟩)
      simp only [wp_bind, blockWrite]
      split
      · trivial
      split
      · trivial
      · refine wp_writePacked (lenient_safe f₁) hready.cell (fun _ _ => .inr hready.cell)
          (fun b _ => ?_) fun _ x _ _ => ?_
        · simp only [if_true]
          cases ho : (db₁.addSpecial 1).settingsBlock with
          | none =>
              refine { hset b with settings := fun n hn => ?_ }
              obtain rfl := Option.some.inj hn
              exact hready.erased
          | some old =>
              have hold : old ∉ db₁.erased.blocks := hserved.alloc.settings old ho
              have hal : Alloc env (db₁.addSpecial 1) (f₁.set new b) := { hset b with }
              simp only [wp_bind]
              refine wp_mono (wp_discard_safe ht hal hold) ?_
              rintro ⟨done, db₂⟩ f₂ ⟨h₂, he₂⟩
              have hnew : new ∉ db₂.erased.blocks := by rw [he₂]; exact hready.erased
              cases done with
              | true =>
                  refine { h₂ with settings := fun n hn => ?_ }
                  obtain rfl := Option.some.inj hn
                  exact hnew
              | false =>
                  refine { h₂ with settings := fun n hn => ?_ }
                  obtain rfl := Option.some.inj hn
                  exact hnew
        · simp only [Bool.false_eq_true, if_false, wp_bind]
          exact wp_mono (wp_discard_safe ht (hset x) hready.erased) fun _ _ hd => hd.1

/-- Every call issues only safe commands, and keeps the lists in line. -/
theorem wp_exec_safe (ht : Tears env torn) (h : Alloc env db f) {c : Call} (hc : c.Sane db)
    (hs : c.Requests db → Spare db) :
    wp (safeContract env torn) (c.exec env db) (fun r g => Alloc env r.2 g) f := by
  cases c with
  | newEntry name =>
      simp only [Call.exec, wp_bind]
      exact wp_dbNewEntry_safe ht h hc (hs trivial)
  | changeField p type data =>
      exact wp_changeEntry_safe (g := withField type data) ht h (fun _ => rfl) (fun _ => rfl)
        (fun db => changeField_eq db p type data) hc hs
  | deleteField p i =>
      obtain ⟨de, ch, hfind, hi⟩ := hc
      simp only [Call.exec, dbDeleteField, hfind, Nat.not_le.mpr hi, if_false]
      exact wp_changeEntry_safe (g := withoutField i) ht h (fun _ => rfl) (fun _ => rfl)
        (fun db => deleteField_eq db p i) (by simp [hfind]) hs
  | deleteEntry p => exact wp_dbDeleteEntry_safe ht h hc
  | deferUpdate p defer => exact wp_dbEntryDeferUpdate_safe ht h hc hs
  | updateSettings seq payload => exact wp_dbUpdateSettings_safe ht h (hs trivial)
  | chdir dir => exact { h with }
  | tsort =>
      obtain ⟨db', hsort, hr⟩ := sorted_eq db
      simp only [Call.exec, hsort, Prog.ret_bind]
      exact h.retouched h.entries hr

end Sunela.Database
