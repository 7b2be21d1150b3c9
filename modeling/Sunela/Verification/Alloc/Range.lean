import Sunela.Verification.Alloc.Runs

/-! # Block numbers stay in range

Entries and lists refer only to blocks of the database, whatever happens to the lists. The
exception is a directory without a record of its own: it has block 0, and cannot be deleted. -/

namespace Sunela.Database

open Program Storage Span Block Fields Entry

variable {env : Env} {torn : Torn} {db : Db} {f : Flash}

/-- The blocks that entries and lists refer to are blocks of the database. -/
structure Ranged (env : Env) (db : Db) : Prop where
  intact : db.erased.Intact
  erased : ∀ n ∈ db.erased.blocks, n ∈ dbBlocks env
  deleted : ∀ n ∈ db.deleted.blocks, n ∈ dbBlocks env
  empty : ∀ n ∈ db.empty.blocks, n ∈ dbBlocks env
  entries : ∀ e ∈ db.entries.entries, e.block = 0 ∨ e.block ∈ dbBlocks env
  settings : ∀ n, db.settingsBlock = some n → n ∈ dbBlocks env

/-- The command leaves alone what is not in a block of the database. -/
def OnBlocks (env : Env) : Cmd → Prop
  | .write n _ => n ∈ dbBlocks env
  | .erase n k => ∀ i, n ≤ i ∧ i < n + k → i ∈ dbBlocks env
  | .read n => n ∈ dbBlocks env
  | .random _ => True

/-- Only blocks of the database are touched, and no assertion on a block number fails. -/
def rangeContract (env : Env) (torn : Torn) : Contract Cmd Reply Flash where
  step := Step torn
  call _ := OnBlocks env
  halt i _ := i ≠ blockRange
  undef _ := True

/-! ## Blocks -/

theorem other_site : 0 ≠ blockRange := by decide

theorem wp_rndBytes_range {k : ℕ} {Q : Bytes → Flash → Prop} (hQ : ∀ r, Q r f) :
    wp (rangeContract env torn) (rndBytes k) Q f := by
  refine ⟨trivial, fun r t hstep => ?_⟩
  cases hstep with
  | random => exact hQ _

theorem wp_storageWriteBlock_range {n : ℕ} {b : Block} (hn : n ∈ dbBlocks env)
    {Q : Bool → Flash → Prop} (hQ : ∀ ok g, Q ok g) :
    wp (rangeContract env torn) (storageWriteBlock b n) Q f :=
  ⟨hn, fun r t _ => hQ r t⟩

theorem wp_blockDelete_range {n : ℕ} (hn : n ∈ dbBlocks env) {Q : Bool → Flash → Prop}
    (hQ : ∀ ok g, Q ok g) : wp (rangeContract env torn) (blockDelete env n) Q f := by
  have hm := mem_dbBlocks.mp hn
  unfold blockDelete
  rw [if_neg (by omega)]
  exact wp_storageWriteBlock_range hn hQ

theorem wp_blockWrite_range {type : BlockType} {seq : UInt16} {payload : Bytes} {n : ℕ}
    (hn : n ∈ dbBlocks env) {Q : Bool → Flash → Prop} (hQ : ∀ ok g, Q ok g) :
    wp (rangeContract env torn) (blockWrite env type seq payload n) Q f := by
  have hm := mem_dbBlocks.mp hn
  have hpacked : ∀ content, wp (rangeContract env torn)
      (dbEncrypt env.c content >>= fun b => storageWriteBlock b n) Q f := by
    intro content
    rw [wp_bind]
    unfold dbEncrypt
    split
    · exact other_site
    · simp only [wp_bind]
      apply wp_rndBytes_range
      intro nonce
      apply wp_rndBytes_range
      intro rk
      exact wp_storageWriteBlock_range hn hQ
  unfold blockWrite
  rw [if_neg (by omega)]
  split
  · exact other_site
  · cases type with
    | empty => exact hpacked _
    | data => exact hpacked _
    | settings => exact hpacked _
    | _ => exact other_site

theorem wp_discard_range (h : Ranged env db) {n : ℕ} (hn : n ∈ dbBlocks env) :
    wp (rangeContract env torn) (discard env db n) (fun r _ => Ranged env r.2) f := by
  unfold discard
  rw [wp_bind]
  apply wp_blockDelete_range hn
  intro ok g
  cases ok with
  | false => exact h
  | true =>
      simp only [if_true]
      cases hadd : spanAdd db.deleted n 1 Nat.one_pos with
      | none => trivial
      | some deleted =>
          refine { h with deleted := fun m hm => ?_ }
          rcases spanAdd_mem hadd hm with hm | hm
          · obtain rfl : m = n := by simpa using hm
            exact hn
          · exact h.deleted m hm

/-! ## A request -/

/-- A group is taken from one of the lists, and erased. -/
theorem wp_reclaim_range {spans : Spans} {take : Spans → Db} (h : Ranged env db)
    (hn : db.erased = .null) (hs : ∀ n ∈ spans.blocks, n ∈ dbBlocks env)
    (ht : ∀ rest stats, (∀ n ∈ rest.blocks, n ∈ dbBlocks env) →
      Ranged env { take rest with stats } ∧ (take rest).erased = .null) :
    wp (rangeContract env torn) (reclaim db spans take) (fun r _ =>
      Ranged env r.2 ∧ r.2.erased = .null) f := by
  unfold reclaim
  cases hp : spanPullEraseBlock spans storageEraseSize storageEraseSize_pos with
  | none => trivial
  | some r =>
      obtain ⟨n, rest⟩ := r
      cases n with
      | none => exact ⟨h, hn⟩
      | some n =>
          have hrest : ∀ m ∈ rest.blocks, m ∈ dbBlocks env := fun m hm =>
            hs m (spanPullEraseBlock_mem hp (.inr hm))
          refine ⟨fun i hi => hs i (spanPullEraseBlock_mem hp (.inl hi)), fun ok t _ => ?_⟩
          cases ok <;> exact ht _ _ hrest

/-- A request that finds no erased block gets none. -/
theorem wp_erasedLoop_range {fuel : ℕ} (h : Ranged env db) (hn : db.erased = .null) :
    wp (rangeContract env torn) (erasedLoop fuel db)
      (fun r _ => r.1 = none ∧ Ranged env r.2) f := by
  induction fuel generalizing db f with
  | zero => exact other_site
  | succ fuel ih =>
      have hpull : spanPullOne db.erased = some (none, .null) := by rw [hn]; rfl
      unfold erasedLoop
      simp only [hpull, wp_bind, reclaimEmpty, reclaimDeleted]
      refine wp_mono (wp_reclaim_range h hn h.empty fun rest stats hr =>
        ⟨{ h with empty := hr }, hn⟩) ?_
      intro r₂ g₂ h₂
      split
      · exact ih h₂.1 h₂.2
      · rw [wp_bind]
        refine wp_mono (wp_reclaim_range h₂.1 h₂.2 h₂.1.deleted fun rest stats hr =>
          ⟨{ h₂.1 with deleted := hr }, h₂.2⟩) ?_
        intro r₃ g₃ h₃
        split
        · exact ih h₃.1 h₃.2
        · exact ⟨rfl, h₃.1⟩

theorem wp_getErasedBlock_range (h : Ranged env db) :
    wp (rangeContract env torn) (getErasedBlock db) (fun r _ =>
      (∀ n, r.1 = some n → n ∈ dbBlocks env) ∧ Ranged env r.2) f := by
  rcases spanPullOne_cases h.intact with ⟨hnull, -⟩ | ⟨n, rest, hp, hi, hb⟩
  · apply wp_mono (wp_erasedLoop_range h hnull)
    intro r g hr
    exact ⟨fun n hn => by simp [hr.1] at hn, hr.2⟩
  · rw [getErasedBlock_pop hp]
    refine ⟨fun m hm => ?_, { h with intact := hi, erased := fun m hm => ?_ }⟩
    · obtain rfl := Option.some.inj hm
      exact h.erased _ (by simp [hb])
    · exact h.erased m (by rw [hb]; exact List.mem_cons_of_mem _ hm)

/-! ## Entries -/

theorem Ranged.retouched (h : Ranged env db) {F : Tree}
    (hF : ∀ e ∈ F.entries, e.block = 0 ∨ e.block ∈ dbBlocks env) {db' : Db}
    (hr : Retouched F db db') : Ranged env db' := by
  obtain ⟨G, g, hp, rfl⟩ := hr
  refine { h with entries := fun e he => ?_ }
  exact hF e ((Forest.entries_perm (Forest.chains_perm hp)).mem_iff.mp he)

theorem Ranged.modify (h : Ranged env db) {p : ℕ} {g : DbEntry → DbEntry}
    (hg : ∀ e, (g e).block = e.block ∨ (g e).block ∈ dbBlocks env) :
    ∀ e ∈ (modify p g db.entries).entries, e.block = 0 ∨ e.block ∈ dbBlocks env := by
  intro e he
  rw [modify_entries] at he
  obtain ⟨d, hd, rfl⟩ := List.mem_map.mp he
  split
  · rcases hg d with heq | hm
    · rw [heq]
      exact h.entries d hd
    · exact .inr hm
  · exact h.entries d hd

theorem wp_writeEntry_range (h : Ranged env db) {de : DbEntry} (hn : de.block ∈ dbBlocks env) :
    wp (rangeContract env torn) (writeEntry env db de) (fun r _ => Ranged env r.2) f := by
  unfold writeEntry
  split
  · exact other_site
  · split
    · exact h
    · rw [wp_bind]
      apply wp_blockWrite_range hn
      intro ok g
      cases ok with
      | false => exact h
      | true => exact { h with }

theorem wp_updateEntry_range (h : Ranged env db) {p new : ℕ} (hn : new ∈ dbBlocks env) :
    wp (rangeContract env torn) (updateEntry env db p new) (fun r _ => Ranged env r.2) f := by
  unfold updateEntry
  cases hfind : find p db.entries with
  | none => trivial
  | some r =>
      have hmod : Ranged env { db with entries := modify p (renewed new) db.entries } :=
        { h with entries := h.modify fun _ => .inr hn }
      simp only [wp_bind]
      apply wp_mono (@wp_writeEntry_range _ _ _ _ hmod (renewed new r.1) hn)
      intro r₁ g₁ h₁
      split
      · rw [wp_bind]
        exact wp_mono (wp_discard_range h₁ hn) fun r₂ _ h₂ => h₂
      · split
        · next hold =>
            have hde := h.entries r.1 (mem_entries_of_find hfind).1
            rw [wp_bind]
            apply wp_mono (wp_discard_range h₁ (hde.resolve_left hold))
            intro r₂ g₂ h₂
            split
            · exact { h₂ with }
            · exact h₂
        · exact h₁

/-- A change to an entry that leaves its block alone. -/
theorem wp_changeEntry_range (h : Ranged env db) {p : ℕ} {g : DbEntry → DbEntry}
    {change : Db → Fw Db} (hg : ∀ e, (g e).block = e.block)
    (hchange : ∀ db, ∃ db', change db = .ret db' ∧ Retouched (modify p g db.entries) db db') :
    wp (rangeContract env torn) (changeEntry env db p change) (fun r _ => Ranged env r.2) f := by
  have hchanged : ∀ db, Ranged env db → ∃ db', change db = .ret db' ∧ Ranged env db' := by
    intro db h
    obtain ⟨db', hc, hr⟩ := hchange db
    exact ⟨db', hc, h.retouched (h.modify fun e => .inl (hg e)) hr⟩
  unfold changeEntry
  cases find p db.entries with
  | none => trivial
  | some r =>
      simp only []
      split
      · obtain ⟨db', hc, h'⟩ := hchanged db h
        rw [hc]
        exact h'
      · rw [wp_bind]
        apply wp_mono (wp_getErasedBlock_range h)
        intro r₁ g₁ h₁
        obtain ⟨new, db₁⟩ := r₁
        cases new with
        | none => exact h₁.2
        | some new =>
            obtain ⟨db', hc, h'⟩ := hchanged db₁ h₁.2
            simp only [hc, Prog.ret_bind]
            exact wp_updateEntry_range h' (h₁.1 new rfl)

/-! ## Calls -/

theorem wp_newId_range {name : CString} {Q : Bytes → Flash → Prop} (hQ : ∀ id, Q id f) :
    wp (rangeContract env torn) (newId db name) Q f := by
  unfold newId
  split
  · exact hQ _
  · split
    · trivial
    · split
      · trivial
      · split
        · exact other_site
        · exact hQ _

theorem wp_dbNewEntry_range (h : Ranged env db) {name : CString} :
    wp (rangeContract env torn) (dbNewEntry env db name) (fun r _ => Ranged env r.2) f := by
  unfold dbNewEntry
  rw [wp_bind]
  apply wp_mono (wp_getErasedBlock_range h)
  intro r₁ f₁ h₁
  obtain ⟨new, db₁⟩ := r₁
  cases new with
  | none => exact h₁.2
  | some new =>
      have hnew : new ∈ dbBlocks env := h₁.1 new rfl
      simp only [wp_bind]
      apply wp_rndBytes_range
      intro seq
      apply wp_newId_range
      intro id
      obtain ⟨db₂, hsort, hr⟩ := sorted_eq { db₁.changed.changed with
        entries := newEntry db₁.dir ⟨db₁.fresh, name, seqOfBytes (seq.getD 0 0) (seq.getD 1 0),
          new, false, addField [] ftId id⟩ db₁.entries
        fresh := db₁.fresh + 1 }
      have h₂ : Ranged env db₂ := by
        obtain ⟨G, gen, hperm, rfl⟩ := hr
        refine { h₁.2 with entries := fun e he => ?_ }
        have he' := (Forest.entries_perm (Forest.chains_perm hperm)).mem_iff.mp he
        rcases mem_newEntry he' with rfl | he'
        · exact .inr hnew
        · exact h₁.2.entries e he'
      rw [hsort, wp_ret]
      apply wp_mono (wp_writeEntry_range h₂ hnew)
      intro r₃ f₃ h₃
      split
      · exact h₃
      · rw [wp_bind]
        exact wp_mono (wp_discard_range h₃ hnew) fun r₄ _ h₄ => h₄

/-- An entry with a record of its own can be deleted. -/
theorem wp_dbDeleteEntry_range (h : Ranged env db) {p : ℕ}
    (hp : ∀ de ch, find p db.entries = some (de, ch) → de.block ≠ 0) :
    wp (rangeContract env torn) (dbDeleteEntry env db p) (fun r _ => Ranged env r.2) f := by
  unfold dbDeleteEntry
  cases hfind : find p db.entries with
  | none => trivial
  | some r =>
      have hde := (h.entries r.1 (mem_entries_of_find hfind).1).resolve_left (hp _ _ hfind)
      obtain ⟨db', hsort, hr⟩ := sorted_eq { db with entries := db.entries.remove (DbEntry.is p) }
      have h' : Ranged env db' := by
        obtain ⟨G, gen, hperm, rfl⟩ := hr
        refine { h with entries := fun e he => ?_ }
        have he' := (Forest.entries_perm (Forest.chains_perm hperm)).mem_iff.mp he
        exact h.entries e (mem_remove he')
      simp only [hsort, Prog.ret_bind, wp_bind]
      apply wp_mono (wp_discard_range h' hde)
      intro r₁ f₁ h₁
      split
      · exact { h₁ with }
      · exact h₁

theorem wp_dbEntryDeferUpdate_range (h : Ranged env db) {p : ℕ} {defer : Bool} :
    wp (rangeContract env torn) (dbEntryDeferUpdate env db p defer)
      (fun r _ => Ranged env r.2) f := by
  have hfinish : ∀ db, Ranged env db →
      Ranged env { db with entries := modify p (fun e => { e with defer }) db.entries } :=
    fun db h => { h with entries := h.modify fun _ => .inl rfl }
  unfold dbEntryDeferUpdate
  cases find p db.entries with
  | none => trivial
  | some r =>
      cases defer with
      | true => exact hfinish db h
      | false =>
          simp only [Bool.false_eq_true, if_false, wp_bind]
          apply wp_mono (wp_getErasedBlock_range h)
          intro r₁ f₁ h₁
          obtain ⟨new, db₁⟩ := r₁
          cases new with
          | none => exact h₁.2
          | some new =>
              simp only [wp_bind]
              apply wp_mono (wp_updateEntry_range h₁.2 (h₁.1 new rfl))
              intro r₂ f₂ h₂
              split
              · exact hfinish _ h₂
              · exact h₂

theorem wp_dbUpdateSettings_range (h : Ranged env db) {seq : UInt16} {payload : Bytes} :
    wp (rangeContract env torn) (dbUpdateSettings env db seq payload)
      (fun r _ => Ranged env r.2) f := by
  unfold dbUpdateSettings
  rw [wp_bind]
  apply wp_mono (wp_getErasedBlock_range h)
  intro r₁ f₁ h₁
  obtain ⟨new, db₁⟩ := r₁
  cases new with
  | none => exact h₁.2
  | some new =>
      have hnew : new ∈ dbBlocks env := h₁.1 new rfl
      have hset : ∀ db, Ranged env db → Ranged env { db with settingsBlock := some new } :=
        fun db h => { h with settings := fun n hn => Option.some.inj hn ▸ hnew }
      simp only [wp_bind]
      apply wp_blockWrite_range hnew
      intro ok f₂
      split
      · cases hold : (db₁.addSpecial 1).settingsBlock with
        | none => exact hset (db₁.addSpecial 1) { h₁.2 with }
        | some old =>
            have h₂ : Ranged env (db₁.addSpecial 1) := { h₁.2 with }
            rw [wp_bind]
            apply wp_mono (wp_discard_range h₂ (h₁.2.settings old hold))
            intro r₃ f₃ h₃
            split
            · exact hset (r₃.2.addSpecial (-1)) { h₃ with }
            · exact hset r₃.2 h₃
      · rw [wp_bind]
        exact wp_mono (wp_discard_range h₁.2 hnew) fun r₃ _ h₃ => h₃

/-- An entry that is deleted has a record of its own. -/
def Call.Recorded (db : Db) : Call → Prop
  | .deleteEntry p => ∀ de ch, find p db.entries = some (de, ch) → de.block ≠ 0
  | _ => True

/-- Every call touches only blocks of the database. -/
theorem wp_exec_range (h : Ranged env db) {c : Call} (hc : c.Recorded db) :
    wp (rangeContract env torn) (c.exec env db) (fun r _ => Ranged env r.2) f := by
  cases c with
  | newEntry name =>
      simp only [Call.exec, wp_bind]
      exact wp_dbNewEntry_range h
  | changeField p type data =>
      exact wp_changeEntry_range (g := withField type data) h (fun _ => rfl)
        fun db => changeField_eq db p type data
  | deleteField p i =>
      simp only [Call.exec, dbDeleteField]
      cases find p db.entries with
      | none => trivial
      | some r =>
          simp only []
          split
          · trivial
          · exact wp_changeEntry_range (g := withoutField i) h (fun _ => rfl)
              fun db => deleteField_eq db p i
  | deleteEntry p => exact wp_dbDeleteEntry_range h hc
  | deferUpdate p defer => exact wp_dbEntryDeferUpdate_range h
  | updateSettings seq payload => exact wp_dbUpdateSettings_range h
  | chdir dir => exact { h with }
  | tsort =>
      obtain ⟨db', hsort, hr⟩ := sorted_eq db
      simp only [Call.exec, hsort, Prog.ret_bind]
      exact h.retouched h.entries hr

/-! ## Opening -/

/-- Only the blocks of the database are read. -/
theorem dbOpen_congr {st : Settings} {g : Flash}
    (h : ∀ n ∈ dbBlocks env, contents env.c g n = contents env.c f n) :
    dbOpen env st g = dbOpen env st f := by
  have hloop : ∀ (l : List ℕ) (s : Db × Settings), (∀ n ∈ l, n ∈ dbBlocks env) →
      l.foldlM (openBlock env g) s = l.foldlM (openBlock env f) s := by
    intro l
    induction l with
    | nil => exact fun _ _ => rfl
    | cons n l ih =>
        intro s hl
        have hn : openBlock env g s n = openBlock env f s n := by
          unfold openBlock
          rw [h n (hl n List.mem_cons_self)]
        simp only [List.foldlM_cons, hn]
        congr 1
        funext s'
        exact ih s' fun m hm => hl m (List.mem_cons_of_mem _ hm)
  unfold dbOpen
  rw [hloop _ _ fun _ hn => hn]

theorem Opened.ranged (h : Opened env f db) : Ranged env db := by
  have hlist : ∀ {s : Spans} {k : ℤ} {c : Contents}, Counted s k (having env f c (dbBlocks env)) →
      ∀ n ∈ s.blocks, n ∈ dbBlocks env := by
    intro s k c hc n hn
    have := hc.perm.mem_iff.mp hn
    exact (List.mem_filter.mp this).1
  refine ⟨h.erased.intact, hlist h.erased, hlist h.deleted, hlist h.empty, fun e he => ?_,
    fun n hn => (h.settings n hn).1⟩
  obtain ⟨q, hq, hl⟩ := look_of_mem h.distinct he
  rw [h.look q hq] at hl
  rcases opened_block hl with hz | ⟨r, hr, -, hb⟩
  · exact .inl hz
  · have hb' : r.block = e.block := hb
    exact .inr (hb' ▸ (mem_records.mp hr).1)

/-! ## Runs -/

theorem reachable_ranged {allowed : State → Call → Prop}
    (hallowed : ∀ s c, allowed s c → c.Recorded s.db) {s t : State} (ho : Opens env s)
    (hr : Reachable (Step torn) env allowed s t) : Ranged env t.db := by
  induction hr with
  | start => exact ho.opened.ranged
  | next _ h ends ih =>
      have hw := wp_returns (K := rangeContract env torn) (wp_exec_range ih (hallowed _ _ h)) ends
      exact hw

/-- An entry without a record cannot be deleted: the assertion on its block fails. -/
theorem exec_deleteEntry_unrecorded {p : ℕ} (h : ¬ (Call.deleteEntry p).Recorded db) :
    (Call.deleteEntry p).exec env db = .halt blockRange := by
  have h' : ∃ de ch, find p db.entries = some (de, ch) ∧ de.block = 0 := by
    simpa [Call.Recorded] using h
  obtain ⟨de, ch, hfind, hz⟩ := h'
  obtain ⟨db', hsort, -⟩ := sorted_eq { db with entries := db.entries.remove (DbEntry.is p) }
  have hrange : blockDelete env de.block = .halt blockRange := by
    unfold blockDelete
    rw [if_pos (.inl (by rw [hz]; decide))]
  simp only [Call.exec, dbDeleteEntry, hfind, hsort, Prog.ret_bind, discard, hrange,
    Prog.halt_bind]

/-- In every run that deletes only entries with a record of their own, and from opening the
database on, only blocks of the database are touched and no assertion on a block number fails.
While no request frees a span that stays linked, nothing undefined happens either. Any other
deletion stops at the assertion. -/
theorem calls_inRange {s t : State} (ho : Opens env s)
    (hr : Reachable (Step torn) env (fun s c => c.Recorded s.db) s t) :
    (∀ st g, (∀ n ∈ dbBlocks env, contents env.c g n = contents env.c s.flash n) →
      dbOpen env st g = dbOpen env st s.flash) ∧
    (∀ c : Call, c.Recorded t.db → ∀ q f, Reaches (Step torn) (c.exec env t.db) t.flash q f →
      q ≠ .halt blockRange ∧ (∀ cmd next, q = .call cmd next → OnBlocks env cmd) ∧
      (Tears env torn → Reachable (Step torn) env Careful s t → Careful t c → q ≠ .undef)) ∧
    ∀ c : Call, ¬ c.Recorded t.db →
      Reaches (Step torn) (c.exec env t.db) t.flash (.halt blockRange) t.flash := by
  refine ⟨fun st g hg => dbOpen_congr hg, fun c hc q f hq => ?_, fun c hc => ?_⟩
  · have hw := wp_reaches (K := rangeContract env torn)
      (wp_exec_range (reachable_ranged (fun _ _ h => h) ho hr) hc) hq
    refine ⟨fun he => ?_, fun cmd next he => ?_, fun ht hcareful hcc he => ?_⟩
    · subst he
      exact hw rfl
    · subst he
      exact hw.1
    · subst he
      exact wp_reaches (K := safeContract env torn)
        (wp_exec_safe ht (reachable_alloc ht ho hcareful) hcc.1 hcc.2) hq
  · cases c with
    | deleteEntry p =>
        rw [exec_deleteEntry_unrecorded hc]
        exact .refl _ _
    | _ => exact absurd trivial hc

/-- The state after a change to the only account of a storage with erased blocks. -/
def ownBlockState : State :=
  afterCall (plainEnv 16) (.changeField 0 3 [120])
    (afterOpen (plainEnv 16) (plainFlash [(8, 1, [nameField [97]])]))

theorem calls_inRange_changed :
    (Call.deleteEntry 0).Recorded ownBlockState.db ∧ ∀ q f, Reaches Works
      ((Call.deleteEntry 0).exec (plainEnv 16) ownBlockState.db) ownBlockState.flash q f →
        q ≠ .halt blockRange ∧ ∀ cmd next, q = .call cmd next → OnBlocks (plainEnv 16) cmd := by
  have hresult : callResult (plainEnv 16) (.changeField 0 3 [120])
      (afterOpen (plainEnv 16) (plainFlash [(8, 1, [nameField [97]])])) = some true := by
    decide +kernel
  have hchange : (Call.changeField 0 3 [120]).Recorded
      (afterOpen (plainEnv 16) (plainFlash [(8, 1, [nameField [97]])])).db := trivial
  have hblock : (find 0 ownBlockState.db.entries).map (fun r => r.1.block) = some 9 := by
    decide +kernel
  have hrecorded : (Call.deleteEntry 0).Recorded ownBlockState.db := by
    intro de ch hfind
    rw [hfind] at hblock
    have : de.block = 9 := Option.some.inj hblock
    omega
  refine ⟨hrecorded, fun q f hq => ?_⟩
  have h := (calls_inRange (opens_afterOpen (plainEnv 16) _)
    (.next .start hchange (ends_afterCall _ _ _ hresult))).2.1 _ hrecorded q f hq
  exact ⟨h.1, h.2.1⟩

/-! ## A directory without a record -/

/-- The only account is in a directory that has no record. -/
def virtualFlash : Flash := plainFlash [(8, 1, [nameField [100, 0, 97]])]

def virtualState : State := afterOpen (plainEnv 16) virtualFlash

/-- The state after deleting that account from the directory. -/
def emptiedState : State :=
  afterCall (plainEnv 16) (.deleteEntry 1) (afterCall (plainEnv 16) (.chdir (some 0)) virtualState)

/-- Deleting the directory, once it is empty, deletes block 0. -/
theorem calls_inRange_virtual :
    Opens (plainEnv 16) virtualState ∧
    Reachable Works (plainEnv 16) Careful virtualState emptiedState ∧
    Careful emptiedState (.deleteEntry 0) ∧
    Reaches Works ((Call.deleteEntry 0).exec (plainEnv 16) emptiedState.db) emptiedState.flash
      (.halt blockRange) emptiedState.flash := by
  have hdir : Careful virtualState (.chdir (some 0)) := ⟨trivial, fun h => h.elim⟩
  have hdelete : ∀ {s : State} {p : ℕ}, (find p s.db.entries).isSome → Careful s (.deleteEntry p) :=
    fun h => ⟨h, fun h => h.elim⟩
  have h₁ : callResult (plainEnv 16) (.chdir (some 0)) virtualState = some true := by
    decide +kernel
  have h₂ : callResult (plainEnv 16) (.deleteEntry 1)
      (afterCall (plainEnv 16) (.chdir (some 0)) virtualState) = some true := by decide +kernel
  have hrun : Reachable Works (plainEnv 16) Careful virtualState emptiedState :=
    .next (.next .start hdir (ends_afterCall _ _ _ h₁)) (hdelete (by decide +kernel))
      (ends_afterCall _ _ _ h₂)
  have hblock : (find 0 emptiedState.db.entries).map (fun r => r.1.block) = some 0 := by
    decide +kernel
  refine ⟨opens_afterOpen _ _, hrun, hdelete (by decide +kernel), ?_⟩
  rw [exec_deleteEntry_unrecorded]
  · exact .refl _ _
  · intro h
    cases hfind : find 0 emptiedState.db.entries with
    | none => simp [hfind] at hblock
    | some r =>
        rw [hfind] at hblock
        exact h r.1 r.2 hfind (Option.some.inj hblock)

end Sunela.Database
