import Sunela.Verification.Alloc.Operations
import Sunela.Verification.Names.Paths

/-! # Entries start with their identifiers

No call takes the identifier of an entry away. Only virtual directories have none, and they
come from the storage. -/

namespace Sunela.Database

open Program Storage Span Block Fields Entry

/-- What `db_new_entry`, `db_rename` and `patch_one` assert of the fields of an entry. -/
def StartsWithId (fs : List DbField) : Prop := ∃ id rest, fs = id :: rest ∧ id.type = ftId

def Starts (F : Tree) : Prop := ∀ e ∈ F.entries, StartsWithId e.fields

variable {env : Env} {torn : Torn} {db : Db} {f : Flash}

/-! ## Fields -/

theorem StartsWithId.setField {fs : List DbField} (h : StartsWithId fs) {type : UInt8}
    (ht : type ≠ ftEnd) (data : Bytes) : StartsWithId (setField fs type data) := by
  obtain ⟨id, rest, rfl, hid⟩ := h
  by_cases hle : type ≤ id.type
  · have heq : id.type = type := by
      rw [hid] at hle ⊢
      exact UInt8.le_antisymm (ftId_le ht) hle
    refine ⟨.ofData type data, rest, ?_, ?_⟩
    · rw [Fields.setField, if_pos hle, if_pos heq]
    · rw [DbField.ofData_type, ← heq, hid]
  · exact ⟨id, Fields.setField rest type data, by rw [Fields.setField, if_neg hle], hid⟩

theorem StartsWithId.eraseIdx {fs : List DbField} (h : StartsWithId fs) {i : ℕ} (hi : i ≠ 0) :
    StartsWithId (fs.eraseIdx i) := by
  obtain ⟨id, rest, rfl, hid⟩ := h
  obtain ⟨i, rfl⟩ := Nat.exists_eq_succ_of_ne_zero hi
  exact ⟨id, rest.eraseIdx i, rfl, hid⟩

/-- Such fields are accepted when they are read. -/
theorem StartsWithId.accepted {fs : List DbField} (h : StartsWithId fs) (block : ℕ)
    (seq : UInt16) (k : ℕ) :
    (parseRecord block seq (fs.flatMap encodeField ++ List.replicate k 0)).isSome := by
  obtain ⟨id, rest, rfl, hid⟩ := h
  have hitem : tlvItem ((id :: rest).flatMap encodeField ++ List.replicate k 0) =
      some (id, rest.flatMap encodeField ++ List.replicate k 0) := by
    rw [List.flatMap_cons, List.append_assoc]
    exact tlvItem_encodeField (by rw [hid]; decide) _
  unfold parseRecord
  rw [hitem]
  simp [hid]

/-! ## Trees -/

theorem Starts.alike {F G : Tree} (h : Starts F) (ha : Alike F G) : Starts G :=
  ha.fields (P := fun _ fs => StartsWithId fs) h

theorem Starts.map {F : Tree} (h : Starts F) {k : DbEntry → DbEntry}
    (hk : ∀ e, StartsWithId e.fields → StartsWithId (k e).fields) : Starts (F.map k) := by
  intro e he
  rw [Forest.entries_map] at he
  obtain ⟨d, hd, rfl⟩ := List.mem_map.mp he
  exact hk d (h d hd)

theorem Starts.modify {F : Tree} (h : Starts F) {p : ℕ} {g : DbEntry → DbEntry}
    (hg : ∀ e, StartsWithId e.fields → StartsWithId (g e).fields) :
    Starts (Entry.modify p g F) := by
  refine h.map fun e he => ?_
  split
  · exact hg e he
  · exact he

theorem Starts.newEntry {F : Tree} (h : Starts F) {dir : Option ℕ} {new : DbEntry} {id : Bytes}
    (hnew : new.fields = addField [] ftId id) : Starts (newEntry dir new F) := by
  intro e he
  rcases mem_newEntry he with rfl | he
  · exact ⟨.ofData ftId id, [], hnew, rfl⟩
  · exact h e he

theorem Starts.leads {X : Tree} {db' : Db} (h : Starts X) (hl : Leads db X db') :
    Starts db'.entries := h.alike hl.alike.symm

/-! ## Calls -/

/-- The calls that the pages make, by themselves or in the course of an operation. The page of
an account neither lists nor deletes its identifier. -/
def Call.Offered : Call → Prop
  | .changeField _ type _ => type ≠ ftEnd
  | .deleteField _ i => i ≠ 0
  | _ => True

theorem wp_dbDeleteEntry_tree {p : ℕ} :
    wp (anyContract torn) (dbDeleteEntry env db p)
      (fun r _ => ∀ e ∈ r.2.entries.entries, e ∈ db.entries.entries) f := by
  unfold dbDeleteEntry
  obtain ⟨db', hsort, G, gen, hperm, rfl⟩ :=
    sorted_eq { db with entries := db.entries.remove (DbEntry.is p) }
  split
  · trivial
  · simp only [hsort, Prog.ret_bind, wp_bind]
    refine wp_mono wp_discard_tree ?_
    rintro ⟨ok, db₁⟩ g hs e he
    have hmem : e ∈ db₁.entries.entries := by cases ok <;> exact he
    rw [hs.entries] at hmem
    exact mem_remove ((Forest.entries_perm (Forest.chains_perm hperm)).mem_iff.mp hmem)

theorem wp_dbEntryDeferUpdate_alike {p : ℕ} {defer : Bool} :
    wp (anyContract torn) (dbEntryDeferUpdate env db p defer) (fun r _ =>
      Leads db db.entries r.2 ∨
        Leads db (modify p (fun e => { e with defer }) db.entries) r.2) f := by
  have hfinish : ∀ {db₁ : Db}, Leads db db.entries db₁ → Leads db
      (modify p (fun e => { e with defer }) db.entries)
      { db₁ with entries := modify p (fun e => { e with defer }) db₁.entries } := by
    intro db₁ hl
    refine ⟨hl.alike.modify fun d e he => ?_, hl.dir, hl.fresh⟩
    simp only [face, Prod.mk.injEq] at he ⊢
    exact ⟨he.1, he.2.1, trivial, he.2.2.2⟩
  unfold dbEntryDeferUpdate
  split
  · trivial
  · dsimp only
    split
    · exact .inr (hfinish (SameTree.refl db).leads)
    · rw [wp_bind]
      refine wp_mono (wp_erasedLoop_tree _) ?_
      rintro ⟨new, db₁⟩ g hs
      cases new with
      | none => exact .inl hs.leads
      | some new =>
          simp only [wp_bind]
          refine wp_mono wp_updateEntry_alike ?_
          rintro ⟨ok, db₂⟩ g hl'
          have hl : Leads db db.entries db₂ := hs.leads.trans hl'
          cases ok with
          | true => exact .inr (hfinish hl)
          | false => exact .inl hl

theorem wp_dbUpdateSettings_entries {seq : UInt16} {payload : Bytes} :
    wp (anyContract torn) (dbUpdateSettings env db seq payload)
      (fun r _ => r.2.entries = db.entries) f := by
  unfold dbUpdateSettings
  rw [wp_bind]
  refine wp_mono (wp_erasedLoop_tree _) ?_
  rintro ⟨new, db₁⟩ g hs
  cases new with
  | none => exact hs.entries
  | some new =>
      simp only [wp_bind]
      refine wp_of_returns fun ok g _ => ?_
      cases ok with
      | false =>
          simp only [Bool.false_eq_true, if_false, wp_bind]
          exact wp_mono wp_discard_tree fun r _ hd => hd.entries.trans hs.entries
      | true =>
          simp only [if_true]
          split
          · exact hs.entries
          · rw [wp_bind]
            refine wp_mono wp_discard_tree ?_
            rintro ⟨done, db₂⟩ g hd
            cases done <;> exact hd.entries.trans hs.entries

theorem wp_exec_starts (h : Starts db.entries) {c : Call} (hc : c.Offered) :
    wp (anyContract torn) (c.exec env db) (fun r _ => Starts r.2.entries) f := by
  cases c with
  | newEntry name =>
      simp only [Call.exec, wp_bind]
      refine wp_mono wp_dbNewEntry_alike ?_
      rintro ⟨p, db'⟩ g (hl | ⟨id, -, -, -, ha⟩)
      · exact h.leads hl
      · exact (@Starts.newEntry _ h _ _ id rfl).alike ha.symm
  | changeField p type data =>
      refine wp_mono wp_dbChangeField_alike ?_
      rintro r g (hl | ⟨-, hl⟩)
      · exact (h.modify fun e he => he.setField hc data).leads hl
      · exact h.leads hl
  | deleteField p i =>
      simp only [Call.exec, dbDeleteField]
      split
      · trivial
      · split
        · trivial
        · refine wp_mono (wp_changeEntry_alike (g := withoutField i)
            fun db => deleteField_eq db p i) ?_
          rintro r g (hl | ⟨-, hl⟩)
          · exact (h.modify fun e he => he.eraseIdx hc).leads hl
          · exact h.leads hl
  | deleteEntry p => exact wp_mono wp_dbDeleteEntry_tree fun r _ hs e he => h e (hs e he)
  | deferUpdate p defer =>
      refine wp_mono wp_dbEntryDeferUpdate_alike ?_
      rintro r g (hl | hl)
      · exact h.leads hl
      · exact (h.modify (g := fun e => { e with defer }) fun e he => he).leads hl
  | updateSettings seq payload =>
      exact wp_mono wp_dbUpdateSettings_entries fun r _ he => by rw [he]; exact h
  | chdir dir => exact h
  | tsort =>
      obtain ⟨db', hsort, G, g, hp, rfl⟩ := sorted_eq db
      simp only [Call.exec, hsort, Prog.ret_bind]
      exact h.alike (Alike.of_siblings hp).symm

/-! ## Records that are written -/

/-- If the command writes the record of an entry, it will be accepted when it is read. -/
def Accepted (env : Env) : Cmd → Prop
  | .write n buf => ∀ seq payload, blockRead env.c (some buf) = .data seq payload →
      (parseRecord n seq payload).isSome
  | _ => True

def acceptContract (env : Env) (torn : Torn) : Contract Cmd Reply Flash where
  step := Step torn
  call _ c := Accepted env c
  halt _ _ := True
  undef _ := True

/-- The program writes no record that will not be accepted. -/
abbrev Accepts {α : Type} (env : Env) (torn : Torn) (p : Fw α) (f : Flash) : Prop :=
  wp (acceptContract env torn) p (fun _ _ => True) f

theorem lenient_accept (f : Flash) : Lenient (acceptContract env torn) torn f :=
  ⟨rfl, fun _ => trivial, fun _ => trivial⟩

theorem accepts_bind {α β : Type} {p : Fw α} {next : α → Fw β} {Q : α → Flash → Prop}
    (hp : Accepts env torn p f) (hQ : wp (anyContract torn) p Q f)
    (hn : ∀ a g, Q a g → Accepts env torn (next a) g) : Accepts env torn (p >>= next) f := by
  unfold Accepts
  rw [wp_bind]
  exact wp_mono (@wp_results _ _ _ _ _ _ _ _ (anyContract torn) rfl hp hQ) hn

theorem wp_any {α : Type} {p : Fw α} : wp (anyContract torn) p (fun _ _ => True) f :=
  wp_of_returns fun _ _ _ => trivial

theorem accepts_reclaim {spans : Spans} {take : Spans → Db} :
    Accepts env torn (reclaim db spans take) f := by
  unfold reclaim
  split
  · trivial
  · trivial
  · exact ⟨trivial, fun ok g _ => by cases ok <;> trivial⟩

theorem accepts_erasedLoop (fuel : ℕ) : Accepts env torn (erasedLoop fuel db) f := by
  induction fuel generalizing db f with
  | zero => trivial
  | succ fuel ih =>
      rw [erasedLoop]
      split
      · trivial
      · trivial
      · refine accepts_bind accepts_reclaim wp_any ?_
        rintro ⟨again, db₁⟩ g -
        cases again with
        | true => exact ih
        | false =>
            refine accepts_bind accepts_reclaim wp_any ?_
            rintro ⟨again, db₂⟩ g -
            cases again with
            | true => exact ih
            | false => trivial

theorem accepted_zeroBlock (n : ℕ) : Accepted env (.write n zeroBlock) := by
  intro seq payload h
  rw [blockRead_zeroBlock] at h
  simp at h

theorem accepts_discard {n : ℕ} : Accepts env torn (discard env db n) f := by
  unfold discard
  refine accepts_bind ?_ wp_any ?_
  · exact wp_blockDelete (lenient_accept f) (fun _ => accepted_zeroBlock n) (fun _ => trivial)
      fun _ _ _ => trivial
  · rintro ok g -
    cases ok with
    | false => trivial
    | true =>
        simp only [if_true]
        split <;> trivial

/-- What is written to a block is what is read from it. -/
theorem accepts_write {type : UInt8} {seq : UInt16} {payload : Bytes} {n : ℕ}
    (h : ∀ b, Packed env type seq payload b → Accepted env (.write n b)) :
    Accepts env torn (dbEncrypt env.c (packed type seq payload) >>= fun b =>
      storageWriteBlock b n) f := by
  unfold Accepts
  rw [wp_bind]
  refine wp_dbEncrypt (lenient_accept f) fun nonce rk hn hk hl => ?_
  exact ⟨h _ ⟨nonce, rk, hn, hk, hl, rfl⟩, fun _ _ _ => trivial⟩

theorem accepts_writeEntry {de : DbEntry} (h : StartsWithId de.fields) :
    Accepts env torn (writeEntry env db de) f := by
  unfold writeEntry
  split
  · trivial
  · split
    · trivial
    · next payload he =>
        refine accepts_bind ?_ wp_any fun ok g _ => by cases ok <;> trivial
        unfold blockWrite
        split
        · trivial
        split
        · trivial
        · refine accepts_write fun b hb seq payload' hr => ?_
          obtain ⟨nonce, rk, hn, hk, hl, rfl⟩ := hb
          rw [blockRead_encrypt hn hk hl, unpack_packed] at hr
          obtain ⟨rfl, rfl⟩ := Contents.data.inj hr
          obtain ⟨rfl, -⟩ := encodeFields_eq he
          exact h.accepted _ _ _

theorem accepts_sorted (db : Db) : Accepts env torn db.sorted f := by
  obtain ⟨db', hsort, -⟩ := sorted_eq db
  rw [hsort]
  trivial

theorem accepts_updateEntry {p new : ℕ} (h : Starts db.entries) :
    Accepts env torn (updateEntry env db p new) f := by
  unfold updateEntry
  cases hfind : find p db.entries with
  | none => trivial
  | some r =>
      obtain ⟨de, ch⟩ := r
      have hde : StartsWithId (renewed new de).fields := h de (mem_entries_of_find hfind).1
      refine accepts_bind (accepts_writeEntry hde) wp_any ?_
      rintro ⟨ok, db₁⟩ g -
      cases ok with
      | false => exact accepts_bind accepts_discard wp_any fun _ _ _ => trivial
      | true =>
          simp only [Bool.not_true, Bool.false_eq_true, if_false]
          split
          · exact accepts_bind accepts_discard wp_any fun _ _ _ => trivial
          · trivial

theorem accepts_changeEntry {p : ℕ} {g : DbEntry → DbEntry} {change : Db → Fw Db}
    (h : Starts db.entries) (hg : ∀ e, StartsWithId e.fields → StartsWithId (g e).fields)
    (hchange : ∀ db, ∃ db', change db = .ret db' ∧ Retouched (modify p g db.entries) db db') :
    Accepts env torn (changeEntry env db p change) f := by
  unfold changeEntry
  split
  · trivial
  · dsimp only
    split
    · obtain ⟨db', hc, -⟩ := hchange db
      rw [hc]
      trivial
    · refine accepts_bind (accepts_erasedLoop _) (wp_erasedLoop_tree _) ?_
      rintro ⟨new, db₁⟩ f₁ hs
      cases new with
      | none => trivial
      | some new =>
          obtain ⟨db₂, hc, G, gen, hperm, rfl⟩ := hchange db₁
          simp only [hc, Prog.ret_bind]
          refine accepts_updateEntry ?_
          have hmod : Starts (modify p g db₁.entries) := by
            rw [hs.entries]
            exact h.modify hg
          exact hmod.alike (Alike.of_siblings hperm).symm

theorem accepts_exec (h : Starts db.entries) {c : Call} (hc : c.Offered) :
    Accepts env torn (c.exec env db) f := by
  cases c with
  | newEntry name =>
      refine accepts_bind (accepts_bind (accepts_erasedLoop _) wp_any ?_) wp_any
        fun _ _ _ => trivial
      rintro ⟨new, db₁⟩ f₁ -
      cases new with
      | none => trivial
      | some new =>
          refine accepts_bind ⟨trivial, fun _ _ _ => trivial⟩ wp_any fun seq f₂ _ => ?_
          refine accepts_bind (wp_newId (lenient_accept f₂) trivial fun _ _ => trivial) wp_any
            fun id f₃ _ => ?_
          refine accepts_bind (accepts_sorted _) wp_any fun db₂ f₃ _ => ?_
          refine accepts_bind (accepts_writeEntry ⟨.ofData ftId id, [], rfl, rfl⟩) wp_any ?_
          rintro ⟨ok, db₃⟩ f₄ -
          cases ok with
          | true => trivial
          | false => exact accepts_bind accepts_discard wp_any fun _ _ _ => trivial
  | changeField p type data =>
      exact accepts_changeEntry h (g := withField type data) (fun e he => he.setField hc data)
        fun db => changeField_eq db p type data
  | deleteField p i =>
      simp only [Call.exec, dbDeleteField]
      split
      · trivial
      · split
        · trivial
        · exact accepts_changeEntry h (g := withoutField i) (fun e he => he.eraseIdx hc)
            fun db => deleteField_eq db p i
  | deleteEntry p =>
      simp only [Call.exec, dbDeleteEntry]
      split
      · trivial
      · refine accepts_bind (accepts_sorted _) wp_any fun db₁ g _ => ?_
        exact accepts_bind accepts_discard wp_any fun _ _ _ => trivial
  | deferUpdate p defer =>
      simp only [Call.exec, dbEntryDeferUpdate]
      split
      · trivial
      · split
        · trivial
        · refine accepts_bind (accepts_erasedLoop _) (wp_erasedLoop_tree _) ?_
          rintro ⟨new, db₁⟩ g hs
          cases new with
          | none => trivial
          | some new =>
              refine accepts_bind (accepts_updateEntry (by rw [hs.entries]; exact h)) wp_any ?_
              rintro ⟨ok, db₂⟩ g -
              cases ok <;> trivial
  | updateSettings seq payload =>
      refine accepts_bind (accepts_erasedLoop _) wp_any ?_
      rintro ⟨new, db₁⟩ g -
      cases new with
      | none => trivial
      | some new =>
          refine accepts_bind ?_ wp_any ?_
          · unfold blockWrite
            split
            · trivial
            split
            · trivial
            · refine accepts_write fun b hb seq payload' hr => ?_
              obtain ⟨nonce, rk, hn, hk, hl, rfl⟩ := hb
              rw [blockRead_encrypt hn hk hl, unpack_packed] at hr
              simp at hr
          · rintro ok g -
            cases ok with
            | false => exact accepts_bind accepts_discard wp_any fun _ _ _ => trivial
            | true =>
                simp only [if_true]
                split
                · trivial
                · exact accepts_bind accepts_discard wp_any fun _ _ _ => trivial
  | chdir dir => trivial
  | tsort => exact accepts_bind (accepts_sorted db) wp_any fun _ _ _ => trivial

/-! ## The opened tree -/

/-- Entries without an identifier are virtual directories. -/
theorem opened_starts_iff (ho : Opened env f db) :
    Starts db.entries ↔ Grounded (records env f) := by
  constructor
  · intro h r hr q hq hpre
    have hreach : reaches (records env f) q = true :=
      List.any_eq_true.mpr ⟨r, hr, decide_eq_true hpre⟩
    cases hn : newest (records env f) q with
    | some d => exact ⟨d, newest_mem hn⟩
    | none =>
        exfalso
        have hshow : opened (records env f) q =
            some (fixShown (isParent (records env f) q) (0, 0, [])) := by
          simp [opened, scanned, hn, hreach]
        have hlook := ho.look q hq
        rw [hshow] at hlook
        obtain ⟨res, hres, hv⟩ := Option.map_eq_some_iff.mp hlook
        obtain ⟨c, -, hc, -⟩ := Forest.chain_of_lookup hres
        have hfields : res.1.fields = addField [] ftDir [] := by
          have hs := congrArg (fun s => s.2.2) hv
          simpa [view, fixShown, dbFieldFind] using hs
        obtain ⟨id, rest, hf, hid⟩ := h res.1 (entry_of_chain hc)
        rw [hfields] at hf
        obtain ⟨rfl, -⟩ := List.cons.inj hf
        exact absurd hid (by decide)
  · intro h e he
    obtain ⟨c, hc⟩ := chain_of_entry he
    obtain ⟨id, rest, hf, hid, -⟩ := (opened_matching ho h c e hc).id
    exact ⟨id, rest, hf, hid⟩

/-! ## Runs -/

/-- Every entry starts with its identifier, and so a new entry, a rename and the change of an
identifier get past their assertions on it, and what is written will be accepted. -/
structure Identified (env : Env) (torn : Torn) (s : State) : Prop where
  starts : Starts s.db.entries
  newEntry : ∀ name, (∀ d, s.db.dir = some d → (find d s.db.entries).isSome) →
    ∃ id, newId s.db name = .ret id
  rename : ∀ p de ch name, find p s.db.entries = some (de, ch) →
    ∃ id rest, de.fields = id :: rest ∧ dbRename env s.db p name =
      match renamedId id.data name with
      | none => .halt
      | some newPrefix => patchRecursive env newPrefix id.data.length (.node de ch .nil) s.db
  patchOne : ∀ p de ch newPrefix k, find p s.db.entries = some (de, ch) →
    ∃ id rest, de.fields = id :: rest ∧ patchOne env s.db p newPrefix k =
      if id.data.length < k then .halt
      else if id.data.length = k then dbChangeField env s.db p ftId newPrefix
      else if id.data[k]? ≠ some 0 then .halt
      else dbChangeField env s.db p ftId (newPrefix ++ id.data.drop k)
  accepted : ∀ c : Call, c.Offered → ∀ cmd next f,
    Reaches (Step torn) (c.exec env s.db) s.flash (.call cmd next) f → Accepted env cmd

theorem Starts.identified {s : State} (h : Starts s.db.entries) : Identified env torn s := by
  have hfound : ∀ {p de ch}, find p s.db.entries = some (de, ch) → StartsWithId de.fields :=
    fun hfind => h _ (mem_entries_of_find hfind).1
  refine ⟨h, ?_, ?_, ?_, ?_⟩
  · intro name hdir
    unfold newId
    cases hd : s.db.dir with
    | none => exact ⟨_, rfl⟩
    | some d =>
        obtain ⟨⟨parent, ch⟩, hfind⟩ := Option.isSome_iff_exists.mp (hdir d hd)
        obtain ⟨id, rest, hf, hid⟩ := hfound hfind
        simp only [hfind, hf, hid, ne_eq, not_true_eq_false, if_false]
        exact ⟨_, rfl⟩
  · intro p de ch name hfind
    obtain ⟨id, rest, hf, hid⟩ := hfound hfind
    refine ⟨id, rest, hf, ?_⟩
    unfold dbRename
    cases hid' : renamedId id.data name <;>
      simp only [hfind, hf, hid, hid', ne_eq, not_true_eq_false, if_false]
  · intro p de ch newPrefix k hfind
    obtain ⟨id, rest, hf, hid⟩ := hfound hfind
    refine ⟨id, rest, hf, ?_⟩
    unfold Database.patchOne
    simp only [hfind, hf, hid, ne_eq, not_true_eq_false, false_or]
  · intro c hc cmd next f hr
    exact (wp_reaches (K := acceptContract env torn) (accepts_exec h hc) hr).1

theorem StartsWithId.findPrev_ne_zero {fs : List DbField} (h : StartsWithId fs) {i : ℕ}
    (hi : (fs.findIdx? fun f => f.type = ftPrev) = some i) : i ≠ 0 := by
  obtain ⟨id, rest, rfl, hid⟩ := h
  have hprev : id.type ≠ ftPrev := by rw [hid]; decide
  rintro rfl
  simp [List.findIdx?_cons, hprev] at hi

/-- The calls that operations are made of are among those that the pages make. -/
theorem lets_starts : Lets (Step torn) env (fun _ c => c.Offered)
    (fun s => Starts s.db.entries) where
  step hs hc ends := wp_returns (K := anyContract torn) (wp_exec_starts hs hc) ends
  change _ _ _ ht := ht
  delete hs he hi := (hs _ he).findPrev_ne_zero hi
  sort _ := trivial

/-- So the states that operations lead to are among those that these calls lead to. -/
theorem op_offered {s t : State} {o : Op} {ok : Bool} (hs : Starts s.db.entries)
    (ho : ∀ c, o = .call c → c.Offered)
    (h : Ends (Step torn) (fun db => o.exec env db) s ok t) :
    Reachable (Step torn) env (fun _ c => c.Offered) s t :=
  op_follows (I := fun s => Starts s.db.entries) lets_starts ho hs h

/-- In the states that the calls of the pages lead to, every entry starts with its identifier,
if and only if the storage has a record for every directory. -/
theorem reachable_identified_iff {s : State} (ho : Opens env s) :
    (∀ t, Reachable (Step torn) env (fun _ c => c.Offered) s t → Identified env torn t) ↔
      Grounded (records env s.flash) := by
  constructor
  · intro h
    exact (opened_starts_iff ho.opened).mp (h s .start).starts
  · intro h t hr
    refine Starts.identified ?_
    exact lets_starts.reachable ((opened_starts_iff ho.opened).mpr h) hr

theorem reachable_identified_iff_oneRecord :
    (∀ t, Reachable Works (plainEnv 16) (fun _ c => c.Offered)
        (afterOpen (plainEnv 16) (plainFlash [(8, 1, [nameField [97]])])) t →
      Identified (plainEnv 16) (fun _ _ _ => False) t) ↔
    Grounded (records (plainEnv 16) (plainFlash [(8, 1, [nameField [97]])])) :=
  reachable_identified_iff (s := afterOpen (plainEnv 16) (plainFlash [(8, 1, [nameField [97]])]))
    (opens_afterOpen _ _)

/-! ## A folder without a record -/

/-- The account `b` in the folder `a`, which has no record, has been opened. -/
def virtualFolder : State :=
  afterOpen (plainEnv 16) (plainFlash [(8, 1, [nameField [97, 0, 98]])])

/-- The folder can be entered, but a new entry in it or another name for it fails an
assertion. -/
theorem virtualFolder_not_starts :
    Opens (plainEnv 16) virtualFolder ∧ ¬ Starts virtualFolder.db.entries ∧
    ∃ t p, Ends Works (fun db => (Call.chdir (some p)).exec (plainEnv 16) db) virtualFolder true
        t ∧ (find p t.db.entries).isSome ∧ (newId t.db (.ofBuffer [99])).isHalt = true ∧
      (dbRename (plainEnv 16) t.db p (.ofBuffer [99])).isHalt = true := by
  refine ⟨opens_afterOpen _ _, fun h => ?_, afterCall (plainEnv 16) (.chdir (some 0))
    virtualFolder, 0, ends_afterCall _ _ _ (by decide +kernel), ?_, ?_, ?_⟩
  · have hany : virtualFolder.db.entries.entries.any
        (fun e => e.fields.head?.map DbField.type ≠ some ftId) = true := by decide +kernel
    obtain ⟨e, he, hne⟩ := List.any_eq_true.mp hany
    obtain ⟨id, rest, hf, hid⟩ := h e he
    simp [hf, hid] at hne
  · decide +kernel
  · decide +kernel
  · decide +kernel

end Sunela.Database
