import Sunela.Verification.Alloc.Runs
import Sunela.Verification.Failures.Held
import Sunela.Verification.Persistence.Filed

/-! # Deferred updates

While updates of an entry are deferred, changes of its fields do not reach the storage. In the end
there is one record with all of them, as if each had been stored at once. -/

namespace Sunela.Database

open Program Storage Span Block Fields Entry

/-! ## Batches -/

/-- A change of a field. -/
inductive FieldEdit where
  | change (type : UInt8) (data : Bytes)
  | delete (i : ℕ)

def FieldEdit.call (p : ℕ) : FieldEdit → Call
  | .change type data => .changeField p type data
  | .delete i => .deleteField p i

/-- What the change makes of the entry. -/
def FieldEdit.apply : FieldEdit → DbEntry → DbEntry
  | .change type data => withField type data
  | .delete i => withoutField i

/-- One change after the other, up to the first that fails. -/
def editAll (env : Env) (p : ℕ) : List FieldEdit → Db → Fw (Bool × Db)
  | [], db => return (true, db)
  | e :: es, db => do
      let (ok, db) ← (e.call p).exec env db
      if ok then editAll env p es db else return (false, db)

/-- The changes, after updates have been deferred. -/
def editDeferred (env : Env) (p : ℕ) (es : List FieldEdit) (db : Db) : Fw (Bool × Db) := do
  let (ok, db) ← dbEntryDeferUpdate env db p true
  if ok then editAll env p es db else return (false, db)

/-- The number of records that are written. -/
def recordWrites (l : List Cmd) : ℕ :=
  l.countP fun
    | .write _ buf => decide (buf ≠ zeroBlock)
    | _ => false

/-- The number of blocks that are deleted. -/
def deletions (l : List Cmd) : ℕ :=
  l.countP fun
    | .write _ buf => decide (buf = zeroBlock)
    | _ => false

variable {env : Env} {db db' : Db} {f g h : Flash} {p n old : ℕ} {d de : DbEntry} {ch : Tree}
  {l l' : List Cmd} {e : FieldEdit} {es : List FieldEdit}

/-! ## What is on the storage -/

/-- The block of the entry holds a record with its fields. -/
def OnStorage (env : Env) (f : Flash) (e : DbEntry) : Prop :=
  ∃ payload, encodeFields storageBlockSize e.fields = some payload ∧
    contents env.c f e.block = .data e.seq (padded env.c payload)

/-- The entry is on the storage in a block that was erased, its old block has been deleted, and
the others are as they were, except for some that were used up in between. -/
structure Replaced (env : Env) (f : Flash) (old : ℕ) (g : Flash) (e : DbEntry) : Prop where
  stored : OnStorage env g e
  mem : e.block ∈ dbBlocks env
  bad : g.bad = f.bad
  fresh : f.cells e.block = erasedBlock
  deleted : old ≠ 0 → g.cells old = zeroBlock
  others : ∀ m, m ≠ e.block → m ≠ old →
    g.cells m = f.cells m ∨ f.cells m = erasedBlock ∧ g.cells m = zeroBlock

theorem OnStorage.used (hs : OnStorage env f de) :
    f.cells de.block ≠ erasedBlock ∧ f.cells de.block ≠ zeroBlock := by
  obtain ⟨payload, -, hc⟩ := hs
  have hrec : (contents env.c f de.block).IsRecord := by
    rw [hc]
    trivial
  exact ⟨fun he => free_of_cell (.inl he) hrec, fun hz => free_of_cell (.inr (.inl hz)) hrec⟩

theorem zeroBlock_ne_erasedBlock : zeroBlock ≠ erasedBlock := by
  intro he
  have hc := classifyBlock_zeroBlock
  rw [he, classifyBlock_erasedBlock] at hc
  cases hc

/-- Storing an entry twice is storing it once, as far as the other blocks are concerned. -/
theorem Replaced.trans {b c : DbEntry} (h₁ : Replaced env f old g b)
    (h₂ : Replaced env g b.block h c) : Replaced env f old h c := by
  have hz : zeroBlock ≠ erasedBlock := zeroBlock_ne_erasedBlock
  have hcb : c.block ≠ b.block := fun he => h₁.stored.used.1 (he ▸ h₂.fresh)
  have hco : old ≠ 0 → c.block ≠ old := fun ho he =>
    hz ((h₁.deleted ho).symm.trans (he ▸ h₂.fresh))
  have hbo : old ≠ 0 → old ≠ b.block := fun ho he =>
    h₁.stored.used.2 (he ▸ h₁.deleted ho)
  have hb := h₂.deleted (ne_zero_of_mem h₁.mem)
  refine ⟨h₂.stored, h₂.mem, h₂.bad.trans h₁.bad, ?_, fun ho => ?_, fun m hmc hmo => ?_⟩
  · have hne : c.block ≠ old := by
      by_cases ho : old = 0
      · rw [ho]
        exact ne_zero_of_mem h₂.mem
      · exact hco ho
    rcases h₁.others c.block hcb hne with he | ⟨-, he⟩
    · rw [← he]
      exact h₂.fresh
    · exact absurd (he.symm.trans h₂.fresh) hz
  · rcases h₂.others old (hco ho).symm (hbo ho) with he | ⟨he, -⟩
    · rw [he]
      exact h₁.deleted ho
    · exact absurd ((h₁.deleted ho).symm.trans he) hz
  · by_cases hmb : m = b.block
    · subst hmb
      exact .inr ⟨h₁.fresh, hb⟩
    · rcases h₁.others m hmb hmo with h1 | ⟨h1, h1'⟩
      · rcases h₂.others m hmc hmb with h2 | ⟨h2, h2'⟩
        · exact .inl (h2.trans h1)
        · exact .inr ⟨h1.symm.trans h2, h2'⟩
      · rcases h₂.others m hmc hmb with h2 | ⟨h2, -⟩
        · exact .inr ⟨h1, h2.trans h1'⟩
        · exact absurd (h1'.symm.trans h2) hz

/-! ## Blocks to write to -/

/-- The blocks in the list of erased ones can be written, and belong to no entry. -/
structure Stocked (env : Env) (db : Db) (f : Flash) : Prop where
  linked : Linked db.entries
  intact : db.erased.Intact
  erased : ∀ n ∈ db.erased.blocks, n ∈ dbBlocks env ∧ f.bad n = false ∧ f.cells n = erasedBlock
  nodup : db.erased.blocks.Nodup
  entries : ∀ e ∈ db.entries.entries, e.block ∉ db.erased.blocks

theorem Alloc.stocked (ha : Alloc env db f) (hh : Held db) : Stocked env db f :=
  ⟨hh.linked, ha.intact.1, ha.erased, ha.nodup, ha.entries⟩

theorem Stocked.retouched (hs : Stocked env db f) {k : DbEntry → DbEntry}
    (hptr : ∀ e, (k e).ptr = e.ptr) (hblock : ∀ e, (k e).block = e.block)
    (hr : Retouched (modify p k db.entries) db db') : Stocked env db' f := by
  obtain ⟨G, generation, hperm, rfl⟩ := hr
  refine ⟨(hs.linked.modify hptr).perm (Forest.chains_perm hperm).symm, hs.intact, hs.erased,
    hs.nodup, fun e he => ?_⟩
  have hmem := (Forest.entries_perm (Forest.chains_perm hperm)).mem_iff.mp he
  rw [modify_entries] at hmem
  obtain ⟨x, hx, rfl⟩ := List.mem_map.mp hmem
  have hb : (if x.is p then k x else x).block = x.block := by
    split
    · exact hblock x
    · rfl
  rw [hb]
  exact hs.entries x hx

/-- The block that a request takes from the list. -/
theorem Stocked.popped (hs : Stocked env db f) {rest : Spans} (hi : rest.Intact)
    (hb : db.erased.blocks = n :: rest.blocks) :
    Stocked env (db.popped n rest) f ∧ Taken env (db.popped n rest) f n ∧
      ∀ e ∈ db.entries.entries, e.block ≠ n := by
  have hmem : ∀ m ∈ rest.blocks, m ∈ db.erased.blocks := fun m hm => by
    rw [hb]
    exact List.mem_cons_of_mem _ hm
  have hn : n ∈ db.erased.blocks := by
    rw [hb]
    exact List.mem_cons_self
  have hnodup := hs.nodup
  rw [hb] at hnodup
  obtain ⟨h1, h2, h3⟩ := hs.erased n hn
  exact ⟨⟨hs.linked, hi, fun m hm => hs.erased m (hmem m hm), (List.nodup_cons.mp hnodup).2,
    fun e he hm => hs.entries e he (hmem _ hm)⟩, ⟨h1, h2, h3, (List.nodup_cons.mp hnodup).1⟩,
    fun e he heq => hs.entries e he (heq ▸ hn)⟩

/-! ## Updates -/

/-- A contract that any run with a log meets. -/
def logContract : Contract Cmd Reply (Flash × List Cmd) where
  step := Logging Works
  call _ _ := True
  halt _ _ := True
  undef _ := True

theorem wp_discard_logged :
    wp logContract (discard env db n) (fun r t => r.1 = true ∧
      t = (f.set n zeroBlock, l ++ [.write n zeroBlock]) ∧ r.2.entries = db.entries ∧
      r.2.erased = db.erased) (f, l) := by
  unfold discard blockDelete
  rw [wp_bind]
  split
  · trivial
  · refine ⟨trivial, fun r t hstep => ?_⟩
    cases hstep with
    | step hw =>
        cases hw with
        | write =>
            rw [program_zeroBlock]
            simp only []
            cases spanAdd db.deleted n 1 Nat.one_pos with
            | none => trivial
            | some deleted => exact ⟨rfl, rfl, rfl, rfl⟩
        | writeFail _ _ _ hx => exact hx.elim

theorem wp_rndBytes_logged {k : ℕ} {Q : Bytes → Flash × List Cmd → Prop}
    (hQ : ∀ r : Bytes, r.length = k → Q r (f, l ++ [.random k])) :
    wp logContract (rndBytes k) Q (f, l) := by
  refine ⟨trivial, fun r t hstep => ?_⟩
  cases hstep with
  | step hw =>
      cases hw with
      | random _ _ hr => exact hQ r hr

theorem wp_writePacked_logged {type : UInt8} {seq : UInt16} {payload : Bytes}
    {Q : Bool → Flash × List Cmd → Prop} (hcell : f.cells n = erasedBlock)
    (hQ : ∀ b, Packed env type seq payload b →
      Q true (f.set n b, l ++ [.random 24, .random 32, .write n b])) :
    wp logContract (dbEncrypt env.c (packed type seq payload) >>= fun b => storageWriteBlock b n) Q
      (f, l) := by
  rw [wp_bind]
  unfold dbEncrypt
  split
  · trivial
  · next hl =>
      rw [wp_bind]
      apply wp_rndBytes_logged
      intro nonce hn
      rw [wp_bind]
      apply wp_rndBytes_logged
      intro rk hk
      have hp : Packed env type seq payload (env.c.encrypt nonce rk (packed type seq payload)) :=
        ⟨nonce, rk, hn, hk, Nat.le_of_not_lt hl, rfl⟩
      refine ⟨trivial, fun r t hstep => ?_⟩
      cases hstep with
      | step hw =>
          cases hw with
          | write =>
              rw [hcell, program_erasedBlock]
              rw [List.append_assoc, List.append_assoc]
              exact hQ _ hp
          | writeFail _ _ _ hx => exact hx.elim

theorem wp_writeEntry_logged (hcell : f.cells de.block = erasedBlock) :
    wp logContract (writeEntry env db de) (fun r t => r.1 = true → ∃ payload b,
      encodeFields storageBlockSize de.fields = some payload ∧ de.block ∈ dbBlocks env ∧
      Packed env 4 de.seq payload b ∧
      t = (f.set de.block b, l ++ [.random 24, .random 32, .write de.block b]) ∧
      r.2.entries = db.entries ∧ r.2.erased = db.erased) (f, l) := by
  unfold writeEntry
  split
  · trivial
  · cases he : encodeFields storageBlockSize de.fields with
    | none => exact fun hf => absurd hf Bool.false_ne_true
    | some payload =>
        simp only [blockWrite, wp_bind]
        split
        · trivial
        · next hn =>
            have hm : de.block ∈ dbBlocks env := mem_dbBlocks.mpr (by omega)
            split
            · trivial
            · apply wp_writePacked_logged hcell
              intro b hp _
              exact ⟨payload, b, rfl, hm, hp, rfl, rfl, rfl⟩

/-- One record is written, and at most one block is deleted. -/
def Written (l l' : List Cmd) : Prop :=
  ∃ new, l' = l ++ new ∧ recordWrites new = 1 ∧ deletions new ≤ 1

/-- An update that succeeds replaces the record of the entry. -/
theorem updateEntry_logged (hs : Stocked env db f) (ht : Taken env db f n)
    (hne : ∀ e ∈ db.entries.entries, e.block ≠ n) (hfind : find p db.entries = some (d, ch))
    (hr : Returns (Logging Works) (updateEntry env db p n) (f, l) (true, db') (g, l')) :
    Stocked env db' g ∧ (∃ ch', find p db'.entries = some (renewed n d, ch')) ∧
      Replaced env f d.block g (renewed n d) ∧ Written l l' := by
  have hw : wp logContract (updateEntry env db p n) (fun r t => r.1 = true → ∃ payload b,
      encodeFields storageBlockSize d.fields = some payload ∧
      Packed env 4 (d.seq + 1) payload b ∧
      t = (if d.block = 0 then f.set n b else (f.set n b).set d.block zeroBlock,
        l ++ [.random 24, .random 32, .write n b] ++
          if d.block = 0 then [] else [.write d.block zeroBlock]) ∧
      r.2.entries = modify p (renewed n) db.entries ∧ r.2.erased = db.erased) (f, l) := by
    unfold updateEntry
    simp only [hfind, wp_bind]
    refine wp_mono (wp_writeEntry_logged ht.cell) ?_
    rintro ⟨ok, db₁⟩ ⟨f₁, l₁⟩ hwrite
    cases ok with
    | false =>
        simp only [Bool.not_false, if_true, wp_bind]
        exact wp_mono wp_discard_logged fun _ _ _ hf => absurd hf Bool.false_ne_true
    | true =>
        obtain ⟨payload, b, he, -, hp, ht₁, hentries, herased⟩ := hwrite rfl
        obtain ⟨rfl, rfl⟩ := Prod.mk.inj ht₁
        simp only [Bool.not_true, Bool.false_eq_true, if_false]
        by_cases hz : d.block = 0
        · rw [if_neg (not_not.mpr hz)]
          intro _
          exact ⟨payload, b, he, hp, by simp [hz, renewed], hentries, herased⟩
        · rw [if_pos hz, wp_bind]
          refine wp_mono wp_discard_logged ?_
          rintro ⟨done, db₂⟩ t ⟨hdone, ht₂, hentries₂, herased₂⟩
          obtain rfl : done = true := hdone
          intro _
          refine ⟨payload, b, he, hp, ?_, hentries₂.trans hentries, herased₂.trans herased⟩
          rw [ht₂, if_neg hz, if_neg hz]
          rfl
  obtain ⟨payload, b, he, hp, ht', (hentries : db'.entries = modify p (renewed n) db.entries),
    (herased : db'.erased = db.erased)⟩ := wp_returns (K := logContract) hw hr rfl
  obtain ⟨rfl, rfl⟩ := Prod.mk.inj ht'
  obtain ⟨hde, hptr⟩ := mem_entries_of_find hfind
  have hdn := hne d hde
  obtain ⟨nonce, rk, hn, hk, hfit, rfl⟩ := hp
  have hused := encrypt_ne_zeroBlock (c := env.c) hn hk hfit
  generalize hB : env.c.encrypt nonce rk (packed 4 (d.seq + 1) payload) = B at hused ⊢
  generalize hg : (if d.block = 0 then f.set n B else (f.set n B).set d.block zeroBlock) = g
  have hbad : g.bad = f.bad := by
    rw [← hg]
    split <;> rfl
  have hnew : g.cells n = B := by
    rw [← hg]
    split
    · exact Flash.set_self f n B
    · rw [Flash.set_of_ne _ _ hdn.symm]
      exact Flash.set_self f n B
  have hold : d.block ≠ 0 → g.cells d.block = zeroBlock := by
    intro hz
    rw [← hg, if_neg hz]
    exact Flash.set_self _ _ _
  have hother : ∀ m, m ≠ n → m ≠ d.block → g.cells m = f.cells m := by
    intro m hmn hmd
    rw [← hg]
    split
    · exact Flash.set_of_ne f B hmn
    · rw [Flash.set_of_ne _ _ hmd]
      exact Flash.set_of_ne f B hmn
  have hfind' : ∃ ch', find p db'.entries = some (renewed n d, ch') :=
    find_modify hs.linked (g := renewed n) (fun _ => rfl) (by rw [hentries]) hfind
  refine ⟨⟨?_, ?_, fun m hm => ?_, ?_, fun x hx => ?_⟩, hfind', ⟨⟨payload, he, ?_⟩, ht.mem, hbad,
    ht.cell, hold, fun m hmn hmd => .inl (hother m hmn hmd)⟩, _, List.append_assoc _ _ _, ?_, ?_⟩
  · rw [hentries]
    exact hs.linked.modify fun _ => rfl
  · rw [herased]
    exact hs.intact
  · rw [herased] at hm
    obtain ⟨h1, h2, h3⟩ := hs.erased m hm
    refine ⟨h1, hbad ▸ h2, ?_⟩
    rw [hother m (fun he => ht.erased (he ▸ hm)) fun he => hs.entries d hde (he ▸ hm)]
    exact h3
  · rw [herased]
    exact hs.nodup
  · rw [herased]
    rw [hentries, modify_entries] at hx
    obtain ⟨y, hy, rfl⟩ := List.mem_map.mp hx
    split
    · exact ht.erased
    · exact hs.entries y hy
  · exact contents_encrypt hn hk hfit (hbad ▸ ht.bad) (hnew.trans hB.symm)
  · by_cases hz : d.block = 0 <;> simp [recordWrites, hz, hused]
  · by_cases hz : d.block = 0 <;> simp [deletions, hz, hused]

/-! ## One change -/

theorem FieldEdit.apply_ptr (e : FieldEdit) (d : DbEntry) : (e.apply d).ptr = d.ptr := by
  cases e <;> rfl

theorem FieldEdit.apply_block (e : FieldEdit) (d : DbEntry) : (e.apply d).block = d.block := by
  cases e <;> rfl

theorem FieldEdit.apply_seq (e : FieldEdit) (d : DbEntry) : (e.apply d).seq = d.seq := by
  cases e <;> rfl

theorem FieldEdit.apply_defer (e : FieldEdit) (d : DbEntry) : (e.apply d).defer = d.defer := by
  cases e <;> rfl

/-- What a change makes of fields and name depends on nothing else. -/
def SameText (a b : DbEntry) : Prop := a.fields = b.fields ∧ a.name = b.name

theorem SameText.apply {a b : DbEntry} (ht : SameText a b) (e : FieldEdit) :
    SameText (e.apply a) (e.apply b) := by
  obtain ⟨hf, hn⟩ := ht
  cases e with
  | change type data =>
      refine ⟨?_, ?_⟩
      · change setField a.fields type data = setField b.fields type data
        rw [hf]
      · change (if type = ftId then idName data else a.name) =
          if type = ftId then idName data else b.name
        rw [hn]
  | delete i =>
      refine ⟨?_, hn⟩
      change a.fields.eraseIdx i = b.fields.eraseIdx i
      rw [hf]

section Steps

variable {S : Type} {step : S → (c : Cmd) → Reply c → S → Prop} {s t : S} {ok : Bool}

theorem FieldEdit.returns {r : Bool × Db} (hr : Returns step ((e.call p).exec env db) s r t) :
    ∃ change : Db → Fw Db, (∀ db, ∃ db', change db = .ret db' ∧
      Retouched (modify p e.apply db.entries) db db') ∧
      Returns step (changeEntry env db p change) s r t := by
  cases e with
  | change type data => exact ⟨_, fun db => changeField_eq db p type data, hr⟩
  | delete i =>
      refine ⟨_, fun db => deleteField_eq db p i, ?_⟩
      simp only [FieldEdit.call, Call.exec, dbDeleteField] at hr
      split at hr
      · cases hr
      · split at hr
        · cases hr
        · exact hr

/-- A deferred change only changes the tree. -/
theorem FieldEdit.deferred (hfind : find p db.entries = some (d, ch)) (hd : d.defer = true)
    (hr : Returns step ((e.call p).exec env db) s (ok, db') t) :
    ok = true ∧ t = s ∧ Retouched (modify p e.apply db.entries) db db' := by
  obtain ⟨change, hchange, hr⟩ := FieldEdit.returns hr
  unfold changeEntry at hr
  simp only [hfind, hd, if_true] at hr
  obtain ⟨db₁, hc, hre⟩ := hchange db
  rw [hc] at hr
  obtain ⟨he, rfl⟩ := reaches_ret.mp hr
  simp only [Prog.ret.injEq, Prod.mk.injEq] at he
  obtain ⟨rfl, rfl⟩ := he
  exact ⟨rfl, rfl, hre⟩

end Steps

theorem getErasedBlock_logged (hi : db.erased.Intact) {t : Flash × List Cmd}
    (hr : Returns (Logging Works) (getErasedBlock db) (f, l) (some n, db') t) :
    t = (f, l) ∧ ∃ rest, db' = db.popped n rest ∧ rest.Intact ∧
      db.erased.blocks = n :: rest.blocks := by
  rcases spanPullOne_cases hi with ⟨hnull, -⟩ | ⟨m, rest, hp, hrest, hb⟩
  · exact absurd hr.unlogged (erasedLoop_null _ hnull)
  · rw [getErasedBlock_pop hp] at hr
    obtain ⟨he, ht⟩ := reaches_ret.mp hr
    simp only [Prog.ret.injEq, Prod.mk.injEq, Option.some.injEq] at he
    obtain ⟨rfl, rfl⟩ := he
    exact ⟨ht, rest, rfl, hrest, hb⟩

/-- A change that is not deferred is stored. -/
theorem FieldEdit.immediate (hs : Stocked env db f) (hfind : find p db.entries = some (d, ch))
    (hd : d.defer = false)
    (hr : Returns (Logging Works) ((e.call p).exec env db) (f, l) (true, db') (g, l')) :
    Stocked env db' g ∧ Written l l' ∧ ∃ n ch',
      find p db'.entries = some (renewed n (e.apply d), ch') ∧
      Replaced env f d.block g (renewed n (e.apply d)) := by
  obtain ⟨change, hchange, hr⟩ := FieldEdit.returns hr
  unfold changeEntry at hr
  simp only [hfind, hd, Bool.false_eq_true, if_false] at hr
  obtain ⟨⟨new, db₁⟩, t, hget, hr⟩ := returns_bind hr
  cases new with
  | none =>
      obtain ⟨he, -⟩ := reaches_ret.mp hr
      simp at he
  | some n =>
      obtain ⟨rfl, rest, rfl, hrest, hb⟩ := getErasedBlock_logged hs.intact hget
      obtain ⟨hpop, htaken, hne⟩ := hs.popped hrest hb
      obtain ⟨db₂, hc, hre⟩ := hchange (db.popped n rest)
      simp only [hc, Prog.ret_bind] at hr
      have hs₂ := hpop.retouched e.apply_ptr e.apply_block hre
      obtain ⟨G, generation, hperm, rfl⟩ := hre
      obtain ⟨ch₂, hfind₂⟩ := find_modify hs.linked e.apply_ptr hperm hfind
      have hne₂ : ∀ x ∈ G.entries, x.block ≠ n := by
        intro x hx
        have hmem := (Forest.entries_perm (Forest.chains_perm hperm)).mem_iff.mp hx
        rw [modify_entries] at hmem
        obtain ⟨y, hy, rfl⟩ := List.mem_map.mp hmem
        split
        · rw [e.apply_block]
          exact hne y hy
        · exact hne y hy
      obtain ⟨hs', ⟨ch', hfind'⟩, hrep, hwritten⟩ := updateEntry_logged hs₂
        ⟨htaken.mem, htaken.bad, htaken.cell, htaken.erased⟩ hne₂ hfind₂ hr
      rw [e.apply_block] at hrep
      exact ⟨hs', hwritten, n, ch', hfind', hrep⟩

/-! ## Batches -/

/-- The entry with all changes made. -/
def applyAll (es : List FieldEdit) (d : DbEntry) : DbEntry := es.foldl (fun d e => e.apply d) d

theorem applyAll_kept (es : List FieldEdit) (d : DbEntry) :
    (applyAll es d).block = d.block ∧ (applyAll es d).seq = d.seq ∧
      (applyAll es d).defer = d.defer := by
  induction es generalizing d with
  | nil => exact ⟨rfl, rfl, rfl⟩
  | cons e es ih =>
      obtain ⟨h1, h2, h3⟩ := ih (e.apply d)
      exact ⟨h1.trans (e.apply_block d), h2.trans (e.apply_seq d), h3.trans (e.apply_defer d)⟩

theorem SameText.applyAll {a b : DbEntry} (ht : SameText a b) (es : List FieldEdit) :
    SameText (applyAll es a) (applyAll es b) := by
  induction es generalizing a b with
  | nil => exact ht
  | cons e es ih => exact ih (ht.apply e)

/-- Only the tree has changed, and with it its generation. -/
def TreeOnly (db db' : Db) : Prop :=
  ∃ G generation, db' = { db with entries := G, generation := generation }

/-- A batch of deferred changes does not fail, and does nothing to the storage. -/
theorem editAll_deferred {S : Type} {step : S → (c : Cmd) → Reply c → S → Prop} {s t : S}
    {ok : Bool} (hs : Stocked env db f) (hfind : find p db.entries = some (d, ch))
    (hd : d.defer = true) (hr : Returns step (editAll env p es db) s (ok, db') t) :
    ok = true ∧ t = s ∧ Stocked env db' f ∧ TreeOnly db db' ∧
      ∃ ch', find p db'.entries = some (applyAll es d, ch') := by
  induction es generalizing db d ch s with
  | nil =>
      obtain ⟨he, rfl⟩ := reaches_ret.mp hr
      simp only [Prog.ret.injEq, Prod.mk.injEq] at he
      obtain ⟨rfl, rfl⟩ := he
      exact ⟨rfl, rfl, hs, ⟨_, _, rfl⟩, ch, hfind⟩
  | cons e es ih =>
      obtain ⟨⟨ok₁, db₁⟩, t₁, hone, hr⟩ := returns_bind hr
      obtain ⟨rfl, rfl, hre⟩ := FieldEdit.deferred hfind hd hone
      have hs₁ := hs.retouched e.apply_ptr e.apply_block hre
      obtain ⟨G, generation, hperm, rfl⟩ := hre
      obtain ⟨ch₁, hfind₁⟩ := find_modify hs.linked e.apply_ptr hperm hfind
      obtain ⟨hok, ht, hs', ⟨G', generation', rfl⟩, hfind'⟩ :=
        ih hs₁ hfind₁ ((e.apply_defer d).trans hd) hr
      exact ⟨hok, ht, hs', ⟨G', generation', rfl⟩, hfind'⟩

theorem editDeferred_quiet {S : Type} {step : S → (c : Cmd) → Reply c → S → Prop} {s t : S}
    {ok : Bool} (hs : Stocked env db f) (hfind : find p db.entries = some (d, ch))
    (hr : Returns step (editDeferred env p es db) s (ok, db') t) :
    ok = true ∧ t = s ∧ Stocked env db' f ∧ TreeOnly db db' ∧
      ∃ ch', find p db'.entries = some (applyAll es { d with defer := true }, ch') := by
  obtain ⟨⟨ok₀, db₀⟩, t₀, hstart, hr⟩ := returns_bind hr
  unfold dbEntryDeferUpdate at hstart
  simp only [hfind, if_true] at hstart
  obtain ⟨he, rfl⟩ := reaches_ret.mp hstart
  simp only [Prog.ret.injEq, Prod.mk.injEq] at he
  obtain ⟨rfl, rfl⟩ := he
  obtain ⟨ch₀, hfind₀⟩ := find_modify hs.linked (g := fun e => { e with defer := true })
    (fun _ => rfl) (.refl _) hfind
  have hs₀ := hs.retouched (p := p) (k := fun e => { e with defer := true }) (fun _ => rfl)
    (fun _ => rfl) ⟨_, db.generation, .refl _, rfl⟩
  obtain ⟨hok, ht, hs', ⟨G, generation, rfl⟩, hfind'⟩ := editAll_deferred hs₀ hfind₀ rfl hr
  exact ⟨hok, ht, hs', ⟨G, generation, rfl⟩, hfind'⟩

/-- A batch of changes that are not deferred replaces the record. -/
theorem editAll_immediate (hs : Stocked env db f) (hfind : find p db.entries = some (d, ch))
    (hd : d.defer = false)
    (hr : Returns (Logging Works) (editAll env p es db) (f, l) (true, db') (g, l')) :
    ∃ b ch', find p db'.entries = some (b, ch') ∧ SameText b (applyAll es d) ∧
      (es = [] → b = d ∧ g = f) ∧ (es ≠ [] → Replaced env f d.block g b) := by
  induction es generalizing db d ch f l with
  | nil =>
      obtain ⟨he, ht⟩ := reaches_ret.mp hr
      simp only [Prog.ret.injEq, Prod.mk.injEq, true_and] at he ht
      subst he
      exact ⟨d, ch, hfind, ⟨rfl, rfl⟩, fun _ => ⟨rfl, ht.1⟩, fun hne => absurd rfl hne⟩
  | cons e es ih =>
      obtain ⟨⟨ok₁, db₁⟩, ⟨f₁, l₁⟩, hone, hr⟩ := returns_bind hr
      cases ok₁ with
      | false =>
          obtain ⟨he, -⟩ := reaches_ret.mp hr
          simp at he
      | true =>
          obtain ⟨hs₁, -, n, ch₁, hfind₁, hrep⟩ := FieldEdit.immediate hs hfind hd hone
          have hd₁ : (renewed n (e.apply d)).defer = false := (e.apply_defer d).trans hd
          obtain ⟨b, ch', hfind', htext, hnil, hcons⟩ := ih hs₁ hfind₁ hd₁ hr
          have hrenewed : SameText (renewed n (e.apply d)) (e.apply d) := ⟨rfl, rfl⟩
          have hall := hrenewed.applyAll es
          refine ⟨b, ch', hfind', ⟨htext.1.trans hall.1, htext.2.trans hall.2⟩,
            fun hf => absurd hf (List.cons_ne_nil _ _), fun _ => ?_⟩
          by_cases hes : es = []
          · obtain ⟨rfl, rfl⟩ := hnil hes
            exact hrep
          · exact hrep.trans (hcons hes)

/-- The end of a deferral stores the entry. -/
theorem dbEntryDeferUpdate_stored (hs : Stocked env db f)
    (hfind : find p db.entries = some (d, ch))
    (hr : Returns (Logging Works) (dbEntryDeferUpdate env db p false) (f, l) (true, db') (g, l')) :
    Stocked env db' g ∧ Written l l' ∧ ∃ a ch', find p db'.entries = some (a, ch') ∧
      a.defer = false ∧ SameText a d ∧ Replaced env f d.block g a := by
  unfold dbEntryDeferUpdate at hr
  simp only [hfind, Bool.false_eq_true, if_false] at hr
  obtain ⟨⟨new, db₁⟩, t, hget, hr⟩ := returns_bind hr
  cases new with
  | none =>
      obtain ⟨he, -⟩ := reaches_ret.mp hr
      simp at he
  | some n =>
      obtain ⟨rfl, rest, rfl, hrest, hb⟩ := getErasedBlock_logged hs.intact hget
      obtain ⟨hpop, htaken, hne⟩ := hs.popped hrest hb
      obtain ⟨⟨ok, db₂⟩, ⟨f₂, l₂⟩, hupdate, hr⟩ := returns_bind hr
      cases ok with
      | false =>
          obtain ⟨he, -⟩ := reaches_ret.mp hr
          simp at he
      | true =>
          obtain ⟨hs₂, ⟨ch₂, hfind₂⟩, hrep, hwritten⟩ :=
            updateEntry_logged hpop htaken hne hfind hupdate
          obtain ⟨he, ht⟩ := reaches_ret.mp hr
          simp only [Prog.ret.injEq, Prod.mk.injEq, true_and] at he ht
          obtain ⟨rfl, rfl⟩ := ht
          subst he
          obtain ⟨ch', hfind'⟩ := find_modify hs₂.linked (g := fun e => { e with defer := false })
            (fun _ => rfl) (.refl _) hfind₂
          refine ⟨hs₂.retouched (k := fun e => { e with defer := false }) (fun _ => rfl)
            (fun _ => rfl) ⟨_, _, .refl _, rfl⟩, hwritten, _, ch', hfind', rfl, ⟨rfl, rfl⟩, ?_⟩
          exact ⟨hrep.stored, hrep.mem, hrep.bad, hrep.fresh, hrep.deleted, hrep.others⟩

/-! ## Deferred and immediate -/

/-- In every state that calls lead to, a batch of deferred changes does nothing to the storage
until the deferral ends. Then one record is written and at most one deleted. The fields and the
name of the entry, its record, and what has become of its old one are as if each change had been
stored at once. Later changes are stored at once again. -/
theorem deferUpdate_immediate {torn : Torn} (ht : Tears env torn) {s u : State} (ho : Opens env s)
    (hrun : Reachable (Step torn) env Careful s u) (hfind : find p u.db.entries = some (de, ch))
    (hd : de.defer = false) {ok : Bool} {db₁ db₂ db₃ : Db} {f₁ f₂ f₃ : Flash}
    {l₁ l₂ l₃ : List Cmd}
    (hbatch : Returns (Logging Works) (editDeferred env p es u.db) (u.flash, []) (ok, db₁) (f₁, l₁))
    (hfinal : Returns (Logging Works) (dbEntryDeferUpdate env db₁ p false) (f₁, []) (true, db₂)
      (f₂, l₂))
    (himm : Returns (Logging Works) (editAll env p es u.db) (u.flash, []) (true, db₃) (f₃, l₃)) :
    (ok = true ∧ f₁ = u.flash ∧ l₁ = [] ∧ TreeOnly u.db db₁ ∧
      ∃ a₀ ch₀, find p db₁.entries = some (a₀, ch₀) ∧ a₀.block = de.block ∧ a₀.seq = de.seq) ∧
    (recordWrites l₂ = 1 ∧ deletions l₂ ≤ 1) ∧
    ∃ a b chₐ chᵢ, find p db₂.entries = some (a, chₐ) ∧ find p db₃.entries = some (b, chᵢ) ∧
      SameText a b ∧ Replaced env u.flash de.block f₂ a ∧
      (es = [] → b = de ∧ f₃ = u.flash) ∧ (es ≠ [] → Replaced env u.flash de.block f₃ b) ∧
      a.defer = false ∧
      ∀ e db₄ f₄ l₄, Returns (Logging Works) ((FieldEdit.call p e).exec env db₂) (f₂, [])
          (true, db₄) (f₄, l₄) →
        recordWrites l₄ = 1 ∧ deletions l₄ ≤ 1 ∧ ∃ c ch₄, find p db₄.entries = some (c, ch₄) ∧
          SameText c (e.apply a) ∧ Replaced env f₂ a.block f₄ c := by
  have hs := (reachable_alloc ht ho hrun).stocked (reachable_held ho hrun)
  obtain ⟨rfl, hst, hs₁, htree, ch₁, hfind₁⟩ := editDeferred_quiet hs hfind hbatch
  obtain ⟨rfl, rfl⟩ := Prod.mk.inj hst
  obtain ⟨hblock, hseq, -⟩ := applyAll_kept es { de with defer := true }
  obtain ⟨hs₂, ⟨new₂, hl₂, hone₂, hdel₂⟩, a, chₐ, hfind₂, ha, htext₂, hrep₂⟩ :=
    dbEntryDeferUpdate_stored hs₁ hfind₁ hfinal
  obtain ⟨b, chᵢ, hfind₃, htext₃, hnil, hcons⟩ := editAll_immediate hs hfind hd himm
  have hstart : SameText { de with defer := true } de := ⟨rfl, rfl⟩
  have hdefer := hstart.applyAll es
  rw [List.nil_append] at hl₂
  subst hl₂
  rw [hblock] at hrep₂
  refine ⟨⟨rfl, rfl, rfl, htree, _, ch₁, hfind₁, hblock, hseq⟩, ⟨hone₂, hdel₂⟩, a, b,
    chₐ, chᵢ, hfind₂, hfind₃, ?_, hrep₂, hnil, hcons, ha, ?_⟩
  · exact ⟨(htext₂.1.trans hdefer.1).trans htext₃.1.symm,
      (htext₂.2.trans hdefer.2).trans htext₃.2.symm⟩
  · intro e db₄ f₄ l₄ hr
    obtain ⟨-, ⟨new₄, hl₄, hone₄, hdel₄⟩, n, ch₄, hfind₄, hrep₄⟩ :=
      FieldEdit.immediate hs₂ hfind₂ ha hr
    rw [List.nil_append] at hl₄
    subst hl₄
    exact ⟨hone₄, hdel₄, _, ch₄, hfind₄, ⟨rfl, rfl⟩, hrep₄⟩

/-! ## A batch of three changes -/

/-- The run of a program in which nothing fails, with its log. -/
def loggedRun (p : Db → Fw (Bool × Db)) (s : State) : Fw (Bool × Db) × (Flash × List Cmd) :=
  run (logAnswer answer) (p s.db) (s.flash, [])

def loggedState (p : Db → Fw (Bool × Db)) (s : State) : State where
  db := ((loggedRun p s).1.result?.map Prod.snd).getD s.db
  flash := (loggedRun p s).2.1

theorem returns_loggedState (p : Db → Fw (Bool × Db)) (s : State) (ok : Bool)
    (hok : (loggedRun p s).1.result?.map Prod.fst = some ok) :
    Returns (Logging Works) (p s.db) (s.flash, []) (ok, (loggedState p s).db)
      ((loggedState p s).flash, (loggedRun p s).2.2) := by
  obtain ⟨r, hr, rfl⟩ := Option.map_eq_some_iff.mp hok
  have hdb : (loggedState p s).db = r.2 := by simp [loggedState, hr]
  rw [hdb]
  exact returns_run (logAnswer_logging answer_works) hr

/-- A new name, a new field, and its deletion. -/
def threeEdits : List FieldEdit := [.change ftId [98], .change 3 [120], .delete 1]

/-- The only account of a storage. -/
def batchStart : State := afterOpen (plainEnv 16) (plainFlash [(8, 1, [nameField [97]])])

def batchDeferred : State := loggedState (editDeferred (plainEnv 16) 0 threeEdits) batchStart

theorem deferUpdate_immediate_three :
    let final := loggedState (fun db => dbEntryDeferUpdate (plainEnv 16) db 0 false) batchDeferred
    let immediate := loggedState (editAll (plainEnv 16) 0 threeEdits) batchStart
    batchDeferred.flash = batchStart.flash ∧
      ∃ a b chₐ chᵢ, find 0 final.db.entries = some (a, chₐ) ∧
        find 0 immediate.db.entries = some (b, chᵢ) ∧ SameText a b ∧
        Replaced (plainEnv 16) batchStart.flash 8 final.flash a ∧
        Replaced (plainEnv 16) batchStart.flash 8 immediate.flash b := by
  have ht : Tears (plainEnv 16) fun _ _ _ => False := fun _ _ _ h => h.elim
  have hfind : find 0 batchStart.db.entries =
      some (⟨0, ⟨[97], by decide⟩, 1, 8, false, [nameField [97]]⟩, .nil) := by decide +kernel
  have hbatch := returns_loggedState (editDeferred (plainEnv 16) 0 threeEdits) batchStart true
    (by decide +kernel)
  have hfinal := returns_loggedState (fun db => dbEntryDeferUpdate (plainEnv 16) db 0 false)
    batchDeferred true (by decide +kernel)
  have himm := returns_loggedState (editAll (plainEnv 16) 0 threeEdits) batchStart true
    (by decide +kernel)
  obtain ⟨⟨-, hflash, -⟩, -, a, b, chₐ, chᵢ, ha, hb, htext, hrep, -, hcons, -⟩ :=
    deferUpdate_immediate ht (opens_afterOpen (plainEnv 16) _) .start hfind rfl hbatch hfinal himm
  exact ⟨hflash, a, b, chₐ, chᵢ, ha, hb, htext, hrep, hcons (List.cons_ne_nil _ _)⟩

end Sunela.Database
