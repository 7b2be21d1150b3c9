import Sunela.Verification.Alloc.Request

/-! # Rules for the operations on blocks

Each rule says what has to hold so that an operation meets a contract, whatever the contract
asks of the commands. -/

namespace Sunela.Database

open Program Storage Span Block Fields Entry Tsort

/-- In this state the contract lets the program stop or ask for random bytes. -/
structure Lenient (K : Contract Cmd Reply Flash) (torn : Torn) (f : Flash) : Prop where
  step : K.step = Step torn
  halt : ∀ i, K.halt i f
  random : ∀ k, K.call f (.random k)

variable {K : Contract Cmd Reply Flash} {torn : Torn} {env : Env} {f : Flash}

/-- A contract that any run meets. -/
def anyContract (torn : Torn) : Contract Cmd Reply Flash where
  step := Step torn
  call _ _ := True
  halt _ _ := True
  undef _ := True

theorem lenient_any (f : Flash) : Lenient (anyContract torn) torn f :=
  ⟨rfl, fun _ => trivial, fun _ => trivial⟩

/-- Such a contract only speaks about what is returned. -/
theorem wp_of_returns {α : Type} {p : Fw α} {Q : α → Flash → Prop}
    (h : ∀ a g, Returns (Step torn) p f a g → Q a g) : wp (anyContract torn) p Q f := by
  induction p generalizing f with
  | ret a => exact h a f (.refl _ _)
  | call c next ih =>
      exact ⟨trivial, fun r t hstep => ih r fun a g hr => h a g (.call hstep hr)⟩
  | halt => trivial
  | undef => trivial

theorem wp_rndBytes (h : Lenient K torn f) {k : ℕ} {Q : Bytes → Flash → Prop}
    (hQ : ∀ r : Bytes, r.length = k → Q r f) : wp K (rndBytes k) Q f := by
  refine ⟨h.random k, fun r t hstep => ?_⟩
  rw [h.step] at hstep
  cases hstep with
  | random _ _ hr => exact hQ r hr

theorem wp_storageWriteBlock (h : Lenient K torn f) {n : ℕ} {buf : Block}
    {Q : Bool → Flash → Prop} (hcall : K.call f (.write n buf))
    (hok : Q true (f.set n ((f.cells n).program buf)))
    (hfail : ∀ x, torn (f.cells n) ((f.cells n).program buf) x → Q false (f.set n x)) :
    wp K (storageWriteBlock buf n) Q f := by
  refine ⟨hcall, fun r t hstep => ?_⟩
  rw [h.step] at hstep
  cases hstep with
  | write => exact hok
  | writeFail _ _ x hx => exact hfail x hx

theorem wp_dbEncrypt (h : Lenient K torn f) {content : Bytes} {Q : Block → Flash → Prop}
    (hQ : ∀ nonce rk : Bytes, nonce.length = 24 → rk.length = 32 →
      content.length ≤ env.c.capacity → Q (env.c.encrypt nonce rk content) f) :
    wp K (dbEncrypt env.c content) Q f := by
  unfold dbEncrypt
  split
  · exact h.halt _
  · next hl =>
      rw [wp_bind]
      refine wp_rndBytes h fun nonce hn => ?_
      rw [wp_bind]
      exact wp_rndBytes h fun rk hk => hQ nonce rk hn hk (Nat.le_of_not_lt hl)

/-- A block with the payload in encrypted form. -/
def Packed (env : Env) (type : UInt8) (seq : UInt16) (payload : Bytes) (b : Block) : Prop :=
  ∃ nonce rk : Bytes, nonce.length = 24 ∧ rk.length = 32 ∧
    (packed type seq payload).length ≤ env.c.capacity ∧
    b = env.c.encrypt nonce rk (packed type seq payload)

theorem wp_writePacked (h : Lenient K torn f) {type : UInt8} {seq : UInt16} {payload : Bytes}
    {n : ℕ} {Q : Bool → Flash → Prop} (hcell : f.cells n = erasedBlock)
    (hcall : ∀ b, Packed env type seq payload b → K.call f (.write n b))
    (hok : ∀ b, Packed env type seq payload b → Q true (f.set n b))
    (hfail : ∀ b x, Packed env type seq payload b → torn erasedBlock b x →
      Q false (f.set n x)) :
    wp K (dbEncrypt env.c (packed type seq payload) >>= fun b => storageWriteBlock b n) Q f := by
  rw [wp_bind]
  refine wp_dbEncrypt h fun nonce rk hn hk hl => ?_
  have hp : Packed env type seq payload (env.c.encrypt nonce rk (packed type seq payload)) :=
    ⟨nonce, rk, hn, hk, hl, rfl⟩
  refine wp_storageWriteBlock h (hcall _ hp) ?_ fun x hx => ?_
  · rw [hcell, program_erasedBlock]
    exact hok _ hp
  · rw [hcell, program_erasedBlock] at hx
    exact hfail _ x hp hx

theorem wp_blockDelete (h : Lenient K torn f) {n : ℕ} {Q : Bool → Flash → Prop}
    (hcall : n ∈ dbBlocks env → K.call f (.write n zeroBlock))
    (hok : n ∈ dbBlocks env → Q true (f.set n zeroBlock))
    (hfail : ∀ x, n ∈ dbBlocks env → torn (f.cells n) zeroBlock x → Q false (f.set n x)) :
    wp K (blockDelete env n) Q f := by
  unfold blockDelete
  split
  · exact h.halt _
  · next hn =>
      have hm : n ∈ dbBlocks env := mem_dbBlocks.mpr (by omega)
      refine wp_storageWriteBlock h (hcall hm) ?_ fun x hx => ?_
      · rw [program_zeroBlock]
        exact hok hm
      · rw [program_zeroBlock] at hx
        exact hfail x hm hx

theorem wp_discard (h : Lenient K torn f) {db : Db} {n : ℕ} {Q : Bool × Db → Flash → Prop}
    (hi : db.deleted.Intact) (hcall : n ∈ dbBlocks env → K.call f (.write n zeroBlock))
    (hok : ∀ deleted, n ∈ dbBlocks env → spanAdd db.deleted n 1 Nat.one_pos = some deleted →
      deleted.Intact → (∀ b ∈ deleted.blocks, b = n ∨ b ∈ db.deleted.blocks) →
      Q (true, { db with
        deleted, stats := { db.stats with deleted := db.stats.deleted + 1 } })
        (f.set n zeroBlock))
    (hfail : ∀ x, n ∈ dbBlocks env → torn (f.cells n) zeroBlock x →
      Q (false, db) (f.set n x)) :
    wp K (discard env db n) Q f := by
  unfold discard
  rw [wp_bind]
  refine wp_blockDelete h hcall (fun hm => ?_) fun x hm hx => ?_
  · obtain ⟨t, ht, hti, hb⟩ := spanAdd_subset hi n 1 Nat.one_pos
    simp only [if_true, ht]
    refine hok t hm ht hti fun b hbm => (hb b hbm).imp_left fun hr => ?_
    simpa using hr
  · exact hfail x hm hx

theorem wp_writeEntry (h : Lenient K torn f) {db : Db} {de : DbEntry}
    {Q : Bool × Db → Flash → Prop} (hcell : f.cells de.block = erasedBlock)
    (hcall : ∀ b payload, encodeFields storageBlockSize de.fields = some payload →
      Packed env 4 de.seq payload b → K.call f (.write de.block b))
    (hbig : encodeFields storageBlockSize de.fields = none → Q (false, db) f)
    (hok : ∀ b payload, encodeFields storageBlockSize de.fields = some payload →
      de.block ∈ dbBlocks env → Packed env 4 de.seq payload b →
      Q (true, db.addData 1) (f.set de.block b))
    (hfail : ∀ b x payload, encodeFields storageBlockSize de.fields = some payload →
      Packed env 4 de.seq payload b → torn erasedBlock b x → Q (false, db) (f.set de.block x)) :
    wp K (writeEntry env db de) Q f := by
  unfold writeEntry
  split
  · exact h.halt _
  · cases he : encodeFields storageBlockSize de.fields with
    | none => exact hbig he
    | some payload =>
        simp only [blockWrite, wp_bind]
        split
        · exact h.halt _
        · next hn =>
            split
            · exact h.halt _
            · have hm : de.block ∈ dbBlocks env := mem_dbBlocks.mpr (by omega)
              exact wp_writePacked h hcell (fun b hb => hcall b payload he hb)
                (fun b hb => hok b payload he hm hb) fun b x hb hx => hfail b x payload he hb hx

/-! ## Operations that do not touch the storage -/

/-- The identifier of a new entry is found without the storage. -/
theorem wp_newId (hk : Lenient K torn f) {db : Db} {name : CString}
    {Q : Bytes → Flash → Prop} (hundef : K.undef f)
    (hQ : ∀ id, newId db name = .ret id → Q id f) : wp K (newId db name) Q f := by
  cases hid : newId db name with
  | ret id => exact hQ id hid
  | halt => exact hk.halt _
  | undef => exact hundef
  | call c next =>
      exfalso
      unfold newId at hid
      repeat' split at hid
      all_goals cases hid

/-- Where the identifier of a new entry comes from. -/
theorem newId_cases {db : Db} {name : CString} {id : Bytes} (h : newId db name = .ret id) :
    (db.dir = none ∧ id = name.bytes) ∨
    ∃ d parent ch f rest, db.dir = some d ∧ find d db.entries = some (parent, ch) ∧
      parent.fields = f :: rest ∧ f.type = ftId ∧ id = f.data ++ 0 :: name.bytes := by
  unfold newId at h
  split at h
  · next hd => exact .inl ⟨hd, (Prog.ret.inj h).symm⟩
  · next d hd =>
      split at h
      · cases h
      · next parent ch hfind =>
          split at h
          · cases h
          · next f rest hf =>
              split at h
              · cases h
              · next ht =>
                  exact .inr ⟨d, parent, ch, f, rest, hd, hfind, hf, by simpa using ht,
                    (Prog.ret.inj h).symm⟩

/-- The tree has been changed and perhaps sorted. -/
def Retouched (F : Tree) (db db' : Db) : Prop :=
  ∃ G generation, G.siblings.Perm F.siblings ∧ db' = { db with entries := G, generation }

theorem sorted_eq (db : Db) : ∃ db', db.sorted = .ret db' ∧ Retouched db.entries db db' := by
  obtain ⟨G, hG, hp⟩ := dbTsort_perm db.entries
  unfold Db.sorted
  rw [hG]
  simp only []
  split
  · next hn =>
      refine ⟨db, rfl, db.entries, db.generation, List.Perm.refl _, rfl⟩
  · exact ⟨_, rfl, G, _, hp, rfl⟩

theorem changeField_eq (db : Db) (p : ℕ) (type : UInt8) (data : Bytes) :
    ∃ db', changeField db p type data = .ret db' ∧
      Retouched (modify p (withField type data) db.entries) db db' := by
  unfold changeField
  split
  · obtain ⟨db', hdb', G, g, hp, rfl⟩ :=
      sorted_eq { db with entries := modify p (withField type data) db.entries }
    exact ⟨_, hdb', G, g, hp, rfl⟩
  · exact ⟨_, rfl, _, _, List.Perm.refl _, rfl⟩

theorem deleteField_eq (db : Db) (p i : ℕ) :
    ∃ db', deleteField db p i = .ret db' ∧
      Retouched (modify p (withoutField i) db.entries) db db' := by
  unfold deleteField
  simp only []
  split
  · exact ⟨_, rfl, _, _, List.Perm.refl _, rfl⟩
  · obtain ⟨db', hdb', G, g, hp, rfl⟩ :=
      sorted_eq { db with entries := modify p (withoutField i) db.entries }
    exact ⟨_, hdb', G, g, hp, rfl⟩

end Sunela.Database
