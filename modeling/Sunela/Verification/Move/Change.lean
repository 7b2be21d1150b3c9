import Sunela.Verification.Alloc.Allocation
import Sunela.Verification.Names.Calls

/-! # Changes that run to their end

A change to an entry stops nowhere early if a block can be had for it, its record fits a block
and all blocks are in range. If there is no block for it, nothing changes. -/

namespace Sunela.Database

open Program Storage Span Block Fields Entry

/-- The lists can be followed, and the blocks in use are blocks of the database. -/
structure InRange (env : Env) (db : Db) : Prop where
  linked : Linked db.entries
  intact : db.erased.Intact ∧ db.deleted.Intact
  erased : ∀ n ∈ db.erased.blocks, n ∈ dbBlocks env
  entries : ∀ e ∈ db.entries.entries, e.block = 0 ∨ e.block ∈ dbBlocks env

/-- A record of the fields is not too large for `db_encrypt`. -/
def Fits (env : Env) (fs : List DbField) : Prop :=
  ∀ payload, encodeFields storageBlockSize fs = some payload →
    headerSize + payload.length ≤ env.c.capacity

/-- No operation of the storage fails. -/
def NeverTorn (torn : Torn) : Prop := ∀ old new x, ¬ torn old new x

variable {env : Env} {torn : Torn} {db : Db} {f : Flash}

/-! ## Blocks -/

theorem wp_storageWriteBlock_ending {n : ℕ} {buf : Block} {Q : Bool → Flash → Prop}
    (hQ : ∀ ok g, (NeverTorn torn → ok = true) → Q ok g) :
    wp (ending (Step torn)) (storageWriteBlock buf n) Q f := by
  refine ⟨trivial, fun r t hstep => ?_⟩
  cases hstep with
  | write => exact hQ _ _ fun _ => rfl
  | writeFail _ _ x hx => exact hQ _ _ fun hn => absurd hx (hn _ _ _)

theorem wp_blockDelete_ending {n : ℕ} (hn : n ∈ dbBlocks env) {Q : Bool → Flash → Prop}
    (hQ : ∀ ok g, (NeverTorn torn → ok = true) → Q ok g) :
    wp (ending (Step torn)) (blockDelete env n) Q f := by
  have hm := mem_dbBlocks.mp hn
  unfold blockDelete
  rw [if_neg (by omega)]
  exact wp_storageWriteBlock_ending hQ

theorem wp_discard_ending (hi : db.deleted.Intact) {n : ℕ} (hn : n ∈ dbBlocks env)
    {Q : Bool × Db → Flash → Prop}
    (hQ : ∀ ok db' g, db'.entries = db.entries → db'.erased = db.erased → db'.deleted.Intact →
      (NeverTorn torn → ok = true) → Q (ok, db') g) :
    wp (ending (Step torn)) (discard env db n) Q f := by
  unfold discard
  rw [wp_bind]
  apply wp_blockDelete_ending hn
  intro ok g hok
  cases ok with
  | false => exact hQ _ _ _ rfl rfl hi fun hn => hok hn
  | true =>
      obtain ⟨t, ht, hti, -⟩ := spanAdd_subset hi n 1 Nat.one_pos
      simp only [if_true, ht]
      exact hQ _ _ _ rfl rfl hti fun _ => rfl

theorem wp_rndBytes_ending {k : ℕ} {Q : Bytes → Flash → Prop} (hQ : ∀ r, Q r f) :
    wp (ending (Step torn)) (rndBytes k) Q f := by
  refine ⟨trivial, fun r t hstep => ?_⟩
  cases hstep with
  | random => exact hQ _

theorem wp_blockWrite_ending {seq : UInt16} {payload : Bytes} {n : ℕ} (hn : n ∈ dbBlocks env)
    (hfit : headerSize + payload.length ≤ env.c.capacity) {Q : Bool → Flash → Prop}
    (hQ : ∀ ok g, (NeverTorn torn → ok = true) → Q ok g) :
    wp (ending (Step torn)) (blockWrite env .data seq payload n) Q f := by
  have hm := mem_dbBlocks.mp hn
  have hc := env.c.capacity_le.2
  unfold blockWrite
  rw [if_neg (by omega), if_neg (by omega)]
  simp only [wp_bind, dbEncrypt]
  rw [if_neg (by rw [packed_length]; omega)]
  simp only [wp_bind]
  apply wp_rndBytes_ending
  intro nonce
  apply wp_rndBytes_ending
  intro rk
  exact wp_storageWriteBlock_ending hQ

/-- A record of the fields can be stored. -/
def Stores (env : Env) (fs : List DbField) : Prop :=
  ∃ payload, encodeFields storageBlockSize fs = some payload ∧
    headerSize + payload.length ≤ env.c.capacity

theorem Stores.fits {fs : List DbField} (h : Stores env fs) : Fits env fs := by
  obtain ⟨payload, he, hl⟩ := h
  intro payload' he'
  obtain rfl := Option.some.inj (he.symm.trans he')
  exact hl

theorem dbBlocks_ne_zero {n : ℕ} (hn : n ∈ dbBlocks env) : n ≠ 0 := by
  have hm := mem_dbBlocks.mp hn
  have hr : 0 < reservedBlocks := by decide
  omega

theorem wp_writeEntry_ending (de : DbEntry) (hn : de.block ∈ dbBlocks env)
    (hfit : Fits env de.fields) {Q : Bool × Db → Flash → Prop}
    (hQ : ∀ ok db' g, db'.entries = db.entries → db'.erased = db.erased →
      db'.deleted = db.deleted → (NeverTorn torn → Stores env de.fields → ok = true) →
      Q (ok, db') g) :
    wp (ending (Step torn)) (writeEntry env db de) Q f := by
  unfold writeEntry
  rw [if_neg (dbBlocks_ne_zero hn)]
  cases he : encodeFields storageBlockSize de.fields with
  | none =>
      apply hQ _ _ _ rfl rfl rfl
      rintro - ⟨payload, hp, -⟩
      rw [he] at hp
      cases hp
  | some payload =>
      simp only [wp_bind]
      apply wp_blockWrite_ending hn (hfit payload he)
      intro ok g hok
      cases ok with
      | false => exact hQ _ _ _ rfl rfl rfl fun hn _ => hok hn
      | true => exact hQ _ _ _ rfl rfl rfl fun _ _ => rfl

/-! ## Entries -/

theorem InRange.retouched (h : InRange env db) {F : Tree} {db' : Db} (hF : Linked F)
    (hb : ∀ e ∈ F.entries, e.block = 0 ∨ e.block ∈ dbBlocks env) (hr : Retouched F db db') :
    InRange env db' := by
  obtain ⟨G, generation, hperm, rfl⟩ := hr
  have hchains := Forest.chains_perm hperm
  exact {
    linked := hF.perm hchains.symm
    intact := h.intact
    erased := h.erased
    entries := fun e he => hb e ((Forest.entries_perm hchains).mem_iff.mp he) }

theorem InRange.modify (h : InRange env db) {p : ℕ} {g : DbEntry → DbEntry}
    (hptr : ∀ e, (g e).ptr = e.ptr)
    (hblock : ∀ e, (g e).block = e.block ∨ (g e).block ∈ dbBlocks env) :
    InRange env { db with entries := Entry.modify p g db.entries } where
  linked := h.linked.modify hptr
  intact := h.intact
  erased := h.erased
  entries := by
    intro e he
    rw [modify_entries] at he
    obtain ⟨d, hd, rfl⟩ := List.mem_map.mp he
    split
    · rcases hblock d with hb | hb
      · rw [hb]
        exact h.entries d hd
      · exact .inr hb
    · exact h.entries d hd

theorem wp_updateEntry_ending (h : InRange env db) {p new : ℕ} (hn : new ∈ dbBlocks env)
    {de : DbEntry} {ch : Tree} (hfind : find p db.entries = some (de, ch))
    (hfit : Fits env de.fields)
    {Q : Bool × Db → Flash → Prop}
    (hQ : ∀ ok db' g, InRange env db' → Alike db'.entries db.entries →
      db'.erased = db.erased → (NeverTorn torn → Stores env de.fields → ok = true) →
      Q (ok, db') g) :
    wp (ending (Step torn)) (updateEntry env db p new) Q f := by
  have hmod : InRange env { db with entries := modify p (renewed new) db.entries } :=
    h.modify (fun _ => rfl) fun _ => .inr hn
  have halike : Alike (modify p (renewed new) db.entries) db.entries :=
    Alike.of_face (g := renewed new) (fun _ => rfl) p
  have hde := h.entries de (mem_entries_of_find hfind).1
  have hrange : ∀ db' : Db, db'.entries = modify p (renewed new) db.entries →
      db'.erased = db.erased → db'.deleted.Intact → InRange env db' := by
    intro db' he her hi
    exact ⟨he ▸ hmod.linked, ⟨her ▸ h.intact.1, hi⟩, her ▸ h.erased, he ▸ hmod.entries⟩
  unfold updateEntry
  simp only [hfind, wp_bind]
  apply wp_writeEntry_ending (renewed new de) hn hfit
  intro ok db₁ g he her hdel hok
  have hi : db₁.deleted.Intact := hdel ▸ h.intact.2
  cases ok with
  | false =>
      simp only [Bool.not_false, if_true, wp_bind]
      apply wp_discard_ending hi hn
      intro done db₂ g he₂ her₂ hi₂ _
      have he₂ := he₂.trans he
      exact hQ _ _ _ (hrange db₂ he₂ (her₂.trans her) hi₂) (he₂ ▸ halike) (her₂.trans her) hok
  | true =>
      simp only [Bool.not_true, Bool.false_eq_true, if_false]
      split
      · next hz =>
          rw [wp_bind]
          apply wp_discard_ending hi (hde.resolve_left hz)
          intro done db₂ g he₂ her₂ hi₂ _
          have he₂ := he₂.trans he
          cases done with
          | true =>
              exact hQ _ _ _ (hrange _ he₂ (her₂.trans her) hi₂) (he₂ ▸ halike) (her₂.trans her)
                fun _ _ => rfl
          | false =>
              exact hQ _ _ _ (hrange db₂ he₂ (her₂.trans her) hi₂) (he₂ ▸ halike)
                (her₂.trans her) fun _ _ => rfl
      · exact hQ _ _ _ (hrange db₁ he her hi) (he ▸ halike) her fun _ _ => rfl

/-- The blocks it takes to change an entry. -/
def cost (e : DbEntry) : ℕ := if e.defer then 0 else 1

/-- The entry has been changed, and nothing else. -/
structure Changed (env : Env) (db : Db) (p : ℕ) (g : DbEntry → DbEntry) (k : ℕ) (db' : Db) :
    Prop where
  inRange : InRange env db'
  alike : Alike db'.entries (modify p g db.entries)
  erased : db'.erased.blocks.length + k = db.erased.blocks.length

section Changes

variable {p : ℕ} {g : DbEntry → DbEntry} {change : Db → Fw Db} {de : DbEntry} {ch : Tree}
  {Q : Bool × Db → Flash → Prop}

/-- What `change` does to the tree: the entry is replaced, and the siblings may be sorted. -/
def Changes (db : Db) (p : ℕ) (g : DbEntry → DbEntry) (change : Db → Fw Db) : Prop :=
  ∀ db₁, db₁.entries = db.entries →
    ∃ db', change db₁ = .ret db' ∧ Retouched (modify p g db.entries) db₁ db'

theorem wp_changeEntry_ending (h : InRange env db) (hptr : ∀ e, (g e).ptr = e.ptr)
    (hblock : ∀ e, (g e).block = e.block) (hchange : Changes db p g change)
    (hfind : find p db.entries = some (de, ch))
    (hok : de.defer = false → db.erased.blocks ≠ [] ∧ Fits env (g de).fields)
    (hQ : ∀ ok db' f', Changed env db p g (cost de) db' →
      (NeverTorn torn → (de.defer = false → Stores env (g de).fields) → ok = true) →
      Q (ok, db') f') :
    wp (ending (Step torn)) (changeEntry env db p change) Q f := by
  have hmod := h.modify (p := p) hptr fun e => .inl (hblock e)
  unfold changeEntry
  simp only [hfind]
  cases hd : de.defer with
  | true =>
      obtain ⟨db', hc, hr⟩ := hchange db rfl
      simp only [if_true, hc, Prog.ret_bind]
      refine hQ _ _ _ ⟨h.retouched hmod.linked hmod.entries hr, ?_, ?_⟩ fun _ _ => rfl
      · obtain ⟨G, generation, hperm, rfl⟩ := hr
        exact Alike.of_siblings hperm
      · obtain ⟨G, generation, -, rfl⟩ := hr
        simp [cost, hd]
  | false =>
      obtain ⟨hne, hfit⟩ := hok hd
      rcases spanPullOne_cases h.intact.1 with ⟨hnull, -⟩ | ⟨n, rest, hp, hi, hb⟩
      · simp [hnull, Spans.blocks] at hne
      · have hpopped : InRange env (db.popped n rest) :=
          ⟨h.linked, ⟨hi, h.intact.2⟩,
            fun m hm => h.erased m (by rw [hb]; exact List.mem_cons_of_mem _ hm), h.entries⟩
        obtain ⟨db', hc, hr⟩ := hchange (db.popped n rest) rfl
        simp only [Bool.false_eq_true, if_false, getErasedBlock_pop hp, Prog.ret_bind, hc]
        have hrange := hpopped.retouched hmod.linked hmod.entries hr
        obtain ⟨G, generation, hperm, rfl⟩ := hr
        obtain ⟨ch', hfind'⟩ := find_modify h.linked hptr hperm hfind
        apply wp_updateEntry_ending hrange (h.erased n (by simp [hb])) hfind' hfit
        intro ok db₂ f₂ hrange₂ halike her hsucceeds
        refine hQ _ _ _ ⟨hrange₂, halike.trans (Alike.of_siblings hperm), ?_⟩ fun hn hs =>
          hsucceeds hn (hs hd)
        rw [her, hb]
        simp [cost, hd, Db.popped]

/-! ## What it takes to change an entry -/

theorem fits_of_writeEntry {e : DbEntry} {R : Bool × Db → Flash → Prop}
    (hw : wp (ending (Step torn)) (writeEntry env db e) R f) : Fits env e.fields := by
  intro payload he
  unfold writeEntry at hw
  split at hw
  · exact hw.elim
  · simp only [he, blockWrite, wp_bind] at hw
    split at hw
    · exact hw.elim
    split at hw
    · exact hw.elim
    · simp only [wp_bind, dbEncrypt] at hw
      split at hw
      · exact hw.elim
      · next hl =>
          rw [packed_length] at hl
          exact Nat.le_of_not_lt hl

theorem fits_of_updateEntry {n : ℕ} (hfind : find p db.entries = some (de, ch))
    (hw : wp (ending (Step torn)) (updateEntry env db p n) Q f) : Fits env de.fields := by
  unfold updateEntry at hw
  simp only [hfind, wp_bind] at hw
  have h : Fits env (renewed n de).fields := fits_of_writeEntry hw
  exact h

theorem wp_discard_erased {n : ℕ} :
    wp (anyContract torn) (discard env db n) (fun r _ => r.2.erased = db.erased) f := by
  unfold discard
  rw [wp_bind]
  refine wp_blockDelete (lenient_any f) (fun _ => trivial) (fun _ => ?_) fun _ _ _ => rfl
  simp only [if_true]
  cases spanAdd db.deleted n 1 Nat.one_pos with
  | none => trivial
  | some deleted => exact rfl

theorem wp_writeEntry_erased {e : DbEntry} :
    wp (anyContract torn) (writeEntry env db e) (fun r _ => r.2.erased = db.erased) f := by
  apply wp_of_returns
  intro r g hr
  unfold writeEntry at hr
  split at hr
  · cases hr
  · split at hr
    · obtain ⟨he, -⟩ := reaches_ret.mp hr
      rw [Prog.ret.inj he]
    · obtain ⟨ok, g', -, hret⟩ := returns_bind hr
      obtain ⟨he, -⟩ := reaches_ret.mp hret
      rw [Prog.ret.inj he]
      cases ok <;> rfl

theorem wp_updateEntry_erased {n : ℕ} :
    wp (anyContract torn) (updateEntry env db p n) (fun r _ => r.2.erased = db.erased) f := by
  unfold updateEntry
  cases find p db.entries with
  | none => trivial
  | some r =>
      simp only [wp_bind]
      apply wp_mono wp_writeEntry_erased
      intro r₁ g h₁
      split
      · rw [wp_bind]
        exact wp_mono wp_discard_erased fun r _ h₂ => h₂.trans h₁
      · split
        · rw [wp_bind]
          apply wp_mono wp_discard_erased
          rintro ⟨done, db₂⟩ _ h₂
          cases done <;> exact h₂.trans h₁
        · exact h₁

/-- A request that finds no erased block leaves the tree and the empty list as they are. -/
theorem getErasedBlock_refused (hn : db.erased = .null) :
    wp (anyContract torn) (getErasedBlock db) (fun r _ => r.1 = none ∧
      r.2.entries = db.entries ∧ r.2.erased = .null) f := by
  have hnull : ∀ fuel (db : Db) (f : Flash), db.erased = .null →
      wp (anyContract torn) (erasedLoop fuel db) (fun r _ => r.2.erased = .null) f := by
    intro fuel
    induction fuel with
    | zero => exact fun _ _ _ => trivial
    | succ fuel ih =>
        have hreclaim : ∀ (db : Db) (f : Flash) (spans : Spans) (take : Spans → Db),
            db.erased = .null → (∀ rest, (take rest).erased = .null) →
            wp (anyContract torn) (reclaim db spans take) (fun r _ => r.2.erased = .null) f := by
          intro db f spans take hn ht
          unfold reclaim
          split
          · trivial
          · exact hn
          · refine ⟨trivial, fun ok g _ => ?_⟩
            cases ok <;> exact ht _
        intro db f hn
        unfold erasedLoop
        simp only [hn, spanPullOne, wp_bind, reclaimEmpty, reclaimDeleted]
        refine wp_mono (hreclaim db f _ _ hn fun _ => rfl) ?_
        intro r₁ f₁ h₁
        split
        · exact ih _ _ h₁
        · rw [wp_bind]
          refine wp_mono (hreclaim _ f₁ _ _ h₁ fun _ => h₁) ?_
          intro r₂ f₂ h₂
          split
          · exact ih _ _ h₂
          · exact h₂
  apply wp_of_returns
  rintro ⟨r, db'⟩ g hr
  have hnone := wp_returns (hnull _ db f hn) hr
  refine ⟨?_, (wp_returns (wp_erasedLoop_tree _) hr).entries, hnone⟩
  cases r with
  | none => rfl
  | some n => exact absurd hr (erasedLoop_null _ hn)

/-- A run that does not stop early has a result. -/
theorem exists_of_wp {α : Type} {q : Fw α} {R : α → Flash → Prop}
    (hw : wp (ending (Step torn)) q R f) : ∃ a g, R a g := by
  obtain ⟨a, g, -, hq⟩ := wp_exists_returns
    (fun s c => (answer_works s c).mono fun _ _ _ hx => hx.elim) (fun _ _ h => h) (fun _ h => h) hw
  exact ⟨a, g, hq⟩

/-- Whatever is known of a run that does not stop early is known of the result of some run. -/
theorem exists_of_ending {α : Type} {q : Fw α} {R R' : α → Flash → Prop}
    (hw : wp (ending (Step torn)) q R f) (h : wp (anyContract torn) q R' f) :
    ∃ a g, R a g ∧ R' a g := by
  have hstep : (anyContract torn).step = (ending (Step torn)).step := rfl
  exact exists_of_wp (wp_and hw (wp_results hstep (wp_mono hw fun _ _ _ => trivial) h))

/-- A change that runs to its end whatever the storage does has a block and a record that fits,
or there is no block for it. -/
theorem changeEntry_needs (hl : Linked db.entries) (hi : db.erased.Intact)
    (hptr : ∀ e, (g e).ptr = e.ptr) (hchange : Changes db p g change)
    (hfind : find p db.entries = some (de, ch))
    (hw : wp (ending (Step torn)) (changeEntry env db p change) Q f) :
    (∃ r f', Q r f' ∧ r.2.entries = db.entries ∧ r.2.erased = .null ∧ db.erased = .null) ∨
    (de.defer = false → db.erased.blocks ≠ [] ∧ Fits env (g de).fields) ∧
      ∃ r f', Q r f' ∧ Alike r.2.entries (modify p g db.entries) ∧ r.2.erased.Intact ∧
        r.2.erased.blocks.length + cost de = db.erased.blocks.length := by
  unfold changeEntry at hw
  simp only [hfind] at hw
  cases hd : de.defer with
  | true =>
      obtain ⟨db', hc, G, generation, hperm, rfl⟩ := hchange db rfl
      simp only [hd, if_true, hc, Prog.ret_bind] at hw
      right
      refine ⟨fun hf => absurd hf (by simp), _, _, hw, Alike.of_siblings hperm, hi, ?_⟩
      simp [cost, hd]
  | false =>
      simp only [hd, Bool.false_eq_true, if_false] at hw
      rcases spanPullOne_cases hi with ⟨hnull, -⟩ | ⟨n, rest, hp, hri, hb⟩
      · rw [wp_bind] at hw
        obtain ⟨⟨new, db₁⟩, f₁, hq, hnone, hentries, herased⟩ :=
          exists_of_ending hw (getErasedBlock_refused hnull)
        obtain rfl : new = none := hnone
        exact .inl ⟨_, _, hq, hentries, herased, hnull⟩
      · obtain ⟨db', hc, G, generation, hperm, rfl⟩ := hchange (db.popped n rest) rfl
        simp only [getErasedBlock_pop hp, Prog.ret_bind, hc] at hw
        obtain ⟨ch', hfind'⟩ := find_modify hl hptr hperm hfind
        obtain ⟨r, f', hq, halike, her⟩ :=
          exists_of_ending hw (wp_and wp_updateEntry_alike wp_updateEntry_erased)
        right
        refine ⟨fun _ => ⟨by simp [hb], fits_of_updateEntry hfind' hw⟩, r, f', hq,
          halike.alike.trans (Alike.of_siblings hperm), ?_, ?_⟩
        · rw [her]
          exact hri
        · rw [her, hb]
          simp [cost, hd, Db.popped]

end Changes

end Sunela.Database
