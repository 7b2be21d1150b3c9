import Sunela.Verification.Alloc.Runs

/-! # The lists of free blocks and the counters

While nothing fails, the lists are disjoint and the counters add up, as long as no group is
erased and no block is deleted that the list of deleted blocks cannot take in. -/

namespace Sunela.Database

open Program Storage Span Block Fields Entry

/-- The sum of all counters. -/
def DbStats.sum (s : DbStats) : ℤ :=
  s.erased + s.deleted + s.empty + s.invalid + s.error + s.data + s.special

/-- The block is in none of the lists, and can be read. -/
structure Unlisted (db : Db) (f : Flash) (n : ℕ) : Prop where
  erased : n ∉ db.erased.blocks
  empty : n ∉ db.empty.blocks
  bad : f.bad n = false

/-- The lists are disjoint, what they list is there, and each is counted. -/
structure Listed (env : Env) (db : Db) (f : Flash) : Prop where
  intact : db.erased.Intact ∧ db.deleted.Intact ∧ db.empty.Intact
  nodup : (db.erased.blocks ++ (db.deleted.blocks ++ db.empty.blocks)).Nodup
  erased : ∀ n ∈ db.erased.blocks, f.bad n = false ∧ f.cells n = erasedBlock
  deleted : ∀ n ∈ db.deleted.blocks, contents env.c f n = .deleted
  counts : db.stats.erased = db.erased.blocks.length ∧
    db.stats.deleted = db.deleted.blocks.length ∧ db.stats.empty = db.empty.blocks.length
  entries : ∀ e ∈ db.entries.entries, e.block = 0 ∨ Unlisted db f e.block
  settings : ∀ n, db.settingsBlock = some n → Unlisted db f n
  linked : Linked db.entries ∧ ∀ e ∈ db.entries.entries, e.ptr < db.fresh

/-- What holds between two calls. -/
structure Balanced (env : Env) (db : Db) (f : Flash) : Prop where
  listed : Listed env db f
  sum : db.stats.sum = (dbBlocks env).length

/-- A block that is about to be deleted is not yet in the list of deleted blocks, and extends
no span of that list downwards. -/
def Db.Takes (db : Db) (n : ℕ) : Prop := n ∉ db.deleted.blocks ∧ db.deleted.Clean n 1

instance (db : Db) (n : ℕ) : Decidable (db.Takes n) := inferInstanceAs (Decidable (_ ∧ _))

/-- No group can be erased. -/
def Db.NoGroup (db : Db) : Prop :=
  (∀ d ∈ db.deleted.toList, ¬ d.HasGroup storageEraseSize) ∧
    ∀ d ∈ db.empty.toList, ¬ d.HasGroup storageEraseSize

/-- The block that is deleted when an entry is stored with the given fields: the old one, or
the new one if the fields do not fit. -/
def replaced (db : Db) (de : DbEntry) (fields : List DbField) : Option ℕ :=
  match db.erased.blocks with
  | [] => none
  | new :: _ =>
      if (encodeFields storageBlockSize fields).isNone then some new
      else if de.block = 0 then none
      else some de.block

/-- The block a call deletes. -/
def Call.deletes (db : Db) : Call → Option ℕ
  | .newEntry name =>
      match db.erased.blocks, (newId db name).result? with
      | new :: _, some id =>
          if (encodeFields storageBlockSize (addField [] ftId id)).isNone then some new else none
      | _, _ => none
  | .changeField p type data =>
      (find p db.entries).bind fun r =>
        if r.1.defer then none else replaced db r.1 (withField type data r.1).fields
  | .deleteField p i =>
      (find p db.entries).bind fun r =>
        if r.1.defer then none else replaced db r.1 (withoutField i r.1).fields
  | .deleteEntry p => (find p db.entries).map fun r => r.1.block
  | .deferUpdate p defer =>
      (find p db.entries).bind fun r => if defer then none else replaced db r.1 r.1.fields
  | .updateSettings _ _ => if db.erased.blocks = [] then none else db.settingsBlock
  | .chdir _ => none
  | .tsort => none

variable {env : Env} {db : Db} {f : Flash}

theorem lenient_works (f : Flash) :
    Lenient (anyContract fun _ _ _ => False) (fun _ _ _ => False) f :=
  lenient_any f

/-! ## Steps -/

/-- A change of the tree to one whose entries are in no list. -/
theorem Listed.withTree (h : Listed env db f) {F : Tree} {fresh : ℕ} {generation : UInt32}
    (hl : Linked F ∧ ∀ e ∈ F.entries, e.ptr < fresh)
    (hF : ∀ e ∈ F.entries, e.block = 0 ∨ Unlisted db f e.block) :
    Listed env { db with entries := F, fresh, generation } f :=
  { h with
    entries := fun e he => (hF e he).imp_right fun hu => { hu with }
    settings := fun n hn => { h.settings n hn with }
    linked := hl }

/-- A block in no list takes on other content. -/
theorem Listed.set (h : Listed env db f) {n : ℕ} (x : Block) (hn : n ∉ db.erased.blocks)
    (hd : n ∉ db.deleted.blocks) : Listed env db (f.set n x) := by
  refine { h with
    erased := fun m hm => ?_
    deleted := fun m hm => ?_
    entries := fun e he => (h.entries e he).imp_right fun hu => { hu with }
    settings := fun m hm => { h.settings m hm with } }
  · have hne : m ≠ n := fun he => hn (he ▸ hm)
    rw [Flash.set_of_ne f x hne]
    exact h.erased m hm
  · have hne : m ≠ n := fun he => hd (he ▸ hm)
    rw [contents_of_cells_eq (Flash.set_of_ne f x hne) rfl]
    exact h.deleted m hm

/-- A block is put on the list of deleted ones. -/
theorem Listed.discard (h : Listed env db f) {n : ℕ} (hu : Unlisted db f n) (ht : db.Takes n)
    {deleted : Spans} (ha : spanAdd db.deleted n 1 Nat.one_pos = some deleted)
    (hi : deleted.Intact) :
    Listed env { db with
      deleted, stats := { db.stats with deleted := db.stats.deleted + 1 } }
      (f.set n zeroBlock) := by
  have hperm : deleted.blocks.Perm (n :: db.deleted.blocks) := spanAdd_perm ht.2 ha
  have hset := h.set zeroBlock hu.erased ht.1
  refine { hset with
    intact := ⟨h.intact.1, hi, h.intact.2.2⟩
    nodup := ?_
    deleted := fun m hm => ?_
    counts := ⟨h.counts.1, ?_, h.counts.2.2⟩
    entries := fun e he => (hset.entries e he).imp_right fun hu => { hu with }
    settings := fun m hm => { hset.settings m hm with } }
  · refine (((hperm.append_right _).append_left _).trans
      (List.perm_middle (a := n))).nodup_iff.mpr (List.nodup_cons.mpr ⟨?_, h.nodup⟩)
    simp [hu.erased, hu.empty, ht.1]
  · rcases List.mem_cons.mp (hperm.mem_iff.mp hm) with rfl | hm
    · have hb : (f.set m zeroBlock).bad m = false := hu.bad
      simp [contents, storageReadBlock, hb, blockRead_zeroBlock]
    · exact hset.deleted m hm
  · simp [hperm.length_eq, h.counts.2.1]

/-- The first erased block is taken. -/
theorem Listed.popped (h : Listed env db f) {n : ℕ} {rest : Spans} (hi : rest.Intact)
    (hb : db.erased.blocks = n :: rest.blocks) :
    Listed env (db.popped n rest) f ∧ Ready (db.popped n rest) f n ∧ f.bad n = false := by
  have hnodup := h.nodup
  rw [hb, List.cons_append, List.nodup_cons] at hnodup
  obtain ⟨hn, hnodup⟩ := hnodup
  simp only [List.mem_append, not_or] at hn
  have hsub : ∀ m ∈ rest.blocks, m ∈ db.erased.blocks := fun m hm => by
    rw [hb]
    exact List.mem_cons_of_mem _ hm
  obtain ⟨hbad, hcell⟩ := h.erased n (by simp [hb])
  refine ⟨{ h with
    intact := ⟨hi, h.intact.2⟩
    nodup := hnodup
    erased := fun m hm => h.erased m (hsub m hm)
    counts := ⟨?_, h.counts.2⟩
    entries := fun e he => (h.entries e he).imp_right fun hu =>
      { hu with erased := fun hm => hu.erased (hsub _ hm) }
    settings := fun m hm =>
      { h.settings m hm with erased := fun hr => (h.settings m hm).erased (hsub _ hr) } },
    ⟨hcell, hn.1, hn.2.1, hn.2.2⟩, hbad⟩
  simp [Db.popped, h.counts.1, hb]

/-- A request that erases nothing. -/
theorem Listed.request (h : Listed env db f) (hr : db.erased ≠ .null ∨ db.NoGroup) :
    (getErasedBlock db = .ret (none, db) ∧ db.erased.blocks = []) ∨
    ∃ n rest, getErasedBlock db = .ret (some n, db.popped n rest) ∧ rest.Intact ∧
      db.erased.blocks = n :: rest.blocks := by
  rcases spanPullOne_cases h.intact.1 with ⟨hnull, -⟩ | ⟨n, rest, hp, hi, hb⟩
  · obtain ⟨hd, he⟩ := hr.resolve_left fun hne => hne hnull
    exact .inl ⟨getErasedBlock_none hnull h.intact.2 hd he, by rw [hnull]; rfl⟩
  · exact .inr ⟨n, rest, getErasedBlock_pop hp, hi, hb⟩

/-- A database that has just been opened is in balance. -/
theorem Opened.balanced (h : Opened env f db) : Balanced env db f := by
  have hmem : ∀ {s : Spans} {k : ℤ} {c : Contents},
      Counted s k (having env f c (dbBlocks env)) →
        ∀ n, n ∈ s.blocks ↔ n ∈ dbBlocks env ∧ contents env.c f n = c := by
    intro s k c hc n
    rw [hc.perm.mem_iff, having, List.mem_filter, decide_eq_true_eq]
  have hnodup : ∀ {s : Spans} {k : ℤ} {c : Contents},
      Counted s k (having env f c (dbBlocks env)) → s.blocks.Nodup := fun hc =>
    hc.perm.nodup_iff.mpr (List.Nodup.filter _ List.nodup_range')
  have hunlisted : ∀ n, (contents env.c f n).IsRecord → Unlisted db f n := by
    intro n hn
    refine ⟨fun hm => ?_, fun hm => ?_, @bad_eq_false env.c f n fun he => ?_⟩
    · rw [((hmem h.erased n).mp hm).2] at hn
      exact hn
    · rw [((hmem h.empty n).mp hm).2] at hn
      exact hn
    · rw [he] at hn
      exact hn
  refine ⟨⟨⟨h.erased.intact, h.deleted.intact, h.empty.intact⟩, ?_, fun n hn => ?_,
    fun n hn => ((hmem h.deleted n).mp hn).2, ?_, fun e he => ?_, fun n hn => ?_,
    h.linked, fun e he => (h.handles e he).1⟩, h.total⟩
  · refine List.nodup_append.mpr ⟨hnodup h.erased, List.nodup_append.mpr
      ⟨hnodup h.deleted, hnodup h.empty, fun a ha b hb hab => ?_⟩, fun a ha b hb hab => ?_⟩
    · have h1 := ((hmem h.deleted a).mp ha).2
      rw [hab, ((hmem h.empty b).mp hb).2] at h1
      simp at h1
    · have h1 := ((hmem h.erased a).mp ha).2
      rw [hab] at h1
      rcases List.mem_append.mp hb with hb | hb
      · rw [((hmem h.deleted b).mp hb).2] at h1
        simp at h1
      · rw [((hmem h.empty b).mp hb).2] at h1
        simp at h1
  · exact contents_eq_erased ((hmem h.erased n).mp hn).2
  · rw [h.erased.perm.length_eq, h.deleted.perm.length_eq, h.empty.perm.length_eq]
    exact ⟨h.erased.count, h.deleted.count, h.empty.count⟩
  · obtain ⟨q, hq, hl⟩ := look_of_mem h.distinct he
    rw [h.look q hq] at hl
    rcases opened_block hl with hz | ⟨r, hr, -, hb⟩
    · exact .inl hz
    · refine .inr (hunlisted _ ?_)
      obtain ⟨seq, payload, hc⟩ := recordIn_contents (mem_records.mp hr).2
      have hb' : r.block = e.block := hb
      rw [← hb', hc]
      trivial
  · obtain ⟨-, seq, payload, hc⟩ := h.settings n hn
    refine hunlisted n ?_
    rw [hc]
    trivial

/-! ## Calls -/

theorem wp_discard_listed (h : Listed env db f) {n : ℕ} (hu : Unlisted db f n)
    (ht : db.Takes n) :
    wp (anyContract fun _ _ _ => False) (discard env db n)
      (fun r g => r.1 = true ∧ Listed env r.2 g ∧ r.2.stats.sum = db.stats.sum + 1 ∧
        ∀ m, Unlisted db f m → Unlisted r.2 g m) f := by
  refine wp_discard (lenient_works f) h.intact.2.1 (fun _ => trivial)
    (fun deleted _ ha hi _ => ⟨rfl, h.discard hu ht ha hi, ?_, fun m hm => { hm with }⟩)
    fun _ _ hx => hx.elim
  simp only [DbStats.sum]
  ring

theorem Listed.addData (h : Listed env db f) (k : ℤ) : Listed env (db.addData k) f :=
  { h with
    entries := fun e he => (h.entries e he).imp_right fun hu => { hu with }
    settings := fun n hn => { h.settings n hn with } }

theorem Listed.addSpecial (h : Listed env db f) (k : ℤ) : Listed env (db.addSpecial k) f :=
  { h with
    entries := fun e he => (h.entries e he).imp_right fun hu => { hu with }
    settings := fun n hn => { h.settings n hn with } }

theorem sum_addData (db : Db) (k : ℤ) : (db.addData k).stats.sum = db.stats.sum + k := by
  simp only [Db.addData, DbStats.sum]
  ring

theorem sum_addSpecial (db : Db) (k : ℤ) : (db.addSpecial k).stats.sum = db.stats.sum + k := by
  simp only [Db.addSpecial, DbStats.sum]
  ring

theorem sum_popped (db : Db) (n : ℕ) (rest : Spans) :
    (db.popped n rest).stats.sum + 1 = db.stats.sum := by
  simp only [Db.popped, DbStats.sum]
  ring

/-- A change to an entry that leaves its block alone. -/
theorem Listed.modify (h : Listed env db f) {p : ℕ} {g : DbEntry → DbEntry}
    (hptr : ∀ e, (g e).ptr = e.ptr)
    (hg : ∀ e ∈ db.entries.entries, (g e).block = 0 ∨ Unlisted db f (g e).block)
    {F : Tree} {generation : UInt32}
    (hF : F.siblings.Perm (modify p g db.entries).siblings) :
    Listed env { db with entries := F, generation } f := by
  have hperm := Forest.entries_perm (Forest.chains_perm hF)
  have hmem : ∀ e ∈ F.entries, ∃ d ∈ db.entries.entries, e = d ∨ e = g d := by
    intro e he
    have he' := hperm.mem_iff.mp he
    rw [modify_entries] at he'
    obtain ⟨d, hd, rfl⟩ := List.mem_map.mp he'
    refine ⟨d, hd, ?_⟩
    split
    · exact .inr rfl
    · exact .inl rfl
  refine h.withTree ⟨(h.linked.1.modify hptr).perm (Forest.chains_perm hF).symm, ?_⟩ ?_
  · intro e he
    obtain ⟨d, hd, rfl | rfl⟩ := hmem e he
    · exact h.linked.2 e hd
    · rw [hptr]
      exact h.linked.2 d hd
  · intro e he
    obtain ⟨d, hd, rfl | rfl⟩ := hmem e he
    · exact h.entries e hd
    · exact hg d hd

/-- An entry is written to a block that has been taken. -/
theorem wp_writeEntry_listed (h : Listed env db f) {de : DbEntry} (hr : Ready db f de.block) :
    wp (anyContract fun _ _ _ => False) (writeEntry env db de)
      (fun r g => (r = (false, db) ∧ g = f ∧ encodeFields storageBlockSize de.fields = none) ∨
        ∃ b, r = (true, db.addData 1) ∧ g = f.set de.block b ∧
          encodeFields storageBlockSize de.fields ≠ none ∧ Listed env (db.addData 1) g) f :=
  wp_writeEntry (lenient_works f) hr.cell (fun _ _ _ _ => trivial)
    (fun he => .inl ⟨rfl, rfl, he⟩)
    (fun b _ he _ _ => .inr ⟨b, rfl, rfl, by simp [he],
      ((h.set b hr.erased hr.deleted)).addData 1⟩) fun _ _ _ _ _ hx => hx.elim

/-- An entry is stored in a block that has been taken, and the block it had is deleted. -/
theorem wp_updateEntry_balanced (h : Listed env db f)
    (hsum : db.stats.sum + 1 = (dbBlocks env).length) {p new : ℕ} {de : DbEntry} {ch : Tree}
    (hfind : find p db.entries = some (de, ch)) (hr : Ready db f new) (hbad : f.bad new = false)
    (hnew : encodeFields storageBlockSize de.fields = none → db.Takes new)
    (hold : encodeFields storageBlockSize de.fields ≠ none → de.block ≠ 0 →
      db.Takes de.block) :
    wp (anyContract fun _ _ _ => False) (updateEntry env db p new)
      (fun r g => Balanced env r.2 g) f := by
  have hunl : Unlisted db f new := ⟨hr.erased, hr.empty, hbad⟩
  have hde := (mem_entries_of_find hfind).1
  have h' : Listed env { db with entries := modify p (renewed new) db.entries } f :=
    h.modify (g := renewed new) (fun _ => rfl) (fun _ _ => .inr hunl) (List.Perm.refl _)
  unfold updateEntry
  rw [hfind]
  simp only [wp_bind]
  refine wp_mono (wp_writeEntry_listed h' ⟨hr.cell, hr.erased, hr.deleted, hr.empty⟩) ?_
  rintro ⟨ok, db₁⟩ g (⟨he, rfl, hnone⟩ | ⟨b, he, rfl, hsome, hl⟩)
  · obtain ⟨rfl, rfl⟩ := Prod.mk.inj he
    simp only [Bool.not_false, if_true, wp_bind]
    refine wp_mono (wp_discard_listed h' { hunl with } (hnew hnone)) ?_
    rintro ⟨done, db₂⟩ k ⟨-, h₂, hs₂, -⟩
    exact ⟨h₂, by rw [hs₂]; exact hsum⟩
  · obtain ⟨rfl, rfl⟩ := Prod.mk.inj he
    simp only [Bool.not_true, Bool.false_eq_true, if_false]
    split
    · next hz =>
        have hu := (h.entries de hde).resolve_left hz
        simp only [wp_bind]
        refine wp_mono (wp_discard_listed hl { hu with } (hold hsome hz)) ?_
        rintro ⟨done, db₂⟩ k ⟨rfl, h₂, hs₂, -⟩
        refine ⟨h₂.addData (-1), ?_⟩
        simp only [if_true, sum_addData, hs₂]
        rw [← hsum]
        ring
    · exact ⟨hl, by rw [sum_addData]; exact hsum⟩

/-- What the blocks that a call may delete have to satisfy when an entry is stored. -/
theorem takes_of_replaced (de : DbEntry) {fields : List DbField} {n : ℕ} {rest : Spans}
    (hb : db.erased.blocks = n :: rest.blocks)
    (hv : ∀ m, replaced db de fields = some m → db.Takes m) :
    (encodeFields storageBlockSize fields = none → db.Takes n) ∧
      (encodeFields storageBlockSize fields ≠ none → de.block ≠ 0 → db.Takes de.block) := by
  simp only [replaced, hb] at hv
  constructor
  · intro he
    exact hv n (by simp [he])
  · intro he hz
    exact hv de.block (by simp [Option.isNone_iff_eq_none, he, hz])

/-- A change to an entry that leaves its block alone, and is stored. -/
theorem wp_changeEntry_balanced (h : Balanced env db f) {p : ℕ} {g : DbEntry → DbEntry}
    {change : Db → Fw Db} (hg : ∀ e, (g e).block = e.block) (hptr : ∀ e, (g e).ptr = e.ptr)
    (hchange : ∀ db, ∃ db', change db = .ret db' ∧ Retouched (modify p g db.entries) db db')
    (hr : (∃ de ch, find p db.entries = some (de, ch) ∧ de.defer = false) →
      db.erased ≠ .null ∨ db.NoGroup)
    (hv : ∀ de ch, find p db.entries = some (de, ch) → de.defer = false →
      ∀ n, replaced db de (g de).fields = some n → db.Takes n) :
    wp (anyContract fun _ _ _ => False) (changeEntry env db p change)
      (fun r g => Balanced env r.2 g) f := by
  have hblocks : ∀ {db : Db} {f : Flash}, Listed env db f →
      ∀ e ∈ db.entries.entries, (g e).block = 0 ∨ Unlisted db f (g e).block := by
    intro db f h e he
    rw [hg]
    exact h.entries e he
  unfold changeEntry
  cases hfind : find p db.entries with
  | none => trivial
  | some r =>
      obtain ⟨de, ch⟩ := r
      simp only []
      split
      · obtain ⟨db', hc, G, generation, hperm, rfl⟩ := hchange db
        rw [hc]
        exact ⟨h.listed.modify hptr (hblocks h.listed) hperm, h.sum⟩
      · next hd =>
          have hd : de.defer = false := by simpa using hd
          rcases h.listed.request (hr ⟨de, ch, hfind, hd⟩) with
            ⟨hreq, -⟩ | ⟨n, rest, hreq, hi, hb⟩
          · rw [hreq]
            exact h
          · obtain ⟨hl, hready, hbad⟩ := h.listed.popped hi hb
            obtain ⟨hnew, hold⟩ := takes_of_replaced de hb (hv de ch hfind hd)
            obtain ⟨db', hc, G, generation, hperm, rfl⟩ := hchange (db.popped n rest)
            obtain ⟨ch', hfind'⟩ := find_modify hl.linked.1 hptr hperm hfind
            rw [hreq]
            simp only [Prog.ret_bind, hc]
            refine wp_updateEntry_balanced (hl.modify hptr (hblocks hl) hperm) ?_ hfind'
              ⟨hready.cell, hready.erased, hready.deleted, hready.empty⟩ hbad hnew ?_
            · exact (sum_popped db n rest).trans h.sum
            · intro he hz
              rw [hg] at hz ⊢
              exact hold he hz

theorem wp_dbNewEntry_balanced (h : Balanced env db f) {name : CString}
    (hr : db.erased ≠ .null ∨ db.NoGroup)
    (hv : ∀ n, (Call.newEntry name).deletes db = some n → db.Takes n) :
    wp (anyContract fun _ _ _ => False) (dbNewEntry env db name)
      (fun r g => Balanced env r.2 g) f := by
  unfold dbNewEntry
  rcases h.listed.request hr with ⟨hreq, -⟩ | ⟨n, rest, hreq, hi, hb⟩
  · rw [hreq]
    exact h
  · obtain ⟨hl, hready, hbad⟩ := h.listed.popped hi hb
    have hunl : Unlisted (db.popped n rest) f n := ⟨hready.erased, hready.empty, hbad⟩
    rw [hreq]
    simp only [Prog.ret_bind, wp_bind]
    refine wp_rndBytes (lenient_works f) fun seq _ => ?_
    refine wp_newId (lenient_works f) trivial fun id hid => ?_
    obtain ⟨db₂, hsort, G, generation, hperm, rfl⟩ := sorted_eq
      { (db.popped n rest).changed.changed with
        entries := newEntry db.dir ⟨db.fresh, name, seqOfBytes (seq.getD 0 0) (seq.getD 1 0),
          n, false, addField [] ftId id⟩ db.entries
        fresh := db.fresh + 1 }
    have hentries := Forest.entries_perm (Forest.chains_perm hperm)
    have hl' : Listed env { db.popped n rest with
        entries := G, generation, fresh := db.fresh + 1 } f := by
      refine hl.withTree ⟨?_, fun e he => ?_⟩ fun e he => ?_
      · refine Linked.perm (Linked.newEntry hl.linked.1 fun e he => ?_)
          (Forest.chains_perm hperm).symm
        exact Nat.ne_of_lt (hl.linked.2 e he)
      · rcases mem_newEntry (hentries.mem_iff.mp he) with rfl | he
        · exact Nat.lt_succ_self _
        · exact Nat.lt_succ_of_lt (hl.linked.2 e he)
      · rcases mem_newEntry (hentries.mem_iff.mp he) with rfl | he
        · exact .inr hunl
        · exact hl.entries e he
    have hsum : (db.popped n rest).stats.sum + 1 = (dbBlocks env).length :=
      (sum_popped db n rest).trans h.sum
    simp only [Db.popped, Db.changed] at hsort ⊢
    rw [hsort]
    simp only [wp_ret]
    refine wp_mono (wp_writeEntry_listed hl' ⟨hready.cell, hready.erased, hready.deleted,
      hready.empty⟩) ?_
    rintro ⟨ok, db₁⟩ g (⟨he, rfl, hnone⟩ | ⟨b, he, rfl, -, hl₁⟩)
    · obtain ⟨rfl, rfl⟩ := Prod.mk.inj he
      have htakes : db.Takes n := hv n (by
        have hid' : newId db name = .ret id := hid
        simp [Call.deletes, hb, hid', Prog.result?, hnone])
      simp only [Bool.false_eq_true, if_false, wp_bind]
      refine wp_mono (wp_discard_listed hl' { hunl with } htakes) ?_
      rintro ⟨done, db₂⟩ k ⟨-, h₂, hs₂, -⟩
      exact ⟨h₂, hs₂.trans hsum⟩
    · obtain ⟨rfl, rfl⟩ := Prod.mk.inj he
      exact ⟨hl₁, (sum_addData _ 1).trans hsum⟩

theorem wp_dbDeleteEntry_balanced (h : Balanced env db f) {p : ℕ}
    (hv : ∀ n, (Call.deleteEntry p).deletes db = some n → db.Takes n) :
    wp (anyContract fun _ _ _ => False) (dbDeleteEntry env db p)
      (fun r g => Balanced env r.2 g) f := by
  unfold dbDeleteEntry
  cases hfind : find p db.entries with
  | none => trivial
  | some r =>
      obtain ⟨de, ch⟩ := r
      have hde := h.listed.entries de (mem_entries_of_find hfind).1
      have htakes : db.Takes de.block := hv _ (by simp [Call.deletes, hfind])
      obtain ⟨db', hsort, G, generation, hperm, rfl⟩ :=
        sorted_eq { db with entries := db.entries.remove (DbEntry.is p) }
      have hentries := Forest.entries_perm (Forest.chains_perm hperm)
      have hl : Listed env { db with entries := G, generation } f :=
        h.listed.withTree ⟨(h.listed.linked.1.remove p).perm (Forest.chains_perm hperm).symm,
          fun e he => h.listed.linked.2 e (mem_remove (hentries.mem_iff.mp he))⟩
          fun e he => h.listed.entries e (mem_remove (hentries.mem_iff.mp he))
      simp only [hsort, Prog.ret_bind, wp_bind]
      rcases hde with hz | hu
      · rw [hz]
        simp [discard, blockDelete, reservedBlocks, padBlocks, anyContract]
      · refine wp_mono (wp_discard_listed hl { hu with } htakes) ?_
        rintro ⟨done, db₂⟩ k ⟨rfl, h₂, hs₂, -⟩
        refine ⟨h₂.addData (-1), ?_⟩
        simp only [if_true, sum_addData, hs₂, ← h.sum]
        ring

theorem wp_dbEntryDeferUpdate_balanced (h : Balanced env db f) {p : ℕ} {defer : Bool}
    (hr : defer = false → db.erased ≠ .null ∨ db.NoGroup)
    (hv : ∀ n, (Call.deferUpdate p defer).deletes db = some n → db.Takes n) :
    wp (anyContract fun _ _ _ => False) (dbEntryDeferUpdate env db p defer)
      (fun r g => Balanced env r.2 g) f := by
  have hfinish : ∀ {db f}, Balanced env db f →
      Balanced env { db with entries := modify p (fun e => { e with defer }) db.entries } f :=
    fun h => ⟨h.listed.modify (g := fun e => { e with defer }) (fun _ => rfl) h.listed.entries
      (List.Perm.refl _), h.sum⟩
  unfold dbEntryDeferUpdate
  cases hfind : find p db.entries with
  | none => trivial
  | some r =>
      obtain ⟨de, ch⟩ := r
      cases defer with
      | true => exact hfinish h
      | false =>
          simp only [Bool.false_eq_true, if_false]
          rcases h.listed.request (hr rfl) with ⟨hreq, -⟩ | ⟨n, rest, hreq, hi, hb⟩
          · rw [hreq]
            exact h
          · obtain ⟨hl, hready, hbad⟩ := h.listed.popped hi hb
            obtain ⟨hnew, hold⟩ := takes_of_replaced de hb fun m hm =>
              hv m (by simpa [Call.deletes, hfind] using hm)
            rw [hreq]
            simp only [Prog.ret_bind, wp_bind]
            refine wp_mono (wp_updateEntry_balanced hl ((sum_popped db n rest).trans h.sum)
              hfind hready hbad hnew hold) ?_
            rintro ⟨ok, db₁⟩ g hg
            cases ok with
            | true => exact hfinish hg
            | false => exact hg

theorem wp_dbUpdateSettings_balanced (h : Balanced env db f) {seq : UInt16} {payload : Bytes}
    (hr : db.erased ≠ .null ∨ db.NoGroup)
    (hv : ∀ n, (Call.updateSettings seq payload).deletes db = some n → db.Takes n) :
    wp (anyContract fun _ _ _ => False) (dbUpdateSettings env db seq payload)
      (fun r g => Balanced env r.2 g) f := by
  unfold dbUpdateSettings
  rcases h.listed.request hr with ⟨hreq, -⟩ | ⟨n, rest, hreq, hi, hb⟩
  · rw [hreq]
    exact h
  · obtain ⟨hl, hready, hbad⟩ := h.listed.popped hi hb
    have hsum : (db.popped n rest).stats.sum + 1 = (dbBlocks env).length :=
      (sum_popped db n rest).trans h.sum
    rw [hreq]
    simp only [Prog.ret_bind, wp_bind, blockWrite]
    split
    · trivial
    split
    · trivial
    · refine wp_writePacked (lenient_works f) hready.cell (fun _ _ => trivial)
        (fun b _ => ?_) fun _ _ _ hx => hx.elim
      have hunl : Unlisted (db.popped n rest) (f.set n b) n :=
        ⟨hready.erased, hready.empty, hbad⟩
      have hl' := (hl.set b hready.erased hready.deleted).addSpecial 1
      simp only [if_true]
      cases ho : ((db.popped n rest).addSpecial 1).settingsBlock with
      | none =>
          refine ⟨{ hl' with entries := ?_, settings := fun m hm => ?_ },
            (sum_addSpecial _ 1).trans hsum⟩
          · exact fun e he => (hl'.entries e he).imp_right fun hu => { hu with }
          · obtain rfl := Option.some.inj hm
            exact { hunl with }
      | some old =>
          have hold : Unlisted ((db.popped n rest).addSpecial 1) (f.set n b) old :=
            hl'.settings old ho
          have hdb : db.settingsBlock = some old := ho
          have htakes : db.Takes old := hv old (by simp [Call.deletes, hb, hdb])
          simp only [wp_bind]
          refine wp_mono (wp_discard_listed hl' hold htakes) ?_
          rintro ⟨done, db₂⟩ k ⟨rfl, h₂, hs₂, hk⟩
          have h₃ := h₂.addSpecial (-1)
          refine ⟨{ h₃ with entries := ?_, settings := fun m hm => ?_ }, ?_⟩
          · exact fun e he => (h₃.entries e he).imp_right fun hu => { hu with }
          · obtain rfl := Option.some.inj hm
            exact { hk n { hunl with } with }
          · show (db₂.addSpecial (-1)).stats.sum = _
            rw [sum_addSpecial, hs₂, sum_addSpecial, ← hsum]
            ring

/-- The call erases no group, and what it deletes is taken into the list. -/
def Accountable (s : State) (c : Call) : Prop :=
  (c.Requests s.db → s.db.erased ≠ .null ∨ s.db.NoGroup) ∧
    ∀ n, c.deletes s.db = some n → s.db.Takes n

theorem wp_exec_balanced (h : Balanced env db f) {c : Call} (hc : Accountable ⟨db, f⟩ c) :
    wp (anyContract fun _ _ _ => False) (c.exec env db) (fun r g => Balanced env r.2 g) f := by
  obtain ⟨hr, hv⟩ := hc
  cases c with
  | newEntry name =>
      simp only [Call.exec, wp_bind]
      exact wp_dbNewEntry_balanced h (hr trivial) hv
  | changeField p type data =>
      refine wp_changeEntry_balanced (g := withField type data) h (fun _ => rfl) (fun _ => rfl)
        (fun db => changeField_eq db p type data) hr fun de ch hfind hd n hn => hv n ?_
      simp [Call.deletes, hfind, hd, hn]
  | deleteField p i =>
      simp only [Call.exec, dbDeleteField]
      cases hfind : find p db.entries with
      | none => trivial
      | some r =>
          simp only []
          split
          · trivial
          · refine wp_changeEntry_balanced (g := withoutField i) h (fun _ => rfl)
              (fun _ => rfl) (fun db => deleteField_eq db p i) hr
              fun de ch hfind hd n hn => hv n ?_
            simp [Call.deletes, hfind, hd, hn]
  | deleteEntry p => exact wp_dbDeleteEntry_balanced h hv
  | deferUpdate p defer => exact wp_dbEntryDeferUpdate_balanced h hr hv
  | updateSettings seq payload => exact wp_dbUpdateSettings_balanced h (hr trivial) hv
  | chdir dir =>
      exact ⟨{ h.listed with
        entries := fun e he => (h.listed.entries e he).imp_right fun hu => { hu with }
        settings := fun n hn => { h.listed.settings n hn with } }, h.sum⟩
  | tsort =>
      obtain ⟨db', hsort, G, generation, hperm, rfl⟩ := sorted_eq db
      have hentries := Forest.entries_perm (Forest.chains_perm hperm)
      simp only [Call.exec, hsort, Prog.ret_bind]
      refine ⟨h.listed.withTree ⟨h.listed.linked.1.perm (Forest.chains_perm hperm).symm,
        fun e he => ?_⟩ fun e he => ?_, h.sum⟩
      · exact h.listed.linked.2 e (hentries.mem_iff.mp he)
      · exact h.listed.entries e (hentries.mem_iff.mp he)

/-! ## Runs -/

/-- The lists are duplicate-free and disjoint, what they list is there, and all blocks are
counted. -/
structure Accounts (env : Env) (db : Db) (f : Flash) : Prop where
  nodup : db.erased.blocks.Nodup ∧ db.deleted.blocks.Nodup ∧ db.empty.blocks.Nodup
  disjoint : db.erased.blocks.Disjoint db.deleted.blocks ∧
    db.erased.blocks.Disjoint db.empty.blocks ∧ db.deleted.blocks.Disjoint db.empty.blocks
  counts : db.stats.erased = db.erased.blocks.length ∧
    db.stats.deleted = db.deleted.blocks.length ∧ db.stats.empty = db.empty.blocks.length
  erased : ∀ n ∈ db.erased.blocks, contents env.c f n = .erased
  deleted : ∀ n ∈ db.deleted.blocks, contents env.c f n = .deleted
  sum : db.stats.sum = (env.storageBlocks - reservedBlocks : ℕ)

theorem Balanced.accounts (h : Balanced env db f) : Accounts env db f := by
  obtain ⟨he, hde, hed⟩ := List.nodup_append'.mp h.listed.nodup
  obtain ⟨hd, hm, hdm⟩ := List.nodup_append'.mp hde
  rw [List.disjoint_append_right] at hed
  refine ⟨⟨he, hd, hm⟩, ⟨hed.1, hed.2, hdm⟩, h.listed.counts, fun n hn => ?_, h.listed.deleted,
    ?_⟩
  · obtain ⟨hbad, hcell⟩ := h.listed.erased n hn
    simp [contents, storageReadBlock, hbad, hcell, blockRead_erasedBlock]
  · rw [h.sum, dbBlocks, List.length_range']

/-- The lists and the counters are right in every state of a run. -/
theorem reachable_accounts {s t : State} (ho : Opens env s)
    (hr : Reachable Works env Accountable s t) : Accounts env t.db t.flash := by
  suffices h : Balanced env t.db t.flash from h.accounts
  induction hr with
  | start => exact ho.opened.balanced
  | next _ hc ends ih =>
      have hw := wp_returns (K := anyContract fun _ _ _ => False) (wp_exec_balanced ih hc) ends
      exact hw

/-! ## A list that is cut off -/

/-- Two accounts in neighbouring blocks. -/
def neighbours : State :=
  afterOpen (plainEnv 16) (plainFlash [(8, 1, [nameField [97]]), (9, 1, [nameField [98]])])

/-- The accounts are deleted one after the other. -/
def neighboursDeleted (p q : ℕ) : State :=
  afterCall (plainEnv 16) (.deleteEntry q) (afterCall (plainEnv 16) (.deleteEntry p) neighbours)

/-- If the second goes first, one deleted block is left in the list, but two in the count. -/
theorem neighbours_not_accounts :
    Opens (plainEnv 16) neighbours ∧
    Reachable Works (plainEnv 16) (fun _ _ => True) neighbours (neighboursDeleted 1 0) ∧
    ¬ Accounts (plainEnv 16) (neighboursDeleted 1 0).db (neighboursDeleted 1 0).flash := by
  have h₁ : callResult (plainEnv 16) (.deleteEntry 1) neighbours = some true := by
    decide +kernel
  have h₀ : callResult (plainEnv 16) (.deleteEntry 0)
      (afterCall (plainEnv 16) (.deleteEntry 1) neighbours) = some true := by decide +kernel
  refine ⟨opens_afterOpen _ _, ?_, fun h => ?_⟩
  · exact .next (.next .start trivial (ends_afterCall _ _ _ h₁)) trivial
      (ends_afterCall _ _ _ h₀)
  · exact absurd h.counts.2.1 (by decide +kernel)

/-- In the other order they are accounted for. -/
theorem neighbours_accounts :
    Accounts (plainEnv 16) (neighboursDeleted 0 1).db (neighboursDeleted 0 1).flash := by
  have hdelete : ∀ {s : State} {p n : ℕ}, (Call.deleteEntry p).deletes s.db = some n →
      s.db.Takes n → Accountable s (.deleteEntry p) := by
    intro s p n hn ht
    refine ⟨fun hf => hf.elim, fun m hm => ?_⟩
    obtain rfl := Option.some.inj (hn.symm.trans hm)
    exact ht
  have h₀ : callResult (plainEnv 16) (.deleteEntry 0) neighbours = some true := by
    decide +kernel
  have h₁ : callResult (plainEnv 16) (.deleteEntry 1)
      (afterCall (plainEnv 16) (.deleteEntry 0) neighbours) = some true := by decide +kernel
  refine reachable_accounts (opens_afterOpen (plainEnv 16) _) (.next (.next .start ?_
    (ends_afterCall _ _ _ h₀)) ?_ (ends_afterCall _ _ _ h₁))
  · exact hdelete (n := 8) (by decide +kernel) (by decide +kernel)
  · exact hdelete (n := 9) (by decide +kernel) (by decide +kernel)

end Sunela.Database
