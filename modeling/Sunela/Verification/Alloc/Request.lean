import Sunela.Model.Operation
import Sunela.Verification.Open.Scan

/-! # Requests for erased blocks

A request erases only groups of blocks that hold no record, and what it returns is erased and
nowhere else in use. -/

namespace Sunela.Database

open Program Storage Span Block Fields Entry

/-- A block after an operation on it went wrong still has its old or already its new content,
or it cannot be decrypted. -/
def Tears (env : Env) (torn : Torn) : Prop :=
  ∀ old new x, torn old new x → x = old ∨ x = new ∨ env.c.decrypt x = none

/-- No record is found in the block. -/
def Free (env : Env) (f : Flash) (n : ℕ) : Prop := ¬ (contents env.c f n).IsRecord

/-- What the lists of free blocks, the tree and the storage have to do with each other. -/
structure Alloc (env : Env) (db : Db) (f : Flash) : Prop where
  intact : db.erased.Intact ∧ db.deleted.Intact ∧ db.empty.Intact
  erased : ∀ n ∈ db.erased.blocks, n ∈ dbBlocks env ∧ f.bad n = false ∧
    f.cells n = erasedBlock
  nodup : db.erased.blocks.Nodup
  deleted : ∀ n ∈ db.deleted.blocks, Free env f n ∧ n ∉ db.erased.blocks
  empty : ∀ n ∈ db.empty.blocks, Free env f n ∧ n ∉ db.erased.blocks
  entries : ∀ e ∈ db.entries.entries, e.block ∉ db.erased.blocks
  settings : ∀ n, db.settingsBlock = some n → n ∉ db.erased.blocks
  handed : db.handed.Nodup ∧ ∀ n ∈ db.handed, n ∉ db.erased.blocks

/-- A request can be served without freeing a span that stays linked. -/
def Spare (db : Db) : Prop :=
  db.erased ≠ .null ∨
    (db.empty.NoExactFit storageEraseSize ∧ db.deleted.NoExactFit storageEraseSize)

/-- Only groups without a record are erased. -/
def ErasesFree (env : Env) (f : Flash) (c : Cmd) : Prop :=
  ∃ n k, c = .erase n k ∧ ∀ i, n ≤ i ∧ i < n + k → Free env f i

/-- The contract of a request. -/
def requestContract (env : Env) (torn : Torn) : Contract Cmd Reply Flash where
  step := Step torn
  call := ErasesFree env
  halt _ _ := True
  undef _ := False

/-- A request only changes the lists and the counts. -/
structure SameTree (db db' : Db) : Prop where
  entries : db'.entries = db.entries
  dir : db'.dir = db.dir
  settings : db'.settingsBlock = db.settingsBlock
  fresh : db'.fresh = db.fresh

/-- The block has been handed out: it is erased, and in no list. -/
structure Handed (env : Env) (db : Db) (f : Flash) (n : ℕ) : Prop where
  mem : n ∈ dbBlocks env
  bad : f.bad n = false
  cell : f.cells n = erasedBlock
  erased : n ∉ db.erased.blocks
  deleted : n ∉ db.deleted.blocks
  empty : n ∉ db.empty.blocks
  entries : ∀ e ∈ db.entries.entries, e.block ≠ n
  settings : db.settingsBlock ≠ some n

/-- The records on storage are the same, block for block. -/
def SameRecords (env : Env) (f g : Flash) : Prop :=
  ∀ n, contents env.c g n = contents env.c f n ∨ (Free env f n ∧ Free env g n)

theorem SameRecords.refl (env : Env) (f : Flash) : SameRecords env f f := fun _ => .inl rfl

theorem SameRecords.trans {env : Env} {f g h : Flash} (h₁ : SameRecords env f g)
    (h₂ : SameRecords env g h) : SameRecords env f h := by
  intro n
  rcases h₁ n with he | ⟨hf, hg⟩ <;> rcases h₂ n with he' | ⟨hg', hh⟩
  · exact .inl (he'.trans he)
  · exact .inr ⟨by unfold Free at hg' ⊢; rwa [he] at hg', hh⟩
  · exact .inr ⟨hf, by unfold Free at hg ⊢; rwa [he']⟩
  · exact .inr ⟨hf, hh⟩

variable {env : Env} {torn : Torn}

theorem free_of_cell {f : Flash} {n : ℕ} (h : f.cells n = erasedBlock ∨ f.cells n = zeroBlock ∨
    env.c.decrypt (f.cells n) = none) : Free env f n := by
  unfold Free contents storageReadBlock
  by_cases hb : f.bad n
  · simp [hb, blockRead, Contents.IsRecord]
  · simp only [hb]
    rcases h with h | h | h
    · simp [h, blockRead_erasedBlock, Contents.IsRecord]
    · simp [h, blockRead_zeroBlock, Contents.IsRecord]
    · exact not_isRecord_of_decrypt h

theorem free_of_eq {f g : Flash} {n : ℕ} (hc : g.cells n = f.cells n) (hb : g.bad = f.bad)
    (h : Free env f n) : Free env g n := by
  unfold Free at h ⊢
  rwa [contents_of_cells_eq hc hb]

/-- Erasing blocks without records, well or badly, leaves none there. -/
theorem free_setRange {f : Flash} {n k : ℕ} {x : ℕ → Block}
    (hf : ∀ i, n ≤ i ∧ i < n + k → Free env f i)
    (hx : ∀ i, x i = f.cells i ∨ x i = erasedBlock ∨ env.c.decrypt (x i) = none) (i : ℕ)
    (hi : n ≤ i ∧ i < n + k) : Free env (f.setRange n k x) i := by
  rcases hx i with h | h | h
  · exact free_of_eq ((Flash.setRange_of_mem f x hi).trans h) rfl (hf i hi)
  · exact free_of_cell (.inl ((Flash.setRange_of_mem f x hi).trans h))
  · exact free_of_cell (.inr (.inr (by rwa [Flash.setRange_of_mem f x hi])))

theorem sameRecords_setRange {f : Flash} {n k : ℕ} {x : ℕ → Block}
    (hf : ∀ i, n ≤ i ∧ i < n + k → Free env f i)
    (hx : ∀ i, x i = f.cells i ∨ x i = erasedBlock ∨ env.c.decrypt (x i) = none) :
    SameRecords env f (f.setRange n k x) := by
  intro i
  by_cases hi : n ≤ i ∧ i < n + k
  · exact .inr ⟨hf i hi, free_setRange hf hx i hi⟩
  · exact .inl (contents_of_cells_eq (Flash.setRange_of_notMem f x hi) rfl)

/-- Erasing a group of free blocks leaves the lists in order. -/
theorem Alloc.setRange {db : Db} {f : Flash} (h : Alloc env db f) {n k : ℕ} {x : ℕ → Block}
    (hf : ∀ i, n ≤ i ∧ i < n + k → Free env f i ∧ i ∉ db.erased.blocks)
    (hx : ∀ i, x i = f.cells i ∨ x i = erasedBlock ∨ env.c.decrypt (x i) = none) :
    Alloc env db (f.setRange n k x) := by
  have hfree : ∀ i, Free env f i → Free env (f.setRange n k x) i := by
    intro i hi
    by_cases hr : n ≤ i ∧ i < n + k
    · exact free_setRange (fun j hj => (hf j hj).1) hx i hr
    · exact free_of_eq (Flash.setRange_of_notMem f x hr) rfl hi
  refine { h with erased := fun i hi => ?_, deleted := fun i hi => ?_, empty := fun i hi => ?_ }
  · obtain ⟨hm, hb, hc⟩ := h.erased i hi
    refine ⟨hm, hb, ?_⟩
    rw [Flash.setRange_of_notMem f x fun hr => (hf i hr).2 hi]
    exact hc
  · exact ⟨hfree i (h.deleted i hi).1, (h.deleted i hi).2⟩
  · exact ⟨hfree i (h.empty i hi).1, (h.empty i hi).2⟩

theorem SameTree.refl (db : Db) : SameTree db db := ⟨rfl, rfl, rfl, rfl⟩

theorem SameTree.trans {a b c : Db} (h : SameTree a b) (h' : SameTree b c) : SameTree a c :=
  ⟨h'.entries.trans h.entries, h'.dir.trans h.dir, h'.settings.trans h.settings,
    h'.fresh.trans h.fresh⟩

/-! ## One request -/

/-- What holds between the rounds of a request that has found no erased block. -/
structure Requesting (env : Env) (db₀ : Db) (f₀ : Flash) (db : Db) (f : Flash) : Prop where
  alloc : Alloc env db f
  erased : db.erased = .null
  noExactFit : db.empty.NoExactFit storageEraseSize ∧ db.deleted.NoExactFit storageEraseSize
  tree : SameTree db₀ db
  records : SameRecords env f₀ f

/-- A group is taken from one of the lists, which is erased if it succeeds. -/
theorem wp_reclaim {db₀ db : Db} {f₀ f : Flash} (ht : Tears env torn) {spans : Spans}
    {take : Spans → Db} (h : Requesting env db₀ f₀ db f) (hi : spans.Intact)
    (hx : spans.NoExactFit storageEraseSize)
    (hfree : ∀ n ∈ spans.blocks, Free env f n ∧ n ∉ db.erased.blocks)
    (htake : ∀ rest stats, rest.Intact → rest.NoExactFit storageEraseSize →
      (∀ n ∈ rest.blocks, n ∈ spans.blocks) → ∀ g, Requesting env db₀ f₀ db g →
      Requesting env db₀ f₀ { take rest with stats } g) :
    wp (requestContract env torn) (reclaim db spans take)
      (fun r g => Requesting env db₀ f₀ r.2 g) f := by
  unfold reclaim
  rcases spanPullEraseBlock_cases storageEraseSize_pos hi hx with
    ⟨-, hp⟩ | ⟨n, rest, hp, hri, hrx, hperm⟩
  · rw [hp]
    exact h
  · rw [hp]
    have hgroup : ∀ i, n ≤ i ∧ i < n + storageEraseSize → Free env f i ∧ i ∉ db.erased.blocks := by
      intro i hi
      refine hfree i (hperm.mem_iff.mpr (List.mem_append_left _ ?_))
      rw [List.mem_range'_1]
      exact hi
    have hsub : ∀ m ∈ rest.blocks, m ∈ spans.blocks := fun m hm =>
      hperm.mem_iff.mpr (List.mem_append_right _ hm)
    simp only [storageEraseBlocks]
    refine ⟨⟨n, storageEraseSize, rfl, fun i hi => (hgroup i hi).1⟩, fun r g hstep => ?_⟩
    have hnext : ∀ x : ℕ → Block,
        (∀ i, x i = f.cells i ∨ x i = erasedBlock ∨ env.c.decrypt (x i) = none) →
        Requesting env db₀ f₀ db (f.setRange n storageEraseSize x) := fun x hx =>
      { h with
        alloc := h.alloc.setRange hgroup hx
        records := h.records.trans (sameRecords_setRange (fun i hi => (hgroup i hi).1) hx) }
    cases hstep with
    | erase => exact htake rest _ hri hrx hsub _ (hnext _ fun _ => .inr (.inl rfl))
    | eraseFail _ _ x hx => exact htake rest _ hri hrx hsub _ (hnext x fun i => ht _ _ _ (hx i))

theorem wp_reclaimEmpty {db₀ db : Db} {f₀ f : Flash} (ht : Tears env torn)
    (h : Requesting env db₀ f₀ db f) :
    wp (requestContract env torn) (reclaimEmpty db) (fun r g => Requesting env db₀ f₀ r.2 g) f :=
  wp_reclaim ht h h.alloc.intact.2.2 h.noExactFit.1 h.alloc.empty
    fun _ _ hi hx hsub _ hg =>
      { alloc := { hg.alloc with
          intact := ⟨hg.alloc.intact.1, hg.alloc.intact.2.1, hi⟩
          empty := fun n hn => hg.alloc.empty n (hsub n hn) }
        erased := hg.erased
        noExactFit := ⟨hx, hg.noExactFit.2⟩
        tree := hg.tree.trans ⟨rfl, rfl, rfl, rfl⟩
        records := hg.records }

theorem wp_reclaimDeleted {db₀ db : Db} {f₀ f : Flash} (ht : Tears env torn)
    (h : Requesting env db₀ f₀ db f) :
    wp (requestContract env torn) (reclaimDeleted db)
      (fun r g => Requesting env db₀ f₀ r.2 g) f :=
  wp_reclaim ht h h.alloc.intact.2.1 h.noExactFit.2 h.alloc.deleted
    fun _ _ hi hx hsub _ hg =>
      { alloc := { hg.alloc with
          intact := ⟨hg.alloc.intact.1, hi, hg.alloc.intact.2.2⟩
          deleted := fun n hn => hg.alloc.deleted n (hsub n hn) }
        erased := hg.erased
        noExactFit := ⟨hg.noExactFit.1, hx⟩
        tree := hg.tree.trans ⟨rfl, rfl, rfl, rfl⟩
        records := hg.records }

/-- Without an erased block the request goes on until no group is left, and fails: the
groups it erases are not put on the list. -/
theorem wp_erasedLoop_null {db₀ db : Db} {f₀ f : Flash} (ht : Tears env torn) (fuel : ℕ)
    (h : Requesting env db₀ f₀ db f) :
    wp (requestContract env torn) (erasedLoop fuel db)
      (fun r g => r.1 = none ∧ Requesting env db₀ f₀ r.2 g) f := by
  induction fuel generalizing db f with
  | zero => trivial
  | succ fuel ih =>
      unfold erasedLoop
      rw [h.erased]
      simp only [spanPullOne, wp_bind]
      refine wp_mono (wp_reclaimEmpty ht h) ?_
      rintro ⟨again, db⟩ g hg
      cases again with
      | true => exact ih hg
      | false =>
          simp only [Bool.false_eq_true, if_false, wp_bind]
          refine wp_mono (wp_reclaimDeleted ht hg) ?_
          rintro ⟨again, db⟩ g hg
          cases again with
          | true => exact ih hg
          | false => exact ⟨rfl, hg⟩

/-- The result of a request. -/
structure Served (env : Env) (db₀ : Db) (f₀ : Flash) (r : Option ℕ) (db : Db) (f : Flash) :
    Prop where
  alloc : Alloc env db f
  tree : SameTree db₀ db
  records : SameRecords env f₀ f
  handed : ∀ n, r = some n → Handed env db f n ∧ f = f₀

theorem wp_getErasedBlock {db : Db} {f : Flash} (ht : Tears env torn) (h : Alloc env db f)
    (hs : Spare db) :
    wp (requestContract env torn) (getErasedBlock db)
      (fun r g => Served env db f r.1 r.2 g) f := by
  rcases spanPullOne_cases h.intact.1 with ⟨hnull, -⟩ | ⟨n, rest, hp, hi, hb⟩
  · refine wp_mono (wp_erasedLoop_null ht _
      ⟨h, hnull, hs.resolve_left fun hne => hne hnull, .refl db, .refl env f⟩) ?_
    rintro ⟨r, db'⟩ g ⟨rfl, hg⟩
    exact ⟨hg.alloc, hg.tree, hg.records, by simp⟩
  · unfold getErasedBlock erasedLoop
    rw [hp]
    have hmem : n ∈ db.erased.blocks := by rw [hb]; simp
    have hrest : ∀ m ∈ rest.blocks, m ∈ db.erased.blocks := fun m hm => by
      rw [hb]
      exact List.mem_cons_of_mem _ hm
    have hnodup := h.nodup
    rw [hb, List.nodup_cons] at hnodup
    obtain ⟨hbl, hbad, hcell⟩ := h.erased n hmem
    refine ⟨?_, ⟨rfl, rfl, rfl, rfl⟩, .refl env f, fun m hm => ⟨?_, rfl⟩⟩
    · exact {
        intact := ⟨hi, h.intact.2⟩
        erased := fun m hm => h.erased m (hrest m hm)
        nodup := hnodup.2
        deleted := fun m hm => ⟨(h.deleted m hm).1, fun hr => (h.deleted m hm).2 (hrest m hr)⟩
        empty := fun m hm => ⟨(h.empty m hm).1, fun hr => (h.empty m hm).2 (hrest m hr)⟩
        entries := fun e he hr => h.entries e he (hrest _ hr)
        settings := fun m hm hr => h.settings m hm (hrest m hr)
        handed := by
          refine ⟨List.nodup_cons.mpr ⟨fun hh => h.handed.2 n hh hmem, h.handed.1⟩, ?_⟩
          intro m hm hr
          rcases List.mem_cons.mp hm with rfl | hm
          · exact hnodup.1 hr
          · exact h.handed.2 m hm (hrest m hr) }
    · obtain rfl := Option.some.inj hm
      exact {
        mem := hbl
        bad := hbad
        cell := hcell
        erased := hnodup.1
        deleted := fun hd => (h.deleted n hd).2 hmem
        empty := fun hd => (h.empty n hd).2 hmem
        entries := fun e he heq => h.entries e he (heq ▸ hmem)
        settings := fun hset => h.settings n hset hmem }

/-! ## Requests that erase nothing -/

theorem getErasedBlock_pop {db : Db} {n : ℕ} {rest : Spans}
    (h : spanPullOne db.erased = some (some n, rest)) :
    getErasedBlock db = .ret (some n, db.popped n rest) := by
  unfold getErasedBlock erasedLoop
  rw [h]
  rfl

theorem getErasedBlock_none {db : Db} (hn : db.erased = .null)
    (hi : db.deleted.Intact ∧ db.empty.Intact)
    (hd : ∀ d ∈ db.deleted.toList, ¬ d.HasGroup storageEraseSize)
    (he : ∀ d ∈ db.empty.toList, ¬ d.HasGroup storageEraseSize) :
    getErasedBlock db = .ret (none, db) := by
  unfold getErasedBlock erasedLoop
  rw [hn]
  simp only [spanPullOne, reclaimEmpty, reclaim, spanPullEraseBlock_none _ hi.2 he,
    Prog.pure_def, Prog.ret_bind, Bool.false_eq_true, if_false, reclaimDeleted,
    spanPullEraseBlock_none _ hi.1 hd]

/-- A group that is erased is not put on the list. -/
private theorem reclaim_null {device : Device} {db db' : Db} {spans : Spans} {take : Spans → Db}
    {f g : Flash} {again : Bool} (hdb : db.erased = .null)
    (h : Returns device (reclaim db spans take) f (again, db') g)
    (htake : ∀ rest, (take rest).erased = .null) : db'.erased = .null := by
  unfold reclaim at h
  split at h
  · cases h
  · obtain ⟨hr, -⟩ := reaches_ret.mp h
    simp only [Prog.ret.injEq, Prod.mk.injEq] at hr
    exact hr.2 ▸ hdb
  · obtain ⟨ok, u, -, hr⟩ := returns_bind h
    cases ok with
    | true =>
        obtain ⟨hr, -⟩ := reaches_ret.mp hr
        simp only [Prog.ret.injEq, Prod.mk.injEq] at hr
        exact hr.2 ▸ htake _
    | false =>
        obtain ⟨hr, -⟩ := reaches_ret.mp hr
        simp only [Prog.ret.injEq, Prod.mk.injEq] at hr
        exact hr.2 ▸ htake _

/-- Without an erased block no run returns one, whatever it erases. -/
theorem erasedLoop_null {device : Device} (fuel : ℕ) {db db' : Db} {f g : Flash} {n : ℕ}
    (hn : db.erased = .null) : ¬ Returns device (erasedLoop fuel db) f (some n, db') g := by
  induction fuel generalizing db f with
  | zero => intro h; cases h
  | succ fuel ih =>
      intro h
      unfold erasedLoop at h
      rw [hn] at h
      obtain ⟨⟨again, db₁⟩, f₁, h₁, h⟩ := returns_bind h
      have hn₁ : db₁.erased = .null := reclaim_null hn h₁ fun _ => hn
      cases again with
      | true => exact ih hn₁ h
      | false =>
          obtain ⟨⟨again, db₂⟩, f₂, h₂, h⟩ := returns_bind h
          have hn₂ : db₂.erased = .null := reclaim_null hn₁ h₂ fun _ => hn₁
          cases again with
          | true => exact ih hn₂ h
          | false =>
              obtain ⟨hr, -⟩ := reaches_ret.mp h
              simp at hr

/-- A request that returns a block has taken it from the list, and nothing else. -/
theorem getErasedBlock_some {device : Device} {db db' : Db} {f g : Flash} {n : ℕ}
    (hi : db.erased.Intact) (h : Returns device (getErasedBlock db) f (some n, db') g) :
    g = f ∧ ∃ rest, spanPullOne db.erased = some (some n, rest) ∧ db' = db.popped n rest ∧
      rest.Intact ∧ db.erased.blocks = n :: rest.blocks := by
  rcases spanPullOne_cases hi with ⟨hnull, -⟩ | ⟨m, rest, hp, hri, hb⟩
  · exact absurd h (erasedLoop_null _ hnull)
  · rw [getErasedBlock_pop hp] at h
    obtain ⟨hr, hg⟩ := reaches_ret.mp h
    simp only [Prog.ret.injEq, Prod.mk.injEq, Option.some.injEq] at hr
    obtain ⟨rfl, rfl⟩ := hr
    exact ⟨hg, rest, hp, rfl, hri, hb⟩

end Sunela.Database
