import Sunela.Verification.Alloc.Request

/-! # Block allocation

A request hands out the first block of the erased list. A group that it erases first is on
no list afterwards, so erasing never helps it. -/

namespace Sunela.Span

/-- A group of blocks to erase lies wholly inside one span. -/
def Spans.HasGroup (s : Spans) (eraseSize : ℕ) : Prop := ∃ d ∈ s.toList, d.HasGroup eraseSize

instance (s : Spans) (eraseSize : ℕ) : Decidable (s.HasGroup eraseSize) :=
  inferInstanceAs (Decidable (∃ d ∈ s.toList, d.HasGroup eraseSize))

end Sunela.Span

namespace Sunela.Database

open Program Storage Span

/-- The lists can be followed, no block is in them twice, and the first list is of blocks that
are erased. -/
structure ListsFormed (db : Db) (f : Flash) : Prop where
  intact : db.erased.Intact ∧ db.empty.Intact ∧ db.deleted.Intact
  nodup : (db.erased.blocks ++ (db.empty.blocks ++ db.deleted.blocks)).Nodup
  erased : ∀ n ∈ db.erased.blocks, f.cells n = erasedBlock

/-- Every run has to end: no freed span is followed, and the loop is left. -/
def ending (device : Device) : Contract Cmd Reply Flash where
  step := device
  call _ _ := True
  halt _ _ := False
  undef _ := False

/-- A block is returned that is erased, and in none of the lists. -/
def Allocated (r : Option ℕ × Db) (g : Flash) : Prop :=
  ∃ n, r.1 = some n ∧ g.cells n = erasedBlock ∧ n ∉ r.2.erased.blocks ∧
    n ∉ r.2.empty.blocks ∧ n ∉ r.2.deleted.blocks

/-- Some list of blocks that are not erased has a group to erase. -/
def Db.Reclaimable (db : Db) : Prop :=
  db.empty.HasGroup storageEraseSize ∨ db.deleted.HasGroup storageEraseSize

instance (db : Db) : Decidable db.Reclaimable := inferInstanceAs (Decidable (_ ∨ _))

/-- A request ends, however the device behaves. It serves a block if there is an erased one,
and if there is a group to erase and no erase fails. -/
structure Allocates (db : Db) (f : Flash) : Prop where
  ends : ∀ torn, wp (ending (Step torn)) (getErasedBlock db) (fun _ _ => True) f
  erased : db.erased.blocks ≠ [] →
    ∀ torn, wp (ending (Step torn)) (getErasedBlock db) Allocated f
  reclaims : db.Reclaimable → wp (ending Works) (getErasedBlock db) Allocated f

variable {db : Db} {f : Flash}

/-- The first erased block is handed out as it is. -/
theorem wp_getErasedBlock_erased {device : Device} (h : ListsFormed db f)
    (hne : db.erased.blocks ≠ []) : wp (ending device) (getErasedBlock db) Allocated f := by
  rcases spanPullOne_cases h.intact.1 with ⟨hnull, -⟩ | ⟨n, rest, hp, -, hb⟩
  · simp [hnull, Spans.blocks] at hne
  · rw [getErasedBlock_pop hp]
    have hn : n ∈ db.erased.blocks := by simp [hb]
    have hnodup := h.nodup
    rw [hb, List.cons_append, List.nodup_cons] at hnodup
    have hout := hnodup.1
    simp only [List.mem_append, not_or] at hout
    exact ⟨n, rfl, h.erased n hn, hout.1, hout.2.1, hout.2.2⟩

/-- Without an erased block no request is served, even when every erase succeeds. -/
theorem not_wp_getErasedBlock (hn : db.erased = .null) :
    ¬ wp (ending Works) (getErasedBlock db) Allocated f := by
  intro h
  obtain ⟨⟨r, db'⟩, g, hr, n, rfl, -⟩ :=
    wp_exists_returns (K := ending Works) answer_works (fun _ _ h => h) (fun _ h => h) h
  exact erasedLoop_null _ hn hr

/-- A request does what it is for if and only if it need not erase anything. -/
theorem getErasedBlock_allocates (h : ListsFormed db f) :
    Allocates db f ↔ db.erased.blocks ≠ [] ∨ ¬ db.Reclaimable := by
  constructor
  · intro ha
    by_cases hne : db.erased.blocks = []
    · right
      intro hr
      rcases spanPullOne_cases h.intact.1 with ⟨hnull, -⟩ | ⟨n, rest, -, -, hb⟩
      · exact not_wp_getErasedBlock hnull (ha.reclaims hr)
      · simp [hb] at hne
    · exact .inl hne
  · intro hc
    by_cases hne : db.erased.blocks = []
    · have hr := hc.resolve_left (not_not_intro hne)
      have hnull : db.erased = .null := by
        rcases spanPullOne_cases h.intact.1 with ⟨hnull, -⟩ | ⟨n, rest, -, -, hb⟩
        · exact hnull
        · simp [hb] at hne
      have hnone : getErasedBlock db = .ret (none, db) := by
        apply getErasedBlock_none hnull ⟨h.intact.2.2, h.intact.2.1⟩
        · exact fun d hd hg => hr (.inr ⟨d, hd, hg⟩)
        · exact fun d hd hg => hr (.inl ⟨d, hd, hg⟩)
      exact {
        ends := fun torn => by rw [hnone]; trivial
        erased := fun he => absurd hne he
        reclaims := fun hg => absurd hg hr }
    · exact {
        ends := fun torn => wp_mono (wp_getErasedBlock_erased h hne) fun _ _ _ => trivial
        erased := fun _ torn => wp_getErasedBlock_erased h hne
        reclaims := fun _ => wp_getErasedBlock_erased h hne }

theorem spanLen_pos : 0 < 4 := by decide

/-- A database that consists of lists of free blocks. -/
def listedDb (erased deleted : Spans) : Db where
  generation := 0
  stats := ⟨erased.blocks.length, deleted.blocks.length, 0, 0, 0, 0, 0⟩
  erased := erased
  deleted := deleted
  empty := .null
  entries := .nil
  dir := none
  settingsBlock := none
  fresh := 0
  handed := []

private theorem listedDb_formed {erased deleted : Spans} {f : Flash}
    (hi : erased.Intact ∧ deleted.Intact) (hn : (erased.blocks ++ deleted.blocks).Nodup)
    (he : ∀ n ∈ erased.blocks, f.cells n = erasedBlock) :
    ListsFormed (listedDb erased deleted) f :=
  ⟨⟨hi.1, trivial, hi.2⟩, by simpa [listedDb, Spans.blocks] using hn, he⟩

theorem getErasedBlock_allocates_erased :
    Allocates (listedDb (.node ⟨2, 3, by decide⟩ .null) .null)
      ⟨fun _ => erasedBlock, fun _ => false⟩ := by
  have h : ListsFormed (listedDb (.node ⟨2, 3, by decide⟩ .null) .null)
      ⟨fun _ => erasedBlock, fun _ => false⟩ :=
    listedDb_formed ⟨trivial, trivial⟩ (by decide) fun _ _ => rfl
  exact (getErasedBlock_allocates h).mpr (.inl (by decide))

/-- Blocks 1 to 7 have been deleted. Blocks 4 to 7 are erased, and the request fails. -/
theorem getErasedBlock_allocates_fails :
    ListsFormed (listedDb .null (.node ⟨1, 7, by decide⟩ .null))
      ⟨fun _ => zeroBlock, fun _ => false⟩ ∧
      ¬ Allocates (listedDb .null (.node ⟨1, 7, by decide⟩ .null))
        ⟨fun _ => zeroBlock, fun _ => false⟩ :=
  ⟨listedDb_formed ⟨trivial, trivial⟩ (by decide) (by simp [Spans.blocks]), fun h =>
    not_wp_getErasedBlock rfl (h.reclaims (by decide))⟩

end Sunela.Database
