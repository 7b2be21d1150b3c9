import Sunela.Verification.Alloc.Rules

/-! # Records on a storage that changes

What the operations on blocks do to the records that are found in them. -/

namespace Sunela.Database

open Program Storage Block Fields Entry

variable {env : Env} {f g : Flash}

theorem recordIn_contents {f : Flash} {n : ℕ} {r : Record} (h : recordIn env f n = some r) :
    ∃ seq payload, contents env.c f n = .data seq payload := by
  unfold recordIn at h
  split at h
  · next seq payload hc => exact ⟨seq, payload, hc⟩
  · simp at h

theorem recordIn_of_free {n : ℕ} (h : Free env f n) : recordIn env f n = none := by
  unfold recordIn
  split
  · next seq payload hc =>
      unfold Free at h
      rw [hc] at h
      exact absurd trivial h
  · rfl

theorem bad_of_recordIn {n : ℕ} {r : Record} (h : recordIn env f n = some r) :
    f.bad n = false := by
  obtain ⟨seq, payload, hc⟩ := recordIn_contents h
  exact bad_eq_false (c := env.c) (by simp [hc])

theorem recordIn_of_cells {n : ℕ} (hc : g.cells n = f.cells n) (hb : g.bad = f.bad) :
    recordIn env g n = recordIn env f n := by
  unfold recordIn
  rw [contents_of_cells_eq hc hb]

theorem SameRecords.recordIn (h : SameRecords env f g) (n : ℕ) :
    recordIn env g n = recordIn env f n := by
  rcases h n with he | ⟨hf, hg⟩
  · unfold Database.recordIn
    rw [he]
  · rw [recordIn_of_free hf, recordIn_of_free hg]

/-- What has been encrypted is not mistaken for a deleted block. -/
theorem encrypt_ne_zeroBlock {c : Dbcrypt} {nonce rk content : Bytes} (hn : nonce.length = 24)
    (hk : rk.length = 32) (hl : content.length ≤ c.capacity) :
    c.encrypt nonce rk content ≠ zeroBlock := by
  intro he
  have hd := c.classify_encrypt nonce rk content hn hk hl
  rw [he, classifyBlock_zeroBlock] at hd
  cases hd

/-- The block with the fields of an entry holds its record, unless it cannot be read. -/
theorem recordIn_packed {n : ℕ} {seq : UInt16} {fs : List DbField} {payload : Bytes} {b : Block}
    {q : Path} (hfs : encodeFields storageBlockSize fs = some payload) (hs : Storable fs q)
    (hp : Packed env 4 seq payload b) (hbad : f.bad n = false) :
    recordIn env (f.set n b) n = some ⟨n, seq, q, fs⟩ := by
  obtain ⟨nonce, rk, hn, hk, hl, rfl⟩ := hp
  obtain ⟨rfl, -⟩ := encodeFields_eq hfs
  exact recordIn_of_contents hs (contents_encrypt hn hk hl hbad (Flash.set_self f n _))

theorem mem_records_set {r : Record} {n : ℕ} {x : Block} (hr : r ∈ records env g)
    (hn : r.block ≠ n) : r ∈ records env (g.set n x) := by
  obtain ⟨hm, hrec⟩ := mem_records.mp hr
  refine mem_records.mpr ⟨hm, ?_⟩
  rw [recordIn_of_cells (Flash.set_of_ne g x hn) rfl]
  exact hrec

/-- The records that are left once a block has been deleted. -/
theorem mem_records_set_zero {f : Flash} {n : ℕ} {r : Record} :
    r ∈ records env (f.set n zeroBlock) ↔ r ∈ records env f ∧ r.block ≠ n := by
  have hother : ∀ m, m ≠ n → recordIn env (f.set n zeroBlock) m = recordIn env f m := by
    intro m hm
    unfold recordIn
    rw [contents_of_cells_eq (Flash.set_of_ne f zeroBlock hm) rfl]
  have hsame : recordIn env (f.set n zeroBlock) n = none := by
    unfold recordIn contents storageReadBlock
    rw [Flash.set_self]
    split
    · next hc =>
        split at hc
        · simp [blockRead] at hc
        · rw [blockRead_zeroBlock] at hc
          simp at hc
    · rfl
  rw [mem_records, mem_records]
  constructor
  · rintro ⟨hm, hr⟩
    have hne : r.block ≠ n := by
      intro he
      rw [he, hsame] at hr
      simp at hr
    exact ⟨⟨hm, by rwa [hother _ hne] at hr⟩, hne⟩
  · rintro ⟨⟨hm, hr⟩, hne⟩
    exact ⟨hm, by rwa [hother _ hne]⟩

/-- A record is written to a block that held none. -/
theorem mem_records_set_packed {n : ℕ} {b : Block} {rec r : Record} (hm : n ∈ dbBlocks env)
    (hnone : recordIn env f n = none) (hrec : recordIn env (f.set n b) n = some rec) :
    r ∈ records env (f.set n b) ↔ r ∈ records env f ∨ r = rec := by
  have hother : ∀ m, m ≠ n → recordIn env (f.set n b) m = recordIn env f m := fun m hne =>
    recordIn_of_cells (Flash.set_of_ne f b hne) rfl
  obtain ⟨hblock, -⟩ := recordIn_spec hrec
  constructor
  · intro hr
    obtain ⟨hmem, hr⟩ := mem_records.mp hr
    by_cases hb : r.block = n
    · rw [hb, hrec] at hr
      exact .inr (Option.some.inj hr).symm
    · rw [hother _ hb] at hr
      exact .inl (mem_records.mpr ⟨hmem, hr⟩)
  · rintro (hr | rfl)
    · refine mem_records_set hr fun hb => ?_
      have hr := (mem_records.mp hr).2
      rw [hb, hnone] at hr
      simp at hr
    · exact mem_records.mpr ⟨hblock ▸ hm, by rw [hblock]; exact hrec⟩

end Sunela.Database
