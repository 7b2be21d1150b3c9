import Sunela.Verification.Support.PlainCrypt

/-! # The newest record wins

The order of the blocks does not matter as long as the sequence numbers of the records of
one path lie within half of the circle. -/

namespace Sunela.Database

open Serial Storage Block Fields Entry

/-- What blocks of data hold, in the order of the blocks. -/
def dataBlocks (env : Env) (f : Flash) : List (UInt16 × Bytes) :=
  (dbBlocks env).filterMap fun n =>
    match contents env.c f n with
    | .data seq payload => some (seq, payload)
    | _ => none

/-- How many numbers after `base` the record comes. -/
def Record.age (base : Path → ℕ) (r : Record) : ℕ := offset 0x8000 (base r.path) r.seq.toNat

/-- The sequence numbers of the records of each path are distinct, and lie in the window of
`0x8000` numbers that starts at `base`. -/
structure InWindow (base : Path → ℕ) (rs : List Record) : Prop where
  base_lt : ∀ q, base q < 0x10000
  age_lt : ∀ r ∈ rs, r.age base < 0x8000
  distinct : ∀ r ∈ rs, ∀ s ∈ rs, r.path = s.path → r.seq = s.seq → r = s

/-- A record without the block it is in. -/
def Record.said (r : Record) : UInt16 × Path × List DbField := (r.seq, r.path, r.fields)

theorem InWindow.older_iff {base : Path → ℕ} {rs : List Record} (h : InWindow base rs)
    {r s : Record} (hr : r ∈ rs) (hs : s ∈ rs) (hp : r.path = s.path) :
    r.Older s ↔ r.age base < s.age base := by
  have hws := h.age_lt s hs
  have hwr := h.age_lt r hr
  unfold Record.age at hws hwr ⊢
  rw [hp] at hwr ⊢
  exact behind_iff_offset_lt (h.base_lt _) r.seq.toNat_lt s.seq.toNat_lt hwr hws

theorem InWindow.age_inj {base : Path → ℕ} {rs : List Record} (h : InWindow base rs)
    {r s : Record} (hr : r ∈ rs) (hs : s ∈ rs) (hp : r.path = s.path)
    (ha : r.age base = s.age base) : r = s := by
  refine h.distinct r hr s hs hp (UInt16.toNat_inj.mp ?_)
  unfold Record.age at ha
  rw [hp] at ha
  exact offset_inj (h.base_lt _) r.seq.toNat_lt s.seq.toNat_lt ha

/-- Within a window the record of the highest number counts. -/
theorem InWindow.newest_eq {base : Path → ℕ} {rs : List Record} (h : InWindow base rs)
    {r : Record} (hr : r ∈ rs)
    (hmax : ∀ s ∈ rs, s.path = r.path → s.age base ≤ r.age base) :
    newest rs r.path = some r := by
  have hmem : ∀ s ∈ rs.filter fun s => s.path = r.path, s ∈ rs ∧ s.path = r.path := by simp
  cases hn : newest rs r.path with
  | none => exact absurd rfl (newest_eq_none.mp hn r hr)
  | some n =>
      obtain ⟨hnm, hnp⟩ := newest_mem hn
      have hle := latest_max Record.Older (Record.age base) (fun a ha b hb =>
        h.older_iff (hmem a ha).1 (hmem b hb).1 ((hmem a ha).2.trans (hmem b hb).2.symm)) hn
        r (by simp [hr])
      have hge := hmax n hnm hnp
      rw [h.age_inj hnm hr hnp (Nat.le_antisymm hge hle)]

/-- Records that say the same show the same, whatever block they are in. -/
theorem newest_perm {base : Path → ℕ} {rs rs' : List Record} (h : InWindow base rs)
    (hp : (rs.map Record.said).Perm (rs'.map Record.said)) (q : Path) :
    (newest rs q).map Record.said = (newest rs' q).map Record.said := by
  let older (a b : UInt16 × Path × List DbField) : Prop :=
    Behind 0x8000 a.1.toNat b.1.toNat
  have : DecidableRel older := fun _ _ => inferInstanceAs (Decidable (Behind _ _ _))
  have hsaid : ∀ l : List Record,
      (newest l q).map Record.said = latest older ((l.map Record.said).filter (·.2.1 = q)) := by
    intro l
    rw [List.filter_map]
    exact (latest_map Record.Older Record.said (fun _ _ => Iff.rfl) _).symm
  rw [hsaid, hsaid]
  have hmem : ∀ a ∈ (rs.map Record.said).filter (·.2.1 = q),
      ∃ r ∈ rs, r.path = q ∧ r.said = a := by
    intro a ha
    obtain ⟨ha, hq⟩ := List.mem_filter.mp ha
    obtain ⟨r, hr, rfl⟩ := List.mem_map.mp ha
    exact ⟨r, hr, of_decide_eq_true hq, rfl⟩
  refine latest_perm older (hp.filter _) (fun a => offset 0x8000 (base a.2.1) a.1.toNat) ?_ ?_
  · intro a ha b hb
    obtain ⟨r, hr, hrq, rfl⟩ := hmem a ha
    obtain ⟨s, hs, hsq, rfl⟩ := hmem b hb
    exact h.older_iff hr hs (hrq.trans hsq.symm)
  · intro a ha b hb hab
    obtain ⟨r, hr, hrq, rfl⟩ := hmem a ha
    obtain ⟨s, hs, hsq, rfl⟩ := hmem b hb
    rw [h.age_inj hr hs (hrq.trans hsq.symm) hab]

/-- The same blocks of data in another order hold the same records. -/
theorem records_perm {env : Env} {f f' : Flash}
    (hp : (dataBlocks env f).Perm (dataBlocks env f')) :
    ((records env f).map Record.said).Perm ((records env f').map Record.said) := by
  have h : ∀ f, (records env f).map Record.said =
      (dataBlocks env f).filterMap fun d => (parseRecord 0 d.1 d.2).map Record.said := by
    intro f
    unfold records dataBlocks
    rw [List.map_filterMap, List.filterMap_filterMap]
    congr 1
    funext n
    unfold recordIn
    cases contents env.c f n with
    | data seq payload =>
        simp only [Option.bind_some]
        unfold parseRecord
        cases tlvItem payload with
        | none => rfl
        | some r =>
            simp only []
            split_ifs <;> rfl
    | _ => rfl
  rw [h f, h f']
  exact hp.filterMap _

theorem reaches_perm {rs rs' : List Record}
    (hp : (rs.map Record.said).Perm (rs'.map Record.said)) (q : Path) :
    reaches rs q = reaches rs' q := by
  have h : ∀ l : List Record, reaches l q = (l.map Record.said).any fun a => q <+: a.2.1 := by
    intro l
    rw [List.any_map]
    rfl
  rw [h, h]
  exact hp.any_eq

theorem isParent_perm {rs rs' : List Record}
    (hp : (rs.map Record.said).Perm (rs'.map Record.said)) (q : Path) :
    isParent rs q = isParent rs' q := by
  rw [Bool.eq_iff_iff, isParent_iff, isParent_iff]
  exact exists_congr fun s => by rw [reaches_perm hp]

theorem opened_perm {base : Path → ℕ} {rs rs' : List Record} (h : InWindow base rs)
    (hv : Valid rs) (hv' : Valid rs') (hp : (rs.map Record.said).Perm (rs'.map Record.said))
    (q : Path) : (opened rs q).map Prod.snd = (opened rs' q).map Prod.snd := by
  have hn := newest_perm h hp q
  unfold opened scanned
  rw [isParent_perm hp q, reaches_perm hp q]
  cases hr : newest rs q with
  | none =>
      rw [hr] at hn
      rw [Option.map_eq_none_iff.mp hn.symm]
  | some r =>
      rw [hr] at hn
      obtain ⟨r', hr', hsaid⟩ := Option.map_eq_some_iff.mp hn.symm
      obtain ⟨hseq, hsaid⟩ := Prod.mk.inj hsaid
      have hfields := (Prod.mk.inj hsaid).2
      have hb := (hv r (newest_mem hr).1).1
      have hb' := (hv' r' (newest_mem hr').1).1
      rw [hr']
      simp only [Option.map_some, Record.shown, fixShown, hb, hb', hseq, hfields, or_false]
      split_ifs <;> rfl

/-- Each path that is opened carries its newest record, with an `ft_dir` field for a
directory that has none, whatever the order of the blocks. -/
theorem dbOpen_newest {env : Env} {f f' : Flash} {base : Path → ℕ}
    (hp : (dataBlocks env f).Perm (dataBlocks env f')) (hw : InWindow base (records env f))
    (st st' : Settings) :
    ∃ s s', dbOpen env st f = some s ∧ dbOpen env st' f' = some s' ∧
      s.1.entries.Distinct DbEntry.name ∧ s'.1.entries.Distinct DbEntry.name ∧
      (∀ q, q ≠ [] → ((look s.1.entries q).isSome ↔ reaches (records env f) q = true)) ∧
      (∀ q, q ≠ [] →
        (look s'.1.entries q).map Prod.snd = (look s.1.entries q).map Prod.snd) ∧
      ∀ r ∈ records env f,
        (∀ r' ∈ records env f, r'.path = r.path → r'.age base ≤ r.age base) →
        look s.1.entries r.path =
          some (fixShown (isParent (records env f) r.path) r.shown) := by
  obtain ⟨s, hs, ho⟩ := dbOpen_opened env st f
  obtain ⟨s', hs', ho'⟩ := dbOpen_opened env st' f'
  have hsaid := records_perm hp
  refine ⟨s, s', hs, hs', ho.distinct, ho'.distinct, fun q hq => ?_, fun q hq => ?_,
    fun r hr hmax => ?_⟩
  · rw [ho.look q hq, opened, Option.isSome_map, Option.isSome_iff_ne_none, ne_eq,
      scanned_eq_none, Bool.not_eq_false]
  · rw [ho.look q hq, ho'.look q hq]
    exact (opened_perm hw (records_valid env f) (records_valid env f') hsaid q).symm
  · rw [ho.look _ (records_valid env f r hr).2, opened, scanned, hw.newest_eq hr hmax]
    rfl

/-! ## A directory without `ft_dir` -/

/-- A directory `a` without an `ft_dir` field, and the account `b` in it. -/
def bareDirectory : Flash :=
  plainFlash [(8, 1, [nameField [97]]), (9, 1, [nameField [97, 0, 98]])]

theorem bareDirectory_records :
    records (plainEnv 10) bareDirectory =
      [⟨8, 1, splitPath [97], [nameField [97]]⟩,
        ⟨9, 1, splitPath [97, 0, 98], [nameField [97, 0, 98]]⟩] := by
  unfold bareDirectory
  rw [plainFlash_records (by decide)]
  decide

theorem bareDirectory_inWindow : InWindow (fun _ => 0) (records (plainEnv 10) bareDirectory) := by
  rw [bareDirectory_records]
  exact ⟨by simp, by decide, by decide⟩

/-- The directory does not carry exactly the fields of its only record. -/
theorem dbOpen_adds_dir :
    InWindow (fun _ => 0) (records (plainEnv 10) bareDirectory) ∧
    ∃ r ∈ records (plainEnv 10) bareDirectory,
      (∀ r' ∈ records (plainEnv 10) bareDirectory, r'.path = r.path → r' = r) ∧
      ∀ st s, dbOpen (plainEnv 10) st bareDirectory = some s →
        (look s.1.entries r.path).map Prod.snd ≠ some (r.seq, r.fields) := by
  have hr := bareDirectory_records
  refine ⟨bareDirectory_inWindow, ?_⟩
  rw [hr]
  refine ⟨⟨8, 1, splitPath [97], [nameField [97]]⟩, by simp, by decide, fun st s hs => ?_⟩
  obtain ⟨s', hs', ho⟩ := dbOpen_opened (plainEnv 10) st bareDirectory
  rw [hs] at hs'
  obtain rfl := Option.some.inj hs'
  rw [ho.look _ (by decide), hr]
  decide

/-- The records of `bareDirectory` in the other order. -/
def bareDirectorySwapped : Flash :=
  plainFlash [(8, 1, [nameField [97, 0, 98]]), (9, 1, [nameField [97]])]

theorem dataBlocks_swapped :
    (dataBlocks (plainEnv 10) bareDirectory).Perm
      (dataBlocks (plainEnv 10) bareDirectorySwapped) := by
  have h : ∀ l : List (ℕ × UInt16 × List DbField), (∀ r ∈ l, PlainOk r.2.2) →
      dataBlocks (plainEnv 10) (plainFlash l) = [8, 9].filterMap fun n =>
        (l.lookup n).map fun r => (r.1, padded plainCrypt (r.2.flatMap encodeField)) := by
    intro l hl
    have hb : dbBlocks (plainEnv 10) = [8, 9] := rfl
    unfold dataBlocks
    rw [hb]
    congr 1
    funext n
    have hc : contents (plainEnv 10).c (plainFlash l) n = _ := plainFlash_contents hl n
    rw [hc]
    cases l.lookup n <;> rfl
  unfold bareDirectory bareDirectorySwapped
  rw [h _ (by decide), h _ (by decide)]
  exact List.Perm.swap _ _ _

theorem dbOpen_newest_swapped :
    ∃ s s', dbOpen (plainEnv 10) ⟨false, false, false, 0⟩ bareDirectory = some s ∧
      dbOpen (plainEnv 10) ⟨false, false, false, 0⟩ bareDirectorySwapped = some s' ∧
      ∀ q, q ≠ [] →
        (look s'.1.entries q).map Prod.snd = (look s.1.entries q).map Prod.snd := by
  obtain ⟨s, s', hs, hs', -, -, -, hl, -⟩ :=
    dbOpen_newest dataBlocks_swapped bareDirectory_inWindow ⟨false, false, false, 0⟩
      ⟨false, false, false, 0⟩
  exact ⟨s, s', hs, hs', hl⟩

end Sunela.Database
