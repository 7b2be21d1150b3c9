import Sunela.Verification.Open.Settings
import Sunela.Verification.Persistence.Backed

/-! # The settings in force

Opening a database puts the newest settings in force that can be read. The block it remembers is
that of the last record that was not found invalid, and records that are out of date are not
looked into. -/

namespace Sunela.Database

open Program Serial Storage Span Block Fields Entry

/-- A block with settings. -/
structure SettingsRecord where
  block : ℕ
  seq : UInt16
  payload : Bytes
  deriving DecidableEq

def settingsRecordIn (env : Env) (f : Flash) (n : ℕ) : Option SettingsRecord :=
  match contents env.c f n with
  | .settings seq payload => some ⟨n, seq, payload⟩
  | _ => none

/-- The settings on storage, in the order of their blocks. -/
def settingsRecords (env : Env) (f : Flash) : List SettingsRecord :=
  (dbBlocks env).filterMap (settingsRecordIn env f)

/-- The settings that the record puts in force, unless it is invalid. -/
def SettingsRecord.settings (r : SettingsRecord) : Option Settings :=
  (parseSettings r.payload.length r.payload 0).map fun flags =>
    { crosshair := flags &&& sfCrosshair ≠ 0
      strictRmt := flags &&& sfStrictRmt ≠ 0
      haveSettings := true
      settingsSeq := r.seq }

def SettingsRecord.Valid (r : SettingsRecord) : Prop := r.settings.isSome

def SettingsRecord.Older (r s : SettingsRecord) : Prop := Behind 0x8000 r.seq.toNat s.seq.toNat

instance (r s : SettingsRecord) : Decidable (r.Older s) :=
  inferInstanceAs (Decidable (Behind _ _ _))

/-- The sequence numbers are distinct, and lie in the window of `0x8000` numbers that starts at
`base`. -/
structure SettingsWindow (base : ℕ) (rs : List SettingsRecord) : Prop where
  base_lt : base < 0x10000
  age_lt : ∀ r ∈ rs, offset 0x8000 base r.seq.toNat < 0x8000
  distinct : ∀ r ∈ rs, ∀ s ∈ rs, r.seq = s.seq → r = s

/-- All other valid records are older. -/
structure NewestSettings (rs : List SettingsRecord) (r : SettingsRecord) : Prop where
  mem : r ∈ rs
  valid : r.Valid
  newest : ∀ s ∈ rs, s.Valid → s ≠ r → s.Older r

variable {env : Env} {f g : Flash} {db : Db} {st st' : Settings} {rs : List SettingsRecord}
  {r s : SettingsRecord} {base : ℕ}

theorem SettingsWindow.older_iff (h : SettingsWindow base rs) (hr : r ∈ rs) (hs : s ∈ rs) :
    r.Older s ↔ offset 0x8000 base r.seq.toNat < offset 0x8000 base s.seq.toNat :=
  behind_iff_offset_lt h.base_lt r.seq.toNat_lt s.seq.toNat_lt (h.age_lt r hr) (h.age_lt s hs)

theorem SettingsWindow.not_older (h : SettingsWindow base rs) (hr : r ∈ rs) (hs : s ∈ rs)
    (ho : r.Older s) : ¬ s.Older r := by
  rw [h.older_iff hr hs] at ho
  rw [h.older_iff hs hr]
  exact Nat.lt_asymm ho

theorem SettingsWindow.irrefl (h : SettingsWindow base rs) (hr : r ∈ rs) : ¬ r.Older r := by
  rw [h.older_iff hr hr]
  exact Nat.lt_irrefl _

/-! ## The scan -/

/-- What a record changes during a scan: the remembered block and the settings in force. -/
def takeSettings (s : Option ℕ × Settings) (r : SettingsRecord) : Option ℕ × Settings :=
  match settingsProcess s.2 r.seq r.payload with
  | none => s
  | some st => (some r.block, st)

theorem settingsProcess_eq (st : Settings) (r : SettingsRecord) :
    settingsProcess st r.seq r.payload =
      if st.haveSettings = true ∧ Behind 0x8000 r.seq.toNat st.settingsSeq.toNat then some st
      else r.settings := rfl

theorem openBlock_settings {t t' : Db × Settings} {i : ℕ} (h : openBlock env f t i = some t') :
    (t'.1.settingsBlock, t'.2) =
      ((settingsRecordIn env f i).toList).foldl takeSettings (t.1.settingsBlock, t.2) := by
  unfold settingsRecordIn
  cases openBlock_round h with
  | data seq payload found processed settings =>
      rw [found, settings, (processPayload_settings processed).1]
      rfl
  | other notData notSettings entries special block settings =>
      rw [block, settings]
      cases hc : contents env.c f i with
      | settings seq payload => exact absurd hc (notSettings seq payload)
      | _ => rfl
  | settings seq payload found taken =>
      rw [found, taken]
      simp only [Option.toList_some, List.foldl_cons, List.foldl_nil, takeSettings]
      cases settingsProcess t.2 seq payload <;> rfl

theorem foldlM_settings {l : List ℕ} {t t' : Db × Settings}
    (h : l.foldlM (openBlock env f) t = some t') :
    (t'.1.settingsBlock, t'.2) =
      (l.filterMap (settingsRecordIn env f)).foldl takeSettings (t.1.settingsBlock, t.2) := by
  induction l generalizing t with
  | nil =>
      obtain rfl := Option.some.inj h
      rfl
  | cons i l ih =>
      rw [List.foldlM_cons] at h
      obtain ⟨u, hu, h⟩ := Option.bind_eq_some_iff.mp h
      rw [ih h, openBlock_settings hu, List.filterMap_cons]
      cases settingsRecordIn env f i <;> rfl

theorem dbOpen_settings (h : dbOpen env st f = some (db, st')) :
    (db.settingsBlock, st') = (settingsRecords env f).foldl takeSettings (none, st) := by
  obtain ⟨t, hfold, h⟩ := Option.bind_eq_some_iff.mp h
  obtain ⟨F, -, h⟩ := Option.bind_eq_some_iff.mp h
  obtain ⟨rfl, rfl⟩ := Prod.mk.inj (Option.some.inj h)
  exact foldlM_settings hfold

/-! ## The newest record -/

/-- The settings are those of a valid record of the list, or none are in force. -/
theorem foldl_takeSettings_valid (st : Settings) (b : Option ℕ) :
    (rs.foldl takeSettings (b, st)).2 = st ∨
      ∃ r ∈ rs, r.settings = some (rs.foldl takeSettings (b, st)).2 := by
  induction rs using List.reverseRecOn with
  | nil => exact .inl rfl
  | append_singleton rs r ih =>
      rw [List.foldl_append, List.foldl_cons, List.foldl_nil]
      generalize rs.foldl takeSettings (b, st) = t at ih ⊢
      have hkept : t.2 = st ∨ ∃ r' ∈ rs ++ [r], r'.settings = some t.2 :=
        ih.imp_right fun ⟨r', hr', heq⟩ => ⟨r', List.mem_append_left _ hr', heq⟩
      unfold takeSettings
      rw [settingsProcess_eq]
      split_ifs
      · exact hkept
      · cases hr : r.settings with
        | none => exact hkept
        | some st' => exact .inr ⟨r, by simp, hr⟩

theorem settings_seq (h : r.settings = some st) :
    st.haveSettings = true ∧ st.settingsSeq = r.seq := by
  obtain ⟨flags, -, rfl⟩ := Option.map_eq_some_iff.mp h
  exact ⟨rfl, rfl⟩

/-- Once the newest settings are in force they stay so, and older records are remembered in the
place of theirs. -/
theorem foldl_takeSettings_after (hr : r.settings = some st)
    (h : ∀ s ∈ rs, s.Valid → s.Older r) (b : Option ℕ) :
    rs.foldl takeSettings (b, st) =
      (((rs.filter fun s => s.Older r).getLast?.map SettingsRecord.block).or b, st) := by
  obtain ⟨hhave, hseq⟩ := settings_seq hr
  induction rs using List.reverseRecOn with
  | nil => rfl
  | append_singleton rs s ih =>
      rw [List.foldl_append, ih fun s hs => h s (List.mem_append_left _ hs), List.foldl_cons,
        List.foldl_nil, takeSettings, settingsProcess_eq, List.filter_append]
      by_cases ho : s.Older r
      · rw [if_pos ⟨hhave, by rw [hseq]; exact ho⟩]
        simp [ho]
      · have hinvalid : s.settings = none := by
          by_contra hne
          exact ho (h s (by simp) (Option.isSome_iff_ne_none.mpr hne))
        have hnew : ¬ (st.haveSettings = true ∧ Behind 0x8000 s.seq.toNat st.settingsSeq.toNat) := by
          rw [hseq]
          exact fun hb => ho hb.2
        rw [if_neg hnew, hinvalid]
        simp [ho]

theorem settingsRecordIn_block {n : ℕ} (h : settingsRecordIn env f n = some r) : r.block = n := by
  unfold settingsRecordIn at h
  split at h
  · obtain rfl := Option.some.inj h
    rfl
  · cases h

theorem settingsRecords_sorted (env : Env) (f : Flash) :
    (settingsRecords env f).Pairwise fun r s => r.block < s.block := by
  have hlt : (dbBlocks env).Pairwise fun m n => m < n := List.pairwise_lt_range' 1
  rw [settingsRecords, List.pairwise_filterMap]
  refine hlt.imp fun {m n} hlt r hr s hs => ?_
  rw [settingsRecordIn_block hr, settingsRecordIn_block hs]
  exact hlt

/-- The newest settings come into force, and stay so. -/
theorem foldl_takeSettings_newest {pre post : List SettingsRecord}
    (hw : SettingsWindow base (pre ++ r :: post)) (hr : NewestSettings (pre ++ r :: post) r)
    (hpre : ∀ s ∈ pre, s ≠ r) (hpost : ∀ s ∈ post, s ≠ r) (hst : st.haveSettings = false) :
    ∃ new, r.settings = some new ∧ (pre ++ r :: post).foldl takeSettings (none, st) =
      (((post.filter fun s => s.Older r).getLast?.map SettingsRecord.block).or (some r.block),
        new) := by
  obtain ⟨new, hnew⟩ := Option.isSome_iff_exists.mp hr.valid
  refine ⟨new, hnew, ?_⟩
  have holder : ∀ s ∈ post, s.Valid → s.Older r := fun s hs hv =>
    hr.newest s (List.mem_append_right _ (List.mem_cons_of_mem _ hs)) hv (hpost s hs)
  have hafter := foldl_takeSettings_after hnew holder (some r.block)
  have htake : takeSettings (pre.foldl takeSettings (none, st)) r = (some r.block, new) := by
    have hfresh : ¬ ((pre.foldl takeSettings (none, st)).2.haveSettings = true ∧ Behind 0x8000
        r.seq.toNat (pre.foldl takeSettings (none, st)).2.settingsSeq.toNat) := by
      have hvalid : (pre.foldl takeSettings (none, st)).2 = st ∨ ∃ r ∈ pre, _ :=
        foldl_takeSettings_valid st none
      rcases hvalid with heq | ⟨s, hs, heq⟩
      · rw [heq, hst]
        exact fun h => Bool.false_ne_true h.1
      · have hmem : s ∈ pre ++ r :: post := List.mem_append_left _ hs
        have hold := hr.newest s hmem (Option.isSome_iff_exists.mpr ⟨_, heq⟩) (hpre s hs)
        rw [(settings_seq heq).2]
        exact fun h => hw.not_older hmem hr.mem hold h.2
    rw [takeSettings, settingsProcess_eq, if_neg hfresh, hnew]
  rw [List.foldl_append, List.foldl_cons, htake, hafter]

/-! ## Updating the settings -/

theorem settingsRecordIn_of_contents {n : ℕ} (h : contents env.c g n = contents env.c f n) :
    settingsRecordIn env g n = settingsRecordIn env f n := by
  rw [settingsRecordIn, settingsRecordIn, h]

theorem mem_settingsRecords : r ∈ settingsRecords env f ↔
    r.block ∈ dbBlocks env ∧ settingsRecordIn env f r.block = some r := by
  rw [settingsRecords, List.mem_filterMap]
  constructor
  · rintro ⟨n, hn, hr⟩
    rw [settingsRecordIn_block hr]
    exact ⟨hn, hr⟩
  · rintro ⟨hn, hr⟩
    exact ⟨_, hn, hr⟩

theorem bad_of_settings {n : ℕ} {seq : UInt16} {payload : Bytes}
    (h : contents env.c f n = .settings seq payload) : f.bad n = false := by
  by_contra hbad
  rw [contents, storageReadBlock, if_pos (by simpa using hbad)] at h
  cases h

/-- A successful update deletes the block that is remembered, and no other settings. -/
theorem wp_dbUpdateSettings_deletes (h : Backed env db f) {seq : UInt16} {payload : Bytes}
    {old : ℕ} (hold : db.settingsBlock = some old) :
    wp (anyContract fun _ _ _ => False) (dbUpdateSettings env db seq payload)
      (fun t g => t.1 = true → contents env.c g old = .deleted ∧ ∀ s ∈ settingsRecords env f,
        s.block ≠ old → settingsRecordIn env g s.block = some s) f := by
  obtain ⟨-, seq', payload', hc⟩ := h.settings old hold
  unfold dbUpdateSettings
  rw [wp_bind]
  refine wp_mono (wp_getErasedBlock_taken h.intact) ?_
  rintro ⟨new, db₁⟩ f₁ htaken
  cases new with
  | none => exact fun hf => absurd hf Bool.false_ne_true
  | some new =>
      obtain ⟨rfl, rest, rfl, hi, hb⟩ := htaken new rfl
      obtain ⟨-, ht⟩ := h.popped hi hb
      simp only [wp_bind, blockWrite]
      split
      · trivial
      split
      · trivial
      · refine wp_writePacked (lenient_works f₁) ht.cell (fun _ _ => trivial) (fun b hp => ?_)
          fun _ _ _ hx => hx.elim
        have hsettings : ((db.popped new rest).addSpecial 1).settingsBlock = some old := hold
        simp only [if_true, hsettings, wp_bind]
        refine wp_mono wp_discard_backed ?_
        rintro ⟨done, db₂⟩ g ⟨rfl, rfl, -, -, -⟩ -
        refine ⟨?_, fun s hs hne => ?_⟩
        · rw [contents, storageReadBlock, Flash.set_bad, Flash.set_bad, bad_of_settings hc,
            if_neg Bool.false_ne_true, Flash.set_self, blockRead_zeroBlock]
        · obtain ⟨-, hin⟩ := mem_settingsRecords.mp hs
          have hnew : s.block ≠ new := by
            intro heq
            rw [settingsRecordIn, heq, ht.contents] at hin
            cases hin
          have hkept : contents env.c ((f₁.set new b).set old zeroBlock) s.block =
              contents env.c f₁ s.block :=
            (contents_of_cells_eq (Flash.set_of_ne _ zeroBlock hne) rfl).trans
              (contents_of_cells_eq (Flash.set_of_ne f₁ b hnew) rfl)
          rw [settingsRecordIn_of_contents hkept, hin]

/-- The settings of the record are in force, and its block is the one that the next update
deletes. -/
structure OnRecord (env : Env) (f : Flash) (r : SettingsRecord) (db : Db) (st : Settings) :
    Prop where
  settings : r.settings = some st
  block : db.settingsBlock = some r.block
  update : ∀ seq payload db' g,
    Returns Works (dbUpdateSettings env db seq payload) f (true, db') g →
    contents env.c g r.block = .deleted ∧
      ∀ s ∈ settingsRecords env f, s ≠ r → settingsRecordIn env g s.block = some s

/-- Opening a database puts the newest settings in force. Their block is remembered exactly if no
block behind it has older settings. -/
theorem dbOpen_onRecord (st : Settings) (hw : SettingsWindow base (settingsRecords env f))
    (hr : NewestSettings (settingsRecords env f) r) :
    ∃ db st', dbOpen env (settingsReset st) f = some (db, st') ∧ r.settings = some st' ∧
      (OnRecord env f r db st' ↔
        ∀ s ∈ settingsRecords env f, r.block < s.block → ¬ s.Older r) := by
  obtain ⟨⟨db, st'⟩, hopen, ho⟩ := dbOpen_opened env (settingsReset st) f
  obtain ⟨pre, post, hsplit⟩ := List.append_of_mem hr.mem
  have hsorted := settingsRecords_sorted env f
  rw [hsplit] at hsorted
  obtain ⟨-, hright, hacross⟩ := List.pairwise_append.mp hsorted
  have hbehind : ∀ s ∈ post, r.block < s.block := (List.pairwise_cons.mp hright).1
  have hpre : ∀ s ∈ pre, s.block < r.block := fun s hs => hacross s hs r List.mem_cons_self
  have hreset : (settingsReset st).haveSettings = false := rfl
  obtain ⟨new, hnew, hfold⟩ := foldl_takeSettings_newest (hsplit ▸ hw) (hsplit ▸ hr)
    (fun s hs heq => Nat.lt_irrefl _ (heq ▸ hpre s hs))
    (fun s hs heq => Nat.lt_irrefl _ (heq ▸ hbehind s hs)) hreset
  have hscan := dbOpen_settings hopen
  rw [hsplit, hfold] at hscan
  obtain ⟨hblock, rfl⟩ := Prod.mk.inj hscan
  refine ⟨db, st', hopen, hnew, ?_⟩
  constructor
  · intro h s hs hlt ho
    have hpost : s ∈ post.filter fun s => s.Older r := by
      rw [hsplit, List.mem_append, List.mem_cons] at hs
      refine List.mem_filter.mpr ⟨?_, by simpa using ho⟩
      rcases hs with hs | rfl | hs
      · exact absurd (hpre s hs) (Nat.lt_asymm hlt)
      · exact absurd hlt (Nat.lt_irrefl _)
      · exact hs
    have hlast := List.getLast?_eq_some_getLast (List.ne_nil_of_mem hpost)
    generalize (post.filter fun s => s.Older r).getLast _ = last at hlast
    have hmem : last ∈ post := List.mem_of_mem_filter (List.mem_of_getLast? hlast)
    rw [hlast, h.block] at hblock
    have heq : r.block = last.block := Option.some.inj hblock
    exact Nat.lt_irrefl _ (heq ▸ hbehind last hmem)
  · intro h
    have hnone : (post.filter fun s => s.Older r) = [] := by
      refine List.filter_eq_nil_iff.mpr fun s hs => ?_
      have hmem : s ∈ settingsRecords env f := by simp [hsplit, hs]
      simpa using h s hmem (hbehind s hs)
    rw [hnone] at hblock
    have hold : db.settingsBlock = some r.block := hblock
    refine ⟨hnew, hold, fun seq payload db' g hrun => ?_⟩
    have hend := wp_returns (K := anyContract fun _ _ _ => False)
      (wp_dbUpdateSettings_deletes ho.backed hold) hrun
    obtain ⟨hdeleted, hkept⟩ := hend rfl
    refine ⟨hdeleted, fun s hs hne => hkept s hs fun heq => hne ?_⟩
    obtain ⟨-, hin⟩ := mem_settingsRecords.mp hs
    obtain ⟨-, hin'⟩ := mem_settingsRecords.mp hr.mem
    rw [heq, hin'] at hin
    exact (Option.some.inj hin).symm

/-- A storage with settings in some blocks. -/
def settingsFlash (l : List (ℕ × UInt16 × Bytes)) : Flash where
  cells n := (l.lookup n).elim erasedBlock fun r =>
    plainCrypt.encrypt (List.replicate 24 0) (List.replicate 32 0) (packed 5 r.1 r.2)
  bad _ := false

/-- The record of settings with the given flags. -/
def flagsRecord (block : ℕ) (seq : UInt16) (flags : UInt8) : SettingsRecord :=
  ⟨block, seq, padded plainCrypt [stFlags, 1, flags]⟩

theorem flagsRecord_newest {block block' : ℕ} {flags flags' : UInt8} {rs : List SettingsRecord}
    (h : rs = [flagsRecord block 1 flags, flagsRecord block' 2 flags'] ∨
      rs = [flagsRecord block' 2 flags', flagsRecord block 1 flags])
    (hv : (flagsRecord block' 2 flags').Valid) :
    SettingsWindow 0 rs ∧ NewestSettings rs (flagsRecord block' 2 flags') := by
  have hmem : ∀ r, r ∈ rs ↔ r = flagsRecord block 1 flags ∨ r = flagsRecord block' 2 flags' := by
    rcases h with rfl | rfl
    · simp
    · simp [or_comm]
  refine ⟨⟨by decide, fun r hr => ?_, fun r hr s hs heq => ?_⟩, (hmem _).mpr (.inr rfl), hv,
    fun s hs _ hne => ?_⟩
  · rcases (hmem r).mp hr with rfl | rfl
    · exact (by decide : offset 0x8000 0 1 < 0x8000)
    · exact (by decide : offset 0x8000 0 2 < 0x8000)
  · rcases (hmem r).mp hr with rfl | rfl
    · rcases (hmem s).mp hs with rfl | rfl
      · rfl
      · exact absurd heq (by decide : (1 : UInt16) ≠ 2)
    · rcases (hmem s).mp hs with rfl | rfl
      · exact absurd heq (by decide : (2 : UInt16) ≠ 1)
      · rfl
  · obtain rfl := ((hmem s).mp hs).resolve_right hne
    exact (by decide : Behind 0x8000 1 2)

theorem dbOpen_onRecord_last :
    let f := settingsFlash [(8, 1, [stFlags, 1, 1]), (9, 2, [stFlags, 1, 2])]
    let r := flagsRecord 9 2 2
    ∃ db st', dbOpen (plainEnv 16) (settingsReset ⟨false, false, false, 0⟩) f = some (db, st') ∧
      r.settings = some st' ∧ (OnRecord (plainEnv 16) f r db st' ↔
        ∀ s ∈ settingsRecords (plainEnv 16) f, r.block < s.block → ¬ s.Older r) := by
  intro f r
  have hrecords : settingsRecords (plainEnv 16) f = [flagsRecord 8 1 1, flagsRecord 9 2 2] := by
    decide +kernel
  have hvalid : (flagsRecord 9 2 2).settings.isSome := by decide +kernel
  obtain ⟨hw, hr⟩ := flagsRecord_newest (.inl hrecords) hvalid
  exact dbOpen_onRecord ⟨false, false, false, 0⟩ hw hr

/-- Settings that are out of date take the place of the newest ones if their block comes later. -/
theorem dbOpen_onRecord_stale : ¬ ∀ (env : Env) (f : Flash) (base : ℕ) (st : Settings)
    (r : SettingsRecord), SettingsWindow base (settingsRecords env f) →
    NewestSettings (settingsRecords env f) r →
    ∃ db st', dbOpen env (settingsReset st) f = some (db, st') ∧ OnRecord env f r db st' := by
  intro h
  let f := settingsFlash [(8, 2, [stFlags, 1, 2]), (9, 1, [stFlags, 1, 1])]
  have hrecords : settingsRecords (plainEnv 16) f = [flagsRecord 8 2 2, flagsRecord 9 1 1] := by
    decide +kernel
  have hvalid : (flagsRecord 8 2 2).settings.isSome := by decide +kernel
  obtain ⟨hw, hr⟩ := flagsRecord_newest (.inr hrecords) hvalid
  obtain ⟨db, st', hopen, hon⟩ := h (plainEnv 16) f 0 ⟨false, false, false, 0⟩ _ hw hr
  have hblock : ((dbOpen (plainEnv 16) (settingsReset ⟨false, false, false, 0⟩) f).bind fun t =>
      t.1.settingsBlock) = some 9 := by decide +kernel
  rw [hopen] at hblock
  have hnine : some (flagsRecord 8 2 2).block = some 9 := hon.block.symm.trans hblock
  exact absurd hnine (by decide)

end Sunela.Database
