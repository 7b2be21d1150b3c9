import Sunela.Verification.Open.Scan

/-! # Settings that are found

A database that has been opened remembers a block of settings just if it has counted one, and
then some record of settings could be read. -/

namespace Sunela.Database

open Storage Block

/-- The block holds settings that are read without an error. -/
def SettingsIn (env : Env) (f : Flash) (n : ℕ) : Prop :=
  ∃ seq payload, contents env.c f n = .settings seq payload ∧
    (parseSettings payload.length payload 0).isSome

/-- What is known of the settings after the blocks `ns`, with those in force before. -/
structure Settled (env : Env) (f : Flash) (ns : List ℕ) (before : Settings)
    (s : Db × Settings) : Prop where
  special : 0 ≤ s.1.stats.special
  counted : s.1.stats.special = 0 ↔ s.1.settingsBlock = none
  found : ∀ n ∈ ns, SettingsIn env f n → s.1.settingsBlock ≠ none
  read : s.1.settingsBlock ≠ none ∨ s.2.haveSettings = true →
    before.haveSettings = true ∨ ∃ n ∈ ns, SettingsIn env f n

variable {env : Env} {f : Flash} {ns : List ℕ} {before : Settings} {s s' : Db × Settings} {i : ℕ}

/-- A block that has nothing to do with settings. -/
theorem Settled.skip (h : Settled env f ns before s) (hi : ¬ SettingsIn env f i)
    (hs : s'.1.stats.special = s.1.stats.special) (hb : s'.1.settingsBlock = s.1.settingsBlock)
    (hst : s'.2 = s.2) : Settled env f (ns ++ [i]) before s' where
  special := by rw [hs]; exact h.special
  counted := by rw [hs, hb]; exact h.counted
  found := fun n hn hin => by
    rw [hb]
    rcases List.mem_append.mp hn with hn | hn
    · exact h.found n hn hin
    · obtain rfl := List.mem_singleton.mp hn
      exact absurd hin hi
  read := fun hr => by
    rw [hb, hst] at hr
    exact (h.read hr).imp_right fun ⟨n, hn, hin⟩ => ⟨n, List.mem_append_left _ hn, hin⟩

theorem settingsProcess_isSome {st : Settings} {seq : UInt16} {payload : Bytes}
    (h : (parseSettings payload.length payload 0).isSome) :
    (settingsProcess st seq payload).isSome := by
  unfold settingsProcess
  split
  · rfl
  · rw [Option.isSome_map]
    exact h

/-- A record counts because it can be read, unless settings are in force already. -/
theorem settingsProcess_some {st st' : Settings} {seq : UInt16} {payload : Bytes}
    (h : settingsProcess st seq payload = some st') :
    st.haveSettings = true ∨ (parseSettings payload.length payload 0).isSome := by
  unfold settingsProcess at h
  split at h
  · next hold => exact .inl hold.1
  · obtain ⟨flags, hflags, -⟩ := Option.map_eq_some_iff.mp h
    exact .inr (by rw [hflags]; rfl)

/-- One more block is taken in. -/
theorem openBlock_settled (h : Settled env f ns before s) (ho : openBlock env f s i = some s') :
    Settled env f (ns ++ [i]) before s' := by
  cases openBlock_round ho with
  | data seq payload found processed settings =>
      obtain ⟨hblock, hspecial⟩ := processPayload_settings processed
      refine h.skip ?_ hspecial hblock settings
      rintro ⟨seq', payload', hin, -⟩
      exact absurd (found.symm.trans hin) (by simp)
  | other notData notSettings entries special block settings =>
      refine h.skip ?_ special block settings
      rintro ⟨seq, payload, hin, -⟩
      exact notSettings seq payload hin
  | settings seq payload found taken =>
      cases hp : settingsProcess s.2 seq payload with
      | none =>
          rw [hp] at taken
          subst taken
          refine h.skip ?_ rfl rfl rfl
          rintro ⟨seq', payload', hin, hread⟩
          obtain ⟨rfl, rfl⟩ := Contents.settings.inj (found.symm.trans hin)
          have hsome : (settingsProcess s.2 seq payload).isSome := settingsProcess_isSome hread
          rw [hp] at hsome
          exact Bool.false_ne_true hsome
      | some st' =>
          rw [hp] at taken
          subst taken
          have hpos : (0 : ℤ) < s.1.stats.special + 1 := Int.lt_add_one_of_le h.special
          refine ⟨hpos.le, ?_, fun _ _ _ => Option.some_ne_none i, fun _ => ?_⟩
          · exact iff_of_false hpos.ne' (Option.some_ne_none i)
          · rcases settingsProcess_some hp with hhave | hread
            · exact (h.read (.inr hhave)).imp_right fun ⟨n, hn, hin⟩ =>
                ⟨n, List.mem_append_left _ hn, hin⟩
            · exact .inr ⟨i, by simp, seq, payload, found, hread⟩

theorem foldlM_settled {l : List ℕ} (h : Settled env f ns before s)
    (hl : l.foldlM (openBlock env f) s = some s') : Settled env f (ns ++ l) before s' := by
  induction l generalizing ns s with
  | nil =>
      obtain rfl := Option.some.inj hl
      rw [List.append_nil]
      exact h
  | cons i l ih =>
      rw [List.foldlM_cons] at hl
      obtain ⟨t, ht, hl⟩ := Option.bind_eq_some_iff.mp hl
      have hnext := ih (openBlock_settled h ht) hl
      rwa [List.append_assoc] at hnext

/-- What an opened database knows of the settings. -/
theorem dbOpen_settled (h : dbOpen env before f = some s) :
    Settled env f (dbBlocks env) before s := by
  obtain ⟨⟨db, st⟩, hfold, h⟩ := Option.bind_eq_some_iff.mp h
  obtain ⟨F, -, h⟩ := Option.bind_eq_some_iff.mp h
  obtain rfl := Option.some.inj h
  have hnil : Settled env f [] before (dbOpenEmpty, before) :=
    ⟨le_refl _, by simp [dbOpenEmpty], by simp, fun hr => .inl (hr.resolve_left (by
      simp [dbOpenEmpty]))⟩
  have hscan := foldlM_settled hnil hfold
  rw [List.nil_append] at hscan
  exact ⟨hscan.special, hscan.counted, hscan.found, hscan.read⟩

/-! ## Settings that are stored -/

theorem parseSettings_zeros {fuel k : ℕ} (flags : UInt8) (h : k ≤ fuel) :
    (parseSettings fuel (List.replicate k 0) flags).isSome := by
  cases k with
  | zero => cases fuel <;> rfl
  | succ k =>
      cases fuel with
      | zero => omega
      | succ fuel => rfl

/-- What an update stores can be read. -/
theorem settingsIn_updated {s : Settings} {n : ℕ} {seq : UInt16}
    (h : contents env.c f n = .settings seq (padded env.c (settingsUpdate s).2)) :
    SettingsIn env f n := by
  have hpayload : (settingsUpdate s).2 = [] ∨ ∃ flags, (settingsUpdate s).2 = [stFlags, 1, flags] := by
    unfold settingsUpdate
    simp only []
    split_ifs <;> simp
  refine ⟨seq, _, h, ?_⟩
  unfold padded
  generalize env.c.capacity - (headerSize + (settingsUpdate s).2.length) = k
  rcases hpayload with hp | ⟨flags, hp⟩
  · rw [hp, List.nil_append, List.length_replicate]
    exact parseSettings_zeros _ (le_refl k)
  · rw [hp]
    simp only [List.cons_append, List.nil_append, List.length_cons, List.length_replicate,
      parseSettings]
    have hone : (1 : UInt8).toNat = 1 := rfl
    have hlen : ¬ (k + 1 < (1 : UInt8).toNat ∨ stFlags ≠ stFlags) := by simp
    rw [if_neg (by decide), if_neg hlen, hone, List.drop_one, List.tail_cons]
    exact parseSettings_zeros _ (by omega)

end Sunela.Database
