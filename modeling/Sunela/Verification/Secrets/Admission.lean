import Sunela.Model.Pin
import Sunela.Verification.Open.Settings
import Sunela.Verification.Persistence.Backed
import Sunela.Verification.Secrets.Attempts
import Sunela.Verification.Secrets.Crash
import Sunela.Verification.Secrets.Results

/-! # The owner is let in

There is no check of the PIN but that something can be decrypted with the secret that it gives:
the settings or else the first entry. -/

namespace Sunela.Pin

open Program Storage Block Fields Entry Database Secrets

variable {P : Platform} {H : Hashes} {f g : Flash} {v v' : Vars} {pin new now : UInt32}
  {m m' : Memory}

/-! ## The pad of the PIN -/

/-- The PIN gives the master secret, and its pad is the one in use. -/
structure Unlocked (H : Hashes) (f : Flash) (v : Vars) (pin : UInt32) : Prop where
  good : ∀ n ∈ padStarts, f.bad n = false
  havePad : v.havePad = true
  setup : ∃ seq b, v.padBlock = some b ∧ secretsSetup H f pin = some ⟨v.masterSecret, seq, b⟩

theorem setupLoop_congr {pattern id : Secret} {ns : List ℕ} (found : Option Found)
    (h : ∀ n ∈ ns, storageReadBlock g n = storageReadBlock f n) :
    setupLoop g pattern id ns found = setupLoop f pattern id ns found := by
  induction ns generalizing found with
  | nil => rfl
  | cons n ns ih =>
      have hns := fun found => ih found fun m hm => h m (List.mem_cons_of_mem _ hm)
      simp only [setupLoop, h n List.mem_cons_self, hns]

/-- Neither the rest of the storage nor the sequence number matters. -/
theorem Unlocked.congr (h : Unlocked H f v pin) (hc : ∀ n ∈ padStarts, g.cells n = f.cells n)
    (hb : g.bad = f.bad) (hv : v' = { v with padSeq := v'.padSeq }) : Unlocked H g v' pin := by
  obtain ⟨seq, b, hblock, hsetup⟩ := h.setup
  have hread : ∀ n ∈ padStarts, storageReadBlock g n = storageReadBlock f n := fun n hn => by
    rw [storageReadBlock, storageReadBlock, hb, hc n hn]
  refine ⟨fun n hn => by rw [hb]; exact h.good n hn, by rw [hv]; exact h.havePad, seq, b,
    by rw [hv]; exact hblock, ?_⟩
  rw [secretsSetup, setupLoop_congr _ hread, hv]
  exact hsetup

/-- A login sets the variables from the pad. -/
theorem unlocked_of_setup (hg : ∀ n ∈ padStarts, f.bad n = false)
    (h : secretsSetupMaster H f v pin = (true, v')) : Unlocked H f v' pin := by
  unfold secretsSetupMaster at h
  cases hr : secretsSetup H f pin with
  | none =>
      rw [hr] at h
      cases h
  | some r =>
      rw [hr] at h
      obtain ⟨-, rfl⟩ := Prod.mk.inj h
      exact ⟨hg, rfl, r.seq, r.block, rfl, hr⟩

theorem Unlocked.found (h : Unlocked H f v pin) : ∃ b o i, Groups b o ∧ v.padBlock = some b ∧
    findPad (pads (f.cells b)) (idHash H pin) = some i := by
  obtain ⟨seq, b, hblock, hsetup⟩ := h.setup
  rcases setupLoop_found hsetup with hn | ⟨hm, i, hi, -⟩
  · cases hn
  · obtain ⟨o, hg⟩ := exists_groups hm
    exact ⟨b, o, i, hg, hblock, hi⟩

theorem findPad_of_setup_none (hg : ∀ n ∈ padStarts, f.bad n = false)
    (h : secretsSetup H f pin = none) {b : ℕ} (hb : b ∈ padStarts) :
    findPad (pads (f.cells b)) (idHash H pin) = none := by
  have hn : ¬ (secretsSetup H f pin).isSome := by simp [h]
  rw [secretsSetup, setupLoop_isSome _ _ hg, not_or] at hn
  exact Option.not_isSome_iff_eq_none.mp fun hs => hn.2 ⟨b, hb, hs⟩

/-- The pads are not in the blocks of the database. -/
structure LeavesDatabase (f g : Flash) : Prop where
  cells : ∀ n, reservedBlocks ≤ n → g.cells n = f.cells n
  bad : g.bad = f.bad

/-- A change to a PIN that has no pad yet makes it the PIN of the owner. -/
theorem wp_secretsChange_unlocked (herased : ∀ p, idHash H p ≠ erasedId)
    (h : Unlocked H f v pin) (hnew : secretsSetup H f new = none) :
    wp (anyContract fun _ _ _ => False) (secretsChange H v pin new) (fun r g =>
      Unlocked H g r.2 new ∧ r.2.masterSecret = v.masterSecret ∧ LeavesDatabase f g) f := by
  obtain ⟨b, o, i, hg, hblock, hi⟩ := h.found
  have hfresh := findPad_of_setup_none h.good hnew hg.mem
  obtain ⟨buf, hbuf, -, hslots⟩ := changedBlock_slots v new hi
  have hx : f.cells b ≠ erasedBlock := fun he => by
    rw [he, findPad_erasedBlock (herased pin)] at hi
    cases hi
  have hself := hslots i
  rw [if_pos rfl] at hself
  have hsetup : ∀ g : Flash, g.bad = f.bad → g.cells o = buf → g.cells b = erasedBlock →
      secretsSetup H g new = some ⟨v.masterSecret, padSeq buf, o⟩ := by
    intro g hbad ho hb
    have hgood : g.bad o = false := by rw [hbad]; exact h.good o hg.symm.mem
    have hnone : findPad (pads (g.cells b)) (idHash H new) = none := by
      rw [hb]
      exact findPad_erasedBlock (herased new)
    rw [secretsSetup_eq hg.symm hgood hnone, ho, findPad_changed (of_findPad hi).1 hfresh hslots,
      Option.map_some, slotPad_of_eq hself, secretOf_toList, xor_cancel]
  apply wp_secretsChange rfl hg (h.good b hg.mem) hx h.havePad hblock hbuf rfl rfl trivial trivial
    trivial trivial trivial
  refine ⟨⟨h.good, h.havePad, padSeq buf, o, rfl, hsetup _ rfl ?_ hg.symm.erased.1⟩, rfl,
    fun n hn => ?_, rfl⟩
  · rw [hg.symm.erased.2, Flash.set_self]
  · have hb : ¬ (b ≤ n ∧ n < b + storageEraseSize) ∧ ¬ (o ≤ n ∧ n < o + storageEraseSize) ∧
        n ≠ o := by
      have h8 : 8 ≤ n := hn
      have h4 : storageEraseSize = 4 := rfl
      rcases hg.starts with ⟨rfl, rfl⟩ | ⟨rfl, rfl⟩ <;> omega
    rw [Flash.setRange_of_notMem _ _ hb.1, Flash.set_of_ne _ _ hb.2.2,
      Flash.setRange_of_notMem _ _ hb.2.1]

/-! ## Checks -/

/-- The PIN is accepted on every page that asks for it, whatever a login finds in memory. -/
structure Admits (P : Platform) (f : Flash) (now : UInt32) (m : Memory) (pin : UInt32) :
    Prop where
  login : ∀ m₀, (acceptPin P f m₀ pin).map Prod.fst = some true
  check : (pinRevalidate P f now m pin).map Prod.fst = some true

/-- There is something to check a PIN with: settings, or a first entry that is not virtual. In
the second case, a login has to count an account or an empty block, too. -/
def Checkable (env : Env) (db : Db) (f : Flash) : Prop :=
  db.settingsBlock ≠ none ∨ (∃ e ch nx, db.entries = .node e ch nx ∧ e.block ≠ 0) ∧
    ∃ n ∈ dbBlocks env, (recordIn env f n).isSome ∨ contents env.c f n = .empty

/-- Settings can be read if some are remembered or in force. -/
def Readable (env : Env) (db : Db) (st : Settings) (f : Flash) : Prop :=
  db.settingsBlock ≠ none ∨ st.haveSettings = true → ∃ n ∈ dbBlocks env, SettingsIn env f n

theorem blockValidate_of_isRecord {c : Dbcrypt} {n : ℕ}
    (hn : n ∈ dbBlocks ⟨P.storageBlocks, c⟩) (hr : (contents c f n).IsRecord) :
    blockValidate P c f n = some true := by
  have hlt : ¬ P.storageBlocks ≤ n := Nat.not_le.mpr (mem_dbBlocks.mp hn).2
  have hbad : f.bad n = false := bad_eq_false (c := c) fun he => by
    rw [he] at hr
    exact hr
  unfold blockValidate
  rw [if_neg hlt, storageReadBlock, hbad, if_neg Bool.false_ne_true, Option.bind_some]
  cases hd : c.decrypt (f.cells n) with
  | some content => rfl
  | none =>
      unfold contents storageReadBlock at hr
      rw [hbad, if_neg Bool.false_ne_true] at hr
      exact absurd hr (not_isRecord_of_decrypt hd)

theorem validates_of_settings {c : Dbcrypt} {db : Db} (h : Backed ⟨P.storageBlocks, c⟩ db f)
    (hs : db.settingsBlock ≠ none) : validates P c f db = some true := by
  obtain ⟨n, hn⟩ := Option.ne_none_iff_exists'.mp hs
  obtain ⟨hm, seq, payload, hc⟩ := h.settings n hn
  have hr : (contents c f n).IsRecord := by
    rw [show contents c f n = .settings seq payload from hc]
    trivial
  unfold validates
  rw [hn]
  simp [blockValidate_of_isRecord hm hr]

theorem validates_of_first {c : Dbcrypt} {db : Db} {e : DbEntry} {ch nx : Tree}
    (h : Backed ⟨P.storageBlocks, c⟩ db f) (he : db.entries = .node e ch nx)
    (hb : e.block ≠ 0) : validates P c f db = some true := by
  by_cases hs : db.settingsBlock = none
  · have hmem : e ∈ db.entries.entries := by
      rw [he]
      exact List.mem_cons_self
    obtain ⟨hm, seq, payload, hc⟩ := (h.entries e hmem).resolve_left hb
    have hr : (contents c f e.block).IsRecord := by
      rw [show contents c f e.block = .data seq payload from hc]
      trivial
    unfold validates
    rw [hs, he]
    simp [blockValidate_of_isRecord hm hr]
  · exact validates_of_settings h hs

theorem pinRevalidate_of_validates {r : Found} (hr : secretsSetup P.hashes f pin = some r)
    (hv : validates P (P.dbcryptInit r.secret) f m.db = some true) :
    (pinRevalidate P f now m pin).map Prod.fst = some true := by
  unfold pinRevalidate
  rw [hr]
  simp [hv]

/-- A login counts what is on storage. -/
theorem acceptPin_of_counted {env : Env} {r : Found} (hr : secretsSetup P.hashes f pin = some r)
    (henv : env = ⟨P.storageBlocks, P.dbcryptInit r.secret⟩)
    (hc : ∃ n ∈ dbBlocks env, SettingsIn env f n ∨ (recordIn env f n).isSome ∨
      contents env.c f n = .empty) :
    (acceptPin P f m pin).map Prod.fst = some true := by
  obtain ⟨⟨db, st⟩, hopen, ho⟩ := dbOpen_opened env m.settings f
  have hset := dbOpen_settled hopen
  have hok : db.stats.data ≠ 0 ∨ db.stats.special ≠ 0 ∨ db.stats.empty ≠ 0 := by
    obtain ⟨n, hn, hin | hrec | hempty⟩ := hc
    · exact .inr (.inl fun hz => hset.found n hn hin (hset.counted.mp hz))
    · obtain ⟨s, hs⟩ := Option.isSome_iff_exists.mp hrec
      have hm : s ∈ records env f := List.mem_filterMap.mpr ⟨n, hn, hs⟩
      have hpos := List.length_pos_of_mem hm
      left
      rw [ho.data]
      omega
    · have hm : n ∈ having env f .empty (dbBlocks env) := by
        rw [having, List.mem_filter]
        exact ⟨hn, by simpa using hempty⟩
      have hpos := List.length_pos_of_mem hm
      right
      right
      rw [ho.empty.count]
      omega
  subst henv
  unfold acceptPin secretsSetupMaster
  rw [hr]
  simp [hopen, hok]

/-! ## Runs -/

/-- How a device came by its database. -/
inductive Origin where
  | newPage
  | database
  deriving DecidableEq

/-- The states of a device whose owner knows the PIN, with the PIN in force. It has been set up as
a new device, or there was a database that let the owner in after power was turned on. From then
on operations, updates of the settings and changes of the PIN are successful, each of those to a
PIN that has no pad. The owner logs in again, with or without a power cycle. -/
inductive DeviceRun (P : Platform) : Origin → Memory → Flash → UInt32 → Prop where
  | new {m₀ m₁ m : Memory} {f₀ f₁ f : Flash} {pin : UInt32}
      (good : ∀ n ∈ padStarts, f₀.bad n = false)
      (set : Returns Works (pinSet P m₀ pin) f₀ (true, m₁) f₁)
      (write : Returns Works (writeNewSettings P f₁ m₁) f₁ (true, m) f) :
      DeviceRun P .newPage m f pin
  | accepted {m₀ m : Memory} {f : Flash} {pin : UInt32}
      (good : ∀ n ∈ padStarts, f.bad n = false) (cold : m₀.settings.haveSettings = false)
      (h : acceptPin P f m₀ pin = some (true, m)) : DeviceRun P .database m f pin
  | operations {o : Origin} {m : Memory} {f g : Flash} {pin : UInt32} {db : Db}
      (run : DeviceRun P o m f pin) (ends : Succeeding (m.env P) ⟨m.db, f⟩ ⟨db, g⟩) :
      DeviceRun P o { m with db } g pin
  | settings {o : Origin} {m m' : Memory} {f g : Flash} {pin : UInt32} {crosshair strictRmt : Bool}
      (run : DeviceRun P o m f pin)
      (ends : Returns Works (Memory.settingsUpdate P
        { m with settings := { m.settings with crosshair, strictRmt } }) f (true, m') g) :
      DeviceRun P o m' g pin
  | change {o : Origin} {m m' : Memory} {f g : Flash} {pin new now : UInt32}
      (run : DeviceRun P o m f pin) (fresh : secretsSetup P.hashes f new = none)
      (ends : Returns Works (pinChange P f now m pin new) f (true, m') g) :
      DeviceRun P o m' g new
  | login {o : Origin} {m m₀ m' : Memory} {f : Flash} {pin : UInt32} {ok : Bool}
      (run : DeviceRun P o m f pin) (before : m₀ = m ∨ m₀.settings.haveSettings = false)
      (h : acceptPin P f m₀ pin = some (ok, m')) : DeviceRun P o m' f pin

theorem DeviceRun.ends {o : Origin} {t : State} (run : DeviceRun P o m f pin)
    (h : Succeeding (m.env P) ⟨m.db, f⟩ t) : DeviceRun P o { m with db := t.db } t.flash pin :=
  run.operations h

/-- What holds in every state of a run. -/
structure InOrder (P : Platform) (o : Origin) (m : Memory) (f : Flash) (pin : UInt32) : Prop where
  unlocked : Unlocked P.hashes f m.vars pin
  held : Held m.db
  backed : Backed (m.env P) m.db f
  readable : Readable (m.env P) m.db m.settings f
  settings : o = .newPage → m.db.settingsBlock ≠ none

/-- The PIN is accepted if there is something to check it with. -/
theorem InOrder.admits {o : Origin} (h : InOrder P o m f pin)
    (hc : o = .newPage ∨ Checkable (m.env P) m.db f) : Admits P f now m pin := by
  obtain ⟨seq, b, -, hsetup⟩ := h.unlocked.setup
  have hcheck : Checkable (m.env P) m.db f := hc.elim (fun ho => .inl (h.settings ho)) id
  refine ⟨fun m₀ => acceptPin_of_counted hsetup rfl ?_, pinRevalidate_of_validates hsetup ?_⟩
  · rcases hcheck with hs | ⟨-, n, hn, hcount⟩
    · obtain ⟨n, hn, hin⟩ := h.readable (.inl hs)
      exact ⟨n, hn, .inl hin⟩
    · exact ⟨n, hn, .inr hcount⟩
  · rcases hcheck with hs | ⟨⟨e, ch, nx, he, hb⟩, -⟩
    · exact validates_of_settings h.backed hs
    · exact validates_of_first h.backed he hb

/-! ## Steps -/

theorem notMem_dbBlocks_of_pad {env : Env} {n : ℕ} (h : n ∈ padStarts) : n ∉ dbBlocks env := by
  intro hn
  have hlt : ∀ n ∈ padStarts, n < reservedBlocks := by decide
  exact absurd (mem_dbBlocks.mp hn).1 (Nat.not_le.mpr (hlt n h))

theorem acceptPin_opened {r : Found} {ok : Bool} (hr : secretsSetup P.hashes f pin = some r)
    (h : acceptPin P f m pin = some (ok, m')) :
    m'.vars = ⟨r.secret, true, r.seq, some r.block⟩ ∧
      dbOpen (m'.env P) m.settings f = some (m'.db, m'.settings) := by
  unfold acceptPin secretsSetupMaster at h
  rw [hr] at h
  obtain ⟨⟨db, st⟩, hopen, h⟩ := Option.bind_eq_some_iff.mp h
  obtain ⟨-, rfl⟩ := Prod.mk.inj (Option.some.inj h)
  exact ⟨rfl, hopen⟩

/-- A login on a storage that has settings if some are in force. -/
theorem inOrder_of_login {r : Found} {o : Origin} {ok : Bool}
    (good : ∀ n ∈ padStarts, f.bad n = false) (hr : secretsSetup P.hashes f pin = some r)
    (h : acceptPin P f m pin = some (ok, m'))
    (hread : o = .newPage ∨ m.settings.haveSettings = true →
      ∃ n ∈ dbBlocks (m'.env P), SettingsIn (m'.env P) f n) : InOrder P o m' f pin := by
  obtain ⟨hvars, hopen⟩ := acceptPin_opened hr h
  obtain ⟨s, hs, ho⟩ := dbOpen_opened (m'.env P) m.settings f
  obtain rfl := Option.some.inj (hopen.symm.trans hs)
  have hset := dbOpen_settled hopen
  refine ⟨⟨good, by rw [hvars], r.seq, r.block, by rw [hvars], by rw [hvars]; exact hr⟩,
    ⟨ho.linked, fun e he => (ho.handles e he).1⟩, ho.backed, fun hb => ?_, fun hn => ?_⟩
  · exact (hset.read hb).elim (fun hhave => hread (.inr hhave)) id
  · obtain ⟨n, hn, hin⟩ := hread (.inl hn)
    exact hset.found n hn hin

theorem InOrder.operations {o : Origin} {db : Db} (h : InOrder P o m f pin)
    (hr : Succeeding (m.env P) ⟨m.db, f⟩ ⟨db, g⟩) : InOrder P o { m with db } g pin := by
  obtain ⟨hheld, hback, hkeeps⟩ := succeeding_backed h.held h.backed hr
  have hblock : db.settingsBlock = m.db.settingsBlock := hkeeps.block
  refine ⟨h.unlocked.congr (fun n hn => hkeeps.cells n (notMem_dbBlocks_of_pad hn)) hkeeps.bad rfl,
    hheld, hback, fun hb => ?_, fun ho => ?_⟩
  · obtain ⟨n, hn, seq, payload, hc, hp⟩ := h.readable (hblock ▸ hb)
    exact ⟨n, hn, seq, payload, hkeeps.settings n seq payload hc, hp⟩
  · rw [hblock]
    exact h.settings ho

/-- An update of the settings leaves settings that can be read. -/
theorem inOrder_of_settings {o : Origin} (hu : Unlocked P.hashes f m.vars pin) (hheld : Held m.db)
    (hback : Backed (m.env P) m.db f)
    (hr : Returns Works (m.settingsUpdate P) f (true, m') g) : InOrder P o m' g pin := by
  unfold Memory.settingsUpdate at hr
  obtain ⟨⟨ok, db⟩, f₁, hend, hret⟩ := returns_bind hr
  obtain ⟨he, rfl⟩ := reaches_ret.mp hret
  obtain ⟨rfl, rfl⟩ := Prod.mk.inj (Prog.ret.inj he)
  have hheld' := wp_returns (K := anyContract fun _ _ _ => False) (wp_exec_held
    (c := .updateSettings (Database.settingsUpdate m.settings).1.settingsSeq
      (Database.settingsUpdate m.settings).2) hheld) hend
  have hpost := wp_returns (K := anyContract fun _ _ _ => False)
    (wp_dbUpdateSettings_backed hback) hend
  obtain ⟨hback', ⟨n, hn, hblock, hc⟩, hcells, hbad⟩ := hpost rfl
  have hsome : db.settingsBlock ≠ none := by
    rw [show db.settingsBlock = some n from hblock]
    exact Option.some_ne_none n
  exact ⟨hu.congr (fun n hn => hcells n (notMem_dbBlocks_of_pad hn)) hbad rfl, hheld', hback',
    fun _ => ⟨n, hn, settingsIn_updated hc⟩, fun _ => hsome⟩

theorem pinRevalidate_rest {ok : Bool} (h : pinRevalidate P f now m pin = some (ok, m')) :
    m'.db = m.db ∧ m'.settings = m.settings := by
  unfold pinRevalidate at h
  split at h
  · obtain ⟨-, rfl⟩ := Prod.mk.inj (Option.some.inj h)
    exact ⟨rfl, rfl⟩
  · obtain ⟨valid, -, h⟩ := Option.bind_eq_some_iff.mp h
    cases valid <;> obtain ⟨-, rfl⟩ := Prod.mk.inj (Option.some.inj h) <;> exact ⟨rfl, rfl⟩

theorem wp_pinChange_rest {oldPin newPin : UInt32} :
    wp (anyContract fun _ _ _ => False) (pinChange P f now m oldPin newPin)
      (fun r _ => r.2.db = m.db ∧ r.2.settings = m.settings) g := by
  unfold pinChange
  cases hr : pinRevalidate P f now m oldPin with
  | none => trivial
  | some r =>
      obtain ⟨ok, m₁⟩ := r
      have hrest := pinRevalidate_rest hr
      cases ok with
      | false => exact hrest
      | true =>
          simp only []
          split
          · exact hrest
          · rw [wp_bind]
            apply wp_of_returns
            intro r g' _
            exact hrest

/-- A change of the PIN does not touch the database. -/
theorem InOrder.change {o : Origin} (herased : ∀ p, idHash P.hashes p ≠ erasedId)
    (h : InOrder P o m f pin) (hnew : secretsSetup P.hashes f new = none)
    (hr : Returns Works (pinChange P f now m pin new) f (true, m') g) : InOrder P o m' g new := by
  obtain ⟨v, hsecret, hhave, hblock, hends⟩ := pinChange_returns hr
  obtain ⟨hdb, hsettings⟩ := wp_returns (K := anyContract fun _ _ _ => False) wp_pinChange_rest hr
  have hv : v = { m.vars with padSeq := v.padSeq } := by
    cases v
    simp_all
  have hu : Unlocked P.hashes f v pin := h.unlocked.congr (fun _ _ => rfl) rfl hv
  obtain ⟨hu', hsecret', hleaves⟩ := wp_returns (K := anyContract fun _ _ _ => False)
    (wp_secretsChange_unlocked herased hu hnew) hends
  have henv : m'.env P = m.env P := by
    unfold Memory.env
    rw [hsecret', hsecret]
  have hcells : ∀ n ∈ dbBlocks (m.env P), g.cells n = f.cells n := fun n hn =>
    hleaves.cells n (mem_dbBlocks.mp hn).1
  refine ⟨hu', by rw [hdb]; exact h.held, ?_, ?_, fun ho => by rw [hdb]; exact h.settings ho⟩
  · rw [henv, hdb]
    exact h.backed.congr hcells hleaves.bad
  · rw [henv, hdb, hsettings]
    intro hb
    obtain ⟨n, hn, seq, payload, hc, hp⟩ := h.readable hb
    refine ⟨n, hn, seq, payload, ?_, hp⟩
    rw [contents_of_cells_eq (hcells n hn) hleaves.bad]
    exact hc

/-- A new device has settings. -/
theorem inOrder_of_new {m₀ m₁ : Memory} {f₀ f₁ : Flash}
    (herased : ∀ p, idHash P.hashes p ≠ erasedId) (good : ∀ n ∈ padStarts, f₀.bad n = false)
    (set : Returns Works (pinSet P m₀ pin) f₀ (true, m₁) f₁)
    (write : Returns Works (writeNewSettings P f₁ m₁) f₁ (true, m) f) :
    InOrder P .newPage m f pin := by
  unfold pinSet at set
  obtain ⟨⟨ok, v⟩, f₂, hend, hret⟩ := returns_bind set
  obtain ⟨he, rfl⟩ := reaches_ret.mp hret
  obtain ⟨rfl, rfl⟩ := Prod.mk.inj (Prog.ret.inj he)
  obtain ⟨hp, hc⟩ := wp_returns (K := anyContract fun _ _ _ => False) (wp_secretsNew good) hend
  have hgood : ∀ n ∈ padStarts, f₁.bad n = false := by
    have hstarts : padStarts = [0, storageEraseSize] := rfl
    simpa [hstarts] using hp.good
  have hu : Unlocked P.hashes f₁ v pin :=
    ⟨hgood, hc.have_pad, _, _, hc.block, hp.setup (herased pin)⟩
  unfold writeNewSettings at write
  cases hopen : dbOpen (Memory.env P { m₀ with vars := v }) m₀.settings f₁ with
  | none =>
      rw [hopen] at write
      cases write
  | some r =>
      obtain ⟨db, st⟩ := r
      obtain ⟨s, hs, ho⟩ := dbOpen_opened (Memory.env P { m₀ with vars := v }) m₀.settings f₁
      obtain rfl := Option.some.inj (hopen.symm.trans hs)
      rw [hopen] at write
      have hheld : Held db := ⟨ho.linked, fun e he => (ho.handles e he).1⟩
      exact inOrder_of_settings (m := { m₀ with vars := v, db, settings := settingsReset st }) hu
        hheld ho.backed write

/-- In every state of a run the pad, the database and the storage are in order. -/
theorem deviceRun_inOrder {o : Origin} (herased : ∀ p, idHash P.hashes p ≠ erasedId)
    (hr : DeviceRun P o m f pin) : InOrder P o m f pin := by
  induction hr with
  | new good set write => exact inOrder_of_new herased good set write
  | @accepted m₀ m f pin good cold h =>
      cases hs : secretsSetup P.hashes f pin with
      | none =>
          unfold acceptPin secretsSetupMaster at h
          rw [hs] at h
          cases h
      | some r =>
          refine inOrder_of_login good hs h fun hb => ?_
          rcases hb with ho | hhave
          · cases ho
          · rw [cold] at hhave
            exact absurd hhave Bool.false_ne_true
  | operations _ ends ih => exact ih.operations ends
  | @settings o m m' f g pin crosshair strictRmt _ ends ih =>
      exact inOrder_of_settings
        (m := { m with settings := { m.settings with crosshair, strictRmt } })
        ih.unlocked ih.held ih.backed ends
  | change _ fresh ends ih => exact ih.change herased fresh ends
  | @login o m m₀ m' f pin ok _ before h ih =>
      obtain ⟨seq, b, -, hs⟩ := ih.unlocked.setup
      have henv : m'.env P = m.env P := by
        unfold Memory.env
        rw [(acceptPin_opened hs h).1]
      refine inOrder_of_login ih.unlocked.good hs h fun hb => ?_
      rw [henv]
      apply ih.readable
      rcases hb with ho | hhave
      · exact .inl (ih.settings ho)
      · rcases before with rfl | cold
        · exact .inr hhave
        · rw [cold] at hhave
          exact absurd hhave Bool.false_ne_true

/-- The PIN in force is accepted in every state of a run that has something to check it with, and
always on a device that was set up as a new one, if no identifier of a PIN looks erased. -/
theorem deviceRun_admits {o : Origin} (herased : ∀ p, idHash P.hashes p ≠ erasedId)
    (hr : DeviceRun P o m f pin) (hc : o = .newPage ∨ Checkable (m.env P) m.db f) :
    Admits P f now m pin :=
  (deviceRun_inOrder herased hr).admits hc

/-! ## A device without settings -/

/-- The memory after a login on a storage with one account and no settings. -/
def loggedIn : Memory :=
  ((acceptPin plainPlatform lockedFlash powerUp 0xffff1234).map Prod.snd).getD powerUp

theorem deviceRun_loggedIn : DeviceRun plainPlatform .database loggedIn lockedFlash 0xffff1234 := by
  have hok : (acceptPin plainPlatform lockedFlash powerUp 0xffff1234).map Prod.fst = some true := by
    decide +kernel
  obtain ⟨⟨ok, m⟩, h, rfl⟩ := Option.map_eq_some_iff.mp hok
  have hm : loggedIn = m := by simp [loggedIn, h]
  rw [hm]
  exact .accepted (fun _ _ => rfl) rfl h

/-- The state once the account has been deleted. -/
def nothingLeft : State :=
  afterCall (plainEnv 16) (.deleteEntry 0) ⟨loggedIn.db, lockedFlash⟩

/-- Neither page accepts the PIN any more. -/
theorem deviceRun_admits_deleted :
    DeviceRun plainPlatform .database { loggedIn with db := nothingLeft.db } nothingLeft.flash
      0xffff1234 ∧
    (acceptPin plainPlatform nothingLeft.flash powerUp 0xffff1234).map Prod.fst = some false ∧
    (pinRevalidate plainPlatform nothingLeft.flash 0 { loggedIn with db := nothingLeft.db }
      0xffff1234).map Prod.fst = some false := by
  have hresult : callResult (plainEnv 16) (.deleteEntry 0) ⟨loggedIn.db, lockedFlash⟩ =
      some true := by decide +kernel
  have henv : loggedIn.env plainPlatform = plainEnv 16 := rfl
  have hends : Succeeding (plainEnv 16) ⟨loggedIn.db, lockedFlash⟩ nothingLeft :=
    .next .start (fun _ _ h => by cases h) (ends_afterCall (plainEnv 16) (.deleteEntry 0) _ hresult)
  exact ⟨deviceRun_loggedIn.ends (henv ▸ hends), by decide +kernel, by decide +kernel⟩

/-! ## A device with settings -/

def newPageSet : Fw (Bool × Memory) × Flash :=
  run answer (pinSet plainPlatform powerUp 0xffff1234) (plainFlash [])

def newPageMemory : Memory := (newPageSet.1.result?.map Prod.snd).getD powerUp

/-- The end of the page for a new device with an erased storage. -/
def newPageWritten : Fw (Bool × Memory) × Flash :=
  run answer (writeNewSettings plainPlatform newPageSet.2 newPageMemory) newPageSet.2

theorem deviceRun_admits_new : ∃ m,
    DeviceRun plainPlatform .newPage m newPageWritten.2 0xffff1234 ∧
      Admits plainPlatform newPageWritten.2 0 m 0xffff1234 := by
  have hset : (newPageSet.1.result?.map Prod.fst) = some true := by decide +kernel
  obtain ⟨⟨ok, m₁⟩, h₁, rfl⟩ := Option.map_eq_some_iff.mp hset
  have hm₁ : newPageMemory = m₁ := by simp [newPageMemory, h₁]
  have hwrite : (newPageWritten.1.result?.map Prod.fst) = some true := by decide +kernel
  obtain ⟨⟨ok, m⟩, h₂, rfl⟩ := Option.map_eq_some_iff.mp hwrite
  have hends₁ : Returns Works (pinSet plainPlatform powerUp 0xffff1234) (plainFlash [])
      (true, newPageMemory) newPageSet.2 := by
    rw [hm₁]
    exact returns_run answer_works h₁
  have hends₂ : Returns Works (writeNewSettings plainPlatform newPageSet.2 newPageMemory)
      newPageSet.2 (true, m) newPageWritten.2 := returns_run answer_works h₂
  have hrun : DeviceRun plainPlatform .newPage m newPageWritten.2 0xffff1234 :=
    .new (fun _ _ => rfl) hends₁ hends₂
  exact ⟨m, hrun, deviceRun_admits idHash_plainHashes_ne hrun (.inl rfl)⟩

end Sunela.Pin
