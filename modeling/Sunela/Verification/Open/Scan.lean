import Mathlib.Tactic.Ring
import Sunela.Verification.Open.Records
import Sunela.Verification.Span.Blocks
import Sunela.Verification.Tsort.Permutation

/-! # Opening a database

The scan puts every block where it belongs: into the tree, into one of the lists, or only
into the counts. -/

namespace Sunela.Database

open Serial Storage Span Block Fields Entry Tsort

/-- A list of spans that can be followed, holds just the given blocks and is counted right. -/
structure Counted (s : Spans) (k : ℤ) (blocks : List ℕ) : Prop where
  intact : s.Intact
  perm : s.blocks.Perm blocks
  count : k = blocks.length

/-- The blocks among `ns` with a given content. -/
def having (env : Env) (f : Flash) (c : Contents) (ns : List ℕ) : List ℕ :=
  ns.filter fun n => contents env.c f n = c

/-- The state of the scan after the blocks `ns`. -/
structure Scanned (env : Env) (f : Flash) (ns : List ℕ) (db : Db) : Prop where
  tree : Built (ns.filterMap (recordIn env f)) db.entries db.fresh
  erased : Counted db.erased db.stats.erased (having env f .erased ns)
  deleted : Counted db.deleted db.stats.deleted (having env f .deleted ns)
  empty : Counted db.empty db.stats.empty (having env f .empty ns)
  data : db.stats.data = (ns.filterMap (recordIn env f)).length
  total : db.stats.erased + db.stats.deleted + db.stats.empty + db.stats.invalid +
    db.stats.error + db.stats.data + db.stats.special = ns.length
  settings : ∀ n, db.settingsBlock = some n →
    n ∈ ns ∧ ∃ seq payload, contents env.c f n = .settings seq payload
  dir : db.dir = none
  handed : db.handed = []

variable {env : Env} {f : Flash} {ns : List ℕ} {i : ℕ}

theorem having_same {c d : Contents} (h : contents env.c f i = d) (hne : d ≠ c) :
    having env f c (ns ++ [i]) = having env f c ns := by
  simp [having, List.filter_append, h, hne]

theorem having_more {c : Contents} (h : contents env.c f i = c) :
    having env f c (ns ++ [i]) = having env f c ns ++ [i] := by
  simp [having, List.filter_append, h]

theorem Counted.add {s : Spans} {k : ℤ} {l : List ℕ} (h : Counted s k l)
    (hi : ∀ n ∈ l, n < i) :
    ∃ t, spanAdd s i 1 Nat.one_pos = some t ∧ Counted t (k + 1) (l ++ [i]) := by
  obtain ⟨t, ht, hit, -⟩ := spanAdd_subset h.intact i 1 Nat.one_pos
  have hc : s.Clean i 1 := clean_of_lt fun b hb => hi b (h.perm.mem_iff.mp hb)
  refine ⟨t, ht, hit, (spanAdd_perm hc ht).trans ?_, by simp [h.count]⟩
  exact (h.perm.append_left _).trans List.perm_append_comm

private theorem recordIn_of_ne {c : Contents} (h : contents env.c f i = c)
    (hc : ∀ (seq : UInt16) (payload : Bytes), c ≠ .data seq payload) :
    recordIn env f i = none := by
  unfold recordIn
  rw [h]
  split
  · next seq payload => exact absurd rfl (hc seq payload)
  · rfl

private theorem filterMap_append_none (ns : List ℕ) (h : recordIn env f i = none) :
    (ns ++ [i]).filterMap (recordIn env f) = ns.filterMap (recordIn env f) := by
  simp [List.filterMap_append, h]

private theorem filterMap_append_some (ns : List ℕ) {r : Record} (h : recordIn env f i = some r) :
    (ns ++ [i]).filterMap (recordIn env f) = ns.filterMap (recordIn env f) ++ [r] := by
  simp [List.filterMap_append, h]

/-- A block that is only counted. -/
theorem Scanned.skip {db : Db} (h : Scanned env f ns db) (hr : recordIn env f i = none)
    (hc : ∀ c, c = .erased ∨ c = .deleted ∨ c = .empty → contents env.c f i ≠ c)
    {invalid error special : ℤ} {settingsBlock : Option ℕ}
    (hsum : invalid + error + special =
      db.stats.invalid + db.stats.error + db.stats.special + 1)
    (hset : ∀ n, settingsBlock = some n →
      n ∈ ns ++ [i] ∧ ∃ seq payload, contents env.c f n = .settings seq payload) :
    Scanned env f (ns ++ [i]) { db with
      stats := { db.stats with invalid, error, special }, settingsBlock } where
  tree := by rw [filterMap_append_none ns hr]; exact h.tree
  erased := by rw [having_same rfl (hc _ (by simp))]; exact h.erased
  deleted := by rw [having_same rfl (hc _ (by simp))]; exact h.deleted
  empty := by rw [having_same rfl (hc _ (by simp))]; exact h.empty
  data := by rw [filterMap_append_none ns hr]; exact h.data
  total := by
    have := h.total
    simp only [List.length_append, List.length_singleton]
    omega
  settings := hset
  dir := h.dir
  handed := h.handed

theorem Scanned.settings_append {db : Db} (h : Scanned env f ns db) {n : ℕ}
    (hn : db.settingsBlock = some n) :
    n ∈ ns ++ [i] ∧ ∃ seq payload, contents env.c f n = .settings seq payload :=
  ⟨List.mem_append_left _ (h.settings n hn).1, (h.settings n hn).2⟩

theorem scanned_valid (hns : ∀ n ∈ ns, reservedBlocks ≤ n) :
    Valid (ns.filterMap (recordIn env f)) := by
  intro r hr
  obtain ⟨n, hn, hr⟩ := List.mem_filterMap.mp hr
  obtain ⟨rfl, hpath⟩ := recordIn_spec hr
  exact ⟨Nat.pos_iff_ne_zero.mp (Nat.lt_of_lt_of_le (by decide) (hns _ hn)), hpath⟩

/-- One more block is taken in. -/
theorem openBlock_scanned {db : Db} {st : Settings} (h : Scanned env f ns db)
    (hi : ∀ n ∈ ns, n < i) (hns : ∀ n ∈ ns, reservedBlocks ≤ n) :
    ∃ s, openBlock env f (db, st) i = some s ∧ Scanned env f (ns ++ [i]) s.1 := by
  have hlt : ∀ c, ∀ n ∈ having env f c ns, n < i := fun c n hn => hi n (List.mem_of_mem_filter hn)
  have htotal := h.total
  unfold openBlock
  cases hc : contents env.c f i with
  | error =>
      refine ⟨_, rfl, h.skip (recordIn_of_ne hc (by simp)) (by simp [hc]) ?_ fun n hn => ?_⟩
      · ring
      · exact h.settings_append hn
  | invalid =>
      refine ⟨_, rfl, h.skip (recordIn_of_ne hc (by simp)) (by simp [hc]) ?_ fun n hn => ?_⟩
      · ring
      · exact h.settings_append hn
  | settings seq payload =>
      have hr := recordIn_of_ne hc (by simp)
      simp only []
      cases settingsProcess st seq payload with
      | none =>
          refine ⟨(db.addInvalid 1, st), rfl, h.skip hr (by simp [hc]) ?_ fun n hn => ?_⟩
          · ring
          · exact h.settings_append hn
      | some st' =>
          refine ⟨({ db.addSpecial 1 with settingsBlock := some i }, st'), rfl,
            h.skip hr (by simp [hc]) ?_ fun n hn => ?_⟩
          · ring
          · obtain rfl := Option.some.inj hn
            exact ⟨by simp, seq, payload, hc⟩
  | deleted =>
      have hr := filterMap_append_none ns (recordIn_of_ne hc (by simp))
      obtain ⟨t, ht, hl⟩ := h.deleted.add (hlt _)
      exact ⟨_, by simp only [ht]; rfl,
        { tree := by rw [hr]; exact h.tree
          erased := by rw [having_same hc (by simp)]; exact h.erased
          deleted := by rw [having_more hc]; exact hl
          empty := by rw [having_same hc (by simp)]; exact h.empty
          data := by rw [hr]; exact h.data
          total := by simp only [List.length_append, List.length_singleton]; omega
          settings := fun n hn => h.settings_append hn
          dir := h.dir
          handed := h.handed }⟩
  | erased =>
      have hr := filterMap_append_none ns (recordIn_of_ne hc (by simp))
      obtain ⟨t, ht, hl⟩ := h.erased.add (hlt _)
      exact ⟨_, by simp only [ht]; rfl,
        { tree := by rw [hr]; exact h.tree
          erased := by rw [having_more hc]; exact hl
          deleted := by rw [having_same hc (by simp)]; exact h.deleted
          empty := by rw [having_same hc (by simp)]; exact h.empty
          data := by rw [hr]; exact h.data
          total := by simp only [List.length_append, List.length_singleton]; omega
          settings := fun n hn => h.settings_append hn
          dir := h.dir
          handed := h.handed }⟩
  | empty =>
      have hr := filterMap_append_none ns (recordIn_of_ne hc (by simp))
      obtain ⟨t, ht, hl⟩ := h.empty.add (hlt _)
      exact ⟨_, by simp only [ht]; rfl,
        { tree := by rw [hr]; exact h.tree
          erased := by rw [having_same hc (by simp)]; exact h.erased
          deleted := by rw [having_same hc (by simp)]; exact h.deleted
          empty := by rw [having_more hc]; exact hl
          data := by rw [hr]; exact h.data
          total := by simp only [List.length_append, List.length_singleton]; omega
          settings := fun n hn => h.settings_append hn
          dir := h.dir
          handed := h.handed }⟩
  | data seq payload =>
      have hrec : recordIn env f i = parseRecord i seq payload := by simp [recordIn, hc]
      simp only [processPayload]
      cases hp : parseRecord i seq payload with
      | none =>
          refine ⟨(db.addInvalid 1, st), rfl,
            h.skip (hrec.trans hp) (by simp [hc]) ?_ fun n hn => ?_⟩
          · ring
          · exact h.settings_append hn
      | some r =>
          have hr := filterMap_append_some ns (hrec.trans hp)
          obtain ⟨G, hG, hbuilt⟩ := h.tree.place (scanned_valid hns) (parseRecord_spec hp).2.2
          exact ⟨_, by simp only [hG]; rfl,
            { tree := by rw [hr]; exact hbuilt
              erased := by rw [having_same hc (by simp)]; exact h.erased
              deleted := by rw [having_same hc (by simp)]; exact h.deleted
              empty := by rw [having_same hc (by simp)]; exact h.empty
              data := by rw [hr]; simp [Db.addData, h.data]
              total := by
                simp only [Db.addData, List.length_append, List.length_singleton]
                omega
              settings := fun n hn => h.settings_append hn
              dir := h.dir
              handed := h.handed }⟩

/-- What a round of the scan does, by the content of the block. -/
inductive OpenRound (env : Env) (f : Flash) (i : ℕ) (s s' : Db × Settings) : Prop where
  | data (seq : UInt16) (payload : Bytes) (found : contents env.c f i = .data seq payload)
      (processed : processPayload s.1 i seq payload = some s'.1) (settings : s'.2 = s.2)
  | settings (seq : UInt16) (payload : Bytes)
      (found : contents env.c f i = .settings seq payload)
      (taken : s' = match settingsProcess s.2 seq payload with
        | none => (s.1.addInvalid 1, s.2)
        | some st => ({ s.1.addSpecial 1 with settingsBlock := some i }, st))
  | other (notData : ∀ (seq : UInt16) (payload : Bytes), contents env.c f i ≠ .data seq payload)
      (notSettings : ∀ (seq : UInt16) (payload : Bytes),
        contents env.c f i ≠ .settings seq payload)
      (entries : s'.1.entries = s.1.entries) (special : s'.1.stats.special = s.1.stats.special)
      (block : s'.1.settingsBlock = s.1.settingsBlock) (settings : s'.2 = s.2)

theorem openBlock_round {s s' : Db × Settings} (h : openBlock env f s i = some s') :
    OpenRound env f i s s' := by
  obtain ⟨db, st⟩ := s
  unfold openBlock at h
  cases hc : contents env.c f i with
  | data seq payload =>
      simp only [hc] at h
      obtain ⟨db', hp, h⟩ := Option.bind_eq_some_iff.mp h
      obtain rfl := Option.some.inj h
      exact .data seq payload hc hp rfl
  | settings seq payload =>
      refine .settings seq payload hc ?_
      simp only [hc] at h
      cases hp : settingsProcess st seq payload with
      | none =>
          rw [hp] at h
          exact (Option.some.inj h).symm
      | some st' =>
          rw [hp] at h
          exact (Option.some.inj h).symm
  | error =>
      rw [hc] at h
      obtain rfl := Option.some.inj h
      exact .other (by simp [hc]) (by simp [hc]) rfl rfl rfl rfl
  | invalid =>
      rw [hc] at h
      obtain rfl := Option.some.inj h
      exact .other (by simp [hc]) (by simp [hc]) rfl rfl rfl rfl
  | deleted =>
      simp only [hc] at h
      obtain ⟨t, -, h⟩ := Option.bind_eq_some_iff.mp h
      obtain rfl := Option.some.inj h
      exact .other (by simp [hc]) (by simp [hc]) rfl rfl rfl rfl
  | erased =>
      simp only [hc] at h
      obtain ⟨t, -, h⟩ := Option.bind_eq_some_iff.mp h
      obtain rfl := Option.some.inj h
      exact .other (by simp [hc]) (by simp [hc]) rfl rfl rfl rfl
  | empty =>
      simp only [hc] at h
      obtain ⟨t, -, h⟩ := Option.bind_eq_some_iff.mp h
      obtain rfl := Option.some.inj h
      exact .other (by simp [hc]) (by simp [hc]) rfl rfl rfl rfl

/-- A record of an entry leaves the settings alone. -/
theorem processPayload_settings {db db' : Db} {seq : UInt16} {payload : Bytes}
    (h : processPayload db i seq payload = some db') :
    db'.settingsBlock = db.settingsBlock ∧ db'.stats.special = db.stats.special := by
  unfold processPayload at h
  split at h
  · obtain rfl := Option.some.inj h
    exact ⟨rfl, rfl⟩
  · obtain ⟨F, -, h⟩ := Option.bind_eq_some_iff.mp h
    obtain rfl := Option.some.inj h
    exact ⟨rfl, rfl⟩

theorem scanned_nil : Scanned env f [] dbOpenEmpty where
  tree := built_nil
  erased := ⟨trivial, List.Perm.refl _, rfl⟩
  deleted := ⟨trivial, List.Perm.refl _, rfl⟩
  empty := ⟨trivial, List.Perm.refl _, rfl⟩
  data := rfl
  total := rfl
  settings := by simp [dbOpenEmpty]
  dir := rfl
  handed := rfl

/-- The scan takes in a range of blocks. -/
theorem foldlM_scanned {db : Db} {st : Settings} (h : Scanned env f ns db) {start k : ℕ}
    (hi : ∀ n ∈ ns, n < start) (hns : ∀ n ∈ ns, reservedBlocks ≤ n)
    (hstart : reservedBlocks ≤ start) :
    ∃ s, (List.range' start k).foldlM (openBlock env f) (db, st) = some s ∧
      Scanned env f (ns ++ List.range' start k) s.1 := by
  induction k generalizing ns db st start with
  | zero => exact ⟨_, rfl, by simpa using h⟩
  | succ k ih =>
      obtain ⟨s, hs, hscan⟩ := @openBlock_scanned env f ns start db st h hi hns
      obtain ⟨s', hs', hscan'⟩ := @ih (ns ++ [start]) s.1 s.2 hscan (start + 1)
        (fun n hn => by
          rcases List.mem_append.mp hn with hn | hn
          · have := hi n hn
            omega
          · have := List.mem_singleton.mp hn
            omega)
        (fun n hn => by
          rcases List.mem_append.mp hn with hn | hn
          · exact hns n hn
          · have := List.mem_singleton.mp hn
            omega) (by omega)
      refine ⟨s', ?_, ?_⟩
      · rw [List.range'_succ, List.foldlM_cons, hs]
        exact hs'
      · rw [List.range'_succ]
        simpa using hscan'

/-! ## The tree as it is shown -/

theorem look_perm {F G : Tree} (hF : F.Distinct DbEntry.name) (h : F.chains.Perm G.chains)
    (q : Path) : look F q = look G q := by
  have hG : G.Distinct DbEntry.name := (Forest.distinct_perm h).mp hF
  unfold look
  have hl : (F.lookup DbEntry.name q).map Prod.fst = (G.lookup DbEntry.name q).map Prod.fst := by
    apply Option.ext
    intro e
    rw [Forest.lookup_eq_some_iff hF, Forest.lookup_eq_some_iff hG]
    exact exists_congr fun c => and_congr_left' h.mem_iff
  have hm := congrArg (Option.map view) hl
  simpa [Option.map_map, Function.comp_def] using hm

theorem child_fixVirtual (F : Tree) (s : CString) :
    (fixVirtual F).child DbEntry.name s =
      (F.child DbEntry.name s).map fun r => (fixEntry (r.2 ≠ .nil) r.1, fixVirtual r.2) := by
  have hname : ∀ b e, (fixEntry b e).name = e.name := by
    intro b e
    unfold fixEntry
    split_ifs <;> rfl
  induction F with
  | nil => rfl
  | node e ch nx _ ih =>
      simp only [fixVirtual, Forest.child, hname]
      split
      · rfl
      · exact ih

theorem lookup_fixVirtual (F : Tree) (q : Path) :
    (fixVirtual F).lookup DbEntry.name q =
      (F.lookup DbEntry.name q).map fun r => (fixEntry (r.2 ≠ .nil) r.1, fixVirtual r.2) := by
  induction q generalizing F with
  | nil => rfl
  | cons s q ih =>
      cases q with
      | nil => exact child_fixVirtual F s
      | cons t q =>
          simp only [Forest.lookup_cons_cons, child_fixVirtual]
          cases F.child DbEntry.name s with
          | none => rfl
          | some r => exact ih r.2

theorem view_fixEntry (b : Bool) (e : DbEntry) : view (fixEntry b e) = fixShown b (view e) := by
  unfold fixEntry fixShown view
  split_ifs <;> rfl

theorem fixVirtual_handles (F : Tree) :
    (fixVirtual F).entries.map handle = F.entries.map handle := by
  have hfix : ∀ b e, handle (fixEntry b e) = handle e := by
    intro b e
    unfold fixEntry
    split_ifs <;> rfl
  induction F with
  | nil => rfl
  | node e ch nx hc hn => simp [fixVirtual, Forest.entries, hfix, hc, hn]

theorem fixVirtual_distinct {F : Tree} (h : F.Distinct DbEntry.name) :
    (fixVirtual F).Distinct DbEntry.name := by
  have hname : ∀ b e, (fixEntry b e).name = e.name := by
    intro b e
    unfold fixEntry
    split_ifs <;> rfl
  have htops : ∀ F : Tree, (fixVirtual F).tops.map DbEntry.name = F.tops.map DbEntry.name := by
    intro F
    induction F with
    | nil => rfl
    | node e ch nx _ ih => simp [fixVirtual, Forest.tops, hname, ih]
  induction F with
  | nil => trivial
  | node e ch nx hc hn =>
      exact ⟨by rw [htops, hname]; exact h.1, hc h.2.1, hn h.2.2⟩

theorem children_iff {rs : List Record} {F : Tree} (hl : ∀ q, q ≠ [] → look F q = scanned rs q)
    {q : Path} (hq : q ≠ []) {r : DbEntry × Tree} (hr : F.lookup DbEntry.name q = some r) :
    r.2 ≠ .nil ↔ isParent rs q = true := by
  have hchild : ∀ s, look F (q ++ [s]) = none ↔ r.2.child DbEntry.name s = none := by
    intro s
    unfold look
    rw [Forest.lookup_append_singleton hq, hr]
    simp
  rw [isParent_iff]
  constructor
  · intro hne
    cases hch : r.2 with
    | nil => exact absurd hch hne
    | node e ch nx =>
        refine ⟨e.name, ?_⟩
        by_contra hn
        have hs := scanned_eq_none.mpr (Bool.not_eq_true _ ▸ hn)
        rw [← hl _ (by simp), hchild, hch] at hs
        simp [Forest.child] at hs
  · rintro ⟨s, hs⟩ hnil
    have hn : look F (q ++ [s]) = none := (hchild s).mpr (by rw [hnil]; rfl)
    rw [hl _ (by simp), scanned_eq_none] at hn
    rw [hn] at hs
    exact Bool.false_ne_true hs

/-! ## The opened database -/

/-- What is known of a database that has just been opened. -/
structure Opened (env : Env) (f : Flash) (db : Db) : Prop where
  distinct : db.entries.Distinct DbEntry.name
  look : ∀ q, q ≠ [] → look db.entries q = opened (records env f) q
  linked : Linked db.entries
  handles : ∀ e ∈ db.entries.entries, e.ptr < db.fresh ∧ e.defer = false
  erased : Counted db.erased db.stats.erased (having env f .erased (dbBlocks env))
  deleted : Counted db.deleted db.stats.deleted (having env f .deleted (dbBlocks env))
  empty : Counted db.empty db.stats.empty (having env f .empty (dbBlocks env))
  data : db.stats.data = (records env f).length
  total : db.stats.erased + db.stats.deleted + db.stats.empty + db.stats.invalid +
    db.stats.error + db.stats.data + db.stats.special = (dbBlocks env).length
  settings : ∀ n, db.settingsBlock = some n →
    n ∈ dbBlocks env ∧ ∃ seq payload, contents env.c f n = .settings seq payload
  dir : db.dir = none
  handed : db.handed = []

/-- Every storage can be opened, and the tree shows its newest records. -/
theorem dbOpen_opened (env : Env) (st : Settings) (f : Flash) :
    ∃ s, dbOpen env st f = some s ∧ Opened env f s.1 := by
  obtain ⟨s, hs, hscan⟩ := @foldlM_scanned env f [] dbOpenEmpty st scanned_nil reservedBlocks
    (env.storageBlocks - reservedBlocks) (by simp) (by simp) (Nat.le_refl _)
  obtain ⟨G, hG, hperm⟩ := dbTsort_perm s.1.entries
  have hchains := Forest.chains_perm hperm
  have ht := hscan.tree
  have hdist : G.Distinct DbEntry.name := (Forest.distinct_perm hchains).mpr ht.distinct
  have hlook : ∀ q, q ≠ [] → look G q = scanned (records env f) q := fun q hq => by
    rw [look_perm hdist hchains]
    exact ht.look q hq
  have hptrs : (fixVirtual G).entries.map DbEntry.ptr = G.entries.map DbEntry.ptr := by
    have h := congrArg (List.map Prod.fst) (fixVirtual_handles G)
    simpa [handle, Function.comp_def] using h
  refine ⟨({ s.1 with entries := fixVirtual G }, s.2), ?_, ?_⟩
  · unfold dbOpen dbBlocks
    rw [hs]
    simp [hG]
  · constructor
    · exact fixVirtual_distinct hdist
    · intro q hq
      unfold look opened
      rw [lookup_fixVirtual, Option.map_map, ← hlook q hq]
      unfold Database.look
      cases hr : G.lookup DbEntry.name q with
      | none => rfl
      | some r =>
          simp only [Option.map_some, Function.comp_apply, view_fixEntry]
          congr 2
          rw [Bool.eq_iff_iff, decide_eq_true_eq]
          exact children_iff hlook hq hr
    · unfold Linked
      rw [hptrs]
      exact (ht.linked.perm hchains.symm)
    · intro e he
      have hm : handle e ∈ (fixVirtual G).entries.map handle := List.mem_map_of_mem he
      rw [fixVirtual_handles] at hm
      obtain ⟨d, hd, hde⟩ := List.mem_map.mp hm
      obtain ⟨h1, h2⟩ := Prod.mk.inj hde
      have h := ht.handles d ((Forest.entries_perm hchains).mem_iff.mp hd)
      rw [h1, h2] at h
      exact h
    · exact hscan.erased
    · exact hscan.deleted
    · exact hscan.empty
    · exact hscan.data
    · exact hscan.total
    · exact hscan.settings
    · exact hscan.dir
    · exact hscan.handed

/-- The names that are listed come from identifiers. -/
theorem Opened.tops_fit {env : Env} {f : Flash} {db : Db} (ho : Opened env f db)
    {e : DbEntry} (he : e ∈ db.entries.tops) : e.name.bytes.length < 256 := by
  have hlook : Database.look db.entries [e.name] = opened (records env f) [e.name] :=
    ho.look _ (by simp)
  have hsome : opened (records env f) [e.name] ≠ none := by
    obtain ⟨ch, hr, -⟩ := Forest.lookup_of_chain ho.distinct
      (show [] ++ [e] ∈ db.entries.chains from Forest.mem_chains_of_tops he)
    rw [← hlook]
    unfold Database.look
    change db.entries.lookup DbEntry.name [e.name] = _ at hr
    rw [hr]
    simp
  have hreach : reaches (records env f) [e.name] = true := by
    by_contra hnot
    apply hsome
    rw [opened, scanned_eq_none.mpr (by simpa using hnot)]
    rfl
  obtain ⟨r, hr, hpre⟩ := List.any_eq_true.mp hreach
  have hmem : e.name ∈ r.path := (of_decide_eq_true hpre).subset (by simp)
  exact records_fit hr hmem

end Sunela.Database
