import Sunela.Verification.Alloc.Runs
import Sunela.Verification.Persistence.Rename

/-! # From the storage to the tree and back

When every entry has a record of its own, opening the storage gives the entries and their
fields back, without an addition. -/

namespace Sunela.Database

open Program Storage Block Fields Entry

/-- One record for each path, and for each directory above it one that marks it as such. -/
structure Owned (rs : List Record) : Prop where
  nodup : (rs.map Record.path).Nodup
  dir : ∀ r ∈ rs, ∀ q, q ≠ [] → q <+: r.path → q ≠ r.path →
    ∃ d ∈ rs, d.path = q ∧ HasDir d.fields

variable {env : Env} {f : Flash} {db : Db} {rs : List Record} {q : Path}

theorem Owned.eq_of_path (h : Owned rs) {r s : Record} (hr : r ∈ rs) (hs : s ∈ rs)
    (hp : r.path = s.path) : r = s :=
  List.inj_on_of_nodup_map h.nodup hr hs hp

theorem fixShown_hasDir {s : Shown} (h : HasDir s.2.2) (parent : Bool) :
    fixShown parent s = s := by
  obtain ⟨f, hf, ht⟩ := h
  have hfound : (dbFieldFind s.2.2 ftDir).isSome := by
    rw [dbFieldFind, List.find?_isSome]
    exact ⟨f, hf, by simp [ht]⟩
  exact if_pos hfound

/-- Every record shows as it is. -/
theorem Owned.opened_eq (h : Owned rs) (hv : Valid rs) {r : Record} (hr : r ∈ rs) :
    opened rs r.path = some r.shown := by
  have hnew : newest rs r.path = some r := by
    cases hn : newest rs r.path with
    | none => exact absurd rfl (newest_eq_none.mp hn r hr)
    | some s =>
        obtain ⟨hs, hp⟩ := newest_mem hn
        rw [h.eq_of_path hs hr hp]
  unfold opened scanned
  rw [hnew]
  simp only [Option.map_some, Option.some.injEq]
  by_cases hd : isParent rs r.path = true
  · obtain ⟨s, hs, hpre⟩ := List.any_eq_true.mp hd
    obtain ⟨hpre, hne⟩ := of_decide_eq_true hpre
    obtain ⟨d, hdm, hdp, hdir⟩ := h.dir s hs _ (hv r hr).2 hpre hne
    obtain rfl := h.eq_of_path hdm hr hdp
    exact fixShown_hasDir hdir _
  · rw [Bool.not_eq_true] at hd
    have hb : r.shown.1 ≠ 0 := (hv r hr).1
    simp [fixShown, hd, hb]

/-- Nothing else shows. -/
theorem Owned.opened_some (h : Owned rs) (hv : Valid rs) (hq : q ≠ []) {s : Shown}
    (hs : opened rs q = some s) : ∃ r ∈ rs, r.path = q ∧ r.shown = s := by
  have hrec : ∃ r ∈ rs, r.path = q := by
    rcases opened_cases hs with ⟨r, hn, -⟩ | ⟨-, hreach, -⟩
    · exact ⟨r, newest_mem hn⟩
    · obtain ⟨r, hr, hpre⟩ := List.any_eq_true.mp hreach
      by_cases he : r.path = q
      · exact ⟨r, hr, he⟩
      · obtain ⟨d, hd, hdp, -⟩ := h.dir r hr q hq (of_decide_eq_true hpre) (Ne.symm he)
        exact ⟨d, hd, hdp⟩
  obtain ⟨r, hr, rfl⟩ := hrec
  rw [h.opened_eq hv hr] at hs
  exact ⟨r, hr, rfl, Option.some.inj hs⟩

/-- What the walk along a path finds is the last entry of the chain with its names. -/
theorem look_iff {F : Tree} (hF : F.Distinct DbEntry.name) {fs : List DbField} :
    (look F q).map (·.2.2) = some fs ↔
      ∃ c e, c ++ [e] ∈ F.chains ∧ names (c ++ [e]) = q ∧ e.fields = fs := by
  have hlook : (look F q).map (·.2.2) =
      ((F.lookup DbEntry.name q).map Prod.fst).map DbEntry.fields := by
    simp [look, Option.map_map, view, Function.comp_def]
  rw [hlook, Option.map_eq_some_iff]
  constructor
  · rintro ⟨e, he, hf⟩
    obtain ⟨c, hc, hq⟩ := (Forest.lookup_eq_some_iff hF).mp he
    exact ⟨c, e, hc, hq, hf⟩
  · rintro ⟨c, e, hc, hq, hf⟩
    exact ⟨e, (Forest.lookup_eq_some_iff hF).mpr ⟨c, hc, hq⟩, hf⟩

theorem chain_of_entry {F : Tree} {e : DbEntry} (he : e ∈ F.entries) :
    ∃ c, c ++ [e] ∈ F.chains := by
  obtain ⟨c, hc, hl⟩ := Forest.mem_entries_iff.mp he
  refine ⟨c.dropLast, ?_⟩
  rw [List.dropLast_append_getLast? e hl]
  exact hc

theorem entry_of_chain {F : Tree} {c d : List DbEntry} {e : DbEntry}
    (hc : c ++ e :: d ∈ F.chains) : e ∈ F.entries :=
  (Forest.chain_sublist hc).subset (by simp)

/-! ## The tree that is opened -/

theorem record_of_entry (ho : Opened env f db) (h : Owned (records env f)) {c : List DbEntry}
    {e : DbEntry} (hc : c ++ [e] ∈ db.entries.chains) :
    ∃ r ∈ records env f, r.path = names (c ++ [e]) ∧ r.shown = view e := by
  obtain ⟨ch, hl, -⟩ := Forest.lookup_of_chain ho.distinct hc
  have hlook : look db.entries (names (c ++ [e])) = some (view e) := by
    unfold look names
    rw [hl]
    rfl
  rw [ho.look _ (by simp)] at hlook
  exact h.opened_some (records_valid env f) (by simp) hlook

theorem opened_filing (ho : Opened env f db) (h : Owned (records env f)) : Filing env db f := by
  have hrec : ∀ e ∈ db.entries.entries, ∃ c, c ++ [e] ∈ db.entries.chains ∧
      ∃ r ∈ records env f, r.path = names (c ++ [e]) ∧ r.shown = view e := by
    intro e he
    obtain ⟨c, hc⟩ := chain_of_entry he
    exact ⟨c, hc, record_of_entry ho h hc⟩
  refine ⟨⟨ho.linked, fun e he => (ho.handles e he).1⟩, ho.erased.intact, fun n hn => ?_,
    ho.erased.perm.nodup_iff.mpr (List.Nodup.filter _ List.nodup_range'), fun e he => ?_,
    fun d hd e he hb => ?_, fun e he => ?_, fun r hr => ?_⟩
  · obtain ⟨hm, hc⟩ := List.mem_filter.mp (ho.erased.perm.mem_iff.mp hn)
    exact ⟨hm, contents_eq_erased (of_decide_eq_true hc)⟩
  · obtain ⟨c, -, r, hr, -, hs⟩ := hrec e he
    have hfields : r.fields = e.fields := congrArg (fun s => s.2.2) hs
    exact ⟨r.path, hfields ▸ recordIn_storable (mem_records.mp hr).2⟩
  · obtain ⟨c, hc, r, hr, hp, hs⟩ := hrec d hd
    obtain ⟨c', hc', r', hr', hp', hs'⟩ := hrec e he
    have hblock : r.block = r'.block :=
      (congrArg Prod.fst hs).trans (hb.trans (congrArg Prod.fst hs').symm)
    obtain rfl := List.inj_on_of_nodup_map (records_nodup env f) hr hr' hblock
    have heq := Forest.chain_unique ho.distinct hc hc' (hp.symm.trans hp')
    exact (List.cons.inj (List.append_inj' heq rfl).2).1
  · obtain ⟨c, -, r, hr, -, hs⟩ := hrec e he
    exact ⟨r, hr, congrArg Prod.fst hs, fun _ => congrArg (fun s => s.2.2) hs⟩
  · have hlook := ho.look r.path (records_valid env f r hr).2
    rw [h.opened_eq (records_valid env f) hr] at hlook
    obtain ⟨res, hres, hv⟩ := Option.map_eq_some_iff.mp hlook
    obtain ⟨c, -, hc, -⟩ := Forest.chain_of_lookup hres
    exact ⟨res.1, entry_of_chain hc, congrArg Prod.fst hv⟩

theorem opened_named (ho : Opened env f db) (h : Owned (records env f)) : Named db.entries := by
  rintro c hc a e d rfl
  have hae : a ++ [e] ∈ db.entries.chains :=
    Forest.chains_of_append (d := d) (by simpa using hc) (by simp)
  obtain ⟨r, hr, hp, hs⟩ := record_of_entry ho h hae
  have hfields : r.fields = e.fields := congrArg (fun s => s.2.2) hs
  refine ⟨hfields ▸ hp ▸ recordIn_storable (mem_records.mp hr).2, fun hne => ?_⟩
  rcases List.eq_nil_or_concat' d with rfl | ⟨d, x, rfl⟩
  · exact absurd rfl hne
  · have hchain : (a ++ e :: d) ++ [x] ∈ db.entries.chains := by simpa using hc
    obtain ⟨s, hsm, hsp, -⟩ := record_of_entry ho h hchain
    have hpre : names (a ++ [e]) <+: s.path := ⟨names (d ++ [x]), by rw [hsp]; simp⟩
    have hlong : names (a ++ [e]) ≠ s.path := by
      rw [hsp]
      intro he
      simpa using congrArg List.length he
    obtain ⟨r', hr', hp', hdir⟩ := h.dir s hsm _ (by simp) hpre hlong
    rw [← hfields, h.eq_of_path hr hr' (hp.trans hp'.symm)]
    exact hdir

/-! ## The storage of a tree -/

/-- While no record is out of date, each belongs to the entry of its path. -/
theorem Filed.entry_of_record (h : Filed env db f fun _ => True) (hn : Named db.entries)
    {r : Record} (hr : r ∈ records env f) :
    ∃ c e, c ++ [e] ∈ db.entries.chains ∧ names (c ++ [e]) = r.path ∧ e.fields = r.fields ∧
      e.block = r.block := by
  obtain ⟨e, he, hb⟩ := h.covered r hr
  obtain ⟨c, hc⟩ := chain_of_entry he
  obtain ⟨r', hr', hb', hf⟩ := h.stored e he
  obtain rfl := List.inj_on_of_nodup_map (records_nodup env f) hr hr' (hb.symm.trans hb'.symm)
  refine ⟨c, e, hc, ?_, (hf trivial).symm, hb⟩
  have hlast := (hn _ hc).last
  rw [← hf trivial] at hlast
  exact hlast.path_unique (recordIn_storable (mem_records.mp hr).2)

theorem Filed.record_of_entry (h : Filed env db f fun _ => True) (hn : Named db.entries)
    {c : List DbEntry} {e : DbEntry} (hc : c ++ [e] ∈ db.entries.chains) :
    ∃ r ∈ records env f, r.path = names (c ++ [e]) ∧ r.fields = e.fields := by
  obtain ⟨r, hr, -, hf⟩ := h.stored e (entry_of_chain hc)
  refine ⟨r, hr, ?_, hf trivial⟩
  have hlast := (hn _ hc).last
  rw [← hf trivial] at hlast
  exact (recordIn_storable (mem_records.mp hr).2).path_unique hlast

theorem Filed.owned (h : Filed env db f fun _ => True) (hn : Named db.entries)
    (hd : db.entries.Distinct DbEntry.name) : Owned (records env f) := by
  have hinj : ∀ r ∈ records env f, ∀ s ∈ records env f, r.path = s.path → r = s := by
    intro r hr s hs hp
    obtain ⟨c, e, hc, hq, -, hb⟩ := h.entry_of_record hn hr
    obtain ⟨c', e', hc', hq', -, hb'⟩ := h.entry_of_record hn hs
    have heq := Forest.chain_unique hd hc hc' (hq.trans (hp.trans hq'.symm))
    obtain rfl := (List.cons.inj (List.append_inj' heq rfl).2).1
    exact List.inj_on_of_nodup_map (records_nodup env f) hr hs (hb.symm.trans hb')
  refine ⟨List.Nodup.map_on hinj (List.Nodup.of_map _ (records_nodup env f)), ?_⟩
  rintro r hr q hq ⟨t, ht⟩ hne
  obtain ⟨c, e, hc, hpath, -⟩ := h.entry_of_record hn hr
  -- the chain to the entry of `r` passes through one at `q`
  obtain ⟨x, y, hxy, rfl, hy⟩ := List.map_eq_append_iff.mp (hpath.trans ht.symm)
  obtain ⟨a, d, rfl⟩ : ∃ a d, x = a ++ [d] := by
    rcases List.eq_nil_or_concat' x with rfl | ⟨a, d, rfl⟩
    · exact absurd rfl hq
    · exact ⟨a, d, rfl⟩
  have hyne : y ≠ [] := by
    rintro rfl
    exact hne (by simpa [← hy] using ht)
  have hsplit : c ++ [e] = a ++ d :: y := by simpa using hxy
  obtain ⟨-, hdir⟩ := hn _ hc a d y hsplit
  obtain ⟨s, hs, hsp, hsf⟩ := h.record_of_entry hn
    (Forest.chains_of_append (d := y) (by rw [← hxy]; exact hc) (by simp))
  exact ⟨s, hs, hsp, hsf ▸ hdir hyne⟩

/-- Opening the storage gives every entry back. -/
theorem Filed.reopened (h : Filed env db f fun _ => True) (hn : Named db.entries)
    (hd : db.entries.Distinct DbEntry.name) {new : Db} (ho : Opened env f new) {q : Path}
    (hq : q ≠ []) :
    (look new.entries q).map (·.2.2) = (look db.entries q).map (·.2.2) := by
  have howned := h.owned hn hd
  have hv := records_valid env f
  apply Option.ext
  intro fs
  rw [ho.look q hq, look_iff hd]
  constructor
  · intro hshown
    obtain ⟨s, hs, rfl⟩ := Option.map_eq_some_iff.mp hshown
    obtain ⟨r, hr, rfl, rfl⟩ := howned.opened_some hv hq hs
    obtain ⟨c, e, hc, hp, hf, -⟩ := h.entry_of_record hn hr
    exact ⟨c, e, hc, hp, hf⟩
  · rintro ⟨c, e, hc, rfl, rfl⟩
    obtain ⟨r, hr, hp, hf⟩ := h.record_of_entry hn hc
    rw [← hp, howned.opened_eq hv hr, ← hf]
    rfl

end Sunela.Database
