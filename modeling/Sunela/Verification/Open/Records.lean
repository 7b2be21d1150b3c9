import Sunela.Lib.Serial
import Sunela.Verification.Open.Place

/-! # What a set of records says

Each path shows its newest record, and a directory that has none shows as soon as there is a
record below it. -/

namespace Sunela.Database

open Serial Storage Block Fields Entry

/-- The record comes from before the other one. -/
def Record.Older (r s : Record) : Prop := Behind 0x8000 r.seq.toNat s.seq.toNat

instance : DecidableRel Record.Older := fun _ _ => inferInstanceAs (Decidable (Behind _ _ _))

/-- The record that counts for a path, with the records in the order in which they are read. -/
def newest (rs : List Record) (q : Path) : Option Record :=
  latest Record.Older (rs.filter fun r => r.path = q)

/-- There is a record at the path or below it. -/
def reaches (rs : List Record) (q : Path) : Bool := rs.any fun r => q <+: r.path

/-- There is a record below the path. -/
def isParent (rs : List Record) (q : Path) : Bool :=
  rs.any fun r => q <+: r.path ∧ q ≠ r.path

/-- What the tree shows once the records have been read. -/
def scanned (rs : List Record) (q : Path) : Option Shown :=
  match newest rs q with
  | some r => some r.shown
  | none => if reaches rs q then some (0, 0, []) else none

/-- A directory is shown with an `ft_dir` field. -/
def fixShown (parent : Bool) (s : Shown) : Shown :=
  if (dbFieldFind s.2.2 ftDir).isSome then s
  else if parent ∨ s.1 = 0 then (s.1, s.2.1, addField s.2.2 ftDir [])
  else s

/-- What the tree shows after the database has been opened. -/
def opened (rs : List Record) (q : Path) : Option Shown :=
  (scanned rs q).map (fixShown (isParent rs q))

/-- The record in a block of the storage. -/
def recordIn (env : Env) (f : Flash) (n : ℕ) : Option Record :=
  match contents env.c f n with
  | .data seq payload => parseRecord n seq payload
  | _ => none

/-- The records of entries in the order of their blocks. -/
def records (env : Env) (f : Flash) : List Record := (dbBlocks env).filterMap (recordIn env f)

theorem parseRecord_spec {block : ℕ} {seq : UInt16} {payload : Bytes} {r : Record}
    (h : parseRecord block seq payload = some r) :
    r.block = block ∧ r.seq = seq ∧ r.path ≠ [] := by
  unfold parseRecord at h
  split at h
  · simp at h
  · split_ifs at h
    obtain rfl := Option.some.inj h
    exact ⟨rfl, rfl, splitPath_ne_nil _⟩

theorem recordIn_spec {env : Env} {f : Flash} {n : ℕ} {r : Record}
    (h : recordIn env f n = some r) : r.block = n ∧ r.path ≠ [] := by
  unfold recordIn at h
  split at h
  · exact ⟨(parseRecord_spec h).1, (parseRecord_spec h).2.2⟩
  · simp at h

theorem mem_dbBlocks {env : Env} {n : ℕ} :
    n ∈ dbBlocks env ↔ reservedBlocks ≤ n ∧ n < env.storageBlocks := by
  rw [dbBlocks, List.mem_range'_1]
  omega

theorem ne_zero_of_mem {env : Env} {n : ℕ} (h : n ∈ dbBlocks env) : n ≠ 0 :=
  Nat.pos_iff_ne_zero.mp (Nat.lt_of_lt_of_le (by decide) (mem_dbBlocks.mp h).1)

theorem mem_records {env : Env} {f : Flash} {r : Record} :
    r ∈ records env f ↔ r.block ∈ dbBlocks env ∧ recordIn env f r.block = some r := by
  rw [records, List.mem_filterMap]
  constructor
  · rintro ⟨n, hn, hr⟩
    obtain rfl := (recordIn_spec hr).1
    exact ⟨hn, hr⟩
  · rintro ⟨hn, hr⟩
    exact ⟨_, hn, hr⟩

theorem parseRecord_fits {block : ℕ} {seq : UInt16} {payload : Bytes} {r : Record}
    (h : parseRecord block seq payload = some r) {s : CString} (hs : s ∈ r.path) :
    s.bytes.length < 256 := by
  unfold parseRecord at h
  split at h
  · simp at h
  · next id _ _ =>
      split_ifs at h
      obtain rfl := Option.some.inj h
      exact Nat.lt_of_le_of_lt (mem_splitPath_length hs) id.fits

theorem records_fit {env : Env} {f : Flash} {r : Record} (hr : r ∈ records env f)
    {s : CString} (hs : s ∈ r.path) : s.bytes.length < 256 := by
  obtain ⟨-, hrec⟩ := mem_records.mp hr
  unfold recordIn at hrec
  split at hrec
  · exact parseRecord_fits hrec hs
  · simp at hrec

/-- A block holds at most one record. -/
theorem records_nodup (env : Env) (f : Flash) : ((records env f).map Record.block).Nodup := by
  have hsub : ((records env f).map Record.block).Sublist (dbBlocks env) := by
    unfold records
    induction dbBlocks env with
    | nil => simp
    | cons n ns ih =>
        rw [List.filterMap_cons]
        cases h : recordIn env f n with
        | none => exact ih.cons n
        | some r =>
            rw [List.map_cons, (recordIn_spec h).1]
            exact ih.cons_cons n
  exact hsub.nodup List.nodup_range'

/-- Records as they are found in blocks that hold entries. -/
def Valid (rs : List Record) : Prop := ∀ r ∈ rs, r.block ≠ 0 ∧ r.path ≠ []

theorem records_valid (env : Env) (f : Flash) : Valid (records env f) := by
  intro r hr
  obtain ⟨hn, hrec⟩ := mem_records.mp hr
  exact ⟨ne_zero_of_mem hn, (recordIn_spec hrec).2⟩

/-! ## Records that are written -/

/-- A list of fields that makes a record: in order, with the identifier first. -/
structure Storable (fs : List DbField) (path : Path) : Prop where
  sorted : Sorted fs
  id : ∃ id rest, fs = id :: rest ∧ id.type = ftId ∧ splitPath id.data = path

theorem Storable.type_ne {fs : List DbField} {path : Path} (h : Storable fs path) :
    ∀ f ∈ fs, f.type ≠ ftEnd := by
  obtain ⟨id, rest, rfl, hid, -⟩ := h.id
  have hle := (sorted_cons.mp h.sorted).1
  have hid' : id.type ≠ ftEnd := by rw [hid]; decide
  intro f hf
  rcases List.mem_cons.mp hf with rfl | hf
  · exact hid'
  · intro he
    have h1 := hle f hf
    rw [he, hid] at h1
    exact absurd h1 (by decide)

/-- What was encoded is read back. -/
theorem parseRecord_encoded {fs : List DbField} {path : Path} (h : Storable fs path)
    (block : ℕ) (seq : UInt16) (k : ℕ) :
    parseRecord block seq (fs.flatMap encodeField ++ List.replicate k 0) =
      some ⟨block, seq, path, fs⟩ := by
  have htypes := h.type_ne
  have hsorted := sortFields_of_sorted h.sorted
  obtain ⟨id, rest, rfl, hid, rfl⟩ := h.id
  have hlen : ∀ l : List DbField, 2 * l.length ≤ (l.flatMap encodeField).length := by
    intro l
    induction l with
    | nil => simp
    | cons f l ih =>
        simp only [List.flatMap_cons, List.length_append, encodeField, List.length_cons]
        omega
  have hfuel : (id :: rest).length <
      ((id :: rest).flatMap encodeField ++ List.replicate k 0).length := by
    have := hlen (id :: rest)
    simp only [List.length_append, List.length_cons] at this ⊢
    omega
  have hitems := tlvItems_flatMap htypes hfuel k
  have hfirst : tlvItem ((id :: rest).flatMap encodeField ++ List.replicate k 0) =
      some (id, rest.flatMap encodeField ++ List.replicate k 0) := by
    rw [List.flatMap_cons, List.append_assoc]
    exact tlvItem_encodeField (htypes id (by simp)) _
  unfold parseRecord
  rw [hfirst, hitems, hsorted]
  simp [hid]

/-- What is read can be written again. -/
theorem parseRecord_storable {block : ℕ} {seq : UInt16} {payload : Bytes} {r : Record}
    (h : parseRecord block seq payload = some r) : Storable r.fields r.path := by
  unfold parseRecord at h
  cases hitem : tlvItem payload with
  | none => simp [hitem] at h
  | some item =>
      obtain ⟨id, rest⟩ := item
      simp only [hitem] at h
      split at h
      · simp at h
      · next hid =>
          obtain rfl := Option.some.inj h
          have hid : id.type = ftId := by simpa using hid
          have hitems : ∃ l, tlvItems payload.length payload = id :: l := by
            cases payload with
            | nil => simp [tlvItem] at hitem
            | cons b payload =>
                refine ⟨tlvItems payload.length rest, ?_⟩
                simp only [List.length_cons, tlvItems, hitem]
          obtain ⟨l, hl⟩ := hitems
          have hle : ∀ g ∈ l, id.type ≤ g.type := by
            intro g hg
            rw [hid]
            exact ftId_le (tlvItems_type g (by rw [hl]; simp [hg]))
          obtain ⟨rest', hrest⟩ := sortFields_head hle
          exact ⟨sortFields_sorted _, id, rest', by rw [hl, hrest], hid, rfl⟩

theorem recordIn_storable {env : Env} {f : Flash} {n : ℕ} {r : Record}
    (h : recordIn env f n = some r) : Storable r.fields r.path := by
  unfold recordIn at h
  split at h
  · exact parseRecord_storable h
  · simp at h

theorem Storable.path_unique {fs : List DbField} {path path' : Path} (h : Storable fs path)
    (h' : Storable fs path') : path = path' := by
  obtain ⟨id, rest, hfs, -, hpath⟩ := h.id
  obtain ⟨id', rest', hfs', -, hpath'⟩ := h'.id
  obtain ⟨rfl, -⟩ := List.cons.inj (hfs.symm.trans hfs')
  exact hpath.symm.trans hpath'

theorem Storable.addField {fs : List DbField} {path : Path} (h : Storable fs path)
    {type : UInt8} (ht : type ≠ ftEnd) (data : Bytes) :
    Storable (addField fs type data) path := by
  refine ⟨addField_sorted h.sorted type data, ?_⟩
  obtain ⟨id, rest, rfl, hid, hpath⟩ := h.id
  refine ⟨id, Fields.addField rest type data, ?_, hid, hpath⟩
  rw [Fields.addField, if_neg (UInt8.not_lt.mpr (hid ▸ ftId_le ht))]

theorem Storable.setField {fs : List DbField} {path : Path} (h : Storable fs path)
    {type : UInt8} (ht : type ≠ ftEnd ∧ type ≠ ftId) (data : Bytes) :
    Storable (setField fs type data) path := by
  refine ⟨setField_sorted h.sorted type data, ?_⟩
  obtain ⟨id, rest, rfl, hid, hpath⟩ := h.id
  refine ⟨id, Fields.setField rest type data, ?_, hid, hpath⟩
  have hnle : ¬ type ≤ id.type := fun hle =>
    ht.2 (UInt8.le_antisymm (hid ▸ hle) (ftId_le ht.1))
  rw [Fields.setField, if_neg hnle]

/-- Any field but the identifier can be left out. -/
theorem Storable.eraseIdx {fs : List DbField} {path : Path} (h : Storable fs path) {i : ℕ}
    (hi : 0 < i) : Storable (fs.eraseIdx i) path := by
  refine ⟨List.Pairwise.sublist (List.eraseIdx_sublist fs i) h.sorted, ?_⟩
  obtain ⟨id, rest, rfl, hid, hpath⟩ := h.id
  obtain ⟨i, rfl⟩ := Nat.exists_eq_succ_of_ne_zero (Nat.pos_iff_ne_zero.mp hi)
  exact ⟨id, rest.eraseIdx i, rfl, hid, hpath⟩

/-- The content of a block to which data has been written. -/
theorem contents_encrypt {c : Dbcrypt} {f : Flash} {n : ℕ} {seq : UInt16}
    {payload nonce rk : Bytes} (hn : nonce.length = 24) (hk : rk.length = 32)
    (hfit : (packed 4 seq payload).length ≤ c.capacity) (hbad : f.bad n = false)
    (hcell : f.cells n = c.encrypt nonce rk (packed 4 seq payload)) :
    contents c f n = .data seq (padded c payload) := by
  unfold contents storageReadBlock
  rw [hbad, if_neg Bool.false_ne_true, hcell, blockRead_encrypt hn hk hfit, unpack_packed]
  rfl

theorem recordIn_of_contents {env : Env} {f : Flash} {n : ℕ} {seq : UInt16}
    {fs : List DbField} {path : Path} (h : Storable fs path)
    (hc : contents env.c f n = .data seq (padded env.c (fs.flatMap encodeField))) :
    recordIn env f n = some ⟨n, seq, path, fs⟩ := by
  unfold recordIn
  rw [hc]
  exact parseRecord_encoded h n seq _

/-! ## Reading one more record -/

theorem newest_mem {rs : List Record} {q : Path} {r : Record} (h : newest rs q = some r) :
    r ∈ rs ∧ r.path = q := by
  simpa using latest_mem _ h

theorem newest_eq_none {rs : List Record} {q : Path} :
    newest rs q = none ↔ ∀ r ∈ rs, r.path ≠ q := by
  simp [newest, latest_eq_none, List.filter_eq_nil_iff]

theorem newest_append_same (rs : List Record) (r : Record) :
    newest (rs ++ [r]) r.path = keep Record.Older (newest rs r.path) r := by
  simp [newest, List.filter_append, latest_append_singleton]

theorem newest_append_other (rs : List Record) {r : Record} {q : Path} (h : r.path ≠ q) :
    newest (rs ++ [r]) q = newest rs q := by
  simp [newest, List.filter_append, h]

theorem scanned_append {rs : List Record} (hv : Valid rs) (r : Record) (q : Path) :
    scanned (rs ++ [r]) q =
      if q = r.path then some (merge (scanned rs r.path) r)
      else if q <+: r.path then some ((scanned rs q).getD (0, 0, []))
      else scanned rs q := by
  split
  · next hq =>
      subst hq
      unfold scanned
      rw [newest_append_same]
      cases hn : newest rs r.path with
      | none =>
          simp only [keep]
          split <;> simp [merge]
      | some a =>
          have ha := (hv a (newest_mem hn).1).1
          by_cases hb : Behind 0x8000 r.seq.toNat a.seq.toNat
          · simp [keep, merge, Record.Older, Record.shown, ha, hb]
          · simp [keep, merge, Record.Older, Record.shown, hb]
  · next hq =>
      have hne : r.path ≠ q := fun h => hq h.symm
      unfold scanned
      rw [newest_append_other rs hne]
      cases newest rs q with
      | none =>
          have happ : reaches (rs ++ [r]) q = (reaches rs q || decide (q <+: r.path)) := by
            simp [reaches]
          by_cases hp : q <+: r.path <;> by_cases hr : reaches rs q <;> simp [happ, hp, hr]
      | some a =>
          by_cases hp : q <+: r.path
          · simp [hp]
          · simp [hp]

/-- A path is shown exactly if there is a record at it or below it. -/
theorem scanned_eq_none {rs : List Record} {q : Path} :
    scanned rs q = none ↔ reaches rs q = false := by
  unfold scanned
  cases hn : newest rs q with
  | none => simp
  | some r =>
      obtain ⟨hr, hq⟩ := newest_mem hn
      have ht : reaches rs q = true :=
        List.any_eq_true.mpr ⟨r, hr, by simp [hq]⟩
      simp [ht]

theorem isParent_iff {rs : List Record} {q : Path} :
    isParent rs q = true ↔ ∃ s, reaches rs (q ++ [s]) = true := by
  simp only [isParent, reaches, List.any_eq_true, decide_eq_true_eq]
  constructor
  · rintro ⟨r, hr, ⟨t, ht⟩, hne⟩
    cases t with
    | nil => exact absurd (by simpa using ht) hne
    | cons s t => exact ⟨s, r, hr, t, by simpa using ht⟩
  · rintro ⟨s, r, hr, t, ht⟩
    refine ⟨r, hr, ⟨s :: t, by simpa using ht⟩, fun he => ?_⟩
    have hl := congrArg List.length ht
    rw [← he] at hl
    simp at hl

theorem fixShown_block (b : Bool) (s : Shown) : (fixShown b s).1 = s.1 := by
  unfold fixShown
  split_ifs <;> rfl

theorem Storable.fixShown {s : Shown} {path : Path} (h : Storable s.2.2 path) (b : Bool) :
    Storable (fixShown b s).2.2 path := by
  have hdir : Storable (Fields.addField s.2.2 ftDir []) path := h.addField (by decide) []
  unfold Database.fixShown
  split_ifs <;> assumption

/-- What is shown comes from a record, or is virtual. -/
theorem opened_cases {rs : List Record} {q : Path} {s : Shown} (h : opened rs q = some s) :
    (∃ r, newest rs q = some r ∧ s = fixShown (isParent rs q) r.shown) ∨
      (newest rs q = none ∧ reaches rs q = true ∧ s = (0, 0, addField [] ftDir [])) := by
  unfold opened scanned at h
  cases hn : newest rs q with
  | some r =>
      rw [hn] at h
      exact .inl ⟨r, rfl, (Option.some.inj h).symm⟩
  | none =>
      simp only [hn] at h
      split at h
      · next hr => exact .inr ⟨rfl, hr, by rw [← Option.some.inj h]; simp [fixShown, dbFieldFind]⟩
      · simp at h

theorem opened_block {rs : List Record} {q : Path} {s : Shown} (h : opened rs q = some s) :
    s.1 = 0 ∨ ∃ r ∈ rs, r.path = q ∧ r.block = s.1 := by
  rcases opened_cases h with ⟨r, hn, rfl⟩ | ⟨-, -, rfl⟩
  · obtain ⟨hr, hq⟩ := newest_mem hn
    exact .inr ⟨r, hr, hq, (fixShown_block _ r.shown).symm⟩
  · exact .inl rfl

/-! ## The tree of the records -/

/-- The tree shows the records, and only them. -/
structure Built (rs : List Record) (F : Tree) (fresh : ℕ) : Prop where
  distinct : F.Distinct DbEntry.name
  look : ∀ q, q ≠ [] → look F q = scanned rs q
  linked : Linked F
  handles : ∀ e ∈ F.entries, e.ptr < fresh ∧ e.defer = false

theorem look_of_mem {F : Tree} (hd : F.Distinct DbEntry.name) {e : DbEntry}
    (he : e ∈ F.entries) : ∃ q, q ≠ [] ∧ look F q = some (view e) := by
  obtain ⟨c, hc, hl⟩ := Forest.mem_entries_iff.mp he
  obtain ⟨c, rfl⟩ : ∃ d, c = d ++ [e] := ⟨c.dropLast, (List.dropLast_append_getLast? e hl).symm⟩
  obtain ⟨ch, hlook, -⟩ := Forest.lookup_of_chain hd hc
  refine ⟨(c ++ [e]).map DbEntry.name, by simp, ?_⟩
  unfold Database.look
  rw [hlook]
  rfl

theorem Built.sound {rs : List Record} (hv : Valid rs) {F : Tree} {fresh : ℕ}
    (h : Built rs F fresh) : Sound F := by
  intro e he hb
  obtain ⟨q, hq, hl⟩ := look_of_mem h.distinct he
  rw [h.look q hq, scanned] at hl
  split at hl
  · next r hn =>
      have hr := (hv r (newest_mem hn).1).1
      have hbr : r.block = e.block := congrArg Prod.fst (Option.some.inj hl)
      exact absurd (hbr.trans hb) hr
  · split at hl
    · have hv := Option.some.inj hl
      simp only [view, Prod.mk.injEq] at hv
      exact ⟨hv.2.2.symm, hv.2.1.symm⟩
    · simp at hl

theorem built_nil : Built [] .nil 0 where
  distinct := trivial
  look := by
    intro q _
    match q with
    | [] => rfl
    | [s] => rfl
    | s :: t :: q => rfl
  linked := List.nodup_nil
  handles := by simp [Forest.entries]

/-- Placing one more record keeps the tree in line with the records. -/
theorem Built.place {rs : List Record} (hv : Valid rs) {F : Tree} {fresh : ℕ}
    (h : Built rs F fresh) {r : Record} (hr : r.path ≠ []) :
    ∃ G, placeRecord r fresh r.path F = some G ∧
      Built (rs ++ [r]) G (fresh + r.path.length) := by
  obtain ⟨G, hG, hlook⟩ := placeRecord_look (h.sound hv) r fresh hr
  obtain ⟨l, hl, hp⟩ := placeRecord_entries hG
  have hl' : ∀ x ∈ l, (fresh ≤ x.1 ∧ x.1 < fresh + r.path.length) ∧ x.2 = false := by
    intro x hx
    obtain ⟨i, hi, rfl⟩ := List.mem_map.mp (hl.subset hx)
    exact ⟨List.mem_range'_1.mp hi, rfl⟩
  refine ⟨G, hG, placeRecord_distinct h.distinct hG, fun q hq => ?_, ?_, fun e he => ?_⟩
  · rw [hlook q hq, scanned_append hv, placed, h.look _ hr, h.look q hq]
  · have hptr : (F.entries.map handle).map Prod.fst = F.entries.map DbEntry.ptr := by
      simp [handle, Function.comp_def]
    have hptr' : (G.entries.map handle).map Prod.fst = G.entries.map DbEntry.ptr := by
      simp [handle, Function.comp_def]
    have hp' := hp.map Prod.fst
    rw [List.map_append, hptr, hptr'] at hp'
    refine hp'.nodup_iff.mpr (List.nodup_append.mpr ⟨?_, h.linked, ?_⟩)
    · have hs := hl.map Prod.fst
      rw [List.map_map] at hs
      refine hs.nodup ?_
      simpa [Function.comp_def] using List.nodup_range'
    · rintro i hi j hj rfl
      obtain ⟨x, hx, rfl⟩ := List.mem_map.mp hi
      obtain ⟨e, he, hej⟩ := List.mem_map.mp hj
      have h1 := (hl' x hx).1.1
      have h2 := (h.handles e he).1
      omega
  · have hm := hp.mem_iff.mp (List.mem_map_of_mem he)
    rcases List.mem_append.mp hm with hm | hm
    · exact ⟨(hl' _ hm).1.2, (hl' _ hm).2⟩
    · obtain ⟨d, hd, hde⟩ := List.mem_map.mp hm
      obtain ⟨h1, h2⟩ := Prod.mk.inj hde
      have := h.handles d hd
      exact ⟨by omega, h2 ▸ this.2⟩

end Sunela.Database
