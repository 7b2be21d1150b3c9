import Sunela.Verification.Persistence.Filed

/-! # Identifiers and directories

The identifier of an entry spells out where the entry is in the tree, and directories that
have entries are marked as such. -/

namespace Sunela.Database

open Program Storage Block Fields Entry

/-- The fields mark a directory. -/
def HasDir (fs : List DbField) : Prop := ∃ f ∈ fs, f.type = ftDir

/-- The entries of the chain have identifiers to match, and all but the last are marked. -/
def Spelled (c : List DbEntry) : Prop :=
  ∀ a e d, c = a ++ e :: d → Storable e.fields (names (a ++ [e])) ∧ (d ≠ [] → HasDir e.fields)

def Named (F : Tree) : Prop := ∀ c ∈ F.chains, Spelled c

/-- No identifier is too long for a field. -/
def Short (F : Tree) : Prop := ∀ c ∈ F.chains, (joinPath (names c)).length < 256

theorem Spelled.last {c : List DbEntry} {e : DbEntry} (h : Spelled (c ++ [e])) :
    Storable e.fields (names (c ++ [e])) := (h c e [] rfl).1

/-- Every entry has the identifier that spells out where it is. -/
def Matching (F : Tree) : Prop :=
  ∀ a e, a ++ [e] ∈ F.chains → Storable e.fields (names (a ++ [e]))

/-- The first field of every entry is its identifier: the names from the root to the entry,
joined by NUL. -/
def PathsMatch (F : Tree) : Prop :=
  ∀ a e, a ++ [e] ∈ F.chains → ∃ id rest, e.fields = id :: rest ∧ id.type = ftId ∧
    id.data = joinPath (names (a ++ [e]))

theorem Matching.pathsMatch {F : Tree} (h : Matching F) : PathsMatch F := by
  intro a e hc
  obtain ⟨id, rest, hf, ht, hp⟩ := (h a e hc).id
  exact ⟨id, rest, hf, ht, by rw [← hp, joinPath_splitPath]⟩

/-- Every directory that has entries is marked. -/
def Marked (F : Tree) : Prop := ∀ a e d, a ++ e :: d ∈ F.chains → d ≠ [] → HasDir e.fields

theorem named_iff {F : Tree} : Named F ↔ Matching F ∧ Marked F := by
  constructor
  · intro h
    exact ⟨fun a e hc => (h _ hc a e [] rfl).1, fun a e d hc => (h _ hc a e d rfl).2⟩
  · rintro ⟨hm, hd⟩ c hc a e d rfl
    refine ⟨hm a e ?_, hd a e d hc⟩
    refine Forest.chains_of_append (d := d) ?_ (by simp)
    simpa using hc

/-! ## Trees that are alike -/

/-- The chain to an entry, in a tree that is alike. -/
theorem Alike.chain_to {F G : Tree} (h : Alike F G) {a : List DbEntry} {e : DbEntry}
    (hc : a ++ [e] ∈ G.chains) : ∃ a' e', a' ++ [e'] ∈ F.chains ∧ e'.fields = e.fields ∧
      names (a' ++ [e']) = names (a ++ [e]) := by
  obtain ⟨c', hc', hf⟩ := h.symm.chain hc
  obtain ⟨a', m, rfl, ha, hm⟩ := List.map_eq_append_iff.mp (hf.trans (List.map_append ..))
  obtain ⟨e', d', rfl, he, hd⟩ := List.map_eq_cons_iff.mp (hm.trans (List.map_cons ..))
  obtain rfl := List.map_eq_nil_iff.mp hd
  exact ⟨a', e', hc', congrArg (fun x => x.2.2.2) he,
    names_of_face (c := a' ++ [e']) (by simp [ha, he])⟩

theorem Matching.alike {F G : Tree} (h : Matching F) (ha : Alike F G) : Matching G := by
  intro a e hc
  obtain ⟨a', e', hc', hfields, hnames⟩ := ha.chain_to hc
  rw [← hfields, ← hnames]
  exact h a' e' hc'

theorem PathsMatch.alike {F G : Tree} (h : PathsMatch F) (ha : Alike F G) : PathsMatch G := by
  intro a e hc
  obtain ⟨a', e', hc', hfields, hnames⟩ := ha.chain_to hc
  rw [← hfields, ← hnames]
  exact h a' e' hc'

theorem Marked.alike {F G : Tree} (h : Marked F) (ha : Alike F G) : Marked G := by
  intro a e d hc hne
  obtain ⟨c', hc', hf⟩ := ha.symm.chain hc
  obtain ⟨a', m, rfl, ha, hm⟩ := List.map_eq_append_iff.mp (hf.trans (List.map_append ..))
  obtain ⟨e', d', rfl, he, hd⟩ := List.map_eq_cons_iff.mp (hm.trans (List.map_cons ..))
  have hfields : e'.fields = e.fields := congrArg (fun x => x.2.2.2) he
  rw [← hfields]
  refine h a' e' d' hc' fun hn => hne ?_
  rw [hn] at hd
  exact List.map_eq_nil_iff.mp hd.symm

theorem Named.alike {F G : Tree} (h : Named F) (ha : Alike F G) : Named G :=
  named_iff.mpr ⟨(named_iff.mp h).1.alike ha, (named_iff.mp h).2.alike ha⟩

theorem Short.alike {F G : Tree} (h : Short F) (ha : Alike F G) : Short G := by
  intro c hc
  obtain ⟨c', hc', hf⟩ := ha.symm.chain hc
  rw [← names_of_face hf]
  exact h c' hc'

/-! ## Changes to entries -/

/-- The chain to an entry, before all entries were changed. -/
theorem chain_of_map {F : Tree} {k : DbEntry → DbEntry} {a : List DbEntry} {e : DbEntry}
    (hc : a ++ [e] ∈ (F.map k).chains) :
    ∃ a₀ e₀, a₀ ++ [e₀] ∈ F.chains ∧ a = a₀.map k ∧ e = k e₀ := by
  rw [Forest.chains_map] at hc
  obtain ⟨c₀, hc₀, heq⟩ := List.mem_map.mp hc
  obtain ⟨a₀, m, rfl, rfl, hm⟩ := List.map_eq_append_iff.mp heq
  obtain ⟨e₀, d₀, rfl, rfl, hd⟩ := List.map_eq_cons_iff.mp hm
  obtain rfl := List.map_eq_nil_iff.mp hd
  exact ⟨a₀, e₀, hc₀, rfl, rfl⟩

theorem matching_map {F : Tree} {k : DbEntry → DbEntry}
    (hst : ∀ a e, a ++ [e] ∈ F.chains → Storable (k e).fields (names ((a ++ [e]).map k))) :
    Matching (F.map k) := by
  intro a e hc
  obtain ⟨a₀, e₀, hc₀, rfl, rfl⟩ := chain_of_map hc
  simpa using hst a₀ e₀ hc₀

theorem Marked.map {F : Tree} (h : Marked F) {k : DbEntry → DbEntry}
    (hdir : ∀ a e d, a ++ e :: d ∈ F.chains → d ≠ [] → HasDir e.fields → HasDir (k e).fields) :
    Marked (F.map k) := by
  intro a e d hc hne
  rw [Forest.chains_map] at hc
  obtain ⟨c₀, hc₀, heq⟩ := List.mem_map.mp hc
  obtain ⟨a₀, m, rfl, rfl, hm⟩ := List.map_eq_append_iff.mp heq
  obtain ⟨e₀, d₀, rfl, rfl, rfl⟩ := List.map_eq_cons_iff.mp hm
  have hne₀ : d₀ ≠ [] := fun hn => hne (by rw [hn]; rfl)
  exact hdir a₀ e₀ d₀ hc₀ hne₀ (h a₀ e₀ d₀ hc₀ hne₀)

theorem Matching.map {F : Tree} (h : Matching F) {k : DbEntry → DbEntry}
    (hname : ∀ e ∈ F.entries, (k e).name = e.name)
    (hst : ∀ e ∈ F.entries, ∀ q, Storable e.fields q → Storable (k e).fields q) :
    Matching (F.map k) := by
  refine matching_map fun a e hc => ?_
  have hmem : ∀ x ∈ a ++ [e], x ∈ F.entries := fun x hx => (Forest.chain_sublist hc).subset hx
  have hnames : names ((a ++ [e]).map k) = names (a ++ [e]) := by
    rw [names, List.map_map]
    exact List.map_congr_left fun x hx => hname x (hmem x hx)
  rw [hnames]
  exact hst e (hmem e (by simp)) _ (h a e hc)

theorem Matching.modify {F : Tree} (h : Matching F) {p : ℕ} {g : DbEntry → DbEntry}
    (hname : ∀ e ∈ F.entries, e.ptr = p → (g e).name = e.name)
    (hst : ∀ e ∈ F.entries, e.ptr = p → ∀ q, Storable e.fields q → Storable (g e).fields q) :
    Matching (Entry.modify p g F) := by
  refine h.map (fun e he => ?_) fun e he q hq => ?_
  · split
    · next hp => exact hname e he (is_iff.mp hp)
    · rfl
  · split
    · next hp => exact hst e he (is_iff.mp hp) q hq
    · exact hq

theorem Named.modify {F : Tree} (h : Named F) {p : ℕ} {g : DbEntry → DbEntry}
    (hname : ∀ e ∈ F.entries, e.ptr = p → (g e).name = e.name)
    (hst : ∀ e ∈ F.entries, e.ptr = p → ∀ q, Storable e.fields q → Storable (g e).fields q)
    (hdir : ∀ a e d, a ++ e :: d ∈ F.chains → d ≠ [] → e.ptr = p → HasDir e.fields →
      HasDir (g e).fields) : Named (Entry.modify p g F) := by
  refine named_iff.mpr ⟨(named_iff.mp h).1.modify hname hst, (named_iff.mp h).2.map ?_⟩
  intro a e d hc hne hd
  split
  · next hp => exact hdir a e d hc hne (is_iff.mp hp) hd
  · exact hd

theorem HasDir.setField {fs : List DbField} (h : HasDir fs) (type : UInt8) (data : Bytes) :
    HasDir (setField fs type data) := by
  obtain ⟨f, hf, ht⟩ := h
  induction fs with
  | nil => simp at hf
  | cons g fs ih =>
      simp only [Fields.setField]
      split
      · split
        · next hg =>
            rcases List.mem_cons.mp hf with rfl | hf
            · exact ⟨.ofData type data, by simp, by rw [DbField.ofData_type, ← hg, ht]⟩
            · exact ⟨f, by simp [hf], ht⟩
        · exact ⟨f, List.mem_cons_of_mem _ hf, ht⟩
      · rcases List.mem_cons.mp hf with rfl | hf
        · exact ⟨f, by simp, ht⟩
        · obtain ⟨f', hf', ht'⟩ := ih hf
          exact ⟨f', by simp [hf'], ht'⟩

theorem HasDir.eraseIdx {fs : List DbField} (h : HasDir fs) {i : ℕ}
    (hi : ∀ f, fs[i]? = some f → f.type ≠ ftDir) : HasDir (fs.eraseIdx i) := by
  obtain ⟨f, hf, ht⟩ := h
  obtain ⟨j, hj, rfl⟩ := List.getElem_of_mem hf
  have hne : j ≠ i := by
    rintro rfl
    exact hi _ (List.getElem?_eq_getElem hj) ht
  exact ⟨_, List.mem_eraseIdx_iff_getElem?.mpr ⟨j, hne, List.getElem?_eq_getElem hj⟩, ht⟩

theorem Named.remove {F : Tree} (h : Named F) (p : DbEntry → Bool) : Named (F.remove p) := by
  intro c hc
  rw [Forest.chains_remove] at hc
  exact h c (List.mem_filter.mp hc).1

/-- The identifier of a new entry is made from that of its directory. -/
def IdFor (F : Tree) (dir : Option ℕ) (name : CString) (id : Bytes) : Prop :=
  (dir = none ∧ id = name.bytes) ∨ ∃ d parent ch f rest, dir = some d ∧
    find d F = some (parent, ch) ∧ parent.fields = f :: rest ∧ f.type = ftId ∧
    id = f.data ++ 0 :: name.bytes

/-- The chain to a directory ends in the entry that the pointer refers to. -/
theorem parents_last {F : Tree} (hl : Linked F) {d : ℕ} {c : List DbEntry}
    (hc : c ∈ parents (some d) F) :
    ∃ a parent ch, c = a ++ [parent] ∧ c ∈ F.chains ∧ find d F = some (parent, ch) := by
  obtain ⟨hc, hlast⟩ := List.mem_filter.mp hc
  obtain ⟨e, hce, hep⟩ : ∃ e, c.getLast? = some e ∧ e.ptr = d := by
    cases hg : c.getLast? with
    | none => simp [hg] at hlast
    | some e => exact ⟨e, rfl, is_iff.mp (by simpa [hg] using hlast)⟩
  have hmem : e ∈ F.entries := (Forest.chain_sublist hc).subset (List.mem_of_getLast? hce)
  obtain ⟨⟨parent, ch⟩, hfind⟩ :=
    Option.isSome_iff_exists.mp (find_isSome.mpr ⟨e, hmem, hep⟩)
  obtain ⟨hmem', hptr⟩ := mem_entries_of_find hfind
  obtain rfl := hl.eq_of_ptr hmem hmem' (hep.trans hptr.symm)
  exact ⟨c.dropLast, e, ch, (List.dropLast_append_getLast? e hce).symm, hc, hfind⟩

theorem IdFor.eq {F : Tree} {dir : Option ℕ} {name : CString} {id : Bytes} (h : Matching F)
    (hl : Linked F) (hid : IdFor F dir name id) {c : List DbEntry} (hc : c ∈ parents dir F) :
    id = joinPath (names c ++ [name]) := by
  rcases hid with ⟨rfl, rfl⟩ | ⟨d, parent, ch, f, rest, rfl, hfind, hf, -, rfl⟩
  · obtain rfl : c = [] := by simpa [parents] using hc
    simp [joinPath]
  · obtain ⟨a, e, ch', rfl, hc, hfind'⟩ := parents_last hl hc
    obtain ⟨rfl, -⟩ := Prod.mk.inj (Option.some.inj (hfind'.symm.trans hfind))
    obtain ⟨f', rest', hf', -, hpath⟩ := (h a e hc).id
    rw [hf] at hf'
    obtain ⟨rfl, -⟩ := List.cons.inj hf'
    rw [joinPath_append (by simp) (by simp), ← hpath, joinPath_splitPath]
    rfl

theorem Matching.newEntry {F : Tree} (h : Matching F) (hl : Linked F) {dir : Option ℕ}
    {name : CString} {new : DbEntry} {id : Bytes} (hname : new.name = name)
    (hnew : new.fields = addField [] ftId id) (hid : IdFor F dir name id)
    (hshort : ∀ c ∈ parents dir F, (joinPath (names c ++ [name])).length < 256) :
    Matching (newEntry dir new F) := by
  intro a e hc
  rcases List.mem_append.mp ((newEntry_chains dir new F).mem_iff.mp hc) with hc | hc
  · exact h a e hc
  · obtain ⟨c, hparents, heq⟩ := List.mem_map.mp hc
    obtain ⟨rfl, he⟩ := List.append_inj' heq rfl
    obtain rfl := (List.cons.inj he).1
    have hn : names (c ++ [new]) = names c ++ [name] := by simp [hname]
    have hs := hshort c hparents
    refine ⟨by rw [hnew]; exact addField_sorted .nil _ _, _, [], hnew, rfl, ?_⟩
    rw [hid.eq h hl hparents, DbField.ofData_data ftId hs, hn, splitPath_joinPath (by simp)]

theorem Marked.newEntry {F : Tree} (h : Marked F) (hl : Linked F) {dir : Option ℕ} {new : DbEntry}
    (hdir : ∀ d parent ch, dir = some d → find d F = some (parent, ch) → HasDir parent.fields) :
    Marked (newEntry dir new F) := by
  intro a e d hc hne
  rcases List.mem_append.mp ((newEntry_chains dir new F).mem_iff.mp hc) with hc | hc
  · exact h a e d hc hne
  · obtain ⟨c, hparents, heq⟩ := List.mem_map.mp hc
    obtain ⟨d, x, rfl⟩ := (List.eq_nil_or_concat' d).resolve_left hne
    rw [show a ++ e :: (d ++ [x]) = (a ++ e :: d) ++ [x] by simp] at heq
    obtain ⟨rfl, -⟩ := List.append_inj' heq rfl
    cases hdir' : dir with
    | none => simp [parents, hdir'] at hparents
    | some p =>
        rw [hdir'] at hparents
        obtain ⟨a', parent, ch, heq, hc', hfind⟩ := parents_last hl hparents
        by_cases hd : d = []
        · subst hd
          obtain ⟨-, he⟩ := List.append_inj' heq rfl
          obtain rfl := (List.cons.inj he).1
          exact hdir p e ch hdir' hfind
        · exact h a e d hc' hd

/-- A new entry in a directory that is marked. -/
theorem Named.newEntry {F : Tree} (h : Named F) (hl : Linked F) {dir : Option ℕ} {name : CString}
    {new : DbEntry} {id : Bytes} (hname : new.name = name) (hnew : new.fields = addField [] ftId id)
    (hid : IdFor F dir name id)
    (hdir : ∀ d parent ch, dir = some d → find d F = some (parent, ch) → HasDir parent.fields)
    (hshort : Short (newEntry dir new F)) : Named (newEntry dir new F) := by
  refine named_iff.mpr ⟨(named_iff.mp h).1.newEntry hl hname hnew hid fun c hc => ?_,
    (named_iff.mp h).2.newEntry hl hdir⟩
  have hchain : c ++ [new] ∈ (Entry.newEntry dir new F).chains :=
    (newEntry_chains dir new F).mem_iff.mpr (List.mem_append_right _ (List.mem_map_of_mem hc))
  simpa [hname] using hshort _ hchain

end Sunela.Database
