import Sunela.Verification.Open.Scan

/-! # Fields of accounts and of directories

An entry with an `ft_dir` field is a directory. It also passes for an account if another field
comes before this one, unless the other is its identifier or its predecessor. -/

namespace Sunela.Database

open Serial Storage Block Fields Entry

variable {fs gs : List DbField} {type : UInt8} {rs : List Record}

/-- A field of this type makes an account of an entry, even if it is a directory. -/
def Describes (type : UInt8) : Prop := type ≠ ftId ∧ type ≠ ftPrev ∧ type < ftDir

instance : DecidablePred Describes := fun _ => inferInstanceAs (Decidable (_ ∧ _ ∧ _))

/-- The fields are in order, and not those of an account and of a directory at once. -/
structure OneKind (fs : List DbField) : Prop where
  sorted : Sorted fs
  apart : ∀ f ∈ fs, Describes f.type → ∀ g ∈ fs, g.type ≠ ftDir

/-- In a directory, the field that makes an account of it comes before `ft_dir`. -/
theorem describes_of_accountFields (hs : Sorted fs) (ha : accountFields fs = true)
    (hd : ∃ g ∈ fs, g.type = ftDir) : ∃ f ∈ fs, Describes f.type := by
  induction fs with
  | nil => cases ha
  | cons f fs ih =>
      obtain ⟨hle, hs⟩ := sorted_cons.mp hs
      obtain ⟨g, hg, hdir⟩ := hd
      simp only [accountFields] at ha
      by_cases hlink : f.type = ftId ∨ f.type = ftPrev
      · rw [if_pos hlink] at ha
        have hgf : g ≠ f := by
          rintro rfl
          rw [hdir] at hlink
          exact absurd hlink (by decide)
        have hgs : g ∈ fs := (List.mem_cons.mp hg).resolve_left hgf
        obtain ⟨f', hf', hdesc⟩ := ih hs ha ⟨g, hgs, hdir⟩
        exact ⟨f', List.mem_cons_of_mem _ hf', hdesc⟩
      · rw [if_neg hlink] at ha
        have hne : f.type ≠ ftDir := of_decide_eq_true ha
        have hgf : g ≠ f := by
          rintro rfl
          exact hne hdir
        have hgs : g ∈ fs := (List.mem_cons.mp hg).resolve_left hgf
        have hlt : f.type < ftDir := UInt8.lt_of_le_of_ne (hdir ▸ hle g hgs) hne
        obtain ⟨hid, hprev⟩ := not_or.mp hlink
        exact ⟨f, List.mem_cons_self, hid, hprev, hlt⟩

/-- What is neither an account nor a directory has no such field. -/
theorem not_describes (ha : accountFields fs = false) (hd : ∀ g ∈ fs, g.type ≠ ftDir) :
    ∀ f ∈ fs, ¬ Describes f.type := by
  induction fs with
  | nil => simp
  | cons f fs ih =>
      have hf : f.type ≠ ftDir := hd f List.mem_cons_self
      simp only [accountFields] at ha
      by_cases hlink : f.type = ftId ∨ f.type = ftPrev
      · rw [if_pos hlink] at ha
        intro g hg hdesc
        rcases List.mem_cons.mp hg with rfl | hg
        · exact hlink.elim hdesc.1 hdesc.2.1
        · exact ih ha (fun g hg => hd g (List.mem_cons_of_mem _ hg)) g hg hdesc
      · rw [if_neg hlink] at ha
        exact absurd hf (of_decide_eq_false ha)

theorem dbIsDir_eq_false {e : DbEntry} {ch : Tree} :
    dbIsDir (e, ch) = false ↔ (∀ g ∈ e.fields, g.type ≠ ftDir) ∧ ch = .nil := by
  simp [dbIsDir]

theorem OneKind.exclusive {e : DbEntry} (h : OneKind e.fields) (ch : Tree) :
    ¬ (dbIsDir (e, ch) = true ∧ dbIsAccount (e, ch) = true) := by
  rintro ⟨hdir, haccount⟩
  simp only [dbIsAccount, Bool.and_eq_true, decide_eq_true_eq] at haccount
  obtain ⟨hnil, ha⟩ := haccount
  by_cases hd : ∃ g ∈ e.fields, g.type = ftDir
  · obtain ⟨f, hf, hdesc⟩ := describes_of_accountFields h.sorted ha hd
    obtain ⟨g, hg, hgd⟩ := hd
    exact h.apart f hf hdesc g hg hgd
  · have hfalse : dbIsDir (e, ch) = false :=
      dbIsDir_eq_false.mpr ⟨fun g hg hgd => hd ⟨g, hg, hgd⟩, hnil⟩
    rw [hfalse] at hdir
    cases hdir

/-! ## Changes of fields -/

theorem OneKind.sublist (h : OneKind fs) (hs : gs.Sublist fs) : OneKind gs :=
  ⟨h.sorted.sublist hs, fun f hf hdesc g hg => h.apart f (hs.subset hf) hdesc g (hs.subset hg)⟩

/-- A field of the type is not of another kind than the fields. -/
structure Suits (type : UInt8) (fs : List DbField) : Prop where
  account : Describes type → ∀ g ∈ fs, g.type ≠ ftDir
  dir : type = ftDir → ∀ f ∈ fs, ¬ Describes f.type

theorem suits_link (fs : List DbField) (h : type = ftId ∨ type = ftPrev) : Suits type fs := by
  refine ⟨fun hdesc => (h.elim hdesc.1 hdesc.2.1).elim, fun hd => ?_⟩
  rw [hd] at h
  exact absurd h (by decide)

theorem suits_account (ht : type ≠ ftDir) (h : ∀ g ∈ fs, g.type ≠ ftDir) : Suits type fs :=
  ⟨fun _ => h, fun hd => absurd hd ht⟩

theorem suits_dir (h : ∀ f ∈ fs, ¬ Describes f.type) : Suits ftDir fs :=
  ⟨fun hdesc => absurd hdesc (by decide), fun _ => h⟩

/-- One more field, or another one in its place. -/
theorem OneKind.more (h : OneKind fs) {f : DbField} (hf : Suits f.type fs) (hs : Sorted gs)
    (hg : ∀ g ∈ gs, g = f ∨ g ∈ fs) : OneKind gs := by
  refine ⟨hs, fun x hx hdesc g hgs hdir => ?_⟩
  rcases hg x hx with rfl | hx
  · rcases hg g hgs with rfl | hgs
    · rw [hdir] at hdesc
      exact absurd hdesc (by decide)
    · exact hf.account hdesc g hgs hdir
  · rcases hg g hgs with rfl | hgs
    · exact hf.dir hdir x hx hdesc
    · exact h.apart x hx hdesc g hgs hdir

theorem OneKind.setField (h : OneKind fs) (ht : Suits type fs) (data : Bytes) :
    OneKind (setField fs type data) :=
  h.more (f := .ofData type data) ht (setField_sorted h.sorted type data) fun _ hg =>
    mem_setField hg

theorem OneKind.addField (h : OneKind fs) (ht : Suits type fs) (data : Bytes) :
    OneKind (addField fs type data) :=
  h.more (f := .ofData type data) ht (addField_sorted h.sorted type data) fun _ hg =>
    mem_addField.mp hg

theorem oneKind_single (f : DbField) : OneKind [f] := by
  refine ⟨List.pairwise_singleton _ _, fun x hx hdesc g hg hdir => ?_⟩
  rw [List.mem_singleton] at hx hg
  subst hx hg
  rw [hdir] at hdesc
  exact absurd hdesc (by decide)

/-! ## Opening -/

/-- No newest record has fields of an account together with an `ft_dir` field or with records
below its path. -/
def Unmixed (rs : List Record) : Prop :=
  ∀ q r, newest rs q = some r → (∃ f ∈ r.fields, Describes f.type) →
    (∀ g ∈ r.fields, g.type ≠ ftDir) ∧ isParent rs q = false

theorem fixShown_oneKind {parent : Bool} {s : Shown} (h : OneKind s.2.2)
    (hd : parent = true ∨ s.1 = 0 → ∀ f ∈ s.2.2, ¬ Describes f.type) :
    OneKind (fixShown parent s).2.2 := by
  unfold fixShown
  by_cases hdir : (dbFieldFind s.2.2 ftDir).isSome
  · rw [if_pos hdir]
    exact h
  · rw [if_neg hdir]
    by_cases hp : parent = true ∨ s.1 = 0
    · rw [if_pos hp]
      exact h.addField (suits_dir (hd hp)) []
    · rw [if_neg hp]
      exact h

theorem dbFieldFind_isSome : (dbFieldFind fs type).isSome ↔ ∃ g ∈ fs, g.type = type := by
  simp [dbFieldFind]

theorem unmixed_of_fixShown {parent : Bool} {s : Shown} (h : OneKind (fixShown parent s).2.2)
    {x : DbField} (hx : x ∈ s.2.2) (hdesc : Describes x.type) :
    (∀ g ∈ s.2.2, g.type ≠ ftDir) ∧ parent = false := by
  unfold fixShown at h
  by_cases hdir : (dbFieldFind s.2.2 ftDir).isSome
  · rw [if_pos hdir] at h
    obtain ⟨g, hg, hgd⟩ := dbFieldFind_isSome.mp hdir
    exact absurd hgd (h.apart x hx hdesc g hg)
  · rw [if_neg hdir] at h
    refine ⟨fun g hg hgd => hdir (dbFieldFind_isSome.mpr ⟨g, hg, hgd⟩), ?_⟩
    by_contra hp
    rw [if_pos (.inl (Bool.eq_true_of_not_eq_false hp))] at h
    have hnew : DbField.ofData ftDir [] ∈ addField s.2.2 ftDir [] := mem_addField.mpr (.inl rfl)
    exact h.apart x (mem_addField.mpr (.inr hx)) hdesc _ hnew rfl

theorem opened_oneKind {env : Env} {f : Flash} (hu : Unmixed (records env f)) {q : Path}
    {s : Shown} (hs : opened (records env f) q = some s) : OneKind s.2.2 := by
  rcases opened_cases hs with ⟨r, hr, rfl⟩ | ⟨-, -, rfl⟩
  · obtain ⟨hmem, hpath⟩ := newest_mem hr
    have hstore := recordIn_storable (mem_records.mp hmem).2
    have hkind : OneKind r.fields :=
      ⟨hstore.sorted, fun x hx hdesc => (hu q r hr ⟨x, hx, hdesc⟩).1⟩
    refine fixShown_oneKind hkind fun hp x hx hdesc => ?_
    have hparent := (hu q r hr ⟨x, hx, hdesc⟩).2
    rcases hp with hp | hp
    · rw [hparent] at hp
      cases hp
    · exact (records_valid env f r hmem).1 hp
  · exact oneKind_single _

/-- The condition is exact: if a newest record is mixed, then so is its entry once the database
has been opened. -/
theorem Opened.oneKind_iff {env : Env} {f : Flash} {db : Db} (ho : Opened env f db) :
    (∀ e ∈ db.entries.entries, OneKind e.fields) ↔ Unmixed (records env f) := by
  constructor
  · intro h q r hr ⟨x, hx, hdesc⟩
    obtain ⟨hmem, hpath⟩ := newest_mem hr
    have hq : q ≠ [] := hpath ▸ (records_valid env f r hmem).2
    have hlook : Database.look db.entries q =
        some (fixShown (isParent (records env f) q) r.shown) := by
      rw [ho.look q hq, opened, scanned, hr]
      rfl
    obtain ⟨⟨e, ch⟩, hfound, hview⟩ := Option.map_eq_some_iff.mp hlook
    obtain ⟨c, -, hc, -⟩ := Forest.chain_of_lookup hfound
    have he : e ∈ db.entries.entries := (Forest.chain_sublist hc).subset (by simp)
    have hfields : e.fields = (fixShown (isParent (records env f) q) r.shown).2.2 := by
      rw [← hview]
      rfl
    exact unmixed_of_fixShown (hfields ▸ h e he) hx hdesc
  · intro hu e he
    obtain ⟨q, hq, hlook⟩ := look_of_mem ho.distinct he
    rw [ho.look q hq] at hlook
    exact opened_oneKind hu hlook

end Sunela.Database
