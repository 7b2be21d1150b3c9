import Sunela.Model.Accounts
import Sunela.Verification.Alloc.Runs
import Sunela.Verification.Persistence.Rename

/-! # Names of siblings

A name that a page has validated differs from those in the current directory. For a new entry
and for an account these are the siblings, for a folder they are the children. -/

namespace Sunela.Accounts

open Program Storage Block Entry Fields Database TextEntry

/-- A text that is not empty has passed the validation of the page. -/
theorem uiEntry_accepted {inp : UiEntryInput} {c : UiEntryCtx} {touches : List Touch}
    {buf : CString} (h : uiEntry inp c touches = some buf) :
    buf = .empty ∨ 0 < inp.validate buf := by
  have hback : ∀ c t buf, uiEntryTouch inp c t = .back buf →
      buf = .empty ∨ 0 < inp.validate buf := by
    intro c t buf hb
    cases t with
    | swipe => exact .inl (Outcome.back.inj hb).symm
    | tap b =>
        simp only [uiEntryTouch, uiEntryTap] at hb
        split at hb
        · cases hb
        · next hactive =>
            cases b with
            | left =>
                simp only [tapLeft] at hb
                split_ifs at hb with _ he
                obtain rfl := Outcome.back.inj hb
                exact .inl he
            | right =>
                obtain rfl := Outcome.back.inj hb
                simp [buttonIsVisible, buttonIsEnabled, uiEntryValid] at hactive
                exact .inr (hactive.2.2 hactive.2.1)
            | key n =>
                simp only [tapKey] at hb
                split at hb <;> cases hb
  induction touches generalizing c with
  | nil => cases h
  | cons t touches ih =>
      simp only [uiEntry] at h
      split at h
      · exact ih h
      · next hb =>
          obtain rfl := Option.some.inj h
          exact hback c t _ hb

theorem nameInput_accepted {validate : CString → Option Bool} {c : UiEntryCtx}
    {touches : List Touch} {buf : CString} (h : uiEntry (nameInput validate) c touches = some buf) :
    buf = .empty ∨ validate buf = some true := by
  refine (uiEntry_accepted h).imp_right fun hv => ?_
  by_contra hn
  simp [nameInput, hn] at hv

/-- Siblings have different names, and each pointer refers to one entry. -/
structure Apart (db : Db) : Prop where
  linked : Linked db.entries
  fresh : ∀ e ∈ db.entries.entries, e.ptr < db.fresh
  distinct : db.entries.Distinct DbEntry.name

variable {env : Env} {torn : Torn} {db : Db} {f : Flash} {F : Tree}

theorem Apart.held (h : Apart db) : Held db := ⟨h.linked, h.fresh⟩

theorem Apart.leads (h : Apart db) {k : DbEntry → DbEntry} {db' : Db}
    (hk : ∀ e, (k e).ptr = e.ptr) (hd : (db.entries.map k).Distinct DbEntry.name)
    (hl : Leads db (db.entries.map k) db') : Apart db' := by
  obtain ⟨hlinked, hfresh⟩ := h.held.leads hk hl
  exact ⟨hlinked, hfresh, hl.alike.symm.distinct hd⟩

theorem Apart.same (h : Apart db) {db' : Db} (hl : Leads db db.entries db') : Apart db' := by
  rw [← Forest.map_id db.entries] at hl
  exact h.leads (fun _ => rfl) (by rw [Forest.map_id]; exact h.distinct) hl

/-! ## The current directory -/

/-- The list shows the entries whose chains continue the one to the current directory. -/
theorem mem_listing {l : List (DbEntry × Tree)} (hF : Linked db.entries)
    (h : listing db = some l) {c : List DbEntry} (hc : c ∈ parents db.dir db.entries) {e : DbEntry} :
    c ++ [e] ∈ db.entries.chains ↔ ∃ ch, (e, ch) ∈ l := by
  have htops : ∀ {F : Tree}, e ∈ F.tops ↔ ∃ ch, (e, ch) ∈ F.siblings := by
    intro F
    rw [Forest.tops_eq, List.mem_map]
    exact ⟨fun ⟨r, hr, he⟩ => ⟨r.2, he ▸ hr⟩, fun ⟨ch, hr⟩ => ⟨_, hr, rfl⟩⟩
  unfold listing at h
  cases hdir : db.dir with
  | none =>
      rw [hdir] at h hc
      obtain rfl := Option.some.inj h
      obtain rfl : c = [] := by simpa [parents] using hc
      rw [List.nil_append, ← htops]
      exact ⟨Forest.singleton_mem_chains, Forest.mem_chains_of_tops⟩
  | some d =>
      rw [hdir] at h hc
      obtain ⟨⟨de, ch⟩, hfind, rfl⟩ := Option.map_eq_some_iff.mp h
      obtain ⟨hmem, hptr⟩ := mem_entries_of_find hfind
      have hnode := List.mem_of_find?_eq_some hfind
      obtain ⟨c₀, hc₀, hch⟩ := Forest.node_chains hnode
      obtain rfl : c = c₀ ++ [de] := by
        obtain ⟨hcF, hlast⟩ := List.mem_filter.mp hc
        cases hg : c.getLast? with
        | none => simp [hg] at hlast
        | some e' =>
            have hp : e'.ptr = d := is_iff.mp (by simpa [hg] using hlast)
            obtain rfl := hF.eq_of_ptr
              (Forest.mem_entries_iff.mpr ⟨c, hcF, hg⟩) hmem (hp.trans hptr.symm)
            exact hF.chain_eq hcF hc₀ hg (by simp)
      rw [← htops, List.append_assoc]
      constructor
      · intro hc
        rcases Forest.chain_below hF.nodup hnode hc with hn | hd
        · simp at hn
        · exact Forest.singleton_mem_chains hd
      · exact fun he => hch [e] (Forest.mem_chains_of_tops he)

/-- What is listed is in the tree, below the current directory. -/
theorem listing_parent {l : List (DbEntry × Tree)} (h : listing db = some l)
    {r : DbEntry × Tree} (hr : r ∈ l) :
    (∃ c, c ∈ parents db.dir db.entries) ∧ r ∈ db.entries.nodes := by
  unfold listing at h
  unfold parents
  cases hd : db.dir with
  | none =>
      rw [hd] at h
      obtain rfl := Option.some.inj h
      exact ⟨⟨[], by simp⟩, Forest.mem_nodes_of_siblings hr⟩
  | some d =>
      rw [hd] at h
      obtain ⟨s, hs, rfl⟩ := Option.map_eq_some_iff.mp h
      have hnode := List.mem_of_find?_eq_some hs
      obtain ⟨c, hc, -⟩ := Forest.node_chains hnode
      refine ⟨⟨c ++ [s.1], List.mem_filter.mpr ⟨hc, ?_⟩⟩,
        Forest.mem_nodes_below hnode (Forest.mem_nodes_of_siblings hr)⟩
      simp [is_iff, (mem_entries_of_find hs).2]

theorem dbIterate_true {fn : DbEntry → Bool} (hF : Linked db.entries)
    (h : dbIterate db fn = some true) {c : List DbEntry} (hc : c ∈ parents db.dir db.entries)
    {e : DbEntry} (he : c ++ [e] ∈ db.entries.chains) : fn e = true := by
  obtain ⟨l, hl, hall⟩ := Option.map_eq_some_iff.mp h
  obtain ⟨ch, hm⟩ := (mem_listing hF hl hc).mp he
  exact List.all_eq_true.mp hall _ hm

/-! ## New entries -/

/-- A name that the directory does not have yet. -/
theorem newEntry_distinct (hF : Linked F) (hd : F.Distinct DbEntry.name) {dir : Option ℕ}
    {new : DbEntry}
    (hfree : ∀ c ∈ parents dir F, ∀ e, c ++ [e] ∈ F.chains → e.name ≠ new.name) :
    (newEntry dir new F).Distinct DbEntry.name := by
  have hperm := (newEntry_chains dir new F).map (List.map DbEntry.name)
  rw [List.map_append] at hperm
  rw [Forest.distinct_iff] at hd ⊢
  refine hperm.nodup_iff.mpr (List.nodup_append.mpr ⟨hd, ?_, ?_⟩)
  · have hlen := hF.parents_length dir
    match hp : parents dir F with
    | [] => simp
    | [c] => simp
    | c :: d :: rest => simp [hp] at hlen
  · rintro p hp q hq rfl
    obtain ⟨c', hc', rfl⟩ := List.mem_map.mp hp
    obtain ⟨x, hx, he⟩ := List.mem_map.mp hq
    obtain ⟨c, hc, rfl⟩ := List.mem_map.mp hx
    obtain ⟨a, e, rfl⟩ : ∃ a e, c' = a ++ [e] :=
      ⟨_, _, (List.dropLast_append_getLast (Forest.chains_ne_nil hc')).symm⟩
    rw [List.map_append, List.map_append] at he
    obtain ⟨hnames, hname⟩ := List.append_inj' he rfl
    have hac : a = c := by
      by_cases ha : a = []
      · subst ha
        exact (List.map_eq_nil_iff.mp hnames).symm
      · have hcF : c ∈ F.chains := by
          unfold parents at hc
          split at hc
          · obtain rfl := List.mem_singleton.mp hc
            exact absurd (List.map_eq_nil_iff.mp hnames.symm) ha
          · exact (List.mem_filter.mp hc).1
        exact (Forest.chain_unique (Forest.distinct_iff.mpr hd)
          (Forest.chains_of_append hc' ha) hcF hnames.symm)
    subst hac
    exact hfree a hc e hc' (List.cons.inj hname).1.symm

theorem newEntry_apart (h : Apart db) {buf : CString}
    (hv : validateNewEntry db buf = some true) :
    wp (anyContract torn) ((Call.newEntry buf).exec env db) (fun r _ => Apart r.2) f := by
  unfold Call.exec
  rw [wp_bind]
  refine wp_mono wp_dbNewEntry_alike ?_
  rintro ⟨p, db'⟩ g hl
  show Apart db'
  rcases hl with hl | ⟨id, -, hdir, hfresh, halike⟩
  · exact h.same hl
  · obtain ⟨hlinked, hfresh'⟩ := h.held.newEntry rfl hfresh halike
    refine ⟨hlinked, hfresh', halike.symm.distinct ?_⟩
    refine newEntry_distinct h.linked h.distinct fun c hc e he => ?_
    simpa using dbIterate_true h.linked hv hc he

/-! ## Renaming -/

/-- The new name of an entry is not one of its siblings', and the new identifiers of the
entries below it still end in their names. -/
def Clear (db : Db) (p : ℕ) (buf : CString) : Prop :=
  ∀ de ch id rest newPrefix, find p db.entries = some (de, ch) → de.fields = id :: rest →
    renamedId id.data buf = some newPrefix →
    (∀ c e, c ++ [de] ∈ db.entries.chains → c ++ [e] ∈ db.entries.chains → e ≠ de →
      e.name ≠ buf) ∧
    ∀ e ∈ ch.entries, idName (newPrefix ++ (idData e).drop id.data.length) = e.name

theorem rename_apart (h : Apart db) {p : ℕ} {buf : CString} (hc : Clear db p buf) :
    wp (anyContract torn) (dbRename env db p buf) (fun r _ => Apart r.2) f := by
  refine wp_mono (wp_dbRename_alike h.linked) ?_
  rintro r g ⟨de, ch, id, rest, newPrefix, T, hfind, hfields, hid, hpre, -, hl⟩
  obtain ⟨hsiblings, hbelow⟩ := hc de ch id rest newPrefix hfind hfields hid
  have hsub := Forest.node_sublist (List.mem_of_find?_eq_some hfind)
  have hde : (rebased T newPrefix id.data.length de).name = de.name ∨
      (rebased T newPrefix id.data.length de).name = buf := by
    unfold rebased
    split
    · have hdata : idData de = id.data := by simp [idData, hfields]
      exact .inr (by simp [withField, hdata, idName_renamedId hid])
    · exact .inl rfl
  have hother : ∀ e ∈ db.entries.entries, e ≠ de →
      (rebased T newPrefix id.data.length e).name = e.name := by
    intro e he hne
    unfold rebased
    split
    · next ht =>
        rcases List.mem_cons.mp (hpre.subset ht) with hp | hp
        · exact absurd (h.linked.eq_of_ptr he (hsub.subset (by simp)) hp) hne
        · obtain ⟨x, hx, hxp⟩ := List.mem_map.mp hp
          obtain rfl := h.linked.eq_of_ptr (hsub.subset (by simp [hx])) he hxp
          simpa [withField] using hbelow x hx
    · rfl
  have hmem : ∀ {c : List DbEntry} {e : DbEntry}, c ++ [e] ∈ db.entries.chains →
      e ∈ db.entries.entries := fun hc => (Forest.chain_sublist hc).subset (by simp)
  refine h.leads (rebased_ptr T newPrefix _) (h.distinct.map fun c e x hce hcx hne => ?_) hl
  by_cases hed : e = de
  · subst hed
    have hxe : x ≠ e := fun hx => hne (by rw [hx])
    rw [hother x (hmem hcx) hxe]
    rcases hde with hn | hn
    · rw [hn]
      exact hne
    · rw [hn]
      exact (hsiblings c x hce hcx hxe).symm
  · rw [hother e (hmem hce) hed]
    by_cases hxd : x = de
    · subst hxd
      rcases hde with hn | hn
      · rw [hn]
        exact hne
      · rw [hn]
        exact hsiblings c e hcx hce hed
    · rw [hother x (hmem hcx) hxd]
      exact hne

/-- The page of an account compares a new name with those of the siblings. -/
theorem clear_of_account (h : Apart db) {p : ℕ} {buf : CString} (hlists : Lists db p)
    (hv : validateNameChange db p buf = some true) : Clear db p buf := by
  intro de ch id rest newPrefix hfind hfields hid
  obtain ⟨l, hl, r, hr, hp, hdir⟩ := hlists
  obtain ⟨hmem, hptr⟩ := mem_entries_of_find hfind
  obtain ⟨⟨c₀, hc₀⟩, hr₀⟩ := listing_parent hl hr
  obtain rfl : r = (de, ch) :=
    h.linked.node_eq hr₀ (List.mem_of_find?_eq_some hfind) (hp.trans hptr.symm)
  have hnil : ch = .nil := by
    simp only [dbIsDir, Bool.or_eq_false_iff, decide_eq_false_iff_not, ne_eq, not_not] at hdir
    exact hdir.2
  subst hnil
  refine ⟨fun c e hc he hne => ?_, by simp [Forest.entries]⟩
  have hcc : c = c₀ := by
    have h₀ := (mem_listing h.linked hl hc₀).mpr ⟨_, hr⟩
    have heq := h.linked.chain_eq (e := de) hc h₀ (by simp) (by simp)
    exact (List.append_inj' heq rfl).1
  subst hcc
  have hfree := dbIterate_true h.linked hv hc₀ he
  have hep : e.ptr ≠ p := fun hep => hne
    (h.linked.eq_of_ptr ((Forest.chain_sublist he).subset (by simp)) hmem (hep.trans hptr.symm))
  simpa [hep] using hfree

theorem makeDirectory_apart (h : Apart db) {p : ℕ} :
    wp (anyContract torn) (makeDirectory env db p) (fun r _ => Apart r.2) f := by
  have hfield : wp (anyContract torn) (dbChangeField env db p ftDir [])
      (fun r _ => Apart r.2) f := by
    refine wp_mono wp_dbChangeField_alike ?_
    rintro r g (hl | ⟨-, hl⟩)
    · refine h.leads (fun e => ?_) (h.distinct.map fun c e x _ _ hne => ?_) hl
      · split <;> rfl
      · have hname : ∀ e : DbEntry,
            (if e.is p then withField ftDir [] e else e).name = e.name := by
          intro e
          split
          · simp [withField, ftDir, ftId]
          · rfl
        rw [hname, hname]
        exact hne
    · exact h.same hl
  unfold makeDirectory dbMkdir
  rw [wp_bind]
  split
  · trivial
  · split
    · trivial
    · rw [wp_bind]
      exact wp_mono hfield fun r _ h => ⟨h.linked, h.fresh, h.distinct⟩

/-- Identifiers that spell out the tree do not bring new names. -/
theorem clear_of_named (hn : Named db.entries) {p : ℕ} {buf : CString}
    (hfree : ∀ c d e, d.ptr = p → c ++ [d] ∈ db.entries.chains → c ++ [e] ∈ db.entries.chains →
      e ≠ d → e.name ≠ buf) : Clear db p buf := by
  intro de ch id rest newPrefix hfind hfields hid
  obtain ⟨hmem, hptr⟩ := mem_entries_of_find hfind
  refine ⟨fun c e hc he hne => hfree c de e hptr hc he hne, fun e he => ?_⟩
  obtain ⟨c₀, hc₀, hch⟩ := Forest.node_chains (List.mem_of_find?_eq_some hfind)
  have hdata : id.data = joinPath (names (c₀ ++ [de])) := by
    rw [← hn.idData (e := de) hc₀ (by simp), idData, hfields]
    rfl
  have hsplit : names (c₀ ++ [de]) = names c₀ ++ [de.name] := by simp
  rw [hdata, hsplit] at hid
  obtain ⟨c, hc, hl⟩ := Forest.mem_entries_iff.mp he
  obtain ⟨a, rfl⟩ : ∃ a, c = a ++ [e] :=
    ⟨c.dropLast, (List.dropLast_append_getLast? e hl).symm⟩
  have hchain := hch _ hc
  have hlast : (c₀ ++ de :: (a ++ [e])).getLast? = some e := by
    rw [show c₀ ++ de :: (a ++ [e]) = (c₀ ++ de :: a) ++ [e] by simp, List.getLast?_concat]
  have hnames : names (c₀ ++ de :: (a ++ [e])) = names (c₀ ++ [de]) ++ names (a ++ [e]) := by simp
  have hnew : (names c₀ ++ [buf]) ++ names (a ++ [e]) = (names c₀ ++ buf :: names a) ++ [e.name] := by
    simp
  have hold : joinPath (names (c₀ ++ [de]) ++ names (a ++ [e])) =
      joinPath (names (c₀ ++ [de])) ++ 0 :: joinPath (names (a ++ [e])) :=
    joinPath_append (by simp) (by simp)
  have hjoin : joinPath ((names c₀ ++ [buf]) ++ names (a ++ [e])) =
      joinPath (names c₀ ++ [buf]) ++ 0 :: joinPath (names (a ++ [e])) :=
    joinPath_append (by simp) (by simp)
  rw [renamedId_joinPath hid, hdata, hn.idData hchain hlast, hnames, hold, List.drop_left,
    ← hjoin, hnew, idName_joinPath]

/-! ## Runs -/

/-- If a folder is renamed, the new name is free and names follow from identifiers. -/
def Harmless (db : Db) : Interaction → Prop
  | .folderRename buf =>
      buf = .empty ∨ dbPwd db = some buf ∨ ∀ d, db.dir = some d → Clear db d buf
  | _ => True

theorem interaction_apart (h : Apart db) {i : Interaction} (ha : i.Accepted db)
    (hi : Harmless db i) :
    wp (anyContract torn) (i.exec env db) (fun r _ => Apart r.2) f := by
  cases i with
  | newEntry buf =>
      simp only [Interaction.exec, newEntryName]
      split
      · exact h
      · next hne => exact newEntry_apart h (ha.resolve_left hne)
  | folderRename buf =>
      simp only [Interaction.exec, changedDirName]
      split
      · exact h
      · next hne =>
          split
          · trivial
          · next d hd =>
              obtain ⟨hempty, hsame⟩ := not_or.mp hne
              exact rename_apart h (((hi.resolve_left hempty).resolve_left hsame) d hd)
  | accountRename selected buf =>
      simp only [Interaction.exec, changedAccountName]
      split
      · trivial
      · split
        · exact h
        · next hne =>
            obtain ⟨hlists, hv⟩ := ha
            exact rename_apart h
              (clear_of_account h hlists (hv.resolve_left fun he => hne (.inl he)))
  | makeDirectory selected => exact makeDirectory_apart h
  | chdir dir => exact ⟨h.linked, h.fresh, h.distinct⟩

/-- The folders `a` and `b`, of which the first is open. -/
def openFolder : State :=
  afterRun (fun db => (Interaction.chdir (some 0)).exec (plainEnv 16) db)
    (afterOpen (plainEnv 16) (plainFlash [(8, 1, [nameField [97], .ofData ftDir []]),
      (9, 1, [nameField [98], .ofData ftDir []])]))

def nameB : CString := .ofBuffer [98]

def renamedFolder : State :=
  afterRun (fun db => (Interaction.folderRename nameB).exec (plainEnv 16) db) openFolder

/-- An account is made, and then given another name. -/
def twoAccounts : State :=
  afterRun (fun db => (Interaction.newEntry nameB).exec (plainEnv 16) db)
    (afterOpen (plainEnv 16) (plainFlash [(8, 1, [nameField [97]])]))

def renamedAccount : State :=
  afterRun (fun db => (Interaction.accountRename 1 (.ofBuffer [99])).exec (plainEnv 16) db)
    twoAccounts

end Sunela.Accounts
