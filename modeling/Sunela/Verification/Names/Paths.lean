import Sunela.Verification.Persistence.Reopen
import Sunela.Verification.Support.PlainCrypt

/-! # Identifiers spell out the tree

New entries, new directories and renames keep the identifier of every entry in line with its
place in the tree, as long as identifiers fit their fields. -/

namespace Sunela.Database

open Program Storage Block Fields Entry

variable {env : Env} {torn : Torn} {db : Db} {f : Flash}

/-! ## The opened tree -/

/-- Every directory on the path of a record has a record. -/
def Grounded (rs : List Record) : Prop :=
  ∀ r ∈ rs, ∀ q, q ≠ [] → q <+: r.path → ∃ d ∈ rs, d.path = q

theorem Grounded.newest {rs : List Record} (h : Grounded rs) {q : Path} (hq : q ≠ [])
    (hr : reaches rs q = true) : newest rs q ≠ none := by
  obtain ⟨r, hr, hpre⟩ := List.any_eq_true.mp hr
  obtain ⟨d, hd, hp⟩ := h r hr q hq (of_decide_eq_true hpre)
  exact fun hn => newest_eq_none.mp hn d hd hp

/-- A tree whose directories all have records matches its identifiers. -/
theorem opened_matching (ho : Opened env f db) (h : Grounded (records env f)) :
    Matching db.entries := by
  intro a e hc
  obtain ⟨ch, hl, -⟩ := Forest.lookup_of_chain ho.distinct hc
  have hlook : look db.entries (names (a ++ [e])) = some (view e) := by
    unfold look names
    rw [hl]
    rfl
  rw [ho.look _ (by simp)] at hlook
  rcases opened_cases hlook with ⟨r, hn, hs⟩ | ⟨hn, hreach, -⟩
  · obtain ⟨hr, hp⟩ := newest_mem hn
    have hst : Storable r.fields r.path := recordIn_storable (mem_records.mp hr).2
    have hfix := hst.fixShown (s := r.shown) (isParent (records env f) (names (a ++ [e])))
    rw [← hs, hp] at hfix
    exact hfix
  · exact absurd hn (h.newest (by simp) hreach)

/-! ## Operations -/

/-- What the claim of the identifiers rests on. -/
structure Spelt (db : Db) : Prop where
  held : Held db
  matching : Matching db.entries

theorem Spelt.leads (h : Spelt db) {k : DbEntry → DbEntry} {db' : Db}
    (hk : ∀ e, (k e).ptr = e.ptr) (hm : Matching (db.entries.map k))
    (hl : Leads db (db.entries.map k) db') : Spelt db' :=
  ⟨h.held.leads hk hl, hm.alike hl.alike.symm⟩

theorem Spelt.same (h : Spelt db) {db' : Db} (hl : Leads db db.entries db') : Spelt db' :=
  ⟨h.held.same hl, h.matching.alike hl.alike.symm⟩

theorem newEntry_spelt (h : Spelt db) {name : CString}
    (hfits : ∀ c ∈ parents db.dir db.entries, (joinPath (names c ++ [name])).length < 256) :
    wp (anyContract torn) ((Call.newEntry name).exec env db) (fun r _ => Spelt r.2) f := by
  unfold Call.exec
  rw [wp_bind]
  refine wp_mono wp_dbNewEntry_alike ?_
  rintro ⟨p, db'⟩ g hl
  show Spelt db'
  rcases hl with hl | ⟨id, hid, hdir, hfresh, halike⟩
  · exact h.same hl
  · refine ⟨h.held.newEntry rfl hfresh halike, Matching.alike ?_ halike.symm⟩
    exact h.matching.newEntry h.held.linked rfl rfl (newId_cases hid) hfits

theorem mkdir_spelt (h : Spelt db) {p : ℕ} :
    wp (anyContract torn) ((Op.mkdir p).exec env db) (fun r _ => Spelt r.2) f := by
  have hfield : wp (anyContract torn) (dbChangeField env db p ftDir [])
      (fun r _ => Spelt r.2) f := by
    refine wp_mono wp_dbChangeField_alike ?_
    rintro r g (hl | ⟨-, hl⟩)
    · refine h.leads (fun e => ?_) ?_ hl
      · split <;> rfl
      · exact h.matching.modify (fun _ _ _ => rfl) fun _ _ _ _ hq => hq.setField (by decide) []
    · exact h.same hl
  unfold Op.exec dbMkdir
  rw [wp_bind]
  split
  · trivial
  · split
    · trivial
    · rw [wp_bind]
      exact wp_mono hfield fun r _ hr => hr

theorem rename_spelt (h : Spelt db) {p : ℕ} {name : CString}
    (hfits : ∀ c de d, c ++ de :: d ∈ db.entries.chains → de.ptr = p →
      (joinPath (names c ++ name :: names d)).length < 256) :
    wp (anyContract torn) (dbRename env db p name)
      (fun r _ => r.1 = true → Spelt r.2) f := by
  refine wp_mono (wp_dbRename_alike h.held.linked) ?_
  rintro r g ⟨de, ch, id, rest, newPrefix, T, hfind, hf, hid, -, hall, hl⟩ hok
  rw [hall hok] at hl
  obtain ⟨c₀, hs⟩ := subtree_of_find h.held.linked hfind
  have hdata : id.data = joinPath (names (c₀ ++ [de])) := by
    rw [← h.matching.idData (e := de) hs.root (by simp), idData, hf]
    rfl
  have hsplit : names (c₀ ++ [de]) = names c₀ ++ [de.name] := by simp
  rw [hdata] at hl hid
  rw [hsplit] at hid
  obtain rfl := renamedId_joinPath hid
  refine h.leads (fun e => rebased_ptr _ _ _ e) ?_ hl
  exact h.matching.rebased hs fun d hd => hfits c₀ de d hd (mem_entries_of_find hfind).2

/-! ## Runs -/

/-- The calls that make directories and entries, and name them. -/
inductive Naming where
  | newEntry (name : CString)
  | mkdir (p : ℕ)
  | chdir (dir : Option ℕ)
  | rename (p : ℕ) (name : CString)

def Naming.op : Naming → Op
  | .newEntry name => .call (.newEntry name)
  | .mkdir p => .mkdir p
  | .chdir dir => .call (.chdir dir)
  | .rename p name => .rename p name

/-- The path of the new entry, or the paths of the renamed entry and of all entries below it,
fit the length of a field. -/
def Naming.Fits (db : Db) : Naming → Prop
  | .newEntry name =>
      ∀ c ∈ parents db.dir db.entries, (joinPath (names c ++ [name])).length < 256
  | .rename p name => ∀ c de d, c ++ de :: d ∈ db.entries.chains → de.ptr = p →
      (joinPath (names c ++ name :: names d)).length < 256
  | .mkdir _ | .chdir _ => True

/-- The states that successful calls lead to, each of them allowed. -/
inductive Growing (torn : Torn) (env : Env) (allowed : Db → Naming → Prop) (s : State) :
    State → Prop where
  | start : Growing torn env allowed s s
  | next {t u : State} {n : Naming} (run : Growing torn env allowed s t) (h : allowed t.db n)
      (ends : Ends (Step torn) (fun db => n.op.exec env db) t true u) :
      Growing torn env allowed s u

theorem naming_spelt (h : Spelt db) {n : Naming} (hn : n.Fits db) :
    wp (anyContract torn) (n.op.exec env db) (fun r _ => r.1 = true → Spelt r.2) f := by
  cases n with
  | newEntry name => exact wp_mono (newEntry_spelt h hn) fun _ _ hr _ => hr
  | mkdir p => exact wp_mono (mkdir_spelt h) fun _ _ hr _ => hr
  | chdir dir => exact fun _ => ⟨⟨h.held.linked, h.held.fresh⟩, h.matching⟩
  | rename p name => exact rename_spelt h hn

/-- The state after calls in which nothing fails, if all of them are successful. -/
def afterNamings (env : Env) : List Naming → State → Option State
  | [], s => some s
  | n :: l, s =>
      match run answer (n.op.exec env s.db) s.flash with
      | (.ret (true, db), f) => afterNamings env l ⟨db, f⟩
      | _ => none

theorem Growing.trans {allowed : Db → Naming → Prop} {s t u : State}
    (h : Growing torn env allowed s t) (h' : Growing torn env allowed t u) :
    Growing torn env allowed s u := by
  induction h' with
  | start => exact h
  | next _ hn ends ih => exact .next ih hn ends

theorem afterNamings_growing {l : List Naming} {s t : State} (h : afterNamings env l s = some t) :
    Growing (fun _ _ _ => False) env (fun _ _ => True) s t := by
  induction l generalizing s with
  | nil =>
      obtain rfl := Option.some.inj h
      exact .start
  | cons n l ih =>
      simp only [afterNamings] at h
      split at h
      · next db g hrun =>
          have hends := run_reaches answer_works (n.op.exec env s.db) s.flash
          rw [hrun] at hends
          exact Growing.trans (.next (t := s) (u := ⟨db, g⟩) .start trivial hends) (ih h)
      · simp at h

def longName : CString := .ofBuffer (List.replicate 16 97)

/-- Directories in one another. -/
def nested (k : ℕ) : List Naming :=
  (List.range k).flatMap fun i => [.newEntry longName, .mkdir i, .chdir (some i)]

theorem plainFlash_empty (storageBlocks : ℕ) :
    records (plainEnv storageBlocks) (plainFlash []) = [] := by
  rw [plainFlash_records (by simp)]
  simp [plainRecord]

def afterNaming (n : Naming) (s : State) : State :=
  afterRun (fun db => n.op.exec (plainEnv 16) db) s

/-- A folder that has been entered. -/
def enteredFolder : State :=
  afterNaming (.chdir (some 0)) <| afterNaming (.mkdir 0) <|
    afterNaming (.newEntry (.ofBuffer [97])) <| afterOpen (plainEnv 16) (plainFlash [])

end Sunela.Database
