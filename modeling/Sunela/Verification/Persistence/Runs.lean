import Sunela.Verification.Persistence.Reopen

/-! # What was stored is found again

Over any run of operations that succeed, the records say what the tree says, except for the
entries whose updates are deferred. -/

namespace Sunela.Database

open Program Storage Block Fields Entry

/-- Entries are made in marked directories, and a directory with entries stays marked.
Identifiers only change in a rename. -/
def Orderly (db : Db) : Op → Prop
  | .call (.newEntry _) => ∀ d parent ch, db.dir = some d →
      find d db.entries = some (parent, ch) → HasDir parent.fields
  | .call (.changeField _ type _) => type ≠ ftEnd ∧ type ≠ ftId
  | .call (.deleteField p i) => ∀ de ch f, find p db.entries = some (de, ch) →
      de.fields[i]? = some f → f.type ≠ ftId ∧ (f.type = ftDir → ch = .nil)
  | .call (.deleteEntry p) => ∃ de, find p db.entries = some (de, .nil)
  | .call (.deferUpdate _ _) | .call (.chdir _) | .mkdir _ | .rename _ _ => True
  | .call (.updateSettings _ _) | .call .tsort | .moveAfter _ _ _ | .moveBefore _ _ _ => False

/-- The operation ends, and whatever it had to change has been changed. -/
def Op.Done (env : Env) (s t : State) (o : Op) : Prop :=
  Ends Works (fun db => o.exec env db) s true t ∧
    ∀ p, o = .mkdir p → Ends Works (fun db => dbChangeField env db p ftDir []) s true t

/-- The states that such operations lead to, as long as siblings have different names and
identifiers fit their fields. -/
inductive Persisting (env : Env) (s : State) : State → Prop where
  | start : Persisting env s s
  | next {t u : State} {o : Op} (run : Persisting env s t) (h : Orderly t.db o)
      (done : o.Done env t u) (distinct : u.db.entries.Distinct DbEntry.name)
      (short : Short u.db.entries) : Persisting env s u

/-- Records and identifiers are in line with the tree. -/
structure Kept (env : Env) (s : State) : Prop where
  filing : Filing env s.db s.flash
  named : Named s.db.entries

variable {env : Env} {s t : State}

/-! ## The changes to the tree -/

theorem named_setField {F : Tree} (h : Named F) {p : ℕ} {type : UInt8} {data : Bytes}
    (ht : type ≠ ftEnd ∧ type ≠ ftId) : Named (modify p (withField type data) F) :=
  h.modify (fun _ _ _ => if_neg ht.2) (fun _ _ _ _ hq => hq.setField ht data)
    fun _ _ _ _ _ _ hd => hd.setField type data

theorem named_deleteField {F : Tree} (h : Named F) (hl : Linked F) {p i : ℕ} {de : DbEntry}
    {ch : Tree} (hfind : find p F = some (de, ch)) (hi : 0 < i)
    (hdir : ∀ f, de.fields[i]? = some f → f.type = ftDir → ch = .nil) :
    Named (modify p (withoutField i) F) := by
  refine h.modify (fun _ _ _ => rfl) (fun e _ _ q hq => hq.eraseIdx hi)
    fun a e d hc hne hp hd => hd.eraseIdx fun f hf htype => ?_
  obtain ⟨hmem, hptr⟩ := mem_entries_of_find hfind
  obtain rfl := hl.eq_of_ptr (entry_of_chain hc) hmem (hp.trans hptr.symm)
  rcases Forest.chain_below hl.nodup (List.mem_of_find?_eq_some hfind) hc with rfl | hd
  · exact hne rfl
  · rw [hdir f hf htype] at hd
    simp [Forest.chains] at hd

theorem named_defer {F : Tree} (h : Named F) {p : ℕ} {defer : Bool} :
    Named (modify p (fun e => { e with defer }) F) :=
  h.modify (fun _ _ _ => rfl) (fun _ _ _ _ hq => hq) fun _ _ _ _ _ _ hd => hd

/-- After a rename the identifiers below it match the new name. -/
theorem named_rename {F G : Tree} (h : Named F) (hl : Linked F) {p : ℕ} {name : CString}
    {de : DbEntry} {ch : Tree} {id : DbField} {rest : List DbField} {newPrefix : Bytes}
    (hfind : find p F = some (de, ch)) (hf : de.fields = id :: rest)
    (hid : renamedId id.data name = some newPrefix)
    (ha : Alike G (F.map (rebased (de.ptr :: ch.entries.map DbEntry.ptr) newPrefix
      id.data.length))) (hshort : Short G) : Named G := by
  obtain ⟨c₀, hs⟩ := subtree_of_find hl hfind
  have hdata : id.data = joinPath (names (c₀ ++ [de])) := by
    rw [← h.idData (e := de) hs.root (by simp), idData, hf]
    rfl
  have hsplit : names (c₀ ++ [de]) = names c₀ ++ [de.name] := by simp
  rw [hdata] at ha hid
  rw [hsplit] at hid
  obtain rfl := renamedId_joinPath hid
  exact (h.rebased hs (hshort.alike ha)).alike ha.symm

/-! ## One operation -/

/-- A program that leads to a tree like a well-named one. -/
theorem kept_of_succeeds {p : Fw (Bool × Db)} {X : Tree}
    (hw : wp (anyContract fun _ _ _ => False) p (Succeeds env X) s.flash) (hX : Named X)
    (hr : Returns Works p s.flash (true, t.db) t.flash) : Kept env t := by
  have hpost := wp_returns (K := anyContract fun _ _ _ => False) hw hr
  obtain ⟨hfiled, halike⟩ := hpost rfl
  exact ⟨hfiled, hX.alike halike.symm⟩

theorem newEntry_kept (h : Kept env s) {name : CString} (ho : Orderly s.db (.call (.newEntry name)))
    (hshort : Short t.db.entries)
    (hr : Returns Works ((Call.newEntry name).exec env s.db) s.flash (true, t.db) t.flash) :
    Kept env t := by
  obtain ⟨⟨p, db⟩, f, hnew, hret⟩ := returns_bind hr
  obtain ⟨hret, hf⟩ := reaches_ret.mp hret
  obtain ⟨hp, hdb⟩ := Prod.mk.inj (Prog.ret.inj hret)
  have hpost := wp_returns (K := anyContract fun _ _ _ => False)
    (wp_dbNewEntry_filed h.filing) hnew
  obtain ⟨hfiled, id, hid, halike⟩ := hpost hp.symm
  have hnamed := h.named.newEntry h.filing.linked.1 rfl rfl (newId_cases hid) ho
    (hshort.alike (hdb ▸ halike))
  have hkept : Kept env ⟨db, f⟩ := ⟨hfiled, hnamed.alike halike.symm⟩
  rw [show t = ⟨db, f⟩ by cases t; simp_all]
  exact hkept

theorem deleteField_kept (h : Kept env s) {p i : ℕ}
    (ho : Orderly s.db (.call (.deleteField p i)))
    (hr : Returns Works (dbDeleteField env s.db p i) s.flash (true, t.db) t.flash) :
    Kept env t := by
  unfold dbDeleteField at hr
  cases hfind : find p s.db.entries with
  | none =>
      rw [hfind] at hr
      cases hr
  | some res =>
      obtain ⟨de, ch⟩ := res
      rw [hfind] at hr
      simp only [] at hr
      split at hr
      · cases hr
      · next hi =>
          obtain ⟨hid, hdir⟩ := ho de ch _ hfind (List.getElem?_eq_getElem (Nat.lt_of_not_le hi))
          have hpos : 0 < i := by
            obtain ⟨q, hq⟩ := h.filing.storable de (mem_entries_of_find hfind).1
            obtain ⟨f, rest, hf, ht, -⟩ := hq.id
            refine Nat.pos_of_ne_zero fun hz => hid ?_
            subst hz
            simp [hf, ht]
          refine kept_of_succeeds (wp_changeEntry_filed (g := withoutField i) h.filing
            (fun _ => rfl) (fun _ => rfl) (fun _ => rfl) (fun e q hq => ⟨q, hq.eraseIdx hpos⟩)
            fun db => deleteField_eq db p i) ?_ hr
          refine named_deleteField h.named h.filing.linked.1 hfind hpos fun f hf => ?_
          rw [List.getElem?_eq_getElem (Nat.lt_of_not_le hi)] at hf
          rw [← Option.some.inj hf]
          exact hdir

theorem rename_kept (h : Kept env s) {p : ℕ} {name : CString} (hshort : Short t.db.entries)
    (hr : Returns Works (dbRename env s.db p name) s.flash (true, t.db) t.flash) :
    Kept env t := by
  have hpost := wp_returns (K := anyContract fun _ _ _ => False)
    (wp_dbRename_filed h.filing) hr
  obtain ⟨hfiled, de, ch, id, rest, newPrefix, hfind, hf, hid, halike⟩ := hpost rfl
  exact ⟨hfiled, named_rename h.named h.filing.linked.1 hfind hf hid halike hshort⟩

/-- One operation keeps records and identifiers in line. -/
theorem op_kept (h : Kept env s) {o : Op} (ho : Orderly s.db o) (hd : o.Done env s t)
    (hshort : Short t.db.entries) : Kept env t := by
  obtain ⟨hr, hmkdir⟩ := hd
  cases o with
  | mkdir p =>
      exact kept_of_succeeds (wp_dbChangeField_filed h.filing (by decide))
        (named_setField h.named (by decide)) (hmkdir p rfl)
  | rename p name => exact rename_kept h hshort hr
  | moveAfter | moveBefore => exact ho.elim
  | call c =>
      cases c with
      | newEntry name => exact newEntry_kept h ho hshort hr
      | changeField p type data =>
          exact kept_of_succeeds (wp_dbChangeField_filed h.filing ho.1)
            (named_setField h.named ho) hr
      | deleteField p i => exact deleteField_kept h ho hr
      | deleteEntry p =>
          obtain ⟨de, hfind⟩ := ho
          exact kept_of_succeeds (wp_dbDeleteEntry_filed h.filing hfind) (h.named.remove _) hr
      | deferUpdate p defer =>
          exact kept_of_succeeds (wp_dbEntryDeferUpdate_filed h.filing) (named_defer h.named) hr
      | chdir dir =>
          obtain ⟨hret, hf⟩ := reaches_ret.mp hr
          have hdb : t.db = dbChdir s.db dir := (Prod.mk.inj (Prog.ret.inj hret)).2
          have hkept : Kept env ⟨dbChdir s.db dir, s.flash⟩ :=
            ⟨h.filing.same rfl rfl rfl, h.named⟩
          rw [show t = ⟨dbChdir s.db dir, s.flash⟩ by cases t; simp_all]
          exact hkept
      | updateSettings | tsort => exact ho.elim

/-! ## Runs -/

theorem opens_kept (ho : Opens env s) (h : Owned (records env s.flash)) : Kept env s :=
  ⟨opened_filing ho.opened h, opened_named ho.opened h⟩

theorem persisting_kept (h : Kept env s) (hr : Persisting env s t) : Kept env t := by
  induction hr with
  | start => exact h
  | next _ ho hd _ hshort ih => exact op_kept ih ho hd hshort

theorem persisting_distinct (ho : Opens env s) (hr : Persisting env s t) :
    t.db.entries.Distinct DbEntry.name := by
  cases hr with
  | start => exact ho.opened.distinct
  | next _ _ _ hd _ => exact hd

/-- It is enough to look at the directories above each record. -/
theorem owned_of_take {rs : List Record} (hn : (rs.map Record.path).Nodup)
    (hd : ∀ r ∈ rs, ∀ i < r.path.length, 0 < i →
      ∃ d ∈ rs, d.path = r.path.take i ∧ ∃ f ∈ d.fields, f.type = ftDir) : Owned rs := by
  refine ⟨hn, fun r hr q hq hpre hne => ?_⟩
  have hlt : q.length < r.path.length :=
    Nat.lt_of_le_of_ne hpre.length_le fun he => hne (hpre.eq_of_length he)
  obtain ⟨d, hdm, hp, hdir⟩ := hd r hr q.length hlt (List.length_pos_iff.mpr hq)
  exact ⟨d, hdm, hp.trans (List.prefix_iff_eq_take.mp hpre).symm, hdir⟩

/-- The directory `d` with the account `x` in it. -/
def markedDirectory : State :=
  afterOpen (plainEnv 16) (plainFlash [(8, 1, [nameField [100], .ofData ftDir []]),
    (9, 1, [nameField [100, 0, 120]])])

def unmarkedDirectory : State := afterCall (plainEnv 16) (.deleteField 0 1) markedDirectory

theorem markedDirectory_owned : Owned (records (plainEnv 16) markedDirectory.flash) := by
  unfold markedDirectory afterOpen
  rw [plainFlash_records (by decide)]
  exact owned_of_take (by decide) (by decide)

end Sunela.Database
