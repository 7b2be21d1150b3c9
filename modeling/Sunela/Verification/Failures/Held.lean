import Sunela.Verification.Alloc.Runs
import Sunela.Verification.Names.Calls

/-! # Pointers over whole runs

Each pointer refers to one entry in every state that calls lead to, whatever fails. -/

namespace Sunela.Database

open Program Storage Span Block Fields Entry

variable {env : Env} {torn : Torn} {db : Db} {f : Flash}

theorem Held.modify (h : Held db) {p : ℕ} {g : DbEntry → DbEntry} {db' : Db}
    (hg : ∀ e, (g e).ptr = e.ptr) (hl : Leads db (modify p g db.entries) db') : Held db' := by
  refine h.leads (k := fun e => if e.is p then g e else e) (fun e => ?_) hl
  split
  · exact hg e
  · rfl

theorem wp_changeEntry_held (h : Held db) {p : ℕ} {g : DbEntry → DbEntry} {change : Db → Fw Db}
    (hg : ∀ e, (g e).ptr = e.ptr)
    (hchange : ∀ db, ∃ db', change db = .ret db' ∧ Retouched (modify p g db.entries) db db') :
    wp (anyContract torn) (changeEntry env db p change) (fun r _ => Held r.2) f := by
  refine wp_mono (wp_changeEntry_alike hchange) fun r _ hl => ?_
  rcases hl with hl | ⟨-, hl⟩
  · exact h.modify hg hl
  · exact h.same hl

theorem wp_dbDeleteEntry_held (h : Held db) {p : ℕ} :
    wp (anyContract torn) (dbDeleteEntry env db p) (fun r _ => Held r.2) f := by
  unfold dbDeleteEntry
  cases find p db.entries with
  | none => trivial
  | some r =>
      obtain ⟨db', hsort, G, generation, hperm, rfl⟩ :=
        sorted_eq { db with entries := db.entries.remove (DbEntry.is p) }
      have hlinked := (h.linked.remove p).perm (Forest.chains_perm hperm).symm
      have hmem : ∀ e ∈ G.entries, e ∈ db.entries.entries := fun e he =>
        mem_remove ((Forest.entries_perm (Forest.chains_perm hperm)).mem_iff.mp he)
      have hG : Held { db with entries := G, generation } :=
        ⟨hlinked, fun e he => h.fresh e (hmem e he)⟩
      simp only [hsort, Prog.ret_bind, wp_bind]
      refine wp_mono wp_discard_tree ?_
      rintro ⟨ok, db₁⟩ g hs
      have h₁ := hG.same hs.leads
      cases ok with
      | false => exact h₁
      | true => exact ⟨h₁.linked, h₁.fresh⟩

theorem wp_dbEntryDeferUpdate_held (h : Held db) {p : ℕ} {defer : Bool} :
    wp (anyContract torn) (dbEntryDeferUpdate env db p defer) (fun r _ => Held r.2) f := by
  have hfinish : ∀ db, Held db →
      Held { db with entries := modify p (fun e => { e with defer }) db.entries } :=
    fun db h => h.modify (g := fun e => { e with defer }) (fun _ => rfl) ⟨.refl _, rfl, rfl⟩
  unfold dbEntryDeferUpdate
  cases find p db.entries with
  | none => trivial
  | some r =>
      simp only []
      split
      · exact hfinish db h
      · rw [wp_bind]
        refine wp_mono (wp_erasedLoop_tree _) ?_
        rintro ⟨new, db₁⟩ g hs
        have h₁ := h.same hs.leads
        cases new with
        | none => exact h₁
        | some new =>
            simp only [wp_bind]
            refine wp_mono wp_updateEntry_alike ?_
            rintro ⟨ok, db₂⟩ g hl
            have h₂ := h₁.same hl
            cases ok with
            | false => exact h₂
            | true => exact hfinish db₂ h₂

theorem wp_dbUpdateSettings_held (h : Held db) {seq : UInt16} {payload : Bytes} :
    wp (anyContract torn) (dbUpdateSettings env db seq payload) (fun r _ => Held r.2) f := by
  unfold dbUpdateSettings
  rw [wp_bind]
  refine wp_mono (wp_erasedLoop_tree _) ?_
  rintro ⟨new, db₁⟩ g hs
  have h₁ := h.same hs.leads
  cases new with
  | none => exact h₁
  | some new =>
      simp only [wp_bind]
      refine wp_of_returns fun ok g _ => ?_
      cases ok with
      | false =>
          simp only [Bool.false_eq_true, if_false, wp_bind]
          exact wp_mono wp_discard_tree fun r _ hs => h₁.same hs.leads
      | true =>
          simp only [if_true]
          cases (db₁.addSpecial 1).settingsBlock with
          | none => exact ⟨h₁.linked, h₁.fresh⟩
          | some old =>
              have h₂ : Held (db₁.addSpecial 1) := ⟨h₁.linked, h₁.fresh⟩
              simp only [wp_bind]
              refine wp_mono wp_discard_tree ?_
              rintro ⟨done, db₂⟩ g hs
              have h₃ := h₂.same hs.leads
              cases done with
              | false => exact ⟨h₃.linked, h₃.fresh⟩
              | true => exact ⟨h₃.linked, h₃.fresh⟩

theorem wp_exec_held (h : Held db) {c : Call} :
    wp (anyContract torn) (c.exec env db) (fun r _ => Held r.2) f := by
  cases c with
  | newEntry name =>
      simp only [Call.exec, wp_bind]
      refine wp_mono wp_dbNewEntry_alike ?_
      rintro ⟨p, db'⟩ g hl
      rcases hl with hl | ⟨id, -, hdir, hfresh, ha⟩
      · exact h.same hl
      · exact h.newEntry rfl hfresh ha
  | changeField p type data =>
      exact wp_changeEntry_held (g := withField type data) h (fun _ => rfl)
        fun db => changeField_eq db p type data
  | deleteField p i =>
      simp only [Call.exec, dbDeleteField]
      cases find p db.entries with
      | none => trivial
      | some r =>
          simp only []
          split
          · trivial
          · exact wp_changeEntry_held (g := withoutField i) h (fun _ => rfl)
              fun db => deleteField_eq db p i
  | deleteEntry p => exact wp_dbDeleteEntry_held h
  | deferUpdate p defer => exact wp_dbEntryDeferUpdate_held h
  | updateSettings seq payload => exact wp_dbUpdateSettings_held h
  | chdir dir => exact ⟨h.linked, h.fresh⟩
  | tsort =>
      obtain ⟨db', hsort, G, generation, hperm, rfl⟩ := sorted_eq db
      simp only [Call.exec, hsort, Prog.ret_bind]
      have hl : Leads db db.entries { db with entries := G, generation } :=
        ⟨Alike.of_siblings hperm, rfl, rfl⟩
      exact h.same hl

theorem reachable_held {allowed : State → Call → Prop} {s t : State} (ho : Opens env s)
    (hr : Reachable (Step torn) env allowed s t) : Held t.db := by
  induction hr with
  | start =>
      have hop := ho.opened
      exact ⟨hop.linked, fun e he => (hop.handles e he).1⟩
  | next _ _ ends ih =>
      have hw := wp_returns (K := anyContract torn) (wp_exec_held ih) ends
      exact hw

end Sunela.Database
