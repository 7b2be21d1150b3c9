import Sunela.Lib.Forest
import Sunela.Model.Field

/-! # Database entries

Entries form a tree of directories. The pointer by which other parts of the system refer to
an entry is a number that no other entry has. -/

namespace Sunela.Entry

open Fields

/-- `struct db_entry`, without its links. -/
structure DbEntry where
  ptr : ℕ
  name : CString
  seq : UInt16
  /-- 0 if the entry is virtual -/
  block : ℕ
  /-- changes are not written to storage yet -/
  defer : Bool
  fields : List DbField
  deriving DecidableEq

/-- The entries of the top-level directory, with their children. -/
abbrev Tree := Forest DbEntry

def DbEntry.is (p : ℕ) (e : DbEntry) : Bool := e.ptr == p

/-- The entry a pointer refers to, with its children. -/
def find (p : ℕ) (F : Tree) : Option (DbEntry × Tree) := F.nodes.find? fun r => r.1.is p

/-- Change the entry a pointer refers to. -/
def modify (p : ℕ) (g : DbEntry → DbEntry) (F : Tree) : Tree :=
  F.map fun e => if e.is p then g e else e

def strcmp : Bytes → Bytes → Ordering
  | [], [] => .eq
  | [], _ :: _ => .lt
  | _ :: _, [] => .gt
  | a :: as, b :: bs => if a < b then .lt else if b < a then .gt else strcmp as bs

/-- The place of a new entry among its siblings. -/
def insertSorted (new : DbEntry) (F : Tree) : Tree :=
  F.insertBefore (fun e => strcmp e.name.bytes new.name.bytes = .gt) new

/-- `new_entry`: the directory is `dir`, or the top level if there is none. -/
def newEntry (dir : Option ℕ) (new : DbEntry) (F : Tree) : Tree :=
  match dir with
  | none => insertSorted new F
  | some p => F.onChildren (DbEntry.is p) (insertSorted new)

def dbIsDir (r : DbEntry × Tree) : Bool :=
  r.1.fields.any (fun f => f.type = ftDir) || r.2 ≠ .nil

/-- The decision of `db_is_account` about the first field that is neither the identifier nor
the predecessor. -/
def accountFields : List DbField → Bool
  | [] => false
  | f :: rest =>
      if f.type = ftId ∨ f.type = ftPrev then accountFields rest
      else f.type ≠ ftDir

def dbIsAccount (r : DbEntry × Tree) : Bool := r.2 = .nil && accountFields r.1.fields

/-! ## Pointers -/

/-- Each pointer refers to one entry. -/
def Linked (F : Tree) : Prop := (F.entries.map DbEntry.ptr).Nodup

theorem is_iff {p : ℕ} {e : DbEntry} : e.is p = true ↔ e.ptr = p := by
  simp [DbEntry.is]

theorem mem_entries_of_find {p : ℕ} {F : Tree} {r : DbEntry × Tree} (h : find p F = some r) :
    r.1 ∈ F.entries ∧ r.1.ptr = p := by
  have hp : r.1.is p = true := by simpa using List.find?_some h
  refine ⟨?_, is_iff.mp hp⟩
  rw [Forest.entries_eq_nodes]
  exact List.mem_map_of_mem (List.mem_of_find?_eq_some h)

theorem Linked.eq_of_ptr {F : Tree} (h : Linked F) {d e : DbEntry} (hd : d ∈ F.entries)
    (he : e ∈ F.entries) (hp : d.ptr = e.ptr) : d = e :=
  List.inj_on_of_nodup_map h hd he hp

theorem Linked.node_eq {F : Tree} (h : Linked F) {r s : DbEntry × Tree} (hr : r ∈ F.nodes)
    (hs : s ∈ F.nodes) (hp : r.1.ptr = s.1.ptr) : r = s := by
  have hkeys : (F.nodes.map fun r => r.1.ptr).Nodup := by
    have hl : (F.entries.map DbEntry.ptr).Nodup := h
    rw [Forest.entries_eq_nodes, List.map_map] at hl
    exact hl
  exact List.inj_on_of_nodup_map hkeys hr hs hp

theorem Linked.perm {F G : Tree} (h : Linked F) (hp : F.chains.Perm G.chains) : Linked G :=
  (((Forest.entries_perm hp).map DbEntry.ptr).nodup_iff).mp h

theorem Linked.nodup {F : Tree} (h : Linked F) : F.entries.Nodup := List.Nodup.of_map _ h

/-- The chain to an entry is the only one that ends in it. -/
theorem Linked.chain_eq {F : Tree} (h : Linked F) {c d : List DbEntry} {e : DbEntry}
    (hc : c ∈ F.chains) (hd : d ∈ F.chains) (hce : c.getLast? = some e)
    (hde : d.getLast? = some e) : c = d := by
  have hkeys : (F.chains.map List.getLast?).Nodup := by
    rw [Forest.chains_getLast]
    exact List.Nodup.map (fun _ _ he => Option.some.inj he) h.nodup
  exact List.inj_on_of_nodup_map hkeys hc hd (hce.trans hde.symm)

theorem modify_entries (p : ℕ) (g : DbEntry → DbEntry) (F : Tree) :
    (modify p g F).entries = F.entries.map fun e => if e.is p then g e else e :=
  Forest.entries_map _ F

theorem modify_ptrs {p : ℕ} {g : DbEntry → DbEntry} (hg : ∀ e, (g e).ptr = e.ptr) (F : Tree) :
    (modify p g F).entries.map DbEntry.ptr = F.entries.map DbEntry.ptr := by
  rw [modify_entries, List.map_map]
  apply List.map_congr_left
  intro e _
  simp only [Function.comp_apply]
  split <;> simp [hg]

theorem Linked.modify {F : Tree} (h : Linked F) {p : ℕ} {g : DbEntry → DbEntry}
    (hg : ∀ e, (g e).ptr = e.ptr) : Linked (modify p g F) := by
  unfold Linked
  rw [modify_ptrs hg]
  exact h

/-- The entries of a changed tree are the changed one and the others. -/
theorem mem_modify {F : Tree} (h : Linked F) {p : ℕ} {g : DbEntry → DbEntry} {d : DbEntry}
    (hd : d ∈ F.entries) (hp : d.ptr = p) {e : DbEntry} :
    e ∈ (modify p g F).entries ↔ e = g d ∨ (e ∈ F.entries ∧ e.ptr ≠ p) := by
  rw [modify_entries, List.mem_map]
  constructor
  · rintro ⟨x, hx, rfl⟩
    split
    · next hxp =>
        rw [h.eq_of_ptr hx hd ((is_iff.mp hxp).trans hp.symm)]
        exact .inl rfl
    · next hxp => exact .inr ⟨hx, fun hq => hxp (is_iff.mpr hq)⟩
  · rintro (rfl | ⟨he, hne⟩)
    · exact ⟨d, hd, by simp [is_iff, hp]⟩
    · exact ⟨e, he, by simp [is_iff, hne]⟩

theorem find_isSome {p : ℕ} {F : Tree} : (find p F).isSome ↔ ∃ e ∈ F.entries, e.ptr = p := by
  rw [find, List.find?_isSome, Forest.entries_eq_nodes]
  constructor
  · rintro ⟨r, hr, hp⟩
    exact ⟨r.1, List.mem_map_of_mem hr, is_iff.mp hp⟩
  · rintro ⟨e, he, hp⟩
    obtain ⟨r, hr, rfl⟩ := List.mem_map.mp he
    exact ⟨r, hr, is_iff.mpr hp⟩

/-- A changed entry is found in the changed tree, also after its siblings were reordered. -/
theorem find_modify {F G : Tree} (h : Linked F) {p : ℕ} {g : DbEntry → DbEntry}
    (hg : ∀ e, (g e).ptr = e.ptr) (hp : G.siblings.Perm (modify p g F).siblings) {d : DbEntry}
    {ch : Tree} (hd : find p F = some (d, ch)) : ∃ ch', find p G = some (g d, ch') := by
  obtain ⟨hmem, hptr⟩ := mem_entries_of_find hd
  have hperm := Forest.entries_perm (Forest.chains_perm hp)
  have hsome : (find p G).isSome := by
    refine find_isSome.mpr ⟨g d, hperm.mem_iff.mpr ?_, (hg d).trans hptr⟩
    exact (mem_modify h hmem hptr).mpr (.inl rfl)
  obtain ⟨⟨e, ch'⟩, he⟩ := Option.isSome_iff_exists.mp hsome
  obtain ⟨hmem', hptr'⟩ := mem_entries_of_find he
  rcases (mem_modify h hmem hptr).mp (hperm.mem_iff.mp hmem') with rfl | ⟨-, hne⟩
  · exact ⟨ch', he⟩
  · exact absurd hptr' hne

/-- The chains that lead to a directory. -/
def parents (dir : Option ℕ) (F : Tree) : List (List DbEntry) :=
  match dir with
  | none => [[]]
  | some d => F.chains.filter fun c => c.getLast?.any (DbEntry.is d)

theorem newEntry_chains (dir : Option ℕ) (new : DbEntry) (F : Tree) :
    (newEntry dir new F).chains.Perm (F.chains ++ (parents dir F).map (· ++ [new])) := by
  have hsorted : ∀ F, (insertSorted new F).chains.Perm ([new] :: F.chains) := fun F =>
    Forest.chains_insertBefore _ _ _
  cases dir with
  | none => exact (hsorted F).trans (List.perm_append_singleton _ _).symm
  | some d => exact Forest.chains_onChildren hsorted F

theorem newEntry_entries (dir : Option ℕ) (new : DbEntry) (F : Tree) :
    (newEntry dir new F).entries.Perm
      (F.entries ++ List.replicate (parents dir F).length new) := by
  have h := (newEntry_chains dir new F).map List.getLast?
  rw [List.map_append, Forest.chains_getLast, Forest.chains_getLast, List.map_map] at h
  have hlast : (parents dir F).map (List.getLast? ∘ (· ++ [new])) =
      (List.replicate (parents dir F).length new).map some := by
    rw [List.map_replicate, List.map_congr_left (g := fun _ => some new) fun c _ => by simp,
      List.map_const']
  rw [hlast, ← List.map_append] at h
  exact (List.map_perm_map_iff fun _ _ he => Option.some.inj he).mp h

theorem mem_newEntry {dir : Option ℕ} {new : DbEntry} {F : Tree} {e : DbEntry}
    (he : e ∈ (newEntry dir new F).entries) : e = new ∨ e ∈ F.entries := by
  rcases List.mem_append.mp ((newEntry_entries dir new F).mem_iff.mp he) with he | he
  · exact .inr he
  · exact .inl (List.eq_of_mem_replicate he)

theorem filter_of_nodup_map {α β : Type} [DecidableEq β] {l : List α} {key : α → β}
    (h : (l.map key).Nodup) (b : β) : (l.filter fun a => key a = b).length ≤ 1 := by
  have hcount := List.nodup_iff_count_le_one.mp h b
  rw [List.count, List.countP_map] at hcount
  rw [← List.countP_eq_length_filter]
  exact hcount

/-- At most one chain leads to a directory. -/
theorem Linked.parents_length {F : Tree} (h : Linked F) (dir : Option ℕ) :
    (parents dir F).length ≤ 1 := by
  cases dir with
  | none => exact Nat.le_refl 1
  | some d =>
      have hkeys : (F.chains.map fun c => c.getLast?.map DbEntry.ptr).Nodup := by
        have he := congrArg (List.map (Option.map DbEntry.ptr)) (Forest.chains_getLast F)
        rw [List.map_map, List.map_map] at he
        have hmap : F.entries.map (Option.map DbEntry.ptr ∘ some) =
            (F.entries.map DbEntry.ptr).map some := by
          rw [List.map_map]
          rfl
        rw [hmap] at he
        exact he ▸ List.Nodup.map (fun _ _ he => Option.some.inj he) h
      have hfilter := filter_of_nodup_map hkeys (some d)
      refine Nat.le_trans (Nat.le_of_eq ?_) hfilter
      simp only [parents]
      congr 2
      funext c
      cases c.getLast? with
      | none => rfl
      | some e => simp [DbEntry.is, Bool.beq_eq_decide_eq]

/-- Exactly one chain leads to a directory that exists. -/
theorem Linked.parents_eq {F : Tree} (h : Linked F) {dir : Option ℕ}
    (hd : ∀ d, dir = some d → (find d F).isSome) : ∃ c, parents dir F = [c] := by
  have hle := h.parents_length dir
  have hne : parents dir F ≠ [] := by
    cases dir with
    | none => exact List.cons_ne_nil _ _
    | some d =>
        obtain ⟨e, he, hp⟩ := find_isSome.mp (hd d rfl)
        obtain ⟨c, hc, hl⟩ := Forest.mem_entries_iff.mp he
        refine List.ne_nil_of_mem (a := c) (List.mem_filter.mpr ⟨hc, ?_⟩)
        simp [hl, is_iff, hp]
  match hps : parents dir F with
  | [] => exact absurd hps hne
  | [c] => exact ⟨c, rfl⟩
  | _ :: _ :: _ => simp [hps] at hle

theorem Linked.newEntry {F : Tree} (h : Linked F) {dir : Option ℕ} {new : DbEntry}
    (hn : ∀ e ∈ F.entries, e.ptr ≠ new.ptr) : Linked (newEntry dir new F) := by
  unfold Linked
  rw [((newEntry_entries dir new F).map DbEntry.ptr).nodup_iff, List.map_append,
    List.map_replicate]
  refine List.nodup_append.mpr ⟨h, List.nodup_replicate.mpr (h.parents_length dir), ?_⟩
  intro a ha b hb hab
  obtain ⟨e, he, rfl⟩ := List.mem_map.mp ha
  exact hn e he (hab.trans (List.eq_of_mem_replicate hb))

theorem mem_remove {p : DbEntry → Bool} {F : Tree} {e : DbEntry}
    (he : e ∈ (F.remove p).entries) : e ∈ F.entries :=
  (Forest.remove_sublist p F).subset he

theorem Linked.remove {F : Tree} (h : Linked F) (p : ℕ) : Linked (F.remove (DbEntry.is p)) := by
  have hsub : (F.remove (DbEntry.is p)).entries.Sublist F.entries := Forest.remove_sublist _ F
  exact List.Nodup.sublist (hsub.map DbEntry.ptr) h

/-- Taking out an entry without children takes out just that entry. -/
theorem entries_remove_leaf {F : Tree} (h : Linked F) {p : ℕ} {e : DbEntry}
    (hf : find p F = some (e, .nil)) :
    (F.remove (DbEntry.is p)).entries = F.entries.filter fun d => !d.is p := by
  refine Forest.entries_remove fun r hr hp => ?_
  have he : r = (e, .nil) := by
    refine h.node_eq hr (List.mem_of_find?_eq_some hf) ?_
    have hep : e.is p = true := by simpa using List.find?_some hf
    exact (is_iff.mp hp).trans (is_iff.mp hep).symm
  rw [he]

end Sunela.Entry
