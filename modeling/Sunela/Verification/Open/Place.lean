import Sunela.Model.Open

/-! # Putting one record into the tree

Only the path of the record changes, and directories on the way that are missing become
virtual entries. -/

namespace Sunela.Database

open Serial Fields Entry

/-- What the tree shows of an entry: its block, its sequence number and its fields. -/
abbrev Shown := ℕ × UInt16 × List DbField

def view (e : DbEntry) : Shown := (e.block, e.seq, e.fields)

def Record.shown (r : Record) : Shown := (r.block, r.seq, r.fields)

/-- What is found by walking down a path. -/
def look (F : Tree) (q : Path) : Option Shown :=
  (F.lookup DbEntry.name q).map fun r => view r.1

/-- The children of the first sibling of a name. -/
def below (s : CString) (F : Tree) : Tree := (F.child DbEntry.name s).elim .nil Prod.snd

theorem look_singleton (F : Tree) (s : CString) :
    look F [s] = (F.child DbEntry.name s).map fun r => view r.1 := rfl

theorem look_cons_cons (F : Tree) (s t : CString) (q : Path) :
    look F (s :: t :: q) = look (below s F) (t :: q) := by
  unfold look below
  rw [Forest.lookup_cons_cons]
  cases F.child DbEntry.name s with
  | none =>
      cases q <;> simp [Forest.lookup, Forest.child]
  | some r => rfl

/-- A virtual entry carries nothing. -/
def Sound (F : Tree) : Prop := ∀ e ∈ F.entries, e.block = 0 → e.fields = [] ∧ e.seq = 0

theorem child_entries {F : Tree} {s : CString} {r : DbEntry × Tree}
    (h : F.child DbEntry.name s = some r) :
    r.1 ∈ F.entries ∧ ∀ e ∈ r.2.entries, e ∈ F.entries := by
  obtain ⟨hr, hch⟩ := Forest.child_chains h
  refine ⟨Forest.mem_entries_of_mem_chain hr _ (by simp), fun e he => ?_⟩
  obtain ⟨c, hc, hl⟩ := Forest.mem_entries_iff.mp he
  exact Forest.mem_entries_of_mem_chain (hch c hc) _
    (List.mem_cons_of_mem _ (List.mem_of_getLast? hl))

theorem Sound.below {F : Tree} (h : Sound F) (s : CString) : Sound (below s F) := by
  unfold Database.below
  cases hc : F.child DbEntry.name s with
  | none => simp [Sound, Forest.entries]
  | some r => exact fun e he => h e ((child_entries hc).2 e he)

/-- What is shown at the path of a record once it has come in. -/
def merge (o : Option Shown) (r : Record) : Shown :=
  match o with
  | none => r.shown
  | some old => if old.1 ≠ 0 ∧ Behind 0x8000 r.seq.toNat old.2.1.toNat then old else r.shown

theorem storeRecord_look {F : Tree} (h : Sound F) (r : Record) (ptr : ℕ) (name : CString) :
    ∃ G, storeRecord r ptr name F = some G ∧
      ∀ t, G.child DbEntry.name t =
        if name = t then
          some (match F.child DbEntry.name name with
            | none => (⟨ptr, name, r.seq, r.block, false, r.fields⟩, .nil)
            | some (de, ch) =>
                if de.block ≠ 0 ∧ Behind 0x8000 r.seq.toNat de.seq.toNat then (de, ch)
                else ({ de with block := r.block, seq := r.seq, fields := r.fields }, ch))
        else F.child DbEntry.name t := by
  unfold storeRecord
  cases hc : F.child DbEntry.name name with
  | none => exact ⟨_, rfl, fun t => Forest.child_insertBefore hc t⟩
  | some d =>
      obtain ⟨de, ch⟩ := d
      have hname : de.name = name := Forest.child_name hc
      have hreplaced : ∀ t, (F.replaceChild DbEntry.name name
          { de with block := r.block, seq := r.seq, fields := r.fields }).child
            DbEntry.name t =
          if name = t then
            some ({ de with block := r.block, seq := r.seq, fields := r.fields }, ch)
          else F.child DbEntry.name t := by
        intro t
        rw [Forest.child_replaceChild (by exact hname), hc]
        rfl
      by_cases hb : de.block = 0
      · obtain ⟨hf, hs⟩ := h de (child_entries hc).1 hb
        simp only [hb, hf, hs, ne_eq, not_true_eq_false, false_or, false_and, if_false]
        exact ⟨_, rfl, by simpa [hb, hf, hs] using hreplaced⟩
      · by_cases hbehind : Behind 0x8000 r.seq.toNat de.seq.toNat
        · refine ⟨F, by simp [hb, hbehind], fun t => ?_⟩
          simp only [hb, hbehind, ne_eq, not_false_eq_true, and_self, if_true]
          split
          · next ht => rw [← ht, hc]
          · rfl
        · exact ⟨_, by simp [hb, hbehind]; rfl, by simpa [hb, hbehind] using hreplaced⟩

/-- What is shown after a record with path `p` has come in. -/
def placed (r : Record) (p : Path) (F : Tree) (q : Path) : Option Shown :=
  if q = p then some (merge (look F p) r)
  else if q <+: p then some ((look F q).getD (0, 0, []))
  else look F q

/-- A record can always be placed, and shows at its path unless a newer one is there. -/
theorem placeRecord_look {F : Tree} (h : Sound F) (r : Record) (fresh : ℕ) {p : Path}
    (hp : p ≠ []) :
    ∃ G, placeRecord r fresh p F = some G ∧ ∀ q, q ≠ [] → look G q = placed r p F q := by
  induction p generalizing fresh F with
  | nil => exact absurd rfl hp
  | cons s p ih =>
      cases p with
      | nil =>
          obtain ⟨G, hG, hchild⟩ := storeRecord_look h r fresh s
          refine ⟨G, hG, fun q hq => ?_⟩
          match q, hq with
          | [t], _ =>
              simp only [placed, look_singleton, hchild]
              by_cases ht : s = t
              · subst ht
                simp only [if_true]
                cases hc : F.child DbEntry.name s with
                | none => simp [merge, view, Record.shown]
                | some d =>
                    simp only [Option.map_some, merge, view]
                    split <;> simp_all [Record.shown]
              · have hne : t ≠ s := fun he => ht he.symm
                simp [ht, hne]
          | t :: u :: q, _ =>
              have hb : below t G = below t F := by
                unfold below
                rw [hchild]
                split
                · next ht =>
                    subst ht
                    cases F.child DbEntry.name s with
                    | none => rfl
                    | some d =>
                        simp only [Option.elim_some]
                        split <;> rfl
                · rfl
              simp only [placed, look_cons_cons, hb]
              simp
      | cons u p =>
          obtain ⟨ch, hch, hlook⟩ := ih (h.below s) (fresh + 1) (by simp)
          have hname : DbEntry.name (virtualEntry fresh s) = s := rfl
          obtain ⟨G, hG, hchild⟩ := Forest.visit_child hname hch
          refine ⟨G, hG, fun q hq => ?_⟩
          match q, hq with
          | [t], _ =>
              simp only [placed, look_singleton, hchild]
              by_cases ht : s = t
              · subst ht
                cases hc : F.child DbEntry.name s <;> simp [view, virtualEntry]
              · have hne : t ≠ s := fun he => ht he.symm
                simp [ht, hne]
          | t :: v :: q, _ =>
              rw [look_cons_cons]
              by_cases ht : s = t
              · subst ht
                have hb : below s G = ch := by
                  unfold below
                  rw [hchild, if_pos rfl]
                  rfl
                rw [hb, hlook _ (by simp)]
                simp only [placed, look_cons_cons, List.cons.injEq, true_and,
                  List.cons_prefix_cons]
              · have hne : t ≠ s := fun he => ht he.symm
                have hb : below t G = below t F := by
                  unfold below
                  rw [hchild, if_neg ht]
                rw [hb]
                simp [placed, look_cons_cons, hne]

/-! ## The other entries -/

theorem storeRecord_distinct {F G : Tree} (hd : F.Distinct DbEntry.name) {r : Record} {ptr : ℕ}
    {name : CString} (h : storeRecord r ptr name F = some G) : G.Distinct DbEntry.name := by
  unfold storeRecord at h
  cases hc : F.child DbEntry.name name with
  | none =>
      rw [hc] at h
      obtain rfl := Option.some.inj h
      exact hd.insertBefore hc
  | some d =>
      have hname : d.1.name = name := Forest.child_name hc
      simp only [hc] at h
      split_ifs at h <;> obtain rfl := Option.some.inj h
      · exact hd
      · exact hd.replaceChild hname
      · exact hd.replaceChild hname

theorem placeRecord_distinct {F G : Tree} (hd : F.Distinct DbEntry.name) {r : Record}
    {fresh : ℕ} {p : Path} (h : placeRecord r fresh p F = some G) :
    G.Distinct DbEntry.name := by
  induction p generalizing fresh F G with
  | nil => simp [placeRecord] at h
  | cons s p ih =>
      cases p with
      | nil => exact storeRecord_distinct hd h
      | cons t p =>
          have hname : DbEntry.name (virtualEntry fresh s) = s := rfl
          exact (Forest.Distinct.visit hd hname (fun _ _ hd' h' => ih hd' h') h).1

/-- The pointer of an entry, and whether it defers updates. -/
def handle (e : DbEntry) : ℕ × Bool := (e.ptr, e.defer)

theorem storeRecord_entries {F G : Tree} {r : Record} {ptr : ℕ} {name : CString}
    (h : storeRecord r ptr name F = some G) :
    ∃ l, l.Sublist [(ptr, false)] ∧
      (G.entries.map handle).Perm (l ++ F.entries.map handle) := by
  unfold storeRecord at h
  cases hc : F.child DbEntry.name name with
  | none =>
      rw [hc] at h
      obtain rfl := Option.some.inj h
      refine ⟨[(ptr, false)], List.Sublist.refl _, ?_⟩
      have hp : (insertSorted ⟨ptr, name, r.seq, r.block, false, r.fields⟩ F).chains.Perm
          (Forest.node ⟨ptr, name, r.seq, r.block, false, r.fields⟩ .nil F).chains :=
        Forest.chains_insertBefore _ _ _
      exact (Forest.entries_perm hp).map handle
  | some d =>
      obtain ⟨de, ch⟩ := d
      simp only [hc] at h
      refine ⟨[], List.nil_sublist _, ?_⟩
      split_ifs at h <;> obtain rfl := Option.some.inj h
      · exact List.Perm.refl _
      · rw [Forest.entries_replaceChild hc (by rfl)]
        exact List.Perm.refl _
      · rw [Forest.entries_replaceChild hc (by rfl)]
        exact List.Perm.refl _

/-- Placing a record adds at most one entry at each level of its path. -/
theorem placeRecord_entries {F G : Tree} {r : Record} {fresh : ℕ} {p : Path}
    (h : placeRecord r fresh p F = some G) :
    ∃ l, l.Sublist ((List.range' fresh p.length).map fun i => (i, false)) ∧
      (G.entries.map handle).Perm (l ++ F.entries.map handle) := by
  induction p generalizing fresh F G with
  | nil => simp [placeRecord] at h
  | cons s p ih =>
      cases p with
      | nil => exact storeRecord_entries h
      | cons t p =>
          obtain ⟨l, hl, hp⟩ := Forest.visit_entries (fun _ _ h' => ih h') h
          exact ⟨l, by simpa [List.range'_succ, handle, virtualEntry] using hl, hp⟩

end Sunela.Database
