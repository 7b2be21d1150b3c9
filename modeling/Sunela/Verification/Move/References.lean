import Sunela.Model.Move
import Sunela.Verification.Names.Alike

/-! # References to predecessors

A move changes nothing but the fields that say what an entry follows, and only those of entries of
the top level. -/

namespace Sunela.Database

open Fields Entry

/-! ## Fields -/

/-- What an entry says it follows. -/
def prevData (fs : List DbField) : Option Bytes := (dbFieldFind fs ftPrev).map DbField.data

/-- The fields without the first reference to a predecessor. -/
def unprev (fs : List DbField) : List DbField := fs.eraseP fun f => f.type = ftPrev

theorem isPrev_iff {prev : Option DbEntry} {e : DbEntry} :
    isPrev prev e = true ↔ prevData e.fields = prev.map fun p => p.name.bytes := by
  unfold isPrev prevData
  cases prev with
  | none => cases dbFieldFind e.fields ftPrev <;> simp
  | some p => cases dbFieldFind e.fields ftPrev <;> simp [eq_comm]

theorem dbFieldFind_setField (fs : List DbField) (type : UInt8) (data : Bytes) :
    dbFieldFind (setField fs type data) type = some (.ofData type data) := by
  induction fs with
  | nil => simp [setField, dbFieldFind]
  | cons f fs ih =>
      simp only [setField]
      split_ifs with hle heq
      · simp [dbFieldFind]
      · simp [dbFieldFind]
      · have hne : f.type ≠ type := fun h => hle (h ▸ UInt8.le_refl _)
        rw [dbFieldFind, List.find?_cons_of_neg (by simpa using hne)]
        exact ih

theorem dbFieldFind_cons_of_ne {f : DbField} {fs : List DbField} {type : UInt8}
    (h : f.type ≠ type) : dbFieldFind (f :: fs) type = dbFieldFind fs type :=
  List.find?_cons_of_neg (by simpa using h)

/-- The fields of other types stay. -/
theorem dbFieldFind_setField_of_ne {type t : UInt8} (h : type ≠ t) (fs : List DbField)
    (data : Bytes) : dbFieldFind (setField fs type data) t = dbFieldFind fs t := by
  have hnew : (DbField.ofData type data).type ≠ t := h
  induction fs with
  | nil => exact dbFieldFind_cons_of_ne hnew
  | cons f fs ih =>
      simp only [setField]
      split_ifs with hle heq
      · rw [dbFieldFind_cons_of_ne hnew, dbFieldFind_cons_of_ne (heq.trans_ne h)]
      · exact dbFieldFind_cons_of_ne hnew
      · rw [dbFieldFind, dbFieldFind, List.find?_cons, List.find?_cons]
        rw [dbFieldFind, dbFieldFind] at ih
        rw [ih]

theorem dbFieldFind_addField_of_ne {type t : UInt8} (h : type ≠ t) (fs : List DbField)
    (data : Bytes) : dbFieldFind (addField fs type data) t = dbFieldFind fs t := by
  have hnew : (DbField.ofData type data).type ≠ t := h
  induction fs with
  | nil => exact dbFieldFind_cons_of_ne hnew
  | cons f fs ih =>
      simp only [addField]
      split_ifs with hlt
      · exact dbFieldFind_cons_of_ne hnew
      · rw [dbFieldFind, dbFieldFind, List.find?_cons, List.find?_cons]
        rw [dbFieldFind, dbFieldFind] at ih
        rw [ih]

theorem prevData_setField (fs : List DbField) (data : Bytes) :
    prevData (setField fs ftPrev data) = some (DbField.ofData ftPrev data).data := by
  simp [prevData, dbFieldFind_setField]

theorem prevData_length {fs : List DbField} {d : Bytes} (h : prevData fs = some d) :
    d.length < 256 := by
  obtain ⟨f, -, rfl⟩ := Option.map_eq_some_iff.mp h
  exact f.fits

theorem mem_of_prevData {fs : List DbField} {d : Bytes} (h : prevData fs = some d) :
    ∃ f ∈ fs, f.type = ftPrev := by
  obtain ⟨f, hf, -⟩ := Option.map_eq_some_iff.mp h
  exact ⟨f, List.mem_of_find?_eq_some hf, by simpa using List.find?_some hf⟩

theorem unprev_length {fs : List DbField} {d : Bytes} (h : prevData fs = some d) :
    fs.length = (unprev fs).length + 1 := by
  obtain ⟨f, hf, ht⟩ := mem_of_prevData h
  have hlen := List.length_eraseP_of_mem (p := fun f => f.type = ftPrev) hf (by simpa using ht)
  have hpos := List.length_pos_of_mem hf
  unfold unprev
  omega

/-- An entry with other fields. -/
def onFields (k : List DbField → List DbField) (e : DbEntry) : DbEntry :=
  { e with fields := k e.fields }

theorem withField_prev (data : Bytes) :
    withField ftPrev data = onFields fun fs => setField fs ftPrev data := by
  funext e
  simp [withField, onFields, show ftPrev ≠ ftId by decide]

theorem face_onFields {k : List DbField → List DbField} {d e : DbEntry} (h : face d = face e) :
    face (onFields k d) = face (onFields k e) := by
  simp only [face, Prod.mk.injEq] at h
  obtain ⟨h1, h2, h3, h4⟩ := h
  simp [face, onFields, h1, h2, h3, h4]

/-! ## The entries of the top level -/

/-- The entries of the top level but the one that is moved. -/
def others (p : ℕ) (F : Tree) : List DbEntry := F.tops.filter fun x => x.ptr ≠ p

variable {F G : Tree} {p q : ℕ} {x : DbEntry}

theorem mem_others : x ∈ others p F ↔ x ∈ F.tops ∧ x.ptr ≠ p := by
  simp [others]

theorem mem_entries_of_top (h : x ∈ F.tops) : x ∈ F.entries :=
  (Forest.chain_sublist (Forest.mem_chains_of_tops h)).subset (by simp)

theorem tops_map (g : DbEntry → DbEntry) (F : Tree) : (F.map g).tops = F.tops.map g := by
  rw [Forest.tops_eq, Forest.siblings_map, Forest.tops_eq, List.map_map, List.map_map]
  rfl

theorem tops_sublist (F : Tree) : F.tops.Sublist F.entries := by
  induction F with
  | nil => exact List.Sublist.slnil
  | node e ch nx _ ih => exact (ih.trans (List.sublist_append_right _ _)).cons_cons e

theorem find_of_mem (hl : Linked F) (hx : x ∈ F.entries) : ∃ ch, find x.ptr F = some (x, ch) := by
  obtain ⟨⟨y, ch⟩, hy⟩ := Option.isSome_iff_exists.mp (find_isSome.mpr ⟨x, hx, rfl⟩)
  obtain ⟨hm, hp⟩ := mem_entries_of_find hy
  obtain rfl := hl.eq_of_ptr hm hx hp
  exact ⟨ch, hy⟩

/-- The chains that consist of one entry. -/
theorem chains_tops {α : Type} (F : Forest α) :
    F.chains.filter (fun c => c.length = 1) = F.tops.map fun e => [e] := by
  induction F with
  | nil => rfl
  | node e ch nx _ ih =>
      have hbelow : (ch.chains.map (e :: ·)).filter (fun c => c.length = 1) = [] := by
        rw [List.filter_eq_nil_iff]
        intro c hc
        obtain ⟨d, hd, rfl⟩ := List.mem_map.mp hc
        simpa using Forest.chains_ne_nil hd
      simp [Forest.chains, Forest.tops, hbelow, ih]

theorem Alike.tops (h : Alike F G) : (F.tops.map face).Perm (G.tops.map face) := by
  have hchains := List.Perm.filter (fun c => decide (c.length = 1)) h
  rw [chains_tops, chains_tops] at hchains
  have htops : ∀ H : Tree, (H.map face).tops = H.tops.map face := by
    intro H
    rw [Forest.tops_eq, Forest.siblings_map, Forest.tops_eq, List.map_map, List.map_map]
    rfl
  rw [htops, htops] at hchains
  exact (List.map_perm_map_iff fun _ _ he => (List.cons.inj he).1).mp hchains

theorem Alike.others (h : Alike F G) (p : ℕ) :
    ((others p F).map face).Perm ((others p G).map face) := by
  have hfilter : ∀ H : Tree, (Database.others p H).map face =
      (H.tops.map face).filter fun t => t.1 ≠ p := by
    intro H
    rw [List.filter_map]
    rfl
  rw [hfilter, hfilter]
  exact h.tops.filter _

theorem others_modify {g : DbEntry → DbEntry} (hg : ∀ e, (g e).ptr = e.ptr) :
    others p (modify q g F) = (others p F).map fun e => if e.is q then g e else e := by
  unfold others Entry.modify
  rw [tops_map, List.filter_map]
  congr 1
  apply List.filter_congr
  intro e _
  simp only [Function.comp_apply]
  split <;> simp [hg]

/-- A number for each entry that depends on what trees that are alike share. -/
def total (w : ℕ × CString × Bool × List DbField → ℕ) (p : ℕ) (F : Tree) : ℕ :=
  ((others p F).map fun x => w (face x)).sum

variable {w : ℕ × CString × Bool × List DbField → ℕ}

theorem Alike.total (h : Alike F G) (p : ℕ) : total w p F = total w p G := by
  have hsum := ((h.others p).map w).sum_nat
  rw [List.map_map, List.map_map] at hsum
  exact hsum

theorem sum_change {l : List DbEntry} (hn : (l.map DbEntry.ptr).Nodup) (hx : x ∈ l)
    (g : DbEntry → DbEntry) (w : DbEntry → ℕ) :
    ((l.map fun e => if e.is x.ptr then g e else e).map w).sum + w x =
      (l.map w).sum + w (g x) := by
  induction l with
  | nil => cases hx
  | cons y l ih =>
      obtain ⟨hy, hn⟩ := List.nodup_cons.mp hn
      rcases List.mem_cons.mp hx with rfl | hx
      · have hrest : ∀ e ∈ l, (if e.is x.ptr then g e else e) = e := by
          intro e he
          apply if_neg
          intro hp
          exact hy (is_iff.mp hp ▸ List.mem_map_of_mem he)
        have hself : x.is x.ptr = true := is_iff.mpr rfl
        simp only [List.map_cons, hself, if_true, List.sum_cons, List.map_congr_left hrest,
          List.map_id']
        omega
      · have hne : y.is x.ptr = false := by
          rw [Bool.eq_false_iff]
          intro hp
          exact hy (is_iff.mp hp ▸ List.mem_map_of_mem hx)
        have hrest := ih hn hx
        simp only [List.map_cons, hne, Bool.false_eq_true, if_false, List.sum_cons]
        omega

/-- One entry changes. -/
theorem total_modify (hl : Linked F) (hx : x ∈ others p F) {g : DbEntry → DbEntry}
    (hg : ∀ e, (g e).ptr = e.ptr) :
    total w p (modify x.ptr g F) + w (face x) = total w p F + w (face (g x)) := by
  have hn : ((others p F).map DbEntry.ptr).Nodup :=
    List.Nodup.sublist ((List.filter_sublist.trans (tops_sublist F)).map DbEntry.ptr) hl
  rw [total, others_modify hg]
  exact sum_change hn hx g fun e => w (face e)

theorem mem_others_of_alike (h : Alike F G) (hx : x ∈ others p F) :
    ∃ y ∈ others p G, face y = face x := by
  have hm := (h.others p).mem_iff.mp (List.mem_map_of_mem hx)
  obtain ⟨y, hy, he⟩ := List.mem_map.mp hm
  exact ⟨y, hy, he⟩

theorem mem_others_modify (hl : Linked F) (hx : x ∈ others p F) {g : DbEntry → DbEntry}
    (hg : ∀ e, (g e).ptr = e.ptr) {y : DbEntry} :
    y ∈ others p (modify x.ptr g F) ↔ y = g x ∨ y ∈ others p F ∧ y.ptr ≠ x.ptr := by
  have hmem : ∀ {z}, z ∈ others p F → z ∈ F.entries := fun hz =>
    mem_entries_of_top (mem_others.mp hz).1
  rw [others_modify hg, List.mem_map]
  constructor
  · rintro ⟨z, hz, rfl⟩
    split
    · next hp =>
        obtain rfl := hl.eq_of_ptr (hmem hz) (hmem hx) (is_iff.mp hp)
        exact .inl rfl
    · next hp => exact .inr ⟨hz, fun hq => hp (is_iff.mpr hq)⟩
  · rintro (rfl | ⟨hy, hne⟩)
    · exact ⟨x, hx, if_pos (is_iff.mpr rfl)⟩
    · exact ⟨y, hy, if_neg fun hp => hne (is_iff.mp hp)⟩

/-- What holds of the fields of all other entries, after the fields of one have changed. -/
theorem forall_others_change (hl : Linked F) (hx : x ∈ others p F)
    {k : List DbField → List DbField} (ha : Alike G (modify x.ptr (onFields k) F))
    {B : List DbField → Prop} :
    (∀ y ∈ others p G, B y.fields) ↔
      B (k x.fields) ∧ ∀ y ∈ others p F, y.ptr ≠ x.ptr → B y.fields := by
  have hmem : ∀ {y}, y ∈ others p (modify x.ptr (onFields k) F) ↔
      y = onFields k x ∨ y ∈ others p F ∧ y.ptr ≠ x.ptr :=
    mem_others_modify hl hx (g := onFields k) fun _ => rfl
  constructor
  · intro h
    have hall : ∀ y ∈ others p (modify x.ptr (onFields k) F), B y.fields := by
      intro y hy
      obtain ⟨z, hz, he⟩ := mem_others_of_alike ha.symm hy
      have hfields : z.fields = y.fields := congrArg (fun t => t.2.2.2) he
      exact hfields ▸ h z hz
    exact ⟨hall _ (hmem.mpr (.inl rfl)), fun y hy hne => hall y (hmem.mpr (.inr ⟨hy, hne⟩))⟩
  · rintro ⟨hk, h⟩ y hy
    obtain ⟨z, hz, he⟩ := mem_others_of_alike ha hy
    have hfields : z.fields = y.fields := congrArg (fun t => t.2.2.2) he
    rw [← hfields]
    rcases hmem.mp hz with rfl | ⟨hz, hne⟩
    · exact hk
    · exact h z hz hne

theorem find_modify_of_ne {g : DbEntry → DbEntry} (hg : ∀ e, (g e).ptr = e.ptr) (hne : p ≠ q)
    {r : DbEntry × Tree} (h : find p F = some r) :
    ∃ ch, find p (modify q g F) = some (r.1, ch) := by
  have hnodes : ∀ F : Tree, ∀ k : DbEntry → DbEntry,
      (F.map k).nodes = F.nodes.map fun r => (k r.1, r.2.map k) := by
    intro F k
    induction F with
    | nil => rfl
    | node e ch nx hc hn => simp [Forest.map, Forest.nodes, hc, hn]
  have hr : r.1.is p = true := by simpa using List.find?_some h
  have hsame : r.1.is q = false := by
    rw [Bool.eq_false_iff]
    intro hq
    exact hne ((is_iff.mp hr).symm.trans (is_iff.mp hq))
  refine ⟨r.2.map fun e => if e.is q then g e else e, ?_⟩
  unfold find Entry.modify
  rw [hnodes, List.find?_map]
  have hkey : (fun s : DbEntry × Tree => s.1.is p) ∘
      (fun s : DbEntry × Tree =>
        ((if s.1.is q then g s.1 else s.1), s.2.map fun e => if e.is q then g e else e)) =
      fun s : DbEntry × Tree => s.1.is p := by
    funext s
    simp only [Function.comp_apply]
    split <;> simp [DbEntry.is, hg]
  rw [hkey, show F.nodes.find? (fun s => s.1.is p) = some r from h]
  simp [hsame]

theorem Alike.find (h : Alike F G) (hl : Linked F) {d : DbEntry} {ch : Tree}
    (hd : find p F = some (d, ch)) :
    ∃ d' ch', Entry.find p G = some (d', ch') ∧ face d' = face d := by
  obtain ⟨hm, hp⟩ := mem_entries_of_find hd
  obtain ⟨d', hd', he⟩ := List.mem_map.mp (h.entries.mem_iff.mp (List.mem_map_of_mem hm))
  have hptr : d'.ptr = p := (congrArg Prod.fst he).trans hp
  obtain ⟨ch', hfind⟩ := find_of_mem (h.linked hl) hd'
  exact ⟨d', ch', hptr ▸ hfind, he⟩

/-! ## Where the loops end -/

/-- The other entries have gone through all versions in `U`. -/
def settle (U : List DbField → List (List DbField)) (p : ℕ) (F : Tree) : Tree :=
  F.map fun y =>
    if y.ptr ∈ (others p F).map DbEntry.ptr then onFields (fun fs => (U fs).getLastD fs) y else y

variable {U : List DbField → List (List DbField)}

theorem settle_alike (h : Alike F G) : Alike (settle U p F) (settle U p G) := by
  have hset : ∀ q, q ∈ (others p F).map DbEntry.ptr ↔ q ∈ (others p G).map DbEntry.ptr := by
    intro q
    have hp := (h.others p).map Prod.fst
    rw [List.map_map, List.map_map] at hp
    exact hp.mem_iff
  have hsame : settle U p F = F.map fun y =>
      if y.ptr ∈ (others p G).map DbEntry.ptr then onFields (fun fs => (U fs).getLastD fs) y
      else y := by
    apply Forest.map_congr
    intro y _
    simp only [hset]
  rw [hsame]
  apply h.map
  intro d e he
  have hptr : d.ptr = e.ptr := congrArg Prod.fst he
  rw [hptr]
  split
  · exact face_onFields he
  · exact he

/-- A round takes an entry to the next of its versions. -/
theorem settle_modify (hl : Linked F) (hx : x ∈ others p F) {k : List DbField → List DbField}
    (hU : U x.fields = k x.fields :: U (k x.fields)) :
    settle U p (modify x.ptr (onFields k) F) = settle U p F := by
  have hptrs : (others p (modify x.ptr (onFields k) F)).map DbEntry.ptr =
      (others p F).map DbEntry.ptr := by
    rw [others_modify (g := onFields k) fun _ => rfl, List.map_map]
    apply List.map_congr_left
    intro e _
    simp only [Function.comp_apply]
    split <;> rfl
  unfold settle
  rw [hptrs, Entry.modify, Forest.map_map]
  apply Forest.map_congr
  intro y hy
  simp only [Function.comp_apply]
  by_cases hp : y.is x.ptr
  · obtain rfl := hl.eq_of_ptr hy (mem_entries_of_top (mem_others.mp hx).1) (is_iff.mp hp)
    have hmem : y.ptr ∈ (others p F).map DbEntry.ptr := List.mem_map_of_mem hx
    rw [if_pos hp, if_pos hmem, if_pos (show (onFields k y).ptr ∈ _ from hmem)]
    have hlast : (U y.fields).getLastD y.fields = (U (k y.fields)).getLastD (k y.fields) := by
      rw [hU, List.getLastD_cons]
    simp only [onFields, hlast]
  · rw [if_neg hp]

/-- Where no version is left, nothing changes. -/
theorem settle_eq (hl : Linked F) (h : ∀ x ∈ others p F, U x.fields = []) :
    settle U p F = F := by
  have hid : settle U p F = F.map fun y => y := by
    apply Forest.map_congr
    intro y hy
    split
    · next hm =>
        obtain ⟨x, hx, he⟩ := List.mem_map.mp hm
        obtain rfl := hl.eq_of_ptr (mem_entries_of_top (mem_others.mp hx).1) hy he
        simp [onFields, h x hx]
    · rfl
  rw [hid, Forest.map_id]

end Sunela.Database
