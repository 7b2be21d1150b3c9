import Sunela.Verification.Alloc.Rules

/-! # Trees that are alike

Where entries are stored and in which order siblings come does not matter for the names in a
tree. -/

namespace Sunela.Database

open Program Storage Block Fields Entry

/-- What of an entry does not depend on where it is stored. -/
def face (e : DbEntry) : ℕ × CString × Bool × List DbField :=
  (e.ptr, e.name, e.defer, e.fields)

/-- The trees have the same entries in the same directories. -/
def Alike (F G : Tree) : Prop :=
  (F.map face).chains.Perm (G.map face).chains

abbrev names (c : List DbEntry) : Path := c.map DbEntry.name

theorem Alike.refl (F : Tree) : Alike F F := List.Perm.refl _

theorem Alike.trans {F G H : Tree} (h : Alike F G) (h' : Alike G H) : Alike F H :=
  List.Perm.trans h h'

theorem Alike.of_siblings {F G : Tree} (h : F.siblings.Perm G.siblings) : Alike F G := by
  unfold Alike
  rw [Forest.chains_map, Forest.chains_map]
  exact (Forest.chains_perm h).map _

theorem Alike.of_face {F : Tree} {g : DbEntry → DbEntry}
    (h : ∀ e, face (g e) = face e) (p : ℕ) : Alike (Entry.modify p g F) F := by
  unfold Alike Entry.modify
  rw [Forest.map_map]
  refine List.Perm.of_eq (congrArg Forest.chains (Forest.map_congr fun e _ => ?_))
  simp only [Function.comp_apply]
  split
  · exact h e
  · rfl

/-- A change that depends only on what the trees share. -/
theorem Alike.map {F G : Tree} (h : Alike F G) {g : DbEntry → DbEntry}
    (hg : ∀ d e, face d = face e → face (g d) = face (g e)) : Alike (F.map g) (G.map g) := by
  let blank (x : ℕ × CString × Bool × List DbField) : DbEntry :=
    ⟨x.1, x.2.1, 0, 0, x.2.2.1, x.2.2.2⟩
  have hmap : ∀ F : Tree, (F.map g).map face = (F.map face).map fun x => face (g (blank x)) := by
    intro F
    rw [Forest.map_map, Forest.map_map]
    exact Forest.map_congr fun e _ => hg e (blank (face e)) rfl
  unfold Alike
  rw [hmap, hmap, Forest.chains_map _ (F.map face), Forest.chains_map _ (G.map face)]
  exact List.Perm.map _ h

theorem Alike.modify {F G : Tree} (h : Alike F G) {p : ℕ} {g : DbEntry → DbEntry}
    (hg : ∀ d e, face d = face e → face (g d) = face (g e)) :
    Alike (Entry.modify p g F) (Entry.modify p g G) := by
  refine h.map fun d e he => ?_
  have hptr : d.ptr = e.ptr := congrArg Prod.fst he
  have his : d.is p = e.is p := by simp [DbEntry.is, hptr]
  rw [his]
  split
  · exact hg d e he
  · exact he

theorem Alike.symm {F G : Tree} (h : Alike F G) : Alike G F := List.Perm.symm h

theorem Alike.chain {F G : Tree} (h : Alike F G) {c : List DbEntry} (hc : c ∈ F.chains) :
    ∃ c' ∈ G.chains, c'.map face = c.map face := by
  have hm : c.map face ∈ (F.map face).chains := by
    rw [Forest.chains_map]
    exact List.mem_map_of_mem hc
  have hm' := h.mem_iff.mp hm
  rw [Forest.chains_map] at hm'
  exact List.mem_map.mp hm'

theorem names_of_face {c c' : List DbEntry} (h : c.map face = c'.map face) :
    names c = names c' := by
  have he := congrArg (List.map fun x => x.2.1) h
  simpa [face, Function.comp_def] using he

theorem Alike.newEntry {dir : Option ℕ} {new new' : DbEntry} {F : Tree}
    (h : face new = face new') : Alike (newEntry dir new F) (newEntry dir new' F) := by
  unfold Alike
  rw [Forest.chains_map, Forest.chains_map]
  refine ((newEntry_chains dir new F).map _).trans (.trans (.of_eq ?_)
    ((newEntry_chains dir new' F).map _).symm)
  simp [h]

theorem Alike.entries {F G : Tree} (h : Alike F G) :
    (F.entries.map face).Perm (G.entries.map face) := by
  rw [← Forest.entries_map, ← Forest.entries_map]
  exact Forest.entries_perm h

/-- What the pointer and the fields of an entry say carries over. -/
theorem Alike.fields {F G : Tree} {P : ℕ → List DbField → Prop} (h : Alike F G)
    (hF : ∀ e ∈ F.entries, P e.ptr e.fields) : ∀ e ∈ G.entries, P e.ptr e.fields := by
  intro e he
  have hmem : face e ∈ F.entries.map face := h.entries.mem_iff.mpr (List.mem_map_of_mem he)
  obtain ⟨d, hd, hface⟩ := List.mem_map.mp hmem
  simp only [face, Prod.mk.injEq] at hface
  rw [← hface.1, ← hface.2.2.2]
  exact hF d hd

theorem Alike.ptrs {F G : Tree} (h : Alike F G) :
    (F.entries.map DbEntry.ptr).Perm (G.entries.map DbEntry.ptr) := by
  have hp := h.entries.map Prod.fst
  rw [List.map_map, List.map_map] at hp
  exact hp

theorem Alike.linked {F G : Tree} (h : Alike F G) (hF : Linked F) : Linked G :=
  h.ptrs.nodup_iff.mp hF

theorem Alike.distinct {F G : Tree} (h : Alike F G) (hF : F.Distinct DbEntry.name) :
    G.Distinct DbEntry.name := by
  have hpaths : ∀ F : Tree, F.paths DbEntry.name =
      (F.map face).chains.map (List.map fun x => x.2.1) := by
    intro F
    rw [Forest.chains_map, List.map_map]
    refine List.map_congr_left fun c _ => ?_
    simp [face, Function.comp_def]
  rw [Forest.distinct_iff, hpaths] at hF ⊢
  exact (List.Perm.map _ h).nodup_iff.mp hF

/-! ## New identifiers -/

/-- The identifier of an entry. -/
def idData (e : DbEntry) : Bytes := (e.fields.head?.map DbField.data).getD []

/-- The first `k` bytes of the identifiers of the entries in `S` are replaced. -/
def rebased (S : List ℕ) (newPrefix : Bytes) (k : ℕ) (e : DbEntry) : DbEntry :=
  if e.ptr ∈ S then withField ftId (newPrefix ++ (idData e).drop k) e else e

variable {newPrefix : Bytes} {k : ℕ}

theorem face_withField {d e : DbEntry} (type : UInt8) (data : Bytes) (h : face d = face e) :
    face (withField type data d) = face (withField type data e) := by
  simp only [face, Prod.mk.injEq] at h
  obtain ⟨h1, h2, h3, h4⟩ := h
  simp [face, withField, h1, h2, h3, h4]

/-- One more entry gets its new identifier. -/
theorem modify_rebased {F : Tree} (hF : Linked F) {S : List ℕ} {e : DbEntry} (he : e ∈ F.entries)
    (hS : e.ptr ∉ S) :
    modify e.ptr (withField ftId (newPrefix ++ (idData e).drop k)) (F.map (rebased S newPrefix k)) =
      F.map (rebased (S ++ [e.ptr]) newPrefix k) := by
  have hptr : ∀ d, (rebased S newPrefix k d).ptr = d.ptr := by
    intro d
    unfold rebased
    split <;> rfl
  unfold Entry.modify
  rw [Forest.map_map]
  refine Forest.map_congr fun d hd => ?_
  simp only [Function.comp_apply]
  by_cases hp : d.ptr = e.ptr
  · obtain rfl := hF.eq_of_ptr hd he hp
    rw [if_pos (is_iff.mpr (hptr d))]
    simp [rebased, hS]
  · rw [if_neg (fun h => hp ((hptr d).symm.trans (is_iff.mp h)))]
    simp [rebased, hp]

theorem idName_joinPath (q : Path) (s : CString) : idName (joinPath (q ++ [s])) = s := by
  unfold idName
  by_cases hq : q = []
  · subst hq
    simp only [List.nil_append, joinPath, memrchr_bytes]
    exact CString.ofBuffer_bytes s
  · rw [memrchr_joinPath hq, joinPath_append hq (by simp)]
    simp only []
    rw [show joinPath [s] = s.bytes from rfl, show (joinPath q ++ 0 :: s.bytes).drop
      ((joinPath q).length + 1) = s.bytes by simp [List.drop_append]]
    exact CString.ofBuffer_bytes s

/-- Only the last name changes. -/
theorem renamedId_joinPath {q : Path} {s name : CString} {newPrefix : Bytes}
    (h : renamedId (joinPath (q ++ [s])) name = some newPrefix) :
    newPrefix = joinPath (q ++ [name]) := by
  unfold renamedId at h
  by_cases hq : q = []
  · subst hq
    simp only [List.nil_append, joinPath, memrchr_bytes, Option.some.injEq] at h
    exact h.symm
  · rw [memrchr_joinPath hq] at h
    simp only [Option.ite_none_right_eq_some, Option.some.injEq] at h
    obtain ⟨-, rfl⟩ := h
    rw [joinPath_append hq (by simp), joinPath_append hq (by simp)]
    simp [List.take_append, List.take_of_length_le, joinPath]

theorem idName_renamedId {id newPrefix : Bytes} {name : CString}
    (h : renamedId id name = some newPrefix) : idName newPrefix = name := by
  obtain ⟨q, s, hq⟩ : ∃ q s, splitPath id = q ++ [s] :=
    ⟨_, _, (List.dropLast_append_getLast (splitPath_ne_nil id)).symm⟩
  rw [← joinPath_splitPath id, hq] at h
  rw [renamedId_joinPath h, idName_joinPath]

end Sunela.Database
