import Sunela.Verification.Move.Termination
import Sunela.Verification.Names.Paths

/-! # What a rename rewrites

A rename rewrites the identifiers of an entry and of all entries below it, and of no others, but
the name of an entry in a directory is copied past the end of the buffer it is copied to. -/

namespace Sunela.Database

open Program Storage Span Block Fields Entry Tsort

variable {env : Env} {db : Db} {f : Flash} {newPrefix : Bytes} {k : ℕ} {F H : Tree}
  {S : List ℕ} {e : DbEntry}

/-- The identifier ends with the first `k` bytes, or a name below them follows. -/
def Prefixed (k : ℕ) (e : DbEntry) : Prop :=
  ∃ id rest, e.fields = id :: rest ∧ id.type = ftId ∧
    (id.data.length = k ∨ k < id.data.length ∧ id.data[k]? = some 0)

/-- The fields of an entry that has got the new prefix. -/
def patched (newPrefix : Bytes) (k : ℕ) (e : DbEntry) : List DbField :=
  setField e.fields ftId (newPrefix ++ (idData e).drop k)

/-! ## One entry -/

theorem wp_patchOne_ending (hF : Linked F)
    (ha : Alike db.entries (F.map (rebased S newPrefix k))) (hr : InRange env db)
    (he : e ∈ F.entries) (heS : e.ptr ∉ S) (hid : Prefixed k e)
    (hok : e.defer = false → db.erased.blocks ≠ [] ∧ Stores env (patched newPrefix k e)) :
    wp (ending Works) (patchOne env db e.ptr newPrefix k) (fun r _ => r.1 = true ∧
      InRange env r.2 ∧ Alike r.2.entries (F.map (rebased (S ++ [e.ptr]) newPrefix k)) ∧
      r.2.erased.blocks.length + cost e = db.erased.blocks.length) f := by
  obtain ⟨id, rest, hf, htype, hlength⟩ := hid
  have hdata : idData e = id.data := by simp [idData, hf]
  -- the entry has not had its turn yet
  have hlinked := ha.linked hr.linked
  have hmem : e ∈ (F.map (rebased S newPrefix k)).entries := by
    rw [Forest.entries_map]
    exact List.mem_map.mpr ⟨e, he, if_neg heS⟩
  obtain ⟨ch, hfind⟩ := find_of_mem hlinked hmem
  obtain ⟨d, ch', hd, hface⟩ := ha.symm.find hlinked hfind
  have hdefer : d.defer = e.defer := congrArg (fun t => t.2.2.1) hface
  have hfields : d.fields = e.fields := congrArg (fun t => t.2.2.2) hface
  have hpatch : ∀ data, data = newPrefix ++ (idData e).drop k →
      wp (ending Works) (dbChangeField env db e.ptr ftId data) (fun r _ => r.1 = true ∧
        InRange env r.2 ∧ Alike r.2.entries (F.map (rebased (S ++ [e.ptr]) newPrefix k)) ∧
        r.2.erased.blocks.length + cost e = db.erased.blocks.length) f := by
    intro data hdata
    have hnew : (withField ftId data d).fields = patched newPrefix k e := by
      rw [withField, hfields, hdata, patched]
    apply wp_changeEntry_ending hr (g := withField ftId data) (fun _ => rfl) (fun _ => rfl)
      (changes_withField db e.ptr ftId data) hd
    · intro hdf
      obtain ⟨hnil, hst⟩ := hok (hdefer.symm.trans hdf)
      exact ⟨hnil, hnew ▸ hst.fits⟩
    · intro ok db' f' hc hsucceeds
      refine ⟨?_, hc.inRange, ?_, ?_⟩
      · apply hsucceeds (fun _ _ _ h => h)
        intro hdf
        exact hnew ▸ (hok (hdefer.symm.trans hdf)).2
      · rw [← modify_rebased hF he heS, ← hdata]
        exact hc.alike.trans (ha.modify fun _ _ h => face_withField ftId data h)
      · rw [← cost_eq hface]
        exact hc.erased
  unfold patchOne
  simp only [hd, hfields, hf]
  have hlong : ¬ (id.type ≠ ftId ∨ id.data.length < k) := by
    rw [not_or, not_not]
    exact ⟨htype, by omega⟩
  rw [if_neg hlong]
  rcases hlength with hl | ⟨hl, hz⟩
  · rw [if_pos hl]
    apply hpatch
    rw [hdata, List.drop_eq_nil_of_le (Nat.le_of_eq hl), List.append_nil]
  · rw [if_neg (Nat.ne_of_gt hl), if_neg (fun hne => hne hz)]
    apply hpatch
    rw [hdata]

/-! ## A subtree -/

/-- All entries get the new prefix, one after the other, if there is a block for each. -/
theorem wp_patchRecursive_ending (hF : Linked F)
    (ha : Alike db.entries (F.map (rebased S newPrefix k))) (hr : InRange env db)
    (hH : ∀ e ∈ H.entries, e ∈ F.entries) (hS : (S ++ H.entries.map DbEntry.ptr).Nodup)
    (hid : ∀ e ∈ H.entries, Prefixed k e)
    (hst : ∀ e ∈ H.entries, e.defer = false → Stores env (patched newPrefix k e))
    (hb : (H.entries.map cost).sum ≤ db.erased.blocks.length) :
    wp (ending Works) (patchRecursive env newPrefix k H db) (fun r _ => r.1 = true ∧
      InRange env r.2 ∧
      Alike r.2.entries (F.map (rebased (S ++ H.entries.map DbEntry.ptr) newPrefix k)) ∧
      r.2.erased.blocks.length + (H.entries.map cost).sum = db.erased.blocks.length) f := by
  induction H generalizing db f S with
  | nil => exact ⟨rfl, hr, by simpa [Forest.entries] using ha, by simp [Forest.entries]⟩
  | node e ch nx hc hn =>
      have hptrs : S ++ (Forest.node e ch nx).entries.map DbEntry.ptr =
          S ++ [e.ptr] ++ ch.entries.map DbEntry.ptr ++ nx.entries.map DbEntry.ptr := by
        simp [Forest.entries]
      have hcost : ((Forest.node e ch nx).entries.map cost).sum =
          cost e + (ch.entries.map cost).sum + (nx.entries.map cost).sum := by
        simp [Forest.entries, Nat.add_assoc]
      rw [hptrs] at hS ⊢
      rw [hcost] at hb ⊢
      have hSch := (List.nodup_append.mp hS).1
      have heS : e.ptr ∉ S := fun hm =>
        (List.nodup_append.mp (List.nodup_append.mp hSch).1).2.2 _ hm _ (by simp) rfl
      have hself : e ∈ (Forest.node e ch nx).entries := by simp [Forest.entries]
      have hbelow : ∀ x ∈ ch.entries, x ∈ (Forest.node e ch nx).entries :=
        fun x hx => by simp [Forest.entries, hx]
      have hnext : ∀ x ∈ nx.entries, x ∈ (Forest.node e ch nx).entries :=
        fun x hx => by simp [Forest.entries, hx]
      have hone : e.defer = false → db.erased.blocks ≠ [] ∧ Stores env (patched newPrefix k e) := by
        intro hd
        refine ⟨fun hnil => ?_, hst e hself hd⟩
        simp only [cost, hd, Bool.false_eq_true, if_false, hnil, List.length_nil] at hb
        omega
      simp only [patchRecursive, wp_bind]
      apply wp_mono (wp_patchOne_ending hF ha hr (hH e hself) heS (hid e hself) hone)
      intro r₁ f₁ h₁
      obtain ⟨hok₁, hr₁, ha₁, hb₁⟩ := h₁
      simp only [hok₁, Bool.not_true, Bool.false_eq_true, if_false, wp_bind]
      apply wp_mono (hc ha₁ hr₁ (fun x hx => hH x (hbelow x hx)) hSch
        (fun x hx => hid x (hbelow x hx)) (fun x hx => hst x (hbelow x hx)) (by omega))
      intro r₂ f₂ h₂
      obtain ⟨hok₂, hr₂, ha₂, hb₂⟩ := h₂
      simp only [hok₂, Bool.not_true, Bool.false_eq_true, if_false]
      apply wp_mono (hn ha₂ hr₂ (fun x hx => hH x (hnext x hx)) hS
        (fun x hx => hid x (hnext x hx)) (fun x hx => hst x (hnext x hx)) (by omega))
      intro r₃ f₃ h₃
      obtain ⟨hok₃, hr₃, ha₃, hb₃⟩ := h₃
      exact ⟨hok₃, hr₃, ha₃, by omega⟩

/-! ## The renamed tree -/

/-- The entry has the name and the identifier, and is the same otherwise. -/
structure Relabelled (e y : DbEntry) (name : CString) (id : Bytes) : Prop where
  ptr : y.ptr = e.ptr
  name : y.name = name
  id : idData y = id
  defer : y.defer = e.defer
  fields : y.fields.tail = e.fields.tail

/-- The entry has the new path, all entries below it have theirs, and the others are unchanged. -/
structure Renamed (F : Tree) (de : DbEntry) (ch : Tree) (path : Bytes) (name : CString)
    (G : Tree) : Prop where
  ptrs : (G.entries.map DbEntry.ptr).Perm (F.entries.map DbEntry.ptr)
  self : ∃ y ∈ G.entries, Relabelled de y name path
  below : ∀ e ∈ ch.entries, ∃ y ∈ G.entries,
    Relabelled e y e.name (path ++ (idData e).drop (idData de).length)
  others : ∀ e ∈ F.entries, e ≠ de → e ∉ ch.entries → ∃ y ∈ G.entries, face y = face e
  paths : PathsMatch G

section Renaming

variable {c₀ : List DbEntry} {de : DbEntry} {ch G : Tree} {name : CString}

theorem PathsMatch.rebased (h : PathsMatch F) (hs : Subtree F S c₀ de)
    (hshort : ∀ d, c₀ ++ de :: d ∈ F.chains →
      (joinPath (names c₀ ++ name :: names d)).length < 256) :
    PathsMatch (F.map (rebased S (joinPath (names c₀ ++ [name]))
      (joinPath (names (c₀ ++ [de]))).length)) := by
  intro a' e' hmap
  obtain ⟨a, e, hc, rfl, rfl⟩ := chain_of_map hmap
  by_cases he : e.ptr ∈ S
  · obtain ⟨d, hd⟩ := hs.through a e hc he
    have hnames : names ((c₀ ++ de :: d).map (Database.rebased S (joinPath (names c₀ ++ [name]))
        (joinPath (names (c₀ ++ [de]))).length)) = names c₀ ++ name :: names d :=
      hs.names_eq h (hd ▸ hc)
    rw [← hd, List.map_append, List.map_cons, List.map_nil] at hnames
    obtain ⟨id, rest, hf, htype, -⟩ := h a e hc
    rw [hnames, hs.newId h (d := d) (hd ▸ hc) (by rw [← hd]; simp)]
    refine ⟨.ofData ftId (joinPath (names c₀ ++ name :: names d)), rest, ?_, rfl,
      DbField.ofData_data ftId (hshort d (hd ▸ hc))⟩
    simp [withField, hf, setField, htype]
  · have hnone : ∀ x ∈ a ++ [e], Database.rebased S (joinPath (names c₀ ++ [name]))
        (joinPath (names (c₀ ++ [de]))).length x = x :=
      fun x hx => if_neg (hs.outside hc he x hx)
    have hchain : a.map (Database.rebased S (joinPath (names c₀ ++ [name]))
        (joinPath (names (c₀ ++ [de]))).length) = a := by
      rw [List.map_congr_left (g := fun x => x) fun x hx => hnone x (by simp [hx]), List.map_id']
    rw [hchain, hnone e (by simp)]
    exact h a e hc

/-- What a rename makes of an entry of the subtree. -/
theorem relabelled_rebased (h : PathsMatch F) (hs : Subtree F S c₀ de)
    (hshort : ∀ d, c₀ ++ de :: d ∈ F.chains →
      (joinPath (names c₀ ++ name :: names d)).length < 256)
    {d : List DbEntry} (hc : c₀ ++ de :: d ∈ F.chains)
    (hl : (c₀ ++ de :: d).getLast? = some e) :
    Relabelled e (rebased S (joinPath (names c₀ ++ [name])) (joinPath (names (c₀ ++ [de]))).length e)
      (if d = [] then name else e.name) (joinPath (names c₀ ++ name :: names d)) := by
  obtain ⟨a, ha⟩ : ∃ a, c₀ ++ de :: d = a ++ [e] :=
    ⟨_, (List.dropLast_append_getLast? e hl).symm⟩
  obtain ⟨id, rest, hf, htype, -⟩ := h a e (ha ▸ hc)
  rw [hs.newId h hc hl]
  have hfields : (withField ftId (joinPath (names c₀ ++ name :: names d)) e).fields =
      .ofData ftId (joinPath (names c₀ ++ name :: names d)) :: rest := by
    simp [withField, hf, setField, htype]
  refine ⟨rfl, ?_, ?_, rfl, by rw [hfields, hf]; rfl⟩
  · change idName (joinPath (names c₀ ++ name :: names d)) = _
    rcases List.eq_nil_or_concat' d with rfl | ⟨d, x, rfl⟩
    · exact idName_joinPath (names c₀) name
    · have hsplit : names c₀ ++ name :: names (d ++ [x]) =
          (names c₀ ++ name :: names d) ++ [x.name] := by simp
      have hx : (c₀ ++ de :: (d ++ [x])).getLast? = some x := by
        rw [show c₀ ++ de :: (d ++ [x]) = (c₀ ++ de :: d) ++ [x] by simp, List.getLast?_concat]
      obtain rfl := Option.some.inj (hx.symm.trans hl)
      rw [hsplit, idName_joinPath, if_neg (by simp)]
  · rw [idData, hfields]
    exact DbField.ofData_data ftId (hshort d hc)

theorem renamed_of_alike (hF : Linked F) (h : PathsMatch F)
    (hfind : find de.ptr F = some (de, ch)) (hc : c₀ ++ [de] ∈ F.chains)
    (hshort : ∀ d, c₀ ++ de :: d ∈ F.chains →
      (joinPath (names c₀ ++ name :: names d)).length < 256)
    (ha : Alike G (F.map (rebased (de.ptr :: ch.entries.map DbEntry.ptr)
      (joinPath (names c₀ ++ [name])) (idData de).length))) :
    Renamed F de ch (joinPath (names c₀ ++ [name])) name G := by
  obtain ⟨c, hs⟩ := subtree_of_find hF hfind
  obtain rfl : c = c₀ :=
    List.append_inj_left' (hF.chain_eq (e := de) hs.root hc (by simp) (by simp)) rfl
  have hde : idData de = joinPath (names (c ++ [de])) := h.idData hc (by simp)
  rw [hde] at ha
  have hkeep : ∀ {e y z : DbEntry} {s : CString} {id : Bytes}, Relabelled e y s id →
      face z = face y → Relabelled e z s id := by
    intro e y z s id hy hf
    simp only [face, Prod.mk.injEq] at hf
    obtain ⟨h1, h2, h3, h4⟩ := hf
    refine ⟨h1.trans hy.ptr, h2.trans hy.name, ?_, h3.trans hy.defer, by rw [h4]; exact hy.fields⟩
    rw [idData, h4]
    exact hy.id
  have hface : ∀ e ∈ F.entries, ∃ y ∈ G.entries, face y = face (rebased
      (de.ptr :: ch.entries.map DbEntry.ptr) (joinPath (names c ++ [name]))
      (joinPath (names (c ++ [de]))).length e) := by
    intro e he
    have hm := ha.symm.entries.mem_iff.mp (List.mem_map_of_mem (f := face)
      (by rw [Forest.entries_map]; exact List.mem_map_of_mem he))
    obtain ⟨y, hy, hf⟩ := List.mem_map.mp hm
    exact ⟨y, hy, hf⟩
  have hsub := (Forest.node_sublist (List.mem_of_find?_eq_some hfind)).subset
  refine ⟨?_, ?_, fun e he => ?_, fun e he hne hnot => ?_, (h.rebased hs hshort).alike ha.symm⟩
  · have hp := ha.ptrs
    rw [Forest.entries_map, List.map_map] at hp
    exact hp.trans (.of_eq (List.map_congr_left fun e _ => rebased_ptr _ _ _ e))
  · obtain ⟨y, hy, hf⟩ := hface de (hsub (by simp))
    exact ⟨y, hy, hkeep (relabelled_rebased h hs hshort (d := []) hc (by simp)) hf⟩
  · have heF : e ∈ F.entries := hsub (by simp [he])
    obtain ⟨y, hy, hf⟩ := hface e heF
    obtain ⟨a, hae, hlast⟩ := Forest.mem_entries_iff.mp heF
    obtain ⟨b, rfl⟩ : ∃ b, a = b ++ [e] := ⟨_, (List.dropLast_append_getLast? e hlast).symm⟩
    obtain ⟨d, hd⟩ := hs.through b e hae (List.mem_cons_of_mem _ (List.mem_map_of_mem he))
    have hlast' : (c ++ de :: d).getLast? = some e := by rw [← hd]; simp
    have hrel := relabelled_rebased h hs hshort (hd ▸ hae) hlast'
    have hne : d ≠ [] := by
      rintro rfl
      have heq : e = de := by simpa using hlast'.symm
      have hnode := Forest.node_sublist (List.mem_of_find?_eq_some hfind)
      have hnodup := hF.nodup.sublist hnode
      exact (List.nodup_cons.mp hnodup).1 (heq ▸ he)
    rw [if_neg hne, ← h.newData (hd ▸ hae) hlast'] at hrel
    rw [hde]
    exact ⟨y, hy, hkeep hrel hf⟩
  · obtain ⟨y, hy, hf⟩ := hface e he
    have hout : e.ptr ∉ de.ptr :: ch.entries.map DbEntry.ptr := by
      intro hm
      rcases List.mem_cons.mp hm with hp | hm
      · exact hne (hF.eq_of_ptr he (hsub (by simp)) hp)
      · obtain ⟨x, hx, hp⟩ := List.mem_map.mp hm
        exact hnot (hF.eq_of_ptr (hsub (by simp [hx])) he hp ▸ hx)
    rw [rebased, if_neg hout] at hf
    exact ⟨y, hy, hf⟩

/-! ## `db_rename` -/

/-- The identifiers below the renamed entry go on where its own ends. -/
theorem PathsMatch.prefixed (h : PathsMatch F) {d : List DbEntry}
    (hc : c₀ ++ de :: d ∈ F.chains) (hl : (c₀ ++ de :: d).getLast? = some e) :
    Prefixed (joinPath (names (c₀ ++ [de]))).length e := by
  obtain ⟨a, ha⟩ : ∃ a, c₀ ++ de :: d = a ++ [e] :=
    ⟨_, (List.dropLast_append_getLast? e hl).symm⟩
  obtain ⟨id, rest, hf, htype, hdata⟩ := h a e (ha ▸ hc)
  rw [← ha] at hdata
  refine ⟨id, rest, hf, htype, ?_⟩
  by_cases hd : d = []
  · subst hd
    exact .inl (by rw [hdata])
  · right
    have hnames : names (c₀ ++ de :: d) = names (c₀ ++ [de]) ++ names d := by simp
    rw [hdata, hnames, joinPath_append (by simp) (by simpa using hd)]
    constructor
    · simp
    · rw [List.getElem?_append_right (Nat.le_refl _), Nat.sub_self]
      rfl

theorem renamedId_of_names {q : Path} {s : CString}
    (h : q = [] ∨ joinPath q ≠ [] ∧ s.bytes ≠ []) :
    renamedId (joinPath (q ++ [s])) name = some (joinPath (q ++ [name])) := by
  obtain ⟨new, hnew⟩ : ∃ new, renamedId (joinPath (q ++ [s])) name = some new := by
    unfold renamedId
    by_cases hq : q = []
    · subst hq
      exact ⟨_, by rw [List.nil_append, joinPath, memrchr_bytes]⟩
    · obtain ⟨hpath, hs⟩ := h.resolve_left hq
      have h1 := List.length_pos_of_ne_nil hpath
      have h2 := List.length_pos_of_ne_nil hs
      rw [memrchr_joinPath hq]
      simp only []
      refine ⟨_, if_pos ⟨by omega, ?_⟩⟩
      rw [joinPath_append hq (by simp), List.length_append, List.length_cons, joinPath]
      omega
  rw [hnew, renamedId_joinPath hnew]

/-- If the bytes past the end of the buffer do no harm, then a rename rewrites the subtree: at the
top level, and below it as long as the names are not empty. -/
theorem wp_dbRename_renamed (hr : InRange env db) (h : PathsMatch db.entries)
    (hfind : find de.ptr db.entries = some (de, ch)) (hc : c₀ ++ [de] ∈ db.entries.chains)
    (hnames : c₀ = [] ∨ joinPath (names c₀) ≠ [] ∧ de.name.bytes ≠ [])
    (hshort : ∀ d, c₀ ++ de :: d ∈ db.entries.chains →
      (joinPath (names c₀ ++ name :: names d)).length < 256)
    (hst : ∀ e ∈ de :: ch.entries, e.defer = false →
      Stores env (patched (joinPath (names c₀ ++ [name])) (idData de).length e))
    (hb : ((de :: ch.entries).map cost).sum ≤ db.erased.blocks.length) :
    wp (ending Works) (dbRename env db de.ptr name) (fun r _ => r.1 = true ∧
      Renamed db.entries de ch (joinPath (names c₀ ++ [name])) name r.2.entries) f := by
  have hl := hr.linked
  obtain ⟨id, rest, hf, htype, hdata⟩ := h c₀ de hc
  have hde : idData de = id.data := by simp [idData, hf]
  have hnode := Forest.node_sublist (List.mem_of_find?_eq_some hfind)
  have hone : (Forest.node de ch .nil).entries = de :: ch.entries := by simp [Forest.entries]
  have hnone : rebased [] (joinPath (names c₀ ++ [name])) (idData de).length = fun e => e := by
    funext e
    simp [rebased]
  have hnew : renamedId id.data name = some (joinPath (names c₀ ++ [name])) := by
    have hsplit : names (c₀ ++ [de]) = names c₀ ++ [de.name] := by simp
    rw [hdata, hsplit]
    exact renamedId_of_names (hnames.imp (fun hnil => by rw [hnil]; rfl) fun hn => hn)
  unfold dbRename
  simp only [hfind, hf, hnew]
  rw [if_neg (fun hne => hne htype), ← hde]
  refine wp_mono (wp_patchRecursive_ending (F := db.entries) (S := []) hl ?_ hr ?_ ?_ ?_ ?_ ?_) ?_
  · rw [hnone, Forest.map_id]
    exact .refl _
  · rw [hone]
    exact fun e he => hnode.subset he
  · rw [hone, List.nil_append]
    exact List.Nodup.sublist (hnode.map DbEntry.ptr) hl
  · rw [hone]
    intro e he
    obtain ⟨c, hs⟩ := subtree_of_find hl hfind
    obtain rfl : c = c₀ :=
      List.append_inj_left' (hl.chain_eq (e := de) hs.root hc (by simp) (by simp)) rfl
    obtain ⟨a, hae, hlast⟩ := Forest.mem_entries_iff.mp (hnode.subset he)
    obtain ⟨b, rfl⟩ : ∃ b, a = b ++ [e] := ⟨_, (List.dropLast_append_getLast? e hlast).symm⟩
    obtain ⟨d, hd⟩ := hs.through b e hae (List.mem_map_of_mem (f := DbEntry.ptr) he)
    rw [h.idData hc (by simp)]
    exact h.prefixed (hd ▸ hae) (by rw [← hd]; simp)
  · rwa [hone]
  · rwa [hone]
  · intro r g hr'
    obtain ⟨hok, -, ha, -⟩ := hr'
    rw [hone, List.nil_append] at ha
    exact ⟨hok, renamed_of_alike hl h hfind hc hshort ha⟩

/-- A name in a directory is copied past the end of the buffer. -/
theorem not_wp_dbRenameStrict (h : PathsMatch db.entries)
    (hfind : find de.ptr db.entries = some (de, ch)) (hc : c₀ ++ [de] ∈ db.entries.chains)
    (hne : c₀ ≠ []) {Q : Bool × Db → Flash → Prop} :
    ¬ wp (ending Works) (dbRenameStrict env db de.ptr name) Q f := by
  obtain ⟨id, rest, hf, htype, hdata⟩ := h c₀ de hc
  have hover : renameOverrun id.data name ≠ 0 := by
    have hsplit : names (c₀ ++ [de]) = names c₀ ++ [de.name] := by simp
    rw [hdata, hsplit, renameOverrun, memrchr_joinPath (by simpa using hne)]
    simp only []
    omega
  intro hw
  unfold dbRenameStrict at hw
  simp only [hfind, hf] at hw
  cases hnew : renamedId id.data name with
  | some new =>
      rw [if_pos ⟨htype, by rw [hnew]; rfl, hover⟩] at hw
      exact hw
  | none =>
      rw [if_neg (by simp [hnew])] at hw
      unfold dbRename at hw
      simp only [hfind, hf, hnew, htype, ne_eq, not_true_eq_false, if_false] at hw
      exact hw

/-- A rename gives the entry its new path, and rewrites the identifiers of the entries below it
and of no others, if the entry is at the top level, and only then. -/
theorem dbRenameStrict_rewrites (hr : InRange env db) (h : PathsMatch db.entries)
    (hfind : find de.ptr db.entries = some (de, ch)) (hc : c₀ ++ [de] ∈ db.entries.chains)
    (hshort : ∀ d, c₀ ++ de :: d ∈ db.entries.chains →
      (joinPath (names c₀ ++ name :: names d)).length < 256)
    (hst : ∀ e ∈ de :: ch.entries, e.defer = false →
      Stores env (patched (joinPath (names c₀ ++ [name])) (idData de).length e))
    (hb : ((de :: ch.entries).map cost).sum ≤ db.erased.blocks.length) :
    wp (ending Works) (dbRenameStrict env db de.ptr name) (fun r _ => r.1 = true ∧
      Renamed db.entries de ch (joinPath (names c₀ ++ [name])) name r.2.entries) f ↔
      de ∈ db.entries.tops := by
  have htop : de ∈ db.entries.tops ↔ c₀ = [] := by
    constructor
    · intro ht
      have heq := hr.linked.chain_eq (e := de) hc (Forest.mem_chains_of_tops ht) (by simp)
        (by simp)
      simpa using heq
    · rintro rfl
      exact Forest.singleton_mem_chains hc
  rw [htop]
  constructor
  · intro hw
    by_contra hne
    exact not_wp_dbRenameStrict h hfind hc hne hw
  · rintro rfl
    obtain ⟨id, rest, hf, htype, hdata⟩ := h [] de hc
    have hover : renameOverrun id.data name = 0 := by
      rw [hdata, renameOverrun]
      simp [names, joinPath, memrchr_bytes]
    unfold dbRenameStrict
    simp only [hfind, hf]
    rw [if_neg (by simp [hover])]
    exact wp_dbRename_renamed hr h hfind hc (.inl rfl) hshort hst hb

end Renaming

/-! ## A directory -/

theorem pathsMatch_of_last (h : ∀ c ∈ F.chains, ∀ e ∈ c.getLast?,
    (e.fields.head?.map fun id => (id.type, id.data)) = some (ftId, joinPath (names c))) :
    PathsMatch F := by
  intro a e hc
  have hid := h _ hc e (by simp)
  cases hf : e.fields with
  | nil => simp [hf] at hid
  | cons id rest =>
      simp only [hf, List.head?_cons, Option.map_some, Option.some.injEq, Prod.mk.injEq] at hid
      exact ⟨id, rest, rfl, hid⟩

/-- The directory `d` with the account `a`. -/
def directoryDb : Db :=
  { listedDb (.node ⟨16, 4, spanLen_pos⟩ .null) .null with
    entries := .node (account 100 none)
      (.node { account 97 none with fields := [.ofData ftId [100, 0, 97]] } .nil .nil) .nil }

theorem directoryDb_inRange : InRange (plainEnv 256) directoryDb where
  linked := by
    unfold Linked
    decide
  intact := ⟨trivial, trivial⟩
  erased := by decide
  entries := fun e he => .inr ((by decide : ∀ e ∈ directoryDb.entries.entries,
    e.block ∈ dbBlocks (plainEnv 256)) e he)

/-- Renaming `d` to `e`. -/
theorem dbRenameStrict_rewrites_directory :
    wp (ending Works) (dbRenameStrict (plainEnv 256) directoryDb 100 (.ofBuffer [101]))
      (fun r _ => r.1 = true ∧ Renamed directoryDb.entries (account 100 none)
        (.node { account 97 none with fields := [.ofData ftId [100, 0, 97]] } .nil .nil)
        (joinPath [.ofBuffer [101]]) (.ofBuffer [101]) r.2.entries) (plainFlash []) := by
  have hshort : ∀ c ∈ directoryDb.entries.chains,
      (joinPath (.ofBuffer [101] :: names c.tail)).length < 256 := by decide
  have hc : ([] : List DbEntry) ++ [account 100 none] ∈ directoryDb.entries.chains := by decide
  refine (dbRenameStrict_rewrites directoryDb_inRange (pathsMatch_of_last (by decide)) rfl hc
    (fun d hd => hshort _ hd) ?_ (by decide)).mpr (by decide)
  intro e he _
  rcases List.mem_cons.mp he with rfl | he
  · exact ⟨_, rfl, by decide⟩
  · obtain rfl := List.mem_singleton.mp he
    exact ⟨_, rfl, by decide⟩

/-- Renaming `a` in `d`. -/
theorem dbRenameStrict_rewrites_nested : ∃ env db de ch c₀, ∃ name : CString, ∃ f,
    InRange env db ∧ PathsMatch db.entries ∧ find de.ptr db.entries = some (de, ch) ∧
    c₀ ++ [de] ∈ db.entries.chains ∧
    (∀ d, c₀ ++ de :: d ∈ db.entries.chains →
      (joinPath (names c₀ ++ name :: names d)).length < 256) ∧
    (∀ e ∈ de :: ch.entries, e.defer = false →
      Stores env (patched (joinPath (names c₀ ++ [name])) (idData de).length e)) ∧
    ((de :: ch.entries).map cost).sum ≤ db.erased.blocks.length ∧
    ¬ wp (ending Works) (dbRenameStrict env db de.ptr name) (fun r _ => r.1 = true ∧
      Renamed db.entries de ch (joinPath (names c₀ ++ [name])) name r.2.entries) f := by
  have hpaths : PathsMatch directoryDb.entries := pathsMatch_of_last (by decide)
  have hshort : ∀ c ∈ directoryDb.entries.chains,
      (joinPath (names (c.take 1) ++ .ofBuffer [98] :: names (c.drop 2))).length < 256 := by decide
  have hc : [account 100 none] ++ [{ account 97 none with
      fields := [DbField.ofData ftId [100, 0, 97]] }] ∈ directoryDb.entries.chains := by decide
  refine ⟨plainEnv 256, directoryDb,
    { account 97 none with fields := [.ofData ftId [100, 0, 97]] }, .nil, [account 100 none],
    .ofBuffer [98], plainFlash [], directoryDb_inRange, hpaths, rfl, hc,
    fun d hd => hshort _ hd, ?_, by decide, not_wp_dbRenameStrict hpaths rfl hc (by simp)⟩
  intro e he _
  obtain rfl := List.mem_singleton.mp he
  exact ⟨_, rfl, by decide⟩

end Sunela.Database
