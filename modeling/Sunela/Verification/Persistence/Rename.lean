import Sunela.Verification.Names.Calls
import Sunela.Verification.Persistence.Named

/-! # Renaming

A rename gives a new identifier to an entry and to all entries below it, one after the other. -/

namespace Sunela.Database

open Program Storage Block Fields Entry

/-- A new identifier brings a new path. -/
theorem storable_setId {fs : List DbField} {path : Path} (h : Storable fs path) (data : Bytes) :
    Storable (setField fs ftId data) (splitPath (DbField.ofData ftId data).data) := by
  obtain ⟨id, rest, rfl, hid, -⟩ := h.id
  exact ⟨setField_sorted h.sorted ftId data, _, rest, by simp [setField, hid], rfl, rfl⟩

variable {env : Env} {db : Db} {f : Flash} {newPrefix : Bytes} {k : ℕ}

theorem wp_dbChangeField_filed (h : Filing env db f) {p : ℕ} {type : UInt8} {data : Bytes}
    (ht : type ≠ ftEnd) :
    wp (anyContract fun _ _ _ => False) (dbChangeField env db p type data)
      (Succeeds env (modify p (withField type data) db.entries)) f := by
  refine wp_changeEntry_filed (g := withField type data) h (fun _ => rfl) (fun _ => rfl)
    (fun _ => rfl) (fun e q hq => ?_) fun db => changeField_eq db p type data
  by_cases hid : type = ftId
  · subst hid
    exact ⟨_, storable_setId hq data⟩
  · exact ⟨q, hq.setField ⟨ht, hid⟩ data⟩

theorem wp_patchOne_filed (h : Filing env db f) {p : ℕ} :
    wp (anyContract fun _ _ _ => False) (patchOne env db p newPrefix k) (fun r g =>
      r.1 = true → Filing env r.2 g) f := by
  have hpatch : ∀ data, wp (anyContract fun _ _ _ => False) (dbChangeField env db p ftId data)
      (fun r g => r.1 = true → Filing env r.2 g) f := fun data =>
    wp_mono (wp_dbChangeField_filed h (by decide)) fun r g hr hok => (hr hok).1
  unfold patchOne
  repeat' split
  all_goals first
    | trivial
    | exact hpatch _

theorem wp_patchRecursive_filed {H : Tree} (h : Filing env db f) :
    wp (anyContract fun _ _ _ => False) (patchRecursive env newPrefix k H db) (fun r g =>
      r.1 = true → Filing env r.2 g) f := by
  induction H generalizing db f with
  | nil => exact fun _ => h
  | node e ch nx hc hn =>
      have hnext : ∀ {p : Fw (Bool × Db)} {ok : Bool} {db : Db} {f : Flash},
          (ok = true → Filing env db f) →
          (Filing env db f → wp (anyContract fun _ _ _ => False) p
            (fun r g => r.1 = true → Filing env r.2 g) f) →
          wp (anyContract fun _ _ _ => False) (if !ok then return (false, db) else p)
            (fun r g => r.1 = true → Filing env r.2 g) f := by
        intro p ok db f hok hp
        cases ok with
        | false => exact fun hf => absurd hf Bool.false_ne_true
        | true => exact hp (hok rfl)
      simp only [patchRecursive, wp_bind]
      refine wp_mono (wp_patchOne_filed h) fun r₁ f₁ h₁ => hnext h₁ fun h₁ => ?_
      rw [wp_bind]
      exact wp_mono (hc h₁) fun r₂ f₂ h₂ => hnext h₂ hn

/-- A rename that succeeds gives new identifiers to the entry and all entries below it. -/
theorem wp_dbRename_filed (h : Filing env db f) {p : ℕ} {name : CString} :
    wp (anyContract fun _ _ _ => False) (dbRename env db p name) (fun r g =>
      r.1 = true → Filing env r.2 g ∧ ∃ de ch id rest newPrefix,
        find p db.entries = some (de, ch) ∧ de.fields = id :: rest ∧
        renamedId id.data name = some newPrefix ∧
        Alike r.2.entries (db.entries.map (rebased (de.ptr :: ch.entries.map DbEntry.ptr)
          newPrefix id.data.length))) f := by
  have hfiled : wp (anyContract fun _ _ _ => False) (dbRename env db p name) (fun r g =>
      r.1 = true → Filing env r.2 g) f := by
    unfold dbRename
    repeat' split
    all_goals first
      | trivial
      | exact wp_patchRecursive_filed h
  refine wp_mono (wp_and hfiled (wp_dbRename_alike h.linked.1)) ?_
  rintro r g ⟨hf, de, ch, id, rest, newPrefix, T, hfind, hfields, hid, -, hall, hleads⟩ hok
  rw [hall hok] at hleads
  exact ⟨hf hok, de, ch, id, rest, newPrefix, hfind, hfields, hid, hleads.alike⟩

/-! ## The names after a rename -/

theorem PathsMatch.idData {F : Tree} (h : PathsMatch F) {c : List DbEntry} {e : DbEntry}
    (hc : c ∈ F.chains) (hl : c.getLast? = some e) : Database.idData e = joinPath (names c) := by
  obtain ⟨a, rfl⟩ : ∃ a, c = a ++ [e] := ⟨c.dropLast, (List.dropLast_append_getLast? e hl).symm⟩
  obtain ⟨id, rest, hf, -, hpath⟩ := h a e hc
  rw [← hpath, Database.idData, hf]
  rfl

theorem Matching.idData {F : Tree} (h : Matching F) {c : List DbEntry} {e : DbEntry}
    (hc : c ∈ F.chains) (hl : c.getLast? = some e) : Database.idData e = joinPath (names c) :=
  h.pathsMatch.idData hc hl

theorem Named.idData {F : Tree} (h : Named F) {c : List DbEntry} {e : DbEntry}
    (hc : c ∈ F.chains) (hl : c.getLast? = some e) : Database.idData e = joinPath (names c) :=
  (named_iff.mp h).1.idData hc hl

/-- The entries with a pointer in `S` are those in the subtree of an entry. -/
structure Subtree (F : Tree) (S : List ℕ) (c₀ : List DbEntry) (de : DbEntry) : Prop where
  root : c₀ ++ [de] ∈ F.chains
  below : ∀ d, c₀ ++ de :: d ∈ F.chains → ∀ e ∈ de :: d, e.ptr ∈ S
  through : ∀ a e, a ++ [e] ∈ F.chains → e.ptr ∈ S → ∃ d, a ++ [e] = c₀ ++ de :: d

theorem subtree_of_find {F : Tree} (hl : Linked F) {p : ℕ} {de : DbEntry} {ch : Tree}
    (hfind : find p F = some (de, ch)) :
    ∃ c₀, Subtree F (de.ptr :: ch.entries.map DbEntry.ptr) c₀ de := by
  have hnode : (de, ch) ∈ F.nodes := List.mem_of_find?_eq_some hfind
  obtain ⟨c₀, hc₀, hch⟩ := Forest.node_chains hnode
  have hmem : ∀ {c : List DbEntry} {x : DbEntry}, c ++ [x] ∈ F.chains → x ∈ F.entries :=
    fun hx => (Forest.chain_sublist hx).subset (by simp)
  refine ⟨c₀, hc₀, fun d hd e he => ?_, fun a e hc he => ?_⟩
  · rcases List.mem_cons.mp he with rfl | he
    · simp
    · rcases Forest.chain_below hl.nodup hnode hd with rfl | hd
      · simp at he
      · exact List.mem_cons_of_mem _
          (List.mem_map_of_mem ((Forest.chain_sublist hd).subset he))
  · rcases List.mem_cons.mp he with hp | he
    · obtain rfl := hl.eq_of_ptr (hmem hc) (hmem hc₀) hp
      exact ⟨[], hl.chain_eq (e := e) hc hc₀ (by simp) (by simp)⟩
    · obtain ⟨x, hx, hxp⟩ := List.mem_map.mp he
      obtain ⟨d, hd, hdx⟩ := Forest.mem_entries_iff.mp hx
      have hlast : (c₀ ++ de :: d).getLast? = some x := by
        rw [List.getLast?_append_of_ne_nil _ (by simp), List.getLast?_cons, hdx]
        rfl
      have hxF : x ∈ F.entries := (Forest.chain_sublist (hch d hd)).subset
        (List.mem_of_getLast? hlast)
      obtain rfl := hl.eq_of_ptr hxF (hmem hc) hxp
      exact ⟨d, hl.chain_eq hc (hch d hd) (by simp) hlast⟩

section Renaming

variable {F : Tree} {S : List ℕ} {c₀ : List DbEntry} {de : DbEntry} {name : CString}

theorem Subtree.above (hs : Subtree F S c₀ de) : ∀ e ∈ c₀, e.ptr ∉ S := by
  intro e he hm
  obtain ⟨x, y, rfl⟩ := List.append_of_mem he
  have hx : x ++ [e] ∈ F.chains :=
    Forest.chains_of_append (d := y ++ [de]) (by simpa using hs.root) (by simp)
  obtain ⟨d, hd⟩ := hs.through x e hx hm
  have hlen := congrArg List.length hd
  simp only [List.length_append, List.length_cons, List.length_nil] at hlen
  omega

/-- The identifier at the end of a chain through the renamed entry, with the new prefix. -/
theorem PathsMatch.newData (h : PathsMatch F) {d : List DbEntry} {e : DbEntry}
    (hc : c₀ ++ de :: d ∈ F.chains) (hl : (c₀ ++ de :: d).getLast? = some e) :
    joinPath (names c₀ ++ [name]) ++ (Database.idData e).drop
      (joinPath (names (c₀ ++ [de]))).length = joinPath (names c₀ ++ name :: names d) := by
  rw [h.idData hc hl]
  by_cases hd : d = []
  · subst hd
    rw [List.drop_length, List.append_nil]
    rfl
  · have h1 : names (c₀ ++ de :: d) = names (c₀ ++ [de]) ++ names d := by simp
    have h2 : names c₀ ++ name :: names d = (names c₀ ++ [name]) ++ names d := by simp
    have hd' : names d ≠ [] := by simpa using hd
    rw [h1, h2, joinPath_append (by simp) hd', joinPath_append (by simp) hd', List.drop_left]

/-- What replaces the identifier at the end of a chain through the renamed entry. -/
theorem Subtree.newId (hs : Subtree F S c₀ de) (h : PathsMatch F) {d : List DbEntry} {e : DbEntry}
    (hc : c₀ ++ de :: d ∈ F.chains) (hl : (c₀ ++ de :: d).getLast? = some e) :
    rebased S (joinPath (names c₀ ++ [name])) (joinPath (names (c₀ ++ [de]))).length e =
      withField ftId (joinPath (names c₀ ++ name :: names d)) e := by
  have he : e ∈ de :: d := by
    rw [List.getLast?_append_of_ne_nil _ (by simp)] at hl
    exact List.mem_of_getLast? hl
  unfold rebased
  rw [if_pos (hs.below d hc e he), h.newData hc hl]

/-- The names in such a chain: only that of the renamed entry has changed. -/
theorem Subtree.names_eq (hs : Subtree F S c₀ de) (h : PathsMatch F) {d : List DbEntry}
    (hc : c₀ ++ de :: d ∈ F.chains) :
    names ((c₀ ++ de :: d).map (rebased S (joinPath (names c₀ ++ [name]))
      (joinPath (names (c₀ ++ [de]))).length)) = names c₀ ++ name :: names d := by
  generalize hk : rebased S (joinPath (names c₀ ++ [name]))
    (joinPath (names (c₀ ++ [de]))).length = k
  have h₀ : ∀ e ∈ c₀, (k e).name = e.name := fun e he => by
    rw [← hk, rebased, if_neg (hs.above e he)]
  have h₁ : (k de).name = name := by
    rw [← hk, hs.newId h hs.root (by simp)]
    exact idName_joinPath (names c₀) name
  have h₂ : ∀ e ∈ d, (k e).name = e.name := by
    intro e he
    obtain ⟨x, y, rfl⟩ := List.append_of_mem he
    have hx : c₀ ++ de :: (x ++ [e]) ∈ F.chains :=
      Forest.chains_of_append (d := y) (by simpa using hc) (by simp)
    have hsplit : names c₀ ++ name :: names (x ++ [e]) =
        (names c₀ ++ name :: names x) ++ [e.name] := by simp
    have hlast : (c₀ ++ de :: (x ++ [e])).getLast? = some e := by
      rw [show c₀ ++ de :: (x ++ [e]) = (c₀ ++ de :: x) ++ [e] by simp, List.getLast?_concat]
    rw [← hk, hs.newId h hx hlast, hsplit]
    exact idName_joinPath _ e.name
  simp only [names, List.map_append, List.map_cons, List.map_map, h₁]
  rw [List.map_congr_left (f := DbEntry.name ∘ k) (l := c₀) h₀,
    List.map_congr_left (f := DbEntry.name ∘ k) (l := d) h₂]

/-- Nothing in the chain to an entry outside of the subtree is in it. -/
theorem Subtree.outside (hs : Subtree F S c₀ de) {a : List DbEntry} {e : DbEntry}
    (hc : a ++ [e] ∈ F.chains) (he : e.ptr ∉ S) : ∀ x ∈ a ++ [e], x.ptr ∉ S := by
  intro x hx hm
  obtain ⟨u, v, huv⟩ := List.append_of_mem hx
  have hpre : u ++ [x] ∈ F.chains :=
    Forest.chains_of_append (d := v) (by rw [List.append_assoc]; exact huv ▸ hc) (by simp)
  obtain ⟨d, hd⟩ := hs.through u x hpre hm
  have hchain : a ++ [e] = c₀ ++ de :: (d ++ v) := by
    rw [huv, show u ++ x :: v = (u ++ [x]) ++ v by simp, hd]
    simp
  apply he
  apply hs.below (d ++ v) (hchain ▸ hc) e
  have hlast : (c₀ ++ de :: (d ++ v)).getLast? = some e := by
    rw [← hchain]
    simp
  rw [List.getLast?_append_of_ne_nil _ (by simp)] at hlast
  exact List.mem_of_getLast? hlast

/-- Renaming keeps identifiers and places in line. -/
theorem Matching.rebased (h : Matching F) (hs : Subtree F S c₀ de)
    (hshort : ∀ d, c₀ ++ de :: d ∈ F.chains →
      (joinPath (names c₀ ++ name :: names d)).length < 256) :
    Matching (F.map (rebased S (joinPath (names c₀ ++ [name]))
      (joinPath (names (c₀ ++ [de]))).length)) := by
  refine matching_map fun a e hc => ?_
  by_cases he : e.ptr ∈ S
  · obtain ⟨d, hd⟩ := hs.through a e hc he
    have hst := h a e hc
    rw [hd] at hc hst ⊢
    rw [hs.names_eq h.pathsMatch hc, hs.newId h.pathsMatch hc (by rw [← hd]; simp)]
    have hnew := storable_setId hst (joinPath (names c₀ ++ name :: names d))
    rw [DbField.ofData_data ftId (hshort d hc), splitPath_joinPath (by simp)] at hnew
    exact hnew
  · have hnone : ∀ x ∈ a ++ [e], Database.rebased S (joinPath (names c₀ ++ [name]))
        (joinPath (names (c₀ ++ [de]))).length x = x :=
      fun x hx => if_neg (hs.outside hc he x hx)
    rw [List.map_congr_left (g := fun x => x) hnone, hnone e (by simp), List.map_id']
    exact h a e hc

theorem Marked.rebased (h : Marked F) (S : List ℕ) (newPrefix : Bytes) (k : ℕ) :
    Marked (F.map (rebased S newPrefix k)) := by
  refine h.map fun a e d _ _ hd => ?_
  unfold Database.rebased
  split
  · exact hd.setField ftId _
  · exact hd

theorem Named.rebased (h : Named F) (hs : Subtree F S c₀ de)
    (hshort : Short (F.map (rebased S (joinPath (names c₀ ++ [name]))
      (joinPath (names (c₀ ++ [de]))).length))) :
    Named (F.map (rebased S (joinPath (names c₀ ++ [name]))
      (joinPath (names (c₀ ++ [de]))).length)) := by
  obtain ⟨hm, hd⟩ := named_iff.mp h
  refine named_iff.mpr ⟨hm.rebased hs fun d hc => ?_, hd.rebased S _ _⟩
  have hlong := hshort _ (by
    rw [Forest.chains_map]
    exact List.mem_map_of_mem hc)
  rwa [hs.names_eq hm.pathsMatch hc] at hlong

end Renaming

end Sunela.Database
