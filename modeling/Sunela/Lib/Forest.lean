import Mathlib.Data.List.Nodup
import Mathlib.Data.List.Perm.Basic

/-! # Forests

Trees as linked lists hold them: each node has a first child and a next sibling. A node is
reached by the chain of its ancestors, and named by the path of their names. -/

namespace Sunela

inductive Forest (α : Type) where
  | nil
  | node (e : α) (children next : Forest α)
  deriving DecidableEq

namespace Forest

variable {α β κ : Type}

/-- The nodes with their children, each before those below it. -/
def nodes : Forest α → List (α × Forest α)
  | nil => []
  | node e ch nx => (e, ch) :: (nodes ch ++ nodes nx)

def entries : Forest α → List α
  | nil => []
  | node e ch nx => e :: (entries ch ++ entries nx)

/-- Every entry with its ancestors, from the root down. -/
def chains : Forest α → List (List α)
  | nil => []
  | node e ch nx => [e] :: ((chains ch).map (e :: ·) ++ chains nx)

def tops : Forest α → List α
  | nil => []
  | node e _ nx => e :: tops nx

def siblings : Forest α → List (α × Forest α)
  | nil => []
  | node e ch nx => (e, ch) :: siblings nx

def ofSiblings : List (α × Forest α) → Forest α
  | [] => nil
  | (e, ch) :: rest => node e ch (ofSiblings rest)

def map (g : α → β) : Forest α → Forest β
  | nil => nil
  | node e ch nx => node (g e) (map g ch) (map g nx)

/-- Leave out the nodes that satisfy `p`, with all that is below them. -/
def remove (p : α → Bool) : Forest α → Forest α
  | nil => nil
  | node e ch nx => if p e then remove p nx else node e (remove p ch) (remove p nx)

/-- A new entry in front of the first one that satisfies `after`. -/
def insertBefore (after : α → Bool) (new : α) : Forest α → Forest α
  | nil => node new nil nil
  | node e ch nx =>
      if after e then node new nil (node e ch nx) else node e ch (insertBefore after new nx)

/-- Change the children of the nodes that satisfy `p`. -/
def onChildren (p : α → Bool) (change : Forest α → Forest α) : Forest α → Forest α
  | nil => nil
  | node e ch nx =>
      let ch' := onChildren p change ch
      node e (if p e then change ch' else ch') (onChildren p change nx)

@[simp] theorem siblings_ofSiblings (l : List (α × Forest α)) : siblings (ofSiblings l) = l := by
  induction l with
  | nil => rfl
  | cons r l ih => simp [ofSiblings, siblings, ih]

@[simp] theorem ofSiblings_siblings (F : Forest α) : ofSiblings F.siblings = F := by
  induction F with
  | nil => rfl
  | node e ch nx _ ih => simp [siblings, ofSiblings, ih]

example : siblings (node 1 (node 2 nil nil) (node 3 nil nil)) =
    [(1, node 2 nil nil), (3, nil)] := by
  decide +kernel

theorem siblings_eq_nil {F : Forest α} : F.siblings = [] ↔ F = nil := by
  cases F with
  | nil => exact iff_of_true rfl rfl
  | node e ch nx => exact iff_of_false nofun nofun

theorem tops_eq (F : Forest α) : F.tops = F.siblings.map Prod.fst := by
  induction F with
  | nil => rfl
  | node e ch nx _ ih => simp [tops, siblings, ih]

theorem entries_eq_nodes (F : Forest α) : F.entries = F.nodes.map Prod.fst := by
  induction F with
  | nil => rfl
  | node e ch nx hc hn => simp [entries, nodes, hc, hn]

/-! ## Chains -/

theorem chains_ne_nil {F : Forest α} {c : List α} (h : c ∈ F.chains) : c ≠ [] := by
  induction F generalizing c with
  | nil => simp [chains] at h
  | node e ch nx _ ih =>
      simp only [chains, List.mem_cons, List.mem_append, List.mem_map] at h
      rcases h with rfl | ⟨c, _, rfl⟩ | h
      · simp
      · simp
      · exact ih h

/-- Each chain ends in an entry, and each entry ends one chain. -/
theorem chains_getLast (F : Forest α) : F.chains.map List.getLast? = F.entries.map some := by
  induction F with
  | nil => rfl
  | node e ch nx hc hn =>
      have hlast : ∀ c ∈ ch.chains, (List.getLast? ∘ (e :: ·)) c = c.getLast? := by
        intro c hm
        cases c with
        | nil => exact absurd rfl (chains_ne_nil hm)
        | cons x c => simp [List.getLast?_cons]
      simp only [chains, entries, List.map_cons, List.map_append, List.map_map]
      rw [List.map_congr_left hlast, hc, hn]
      simp

theorem mem_entries_iff {F : Forest α} {e : α} :
    e ∈ F.entries ↔ ∃ c ∈ F.chains, c.getLast? = some e := by
  have h : some e ∈ F.entries.map some ↔ e ∈ F.entries := by simp
  rw [← h, ← chains_getLast, List.mem_map]

example : chains (node 1 (node 2 nil nil) (node 3 nil nil)) = [[1], [1, 2], [3]] := by
  decide +kernel

theorem mem_entries_of_mem_chain {F : Forest α} {c : List α} (h : c ∈ F.chains) :
    ∀ e ∈ c, e ∈ F.entries := by
  induction F generalizing c with
  | nil => simp [chains] at h
  | node x ch nx hc hn =>
      intro e he
      simp only [chains, List.mem_cons, List.mem_append, List.mem_map] at h
      simp only [entries, List.mem_cons, List.mem_append]
      rcases h with rfl | ⟨c, hm, rfl⟩ | h
      · exact .inl (by simpa using he)
      · rcases List.mem_cons.mp he with rfl | he
        · exact .inl rfl
        · exact .inr (.inl (hc hm e he))
      · exact .inr (.inr (hn h e he))

/-- The ancestors of an entry have chains of their own. -/
theorem chains_of_append {F : Forest α} {c d : List α} (h : c ++ d ∈ F.chains) (hc : c ≠ []) :
    c ∈ F.chains := by
  induction F generalizing c with
  | nil => simp [chains] at h
  | node x ch nx ihc ihn =>
      simp only [chains, List.mem_cons, List.mem_append, List.mem_map] at h ⊢
      cases c with
      | nil => exact absurd rfl hc
      | cons y c =>
          rcases h with h | ⟨c', hm, he⟩ | h
          · obtain ⟨rfl, hnil⟩ := List.cons.inj h
            obtain ⟨rfl, -⟩ := List.append_eq_nil_iff.mp hnil
            exact .inl rfl
          · obtain ⟨rfl, rfl⟩ := List.cons.inj he
            cases c with
            | nil => exact .inl rfl
            | cons z c => exact .inr (.inl ⟨z :: c, ihc hm (by simp), rfl⟩)
          · exact .inr (.inr (ihn h (by simp)))

/-- A chain names entries in the order in which they are listed. -/
theorem chain_sublist {F : Forest α} {c : List α} (h : c ∈ F.chains) : c.Sublist F.entries := by
  induction F generalizing c with
  | nil => simp [chains] at h
  | node e ch nx hc hn =>
      simp only [chains, List.mem_cons, List.mem_append, List.mem_map] at h
      simp only [entries]
      rcases h with rfl | ⟨c, hm, rfl⟩ | h
      · exact (List.nil_sublist _).cons_cons e
      · exact ((hc hm).trans (List.sublist_append_left _ _)).cons_cons e
      · exact ((hn h).trans (List.sublist_append_right _ _)).cons e

/-- The entries of the root are the chains of one entry. -/
theorem singleton_mem_chains {F : Forest α} {e : α} (h : [e] ∈ F.chains) : e ∈ F.tops := by
  induction F with
  | nil => simp [chains] at h
  | node d ch nx _ ih =>
      simp only [chains, List.mem_cons, List.mem_append, List.mem_map] at h
      simp only [tops, List.mem_cons]
      rcases h with h | ⟨c, hc, h⟩ | h
      · exact .inl (List.cons.inj h).1
      · exact absurd (List.cons.inj h).2 (chains_ne_nil hc)
      · exact .inr (ih h)

theorem mem_chains_of_tops {F : Forest α} {e : α} (h : e ∈ F.tops) : [e] ∈ F.chains := by
  induction F with
  | nil => simp [tops] at h
  | node d ch nx _ ih =>
      simp only [tops, List.mem_cons] at h
      simp only [chains, List.mem_cons, List.mem_append]
      rcases h with rfl | h
      · exact .inl rfl
      · exact .inr (.inr (ih h))

/-- A node and all that is below it. -/
theorem node_sublist {F : Forest α} {r : α × Forest α} (h : r ∈ F.nodes) :
    (r.1 :: r.2.entries).Sublist F.entries := by
  induction F with
  | nil => simp [nodes] at h
  | node e ch nx hc hn =>
      simp only [nodes, List.mem_cons, List.mem_append] at h
      simp only [entries]
      rcases h with rfl | h | h
      · exact (List.sublist_append_left _ _).cons_cons e
      · exact ((hc h).trans (List.sublist_append_left _ _)).cons e
      · exact ((hn h).trans (List.sublist_append_right _ _)).cons e

theorem mem_nodes_of_siblings {F : Forest α} {r : α × Forest α} (h : r ∈ F.siblings) :
    r ∈ F.nodes := by
  induction F with
  | nil => simp [siblings] at h
  | node e ch nx _ ih =>
      simp only [siblings, List.mem_cons] at h
      simp only [nodes, List.mem_cons, List.mem_append]
      exact h.imp_right fun h => .inr (ih h)

theorem mem_nodes_below {F : Forest α} {r s : α × Forest α} (h : r ∈ F.nodes)
    (hs : s ∈ r.2.nodes) : s ∈ F.nodes := by
  induction F with
  | nil => simp [nodes] at h
  | node e ch nx hc hn =>
      simp only [nodes, List.mem_cons, List.mem_append] at h ⊢
      rcases h with rfl | h | h
      · exact .inr (.inl hs)
      · exact .inr (.inl (hc h))
      · exact .inr (.inr (hn h))

/-- The chains below a node continue the chain to it. -/
theorem node_chains {F : Forest α} {r : α × Forest α} (h : r ∈ F.nodes) :
    ∃ c, c ++ [r.1] ∈ F.chains ∧ ∀ d ∈ r.2.chains, c ++ r.1 :: d ∈ F.chains := by
  induction F with
  | nil => simp [nodes] at h
  | node e ch nx hc hn =>
      simp only [nodes, List.mem_cons, List.mem_append] at h
      simp only [chains, List.mem_cons, List.mem_append, List.mem_map]
      rcases h with rfl | h | h
      · exact ⟨[], .inl rfl, fun d hd => .inr (.inl ⟨d, hd, rfl⟩)⟩
      · obtain ⟨c, h1, h2⟩ := hc h
        exact ⟨e :: c, .inr (.inl ⟨_, h1, rfl⟩), fun d hd => .inr (.inl ⟨_, h2 d hd, rfl⟩)⟩
      · obtain ⟨c, h1, h2⟩ := hn h
        exact ⟨c, .inr (.inr h1), fun d hd => .inr (.inr (h2 d hd))⟩

/-- What follows a node in a chain is a chain below it, if no entry occurs twice. -/
theorem chain_below {F : Forest α} (hF : F.entries.Nodup) {r : α × Forest α} (hr : r ∈ F.nodes)
    {c d : List α} (h : c ++ r.1 :: d ∈ F.chains) : d = [] ∨ d ∈ r.2.chains := by
  induction F generalizing c with
  | nil => simp [nodes] at hr
  | node e ch nx hc hn =>
      simp only [nodes, List.mem_cons, List.mem_append] at hr
      simp only [chains, List.mem_cons, List.mem_append, List.mem_map] at h
      simp only [entries, List.nodup_cons, List.mem_append, not_or] at hF
      obtain ⟨⟨hech, henx⟩, hnodup⟩ := hF
      obtain ⟨hndch, hndnx, hdisj⟩ := List.nodup_append.mp hnodup
      have hmem : ∀ {G : Forest α} {x : List α}, x ∈ G.chains → ∀ a ∈ x, a ∈ G.entries :=
        fun hx a ha => (chain_sublist hx).subset ha
      have hnode : ∀ {G : Forest α}, r ∈ G.nodes → r.1 ∈ G.entries := fun hr =>
        (node_sublist hr).subset (by simp)
      rcases hr with rfl | hr | hr
      · rcases h with h | ⟨x, hx, h⟩ | h
        · cases c with
          | nil => exact .inl (List.cons.inj h).2
          | cons a c => simp at h
        · cases c with
          | nil => exact .inr ((List.cons.inj h).2 ▸ hx)
          | cons a c =>
              obtain ⟨-, rfl⟩ := List.cons.inj h
              exact absurd (hmem hx e (by simp)) hech
        · exact absurd (hmem h e (by simp)) henx
      · rcases h with h | ⟨x, hx, h⟩ | h
        · cases c with
          | nil =>
              have he : r.1 = e := (List.cons.inj h).1
              exact absurd (he ▸ hnode hr) hech
          | cons a c => simp at h
        · cases c with
          | nil =>
              have he : e = r.1 := (List.cons.inj h).1
              exact absurd (he ▸ hnode hr) hech
          | cons a c =>
              obtain ⟨-, rfl⟩ := List.cons.inj h
              exact hc hndch hr hx
        · exact absurd rfl (hdisj _ (hnode hr) _ (hmem h r.1 (by simp)))
      · rcases h with h | ⟨x, hx, h⟩ | h
        · cases c with
          | nil =>
              have he : r.1 = e := (List.cons.inj h).1
              exact absurd (he ▸ hnode hr) henx
          | cons a c => simp at h
        · cases c with
          | nil =>
              have he : e = r.1 := (List.cons.inj h).1
              exact absurd (he ▸ hnode hr) henx
          | cons a c =>
              obtain ⟨-, rfl⟩ := List.cons.inj h
              exact absurd rfl (hdisj _ (hmem hx r.1 (by simp)) _ (hnode hr))
        · exact hn hndnx hr h

theorem chains_perm {F G : Forest α} (h : F.siblings.Perm G.siblings) :
    F.chains.Perm G.chains := by
  have flat : ∀ F : Forest α, F.chains =
      F.siblings.flatMap fun r => [r.1] :: (r.2.chains.map (r.1 :: ·)) := by
    intro F
    induction F with
    | nil => rfl
    | node e ch nx _ ih => simp [chains, siblings, ih]
  rw [flat F, flat G]
  exact h.flatMap_right _

theorem entries_perm {F G : Forest α} (h : F.chains.Perm G.chains) :
    F.entries.Perm G.entries := by
  have hm := h.map List.getLast?
  rw [chains_getLast, chains_getLast] at hm
  have hf := hm.filterMap id
  simpa [List.filterMap_map] using hf

/-! ## Operations -/

theorem chains_map (g : α → β) (F : Forest α) :
    (F.map g).chains = F.chains.map (List.map g) := by
  induction F with
  | nil => rfl
  | node e ch nx hc hn => simp [map, chains, hc, hn, Function.comp_def]

@[simp] theorem entries_map (g : α → β) (F : Forest α) :
    (F.map g).entries = F.entries.map g := by
  induction F with
  | nil => rfl
  | node e ch nx hc hn => simp [map, entries, hc, hn]

theorem map_map {γ : Type} (g : β → γ) (h : α → β) (F : Forest α) :
    (F.map h).map g = F.map (g ∘ h) := by
  induction F with
  | nil => rfl
  | node e ch nx hc hn => simp [map, hc, hn]

theorem map_id (F : Forest α) : F.map (fun e => e) = F := by
  induction F with
  | nil => rfl
  | node e ch nx hc hn => simp [map, hc, hn]

theorem map_congr {g h : α → β} {F : Forest α} (hgh : ∀ e ∈ F.entries, g e = h e) :
    F.map g = F.map h := by
  induction F with
  | nil => rfl
  | node e ch nx hc hn =>
      simp only [entries, List.mem_cons, List.mem_append] at hgh
      simp only [map]
      rw [hgh e (.inl rfl), hc fun x hx => hgh x (.inr (.inl hx)),
        hn fun x hx => hgh x (.inr (.inr hx))]

theorem siblings_map (g : α → β) (F : Forest α) :
    (F.map g).siblings = F.siblings.map fun r => (g r.1, r.2.map g) := by
  induction F with
  | nil => rfl
  | node e ch nx _ ih => simp [map, siblings, ih]

theorem chains_remove (p : α → Bool) (F : Forest α) :
    (F.remove p).chains = F.chains.filter fun c => c.all fun e => !p e := by
  induction F with
  | nil => rfl
  | node e ch nx hc hn =>
      simp only [remove]
      split
      · next hp =>
          simp [chains, hn, hp, List.filter_map, Function.comp_def]
      · next hp =>
          simp [chains, hc, hn, hp, List.filter_map, Function.comp_def]

theorem remove_sublist (p : α → Bool) (F : Forest α) :
    (F.remove p).entries.Sublist F.entries := by
  induction F with
  | nil => exact List.Sublist.refl _
  | node e ch nx hc hn =>
      simp only [remove, entries]
      split
      · exact (hn.trans (List.sublist_append_right _ _)).cons e
      · exact (hc.append hn).cons_cons e

/-- Leaving out nodes without children leaves out just their entries. -/
theorem entries_remove {p : α → Bool} {F : Forest α}
    (h : ∀ r ∈ F.nodes, p r.1 = true → r.2 = nil) :
    (F.remove p).entries = F.entries.filter fun e => !p e := by
  induction F with
  | nil => rfl
  | node e ch nx hc hn =>
      simp only [nodes, List.mem_cons, List.mem_append] at h
      have hnx := hn fun r hr => h r (.inr (.inr hr))
      have hch := hc fun r hr => h r (.inr (.inl hr))
      simp only [remove]
      split
      · next hp =>
          obtain rfl := h (e, ch) (.inl rfl) hp
          simp [entries, hp, hnx]
      · next hp => simp [entries, hp, hnx, hch]

theorem chains_insertBefore (after : α → Bool) (new : α) (F : Forest α) :
    (F.insertBefore after new).chains.Perm ([new] :: F.chains) := by
  induction F with
  | nil => simp [insertBefore, chains]
  | node e ch nx _ ih =>
      simp only [insertBefore]
      split
      · simp [chains]
      · simp only [chains]
        refine ((ih.append_left _).cons _).trans ?_
        refine (List.perm_middle.cons _).trans ?_
        exact List.Perm.swap _ _ _

private theorem filter_getLast_cons (p : α → Bool) (e : α) (ch : Forest α) :
    (ch.chains.map (e :: ·)).filter (fun c => c.getLast?.any p) =
      (ch.chains.filter fun c => c.getLast?.any p).map (e :: ·) := by
  rw [List.filter_map]
  congr 1
  apply List.filter_congr
  intro c hm
  cases c with
  | nil => exact absurd rfl (chains_ne_nil hm)
  | cons x c => simp [List.getLast?_cons]

/-- A change that adds an entry adds one below each node at which it is made. -/
theorem chains_onChildren {p : α → Bool} {change : Forest α → Forest α} {new : α}
    (hchange : ∀ F, (change F).chains.Perm ([new] :: F.chains)) (F : Forest α) :
    (F.onChildren p change).chains.Perm
      (F.chains ++ (F.chains.filter fun c => c.getLast?.any p).map (· ++ [new])) := by
  classical
  induction F with
  | nil => simp [onChildren, chains]
  | node e ch nx hc hn =>
      simp only [onChildren, chains, List.filter_cons, List.filter_append, filter_getLast_cons,
        List.getLast?_singleton, Option.any_some]
      have hc' := hc.map (e :: ·)
      simp only [List.map_append, List.map_map] at hc'
      split
      · next hp =>
          have hg := (hchange (ch.onChildren p change)).map (e :: ·)
          refine List.perm_iff_count.mpr fun c => ?_
          have h1 := List.perm_iff_count.mp hc' c
          have h2 := List.perm_iff_count.mp hn c
          have h3 := List.perm_iff_count.mp hg c
          simp only [List.map_cons, List.map_append, List.map_map, List.count_cons,
            List.count_append, Function.comp_def, List.cons_append, List.nil_append]
            at h1 h2 h3 ⊢
          omega
      · next hp =>
          refine List.perm_iff_count.mpr fun c => ?_
          have h1 := List.perm_iff_count.mp hc' c
          have h2 := List.perm_iff_count.mp hn c
          simp only [List.map_append, List.map_map, List.count_cons,
            List.count_append, Function.comp_def, List.cons_append] at h1 h2 ⊢
          omega

/-! ## Names -/

section Names

variable (name : α → κ)

def paths (F : Forest α) : List (List κ) := F.chains.map (List.map name)

/-- No two siblings have the same name. -/
def Distinct : Forest α → Prop
  | nil => True
  | node e ch nx => name e ∉ nx.tops.map name ∧ ch.Distinct ∧ nx.Distinct

variable {name}

theorem Distinct.nodup_names {F : Forest α} (h : F.Distinct name) : (F.tops.map name).Nodup := by
  induction F with
  | nil => exact List.nodup_nil
  | node e ch nx _ ih => exact List.nodup_cons.mpr ⟨h.1, ih h.2.2⟩

theorem mem_paths {F : Forest α} {q : List κ} :
    q ∈ F.paths name ↔ ∃ c ∈ F.chains, c.map name = q := List.mem_map

theorem nil_notMem_paths (F : Forest α) : [] ∉ F.paths name := by
  intro h
  obtain ⟨c, hc, hq⟩ := mem_paths.mp h
  exact chains_ne_nil hc (List.map_eq_nil_iff.mp hq)

theorem paths_node (e : α) (ch nx : Forest α) :
    (node e ch nx).paths name =
      [name e] :: ((ch.paths name).map (name e :: ·) ++ nx.paths name) := by
  simp [paths, chains, Function.comp_def]

theorem cons_mem_paths {F : Forest α} {s : κ} {q : List κ} (h : s :: q ∈ F.paths name) :
    s ∈ F.tops.map name := by
  induction F with
  | nil => simp [paths, chains] at h
  | node e ch nx _ ih =>
      rw [paths_node] at h
      simp only [List.mem_cons, List.mem_append, List.mem_map] at h
      rcases h with h | ⟨q', _, h⟩ | h
      · simp [tops, (List.cons.inj h).1]
      · simp [tops, (List.cons.inj h).1]
      · exact List.mem_cons_of_mem _ (ih h)

theorem singleton_mem_paths {F : Forest α} {s : κ} (h : s ∈ F.tops.map name) :
    [s] ∈ F.paths name := by
  induction F with
  | nil => simp [tops] at h
  | node e ch nx _ ih =>
      rw [paths_node]
      simp only [tops, List.map_cons, List.mem_cons] at h
      rcases h with rfl | h
      · simp
      · exact List.mem_cons_of_mem _ (List.mem_append_right _ (ih h))

/-- Siblings have different names exactly if entries have different paths. -/
theorem distinct_iff {F : Forest α} : F.Distinct name ↔ (F.paths name).Nodup := by
  induction F with
  | nil => simp [Distinct, paths, chains]
  | node e ch nx hc hn =>
      rw [paths_node, List.nodup_cons, List.nodup_append, Distinct, hc, hn]
      have hinj : ((ch.paths name).map (name e :: ·)).Nodup ↔ (ch.paths name).Nodup :=
        List.nodup_map_iff fun _ _ h => (List.cons.inj h).2
      constructor
      · rintro ⟨hne, hch, hnx⟩
        refine ⟨?_, hinj.mpr hch, hnx, ?_⟩
        · intro h
          rcases List.mem_append.mp h with h | h
          · obtain ⟨q, hq, he⟩ := List.mem_map.mp h
            obtain rfl : q = [] := by simpa using he
            exact nil_notMem_paths _ hq
          · exact hne (cons_mem_paths h)
        · rintro q hq q' hq' rfl
          obtain ⟨q, -, rfl⟩ := List.mem_map.mp hq
          exact hne (cons_mem_paths hq')
      · rintro ⟨hhead, hch, hnx, -⟩
        refine ⟨?_, hinj.mp hch, hnx⟩
        intro h
        exact hhead (List.mem_append_right _ (singleton_mem_paths h))

/-- A change after which siblings with different names still have different names. -/
theorem Distinct.map {F : Forest α} (h : F.Distinct name) {k : α → α}
    (hk : ∀ c e x, c ++ [e] ∈ F.chains → c ++ [x] ∈ F.chains → name e ≠ name x →
      name (k e) ≠ name (k x)) : (F.map k).Distinct name := by
  induction F with
  | nil => trivial
  | node e ch nx hc hn =>
      obtain ⟨htop, hch, hnx⟩ := h
      have htops : ∀ F : Forest α, (F.map k).tops = F.tops.map k := by
        intro F
        induction F with
        | nil => rfl
        | node e ch nx _ ih => simp [Forest.map, tops, ih]
      refine ⟨fun hm => ?_, hc hch fun c d x hd hx => ?_, hn hnx fun c d x hd hx => ?_⟩
      · rw [htops, List.map_map] at hm
        obtain ⟨x, hx, hname⟩ := List.mem_map.mp hm
        refine hk [] e x (by simp [chains]) ?_ (fun hne => ?_) hname.symm
        · simp [chains, mem_chains_of_tops hx]
        · exact htop (hne ▸ List.mem_map_of_mem hx)
      · exact hk (e :: c) d x (by simp [chains, hd]) (by simp [chains, hx])
      · exact hk c d x (by simp [chains, hd]) (by simp [chains, hx])

theorem distinct_perm {F G : Forest α} (h : F.chains.Perm G.chains) :
    F.Distinct name ↔ G.Distinct name := by
  rw [distinct_iff, distinct_iff]
  exact (h.map _).nodup_iff

/-- In a forest of distinct siblings a path leads to one chain. -/
theorem chain_unique {F : Forest α} (h : F.Distinct name) {c d : List α} (hc : c ∈ F.chains)
    (hd : d ∈ F.chains) (he : c.map name = d.map name) : c = d :=
  List.inj_on_of_nodup_map (distinct_iff.mp h) hc hd he

/-! ## Walks -/

variable [DecidableEq κ] (name)

instance decidableDistinct : (F : Forest α) → Decidable (F.Distinct name)
  | nil => isTrue trivial
  | node _ ch nx =>
      have := decidableDistinct ch
      have := decidableDistinct nx
      inferInstanceAs (Decidable (_ ∧ _ ∧ _))

/-- The first sibling of a name. -/
def child (s : κ) : Forest α → Option (α × Forest α)
  | nil => none
  | node e ch nx => if name e = s then some (e, ch) else child s nx

/-- The node at a path, as a walk down from the root finds it. -/
def lookup : List κ → Forest α → Option (α × Forest α)
  | [], _ => none
  | [s], F => F.child name s
  | s :: t :: q, F => (F.child name s).bind fun r => lookup (t :: q) r.2

/-- Put another entry in the place of the first sibling of a name. -/
def replaceChild (s : κ) (new : α) : Forest α → Forest α
  | nil => nil
  | node e ch nx => if name e = s then node new ch nx else node e ch (replaceChild s new nx)

/-- Change the children of the first sibling of a name, or of a new last one. -/
def visit (s : κ) (new : α) (change : Forest α → Option (Forest α)) :
    Forest α → Option (Forest α)
  | nil => (change nil).map fun ch => node new ch nil
  | node e ch nx =>
      if name e = s then (change ch).map fun ch => node e ch nx
      else (visit s new change nx).map (node e ch)

variable {name}

theorem lookup_cons_cons (s t : κ) (q : List κ) (F : Forest α) :
    F.lookup name (s :: t :: q) =
      (F.child name s).bind fun r => r.2.lookup name (t :: q) := rfl

theorem lookup_append_singleton {q : List κ} (hq : q ≠ []) (s : κ) (F : Forest α) :
    F.lookup name (q ++ [s]) = (F.lookup name q).bind fun r => r.2.child name s := by
  induction q generalizing F with
  | nil => exact absurd rfl hq
  | cons t q ih =>
      cases q with
      | nil => rfl
      | cons u q =>
          simp only [List.cons_append, lookup_cons_cons] at ih ⊢
          cases F.child name t with
          | none => rfl
          | some r => exact ih (by simp) r.2

theorem child_eq_none {F : Forest α} {s : κ} :
    F.child name s = none ↔ s ∉ F.tops.map name := by
  induction F with
  | nil => simp [child, tops]
  | node e ch nx _ ih =>
      simp only [child, tops, List.map_cons, List.mem_cons, not_or]
      split
      · next h => simp [h]
      · next h => rw [ih]; exact ⟨fun hn => ⟨fun hs => h hs.symm, hn⟩, fun hn => hn.2⟩

theorem child_name {F : Forest α} {s : κ} {r : α × Forest α} (h : F.child name s = some r) :
    name r.1 = s := by
  induction F with
  | nil => simp [child] at h
  | node e ch nx _ ih =>
      simp only [child] at h
      split at h
      · next he => rw [← Option.some.inj h]; exact he
      · exact ih h

/-- Only the visited sibling changes. -/
theorem visit_child {F : Forest α} {s : κ} {new : α} {change : Forest α → Option (Forest α)}
    {ch : Forest α} (hn : name new = s)
    (h : change ((F.child name s).elim nil Prod.snd) = some ch) :
    ∃ G, F.visit name s new change = some G ∧ ∀ t, G.child name t =
      if s = t then some ((F.child name s).elim new Prod.fst, ch) else F.child name t := by
  induction F with
  | nil =>
      refine ⟨node new ch nil, ?_, fun t => ?_⟩
      · have h' : change nil = some ch := h
        simp [visit, h']
      · simp only [child, hn]
        split <;> simp
  | node e ch' nx _ ih =>
      simp only [child] at h ⊢
      split at h
      · next he =>
          have h' : change ch' = some ch := h
          refine ⟨node e ch nx, by simp [visit, he, h'], fun t => ?_⟩
          simp only [child, he, if_true]
          split <;> simp
      · next he =>
          obtain ⟨G, hG, hchild⟩ := ih h
          refine ⟨node e ch' G, by simp [visit, he, hG], fun t => ?_⟩
          simp only [child, he, if_false, hchild]
          by_cases hs : s = t
          · subst hs
            simp [he]
          · simp [hs]

theorem child_insertBefore {after : α → Bool} {new : α} {F : Forest α}
    (h : F.child name (name new) = none) (t : κ) :
    (F.insertBefore after new).child name t =
      if name new = t then some (new, nil) else F.child name t := by
  induction F with
  | nil => simp [insertBefore, child]
  | node e ch nx _ ih =>
      simp only [child] at h
      split at h
      · simp at h
      · next he =>
          simp only [insertBefore]
          split
          · simp [child]
          · simp only [child, ih h]
            by_cases ht : name e = t
            · have hne : name new ≠ t := fun hn => he (ht.trans hn.symm)
              simp [ht, hne]
            · simp [ht]

theorem child_replaceChild {F : Forest α} {s : κ} {new : α} (hn : name new = s) (t : κ) :
    (F.replaceChild name s new).child name t =
      if s = t then (F.child name s).map fun r => (new, r.2) else F.child name t := by
  induction F with
  | nil => simp [replaceChild, child]
  | node e ch nx _ ih =>
      simp only [replaceChild]
      split
      · next he =>
          simp only [child, hn, he]
          split <;> simp
      · next he =>
          simp only [child, ih, he, if_false]
          by_cases hs : s = t
          · subst hs
            simp [he]
          · simp [hs]

theorem tops_insertBefore (after : α → Bool) (new : α) (F : Forest α) :
    (F.insertBefore after new).tops.Perm (new :: F.tops) := by
  induction F with
  | nil => simp [insertBefore, tops]
  | node e ch nx _ ih =>
      simp only [insertBefore]
      split
      · simp [tops]
      · exact (ih.cons e).trans (List.Perm.swap _ _ _)

theorem Distinct.insertBefore {F : Forest α} (h : F.Distinct name) {after : α → Bool} {new : α}
    (hnew : F.child name (name new) = none) : (F.insertBefore after new).Distinct name := by
  have hp : (F.insertBefore after new).chains.Perm (node new nil F).chains :=
    chains_insertBefore after new F
  rw [distinct_perm hp]
  exact ⟨child_eq_none.mp hnew, trivial, h⟩

theorem tops_replaceChild {F : Forest α} {s : κ} {new : α} (hn : name new = s) :
    (F.replaceChild name s new).tops.map name = F.tops.map name := by
  induction F with
  | nil => rfl
  | node e ch nx _ ih =>
      simp only [replaceChild]
      split
      · next he => simp [tops, hn, he]
      · simp [tops, ih]

theorem Distinct.replaceChild {F : Forest α} (h : F.Distinct name) {s : κ} {new : α}
    (hn : name new = s) : (F.replaceChild name s new).Distinct name := by
  induction F with
  | nil => trivial
  | node e ch nx _ ih =>
      simp only [Forest.replaceChild]
      split
      · next he => exact ⟨by rw [hn, ← he]; exact h.1, h.2.1, h.2.2⟩
      · exact ⟨by rw [tops_replaceChild hn]; exact h.1, h.2.1, ih h.2.2⟩

theorem Distinct.visit {F G : Forest α} (hd : F.Distinct name) {s : κ} {new : α}
    {change : Forest α → Option (Forest α)} (hn : name new = s)
    (hchange : ∀ ch ch', ch.Distinct name → change ch = some ch' → ch'.Distinct name)
    (h : F.visit name s new change = some G) :
    G.Distinct name ∧ ∀ t ∈ G.tops.map name, t = s ∨ t ∈ F.tops.map name := by
  induction F generalizing G with
  | nil =>
      obtain ⟨ch, hch, rfl⟩ := Option.map_eq_some_iff.mp h
      exact ⟨⟨by simp [tops], hchange nil _ trivial hch, trivial⟩, by simp [tops, hn]⟩
  | node e ch nx _ ih =>
      simp only [Forest.visit] at h
      split at h
      · obtain ⟨ch', hch, rfl⟩ := Option.map_eq_some_iff.mp h
        exact ⟨⟨hd.1, hchange _ _ hd.2.1 hch, hd.2.2⟩, fun t ht => .inr ht⟩
      · next he =>
          obtain ⟨nx', hnx, rfl⟩ := Option.map_eq_some_iff.mp h
          obtain ⟨hd', ht'⟩ := ih hd.2.2 hnx
          refine ⟨⟨fun hm => ?_, hd.2.1, hd'⟩, fun t ht => ?_⟩
          · rcases ht' _ hm with hs | hs
            · exact he hs
            · exact hd.1 hs
          · simp only [tops, List.map_cons, List.mem_cons] at ht ⊢
            rcases ht with rfl | ht
            · exact .inr (.inl rfl)
            · exact (ht' t ht).imp_right .inr

/-- A visit changes the entries as it changes the children of the one that is visited. -/
theorem visit_entries {β : Type} {F G : Forest α} {s : κ} {new : α} {key : α → β}
    {change : Forest α → Option (Forest α)} {added : List β}
    (hchange : ∀ ch ch', change ch = some ch' → ∃ l, l.Sublist added ∧
      (ch'.entries.map key).Perm (l ++ ch.entries.map key))
    (h : F.visit name s new change = some G) :
    ∃ l, l.Sublist (key new :: added) ∧
      (G.entries.map key).Perm (l ++ F.entries.map key) := by
  classical
  induction F generalizing G with
  | nil =>
      obtain ⟨ch, hch, rfl⟩ := Option.map_eq_some_iff.mp h
      obtain ⟨l, hl, hp⟩ := hchange _ _ hch
      exact ⟨key new :: l, hl.cons_cons _, by simpa [entries] using hp⟩
  | node e ch nx _ ih =>
      simp only [Forest.visit] at h
      split at h
      · obtain ⟨ch', hch, rfl⟩ := Option.map_eq_some_iff.mp h
        obtain ⟨l, hl, hp⟩ := hchange _ _ hch
        refine ⟨l, hl.cons _, List.perm_iff_count.mpr fun b => ?_⟩
        have hb := List.perm_iff_count.mp hp b
        simp only [entries, List.map_cons, List.map_append, List.count_cons,
          List.count_append] at hb ⊢
        omega
      · obtain ⟨nx', hnx, rfl⟩ := Option.map_eq_some_iff.mp h
        obtain ⟨l, hl, hp⟩ := ih hnx
        refine ⟨l, hl, List.perm_iff_count.mpr fun b => ?_⟩
        have hb := List.perm_iff_count.mp hp b
        simp only [entries, List.map_cons, List.map_append, List.count_cons,
          List.count_append] at hb ⊢
        omega

theorem entries_replaceChild {β : Type} {F : Forest α} {s : κ} {e new : α} {ch : Forest α}
    {key : α → β} (h : F.child name s = some (e, ch)) (hk : key new = key e) :
    (F.replaceChild name s new).entries.map key = F.entries.map key := by
  induction F with
  | nil => rfl
  | node x ch' nx _ ih =>
      simp only [child] at h
      simp only [replaceChild]
      split
      · next hx =>
          rw [if_pos hx] at h
          obtain ⟨rfl, rfl⟩ := Prod.mk.inj (Option.some.inj h)
          simp [entries, hk]
      · next hx =>
          rw [if_neg hx] at h
          simp [entries, ih h]

theorem child_chains {F : Forest α} {s : κ} {e : α} {ch : Forest α}
    (h : F.child name s = some (e, ch)) :
    [e] ∈ F.chains ∧ ∀ d ∈ ch.chains, e :: d ∈ F.chains := by
  induction F with
  | nil => simp [child] at h
  | node x ch' nx _ ih =>
      simp only [child] at h
      split at h
      · obtain ⟨rfl, rfl⟩ := Prod.mk.inj (Option.some.inj h)
        refine ⟨by simp [chains], fun d hd => ?_⟩
        exact List.mem_cons_of_mem _ (List.mem_append_left _ (List.mem_map_of_mem hd))
      · obtain ⟨he, hd⟩ := ih h
        exact ⟨List.mem_cons_of_mem _ (List.mem_append_right _ he), fun d hm =>
          List.mem_cons_of_mem _ (List.mem_append_right _ (hd d hm))⟩

theorem child_of_chain {F : Forest α} (h : F.Distinct name) {e : α} {d : List α}
    (hc : e :: d ∈ F.chains) :
    ∃ ch, F.child name (name e) = some (e, ch) ∧ (d = [] ∨ d ∈ ch.chains) := by
  induction F with
  | nil => simp [chains] at hc
  | node x ch nx _ ih =>
      simp only [chains, List.mem_cons, List.mem_append, List.mem_map] at hc
      rcases hc with hc | ⟨d', hd, hc⟩ | hc
      · obtain ⟨rfl, rfl⟩ := List.cons.inj hc
        exact ⟨ch, by simp [child], .inl rfl⟩
      · obtain ⟨rfl, rfl⟩ := List.cons.inj hc
        exact ⟨ch, by simp [child], .inr hd⟩
      · obtain ⟨ch', hch, hd⟩ := ih h.2.2 hc
        have hx : name x ≠ name e := by
          intro hxe
          apply h.1
          rw [hxe]
          exact cons_mem_paths (mem_paths.mpr ⟨e :: d, hc, rfl⟩)
        exact ⟨ch', by simpa [child, hx] using hch, hd⟩

theorem child_distinct {F : Forest α} (h : F.Distinct name) {s : κ} {r : α × Forest α}
    (hr : F.child name s = some r) : r.2.Distinct name := by
  induction F with
  | nil => simp [child] at hr
  | node x ch nx _ ih =>
      simp only [child] at hr
      split at hr
      · rw [← Option.some.inj hr]
        exact h.2.1
      · exact ih h.2.2 hr

/-- What a walk finds ends a chain of that path, and the chains below go on from there. -/
theorem chain_of_lookup {F : Forest α} {q : List κ} {e : α} {ch : Forest α}
    (h : F.lookup name q = some (e, ch)) :
    ∃ c, (c ++ [e]).map name = q ∧ c ++ [e] ∈ F.chains ∧
      ∀ d ∈ ch.chains, c ++ e :: d ∈ F.chains := by
  induction q generalizing F with
  | nil => simp [lookup] at h
  | cons s q ih =>
      cases q with
      | nil =>
          simp only [lookup] at h
          obtain ⟨he, hd⟩ := child_chains h
          exact ⟨[], by simp [child_name h], he, hd⟩
      | cons t q =>
          rw [lookup_cons_cons] at h
          obtain ⟨⟨x, ch'⟩, hx, hrest⟩ := Option.bind_eq_some_iff.mp h
          obtain ⟨c, hq, hc, hd⟩ := ih hrest
          obtain ⟨_, hx'⟩ := child_chains hx
          refine ⟨x :: c, ?_, hx' _ hc, fun d hm => hx' _ (hd d hm)⟩
          have hname : name x = s := child_name hx
          simp only [List.cons_append, List.map_cons, hname, hq]

/-- In a forest of distinct siblings the walk down a path finds its entry and what is below. -/
theorem lookup_of_chain {F : Forest α} (h : F.Distinct name) {c : List α} {e : α}
    (hc : c ++ [e] ∈ F.chains) :
    ∃ ch, F.lookup name ((c ++ [e]).map name) = some (e, ch) ∧
      ∀ d ≠ [], c ++ e :: d ∈ F.chains → d ∈ ch.chains := by
  induction c generalizing F with
  | nil =>
      obtain ⟨ch, hch, -⟩ := child_of_chain h hc
      refine ⟨ch, hch, fun d hd hm => ?_⟩
      obtain ⟨ch', hch', hd'⟩ := child_of_chain h hm
      rw [hch] at hch'
      obtain ⟨-, rfl⟩ := Prod.mk.inj (Option.some.inj hch')
      exact hd'.resolve_left hd
  | cons x c ih =>
      obtain ⟨ch, hch, hmem⟩ := child_of_chain h hc
      obtain ⟨ch', hlook, hd⟩ := ih (child_distinct h hch) (hmem.resolve_left (by simp))
      refine ⟨ch', ?_, fun d hne hm => ?_⟩
      · cases c with
        | nil =>
            simp only [List.nil_append, List.cons_append, List.map_cons, List.map_nil] at hlook ⊢
            rw [lookup_cons_cons, hch]
            exact hlook
        | cons y c =>
            simp only [List.cons_append, List.map_cons] at hlook ⊢
            rw [lookup_cons_cons, hch]
            exact hlook
      · obtain ⟨ch'', hch'', hm'⟩ := child_of_chain h hm
        rw [hch] at hch''
        obtain ⟨-, rfl⟩ := Prod.mk.inj (Option.some.inj hch'')
        exact hd d hne (hm'.resolve_left (by simp))

theorem lookup_eq_some_iff {F : Forest α} (h : F.Distinct name) {q : List κ} {e : α} :
    (F.lookup name q).map Prod.fst = some e ↔
      ∃ c, c ++ [e] ∈ F.chains ∧ (c ++ [e]).map name = q := by
  constructor
  · intro hl
    obtain ⟨⟨e, ch⟩, hr, rfl⟩ := Option.map_eq_some_iff.mp hl
    obtain ⟨c, hq, hc, -⟩ := chain_of_lookup hr
    exact ⟨c, hc, hq⟩
  · rintro ⟨c, hc, rfl⟩
    obtain ⟨ch, hl, -⟩ := lookup_of_chain h hc
    rw [hl]
    rfl

end Names

end Forest

end Sunela
