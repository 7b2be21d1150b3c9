import Sunela.Lib.Precedence
import Sunela.Model.Tsort
import Sunela.Verification.Tsort.Names

/-! # What the sort does to the order

References that do not come to a cycle are followed, and sorting again changes nothing. Where
references come to a cycle, or stand in front of what they refer to, the sort does less than its
comments say. -/

namespace Sunela.Tsort

open Fields Entry

/-- The names of the top-level entries. -/
abbrev topNames (F : Tree) : List CString := F.tops.map DbEntry.name

variable {F G H : Tree}

theorem topNames_eq (F : Tree) : topNames F = F.siblings.map nameOf := by
  rw [topNames, Forest.tops_eq, List.map_map]
  rfl

theorem prevName_closed (F : Tree) : Kahn.Closed (prevName F) (topNames F) := by
  intro s _ p hp
  simp only [prevName, Option.bind_eq_bind, Option.bind_eq_some_iff, Option.pure_def,
    Option.some.injEq] at hp
  obtain ⟨_, -, _, -, e, he, rfl⟩ := hp
  exact List.mem_map_of_mem (List.mem_of_find?_eq_some he)

theorem prevName_mem {s t : CString} (h : prevName F s = some t) : s ∈ topNames F := by
  by_contra hs
  rw [prevName, Forest.child_eq_none.mpr hs] at h
  cases h

/-! ## Links -/

theorem applyOrder_of_notMem {l : List ℕ} {next : Links} {p : ℕ} (hp : p ∉ l) :
    applyOrder l next p = next p := by
  induction l generalizing next with
  | nil => rfl
  | cons i l ih =>
      obtain ⟨hpi, hpl⟩ := not_or.mp (mt List.mem_cons.mpr hp)
      cases l with
      | nil => exact if_neg hpi
      | cons j l =>
          rw [applyOrder, ih hpl]
          exact if_neg hpi

/-- The entries are linked in the new order, up to a last one that is followed by none. -/
theorem applyOrder_found {l : List ℕ} (hn : l.Nodup) (next : Links) :
    Found (applyOrder l next) l.head? l := by
  induction l generalizing next with
  | nil => exact .null
  | cons p l ih =>
      obtain ⟨hp, hn⟩ := List.nodup_cons.mp hn
      apply Found.entry
      cases l with
      | nil =>
          rw [applyOrder, Links.set, if_pos rfl]
          exact .null
      | cons q l =>
          rw [applyOrder, applyOrder_of_notMem hp, Links.set, if_pos rfl]
          exact ih hn _

/-! ## Small lists -/

/-- An account with a name of one letter, and the reference to another one. -/
def account (s : UInt8) (prev : Option UInt8) : DbEntry where
  ptr := s.toNat
  name := .ofBuffer [s]
  seq := 1
  block := s.toNat
  defer := false
  fields := .ofData ftId [s] :: prev.toList.map fun p => .ofData ftPrev [p]

def accounts (l : List (UInt8 × Option UInt8)) : Tree :=
  .ofSiblings (l.map fun a => (account a.1 a.2, .nil))

/-- The name of one letter. -/
abbrev letter (s : UInt8) : CString := .ofBuffer [s]

/-! ## Sorting -/

theorem Told.perm (ht : Told F) (hp : G.siblings.Perm F.siblings) : Told G := by
  have htops : G.tops.Perm F.tops := by
    rw [Forest.tops_eq, Forest.tops_eq]
    exact hp.map Prod.fst
  exact ⟨(htops.map _).nodup_iff.mpr ht.ptrs, (htops.map _).nodup_iff.mpr ht.names⟩

theorem dbTsort_siblings (hG : dbTsort F = some G) : G.siblings.Perm F.siblings := by
  obtain ⟨H, hH, hp⟩ := dbTsort_perm F
  obtain rfl := Option.some.inj (hG.symm.trans hH)
  exact hp

/-- The sort ends with all entries, in a list that is linked properly. If the references have no
cycle, every entry comes after the one it refers to. -/
theorem dbTsort_sorts (ht : Told F) :
    ∃ G, dbTsort F = some G ∧ G.siblings.Perm F.siblings ∧
      (∀ next, Found (applyOrder (G.tops.map DbEntry.ptr) next)
        (G.tops.map DbEntry.ptr).head? (G.tops.map DbEntry.ptr)) ∧
      ((∀ s, ¬ Kahn.Leads (prevName F) s s) → ∀ e ∈ F.tops, ∀ p, prevName F e.name = some p →
        Before (topNames G) p e.name) := by
  obtain ⟨G, hG, hp⟩ := dbTsort_perm F
  refine ⟨G, hG, hp, applyOrder_found (ht.perm hp).ptrs, fun hac e he => ?_⟩
  apply Kahn.sort_follows_of ht.names (prevName_closed F) _ (dbTsort_names ht hG)
    (List.mem_map_of_mem he)
  rintro ⟨c, -, hc⟩
  exact absurd hc (hac c)

/-- An account that waits for the next one. -/
theorem dbTsort_sorts_waiting :
    Told (accounts [(97, some 98), (98, none)]) ∧
      ∃ G, dbTsort (accounts [(97, some 98), (98, none)]) = some G ∧
        G.siblings.Perm (accounts [(97, some 98), (98, none)]).siblings := by
  have ht : Told (accounts [(97, some 98), (98, none)]) := ⟨by decide, by decide⟩
  obtain ⟨G, hG, hp, -⟩ := dbTsort_sorts ht
  exact ⟨ht, G, hG, hp⟩

/-- Only references on cycles are given up if whatever leads to a cycle, but does not lie on it,
comes after an entry that lies on it, and only then. -/
theorem dbTsort_gives_up (ht : Told F) (hG : dbTsort F = some G) :
    (∀ e ∈ F.tops, ∀ p, prevName F e.name = some p → ¬ Kahn.Leads (prevName F) e.name e.name →
      Before (topNames G) p e.name) ↔ Kahn.Hung (prevName F) (topNames F) := by
  rw [← Kahn.sort_follows_iff ht.names (prevName_closed F) (dbTsort_names ht hG)]
  constructor
  · intro h s hs hss
    obtain ⟨e, he, rfl⟩ := List.mem_map.mp hs
    exact fun p hp => h e he p hp hss
  · intro h e he p hp hss
    exact h e.name (List.mem_map_of_mem he) hss p hp

/-- References to `a` and `b` only lead to these. -/
theorem leads_cycle {s t : CString}
    (hl : ∀ s ∈ topNames F, ∀ t, prevName F s = some t → t = letter 97 ∨ t = letter 98)
    (h : Kahn.Leads (prevName F) s t) : t = letter 97 ∨ t = letter 98 := by
  cases h with
  | single h => exact hl _ (prevName_mem h) _ h
  | tail _ h => exact hl _ (prevName_mem h) _ h

/-- The account `x`, which only hangs off the cycle, comes first and loses its reference. -/
theorem dbTsort_gives_up_hanging : ∃ F G : Tree, ∃ e ∈ F.tops, ∃ p, Told F ∧
    dbTsort F = some G ∧ prevName F e.name = some p ∧
    ¬ Kahn.Leads (prevName F) e.name e.name ∧ ¬ Before (topNames G) p e.name := by
  let l : List (UInt8 × Option UInt8) := [(120, some 97), (97, some 98), (98, some 97)]
  have hG : dbTsort (accounts l) = some (accounts l) := by decide
  refine ⟨accounts l, _, account 120 (some 97), by decide, letter 97, ⟨by decide, by decide⟩, hG,
    by decide, fun h => ?_, by decide⟩
  rcases leads_cycle (by decide) h with h | h
  · exact absurd h (by decide)
  · exact absurd h (by decide)

/-- A cycle of `a` and `b`, and `x` that hangs off it. -/
def cycleFirst : Tree := accounts [(97, some 98), (98, some 97), (120, some 97)]

/-- Where the cycle comes first, `x` keeps its reference. -/
theorem dbTsort_gives_up_cycle :
    ∃ G, dbTsort cycleFirst = some G ∧
      ∀ e ∈ cycleFirst.tops, ∀ p, prevName cycleFirst e.name = some p →
        ¬ Kahn.Leads (prevName cycleFirst) e.name e.name → Before (topNames G) p e.name := by
  have ht : Told cycleFirst := ⟨by decide, by decide⟩
  obtain ⟨G, hG, -⟩ := dbTsort_perm cycleFirst
  refine ⟨G, hG, (dbTsort_gives_up ht hG).mpr fun s hs c hsc hcc hss => ?_⟩
  have ha : prevName cycleFirst (letter 97) = some (letter 98) := by decide
  have hb : prevName cycleFirst (letter 98) = some (letter 97) := by decide
  have haa : Kahn.Leads (prevName cycleFirst) (letter 97) (letter 97) :=
    .tail (.single ha) hb
  have hbb : Kahn.Leads (prevName cycleFirst) (letter 98) (letter 98) :=
    .tail (.single hb) ha
  have hname : s = letter 97 ∨ s = letter 98 ∨ s = letter 120 := by
    simpa [topNames, cycleFirst, accounts, account, Forest.tops, Forest.ofSiblings] using hs
  rcases hname with rfl | rfl | rfl
  · exact absurd haa hss
  · exact absurd hbb hss
  · exact ⟨letter 97, .single (by decide), haa, by decide⟩

/-- The sort is stable, where the references allow it, if references do not lead forth in the
list more often than those of unrelated entries further back, and only then. -/
theorem dbTsort_stable (ht : Told F) (hac : ∀ s, ¬ Kahn.Leads (prevName F) s s)
    (hG : dbTsort F = some G) :
    (∀ order, Kahn.Stable (prevName F) (topNames F) order → topNames G = order) ↔
      ((∃ order, Kahn.Stable (prevName F) (topNames F) order) →
        ∀ s t m n, Before (topNames F) s t → ¬ Kahn.Leads (prevName F) s t →
          ¬ Kahn.Leads (prevName F) t s → Kahn.Turns (prevName F) (topNames F) s m →
          Kahn.Turns (prevName F) (topNames F) t n → m ≤ n) :=
  Kahn.sort_stable_iff ht.names (prevName_closed F) hac (dbTsort_names ht hG)

/-- A single reference leads no further. -/
theorem leads_forth {s t u v : CString}
    (hl : ∀ s ∈ topNames F, ∀ t, prevName F s = some t → s = u ∧ t = v)
    (h : Kahn.Leads (prevName F) s t) (hne : u ≠ v) : s = u ∧ t = v := by
  obtain ⟨y, hy, hyt⟩ := h.head_cases
  obtain ⟨rfl, rfl⟩ := hl _ (prevName_mem hy) _ hy
  rcases hyt with rfl | hyt
  · exact ⟨rfl, rfl⟩
  · obtain ⟨z, hz, -⟩ := hyt.head_cases
    exact absurd (hl _ (prevName_mem hz) _ hz).1 (Ne.symm hne)

/-- While `a` waits for `b`, it is overtaken by `c`. -/
theorem dbTsort_stable_overtaken : ∃ (F G : Tree) (order : List CString), Told F ∧
    (∀ s, ¬ Kahn.Leads (prevName F) s s) ∧ dbTsort F = some G ∧
    Kahn.Stable (prevName F) (topNames F) order ∧ topNames G ≠ order := by
  let l : List (UInt8 × Option UInt8) := [(97, some 98), (98, none), (99, none)]
  have hG : dbTsort (accounts l) =
      some (accounts [(98, none), (99, none), (97, some 98)]) := by decide
  have hprev : ∀ s ∈ topNames (accounts l), ∀ t, prevName (accounts l) s = some t →
      s = letter 97 ∧ t = letter 98 := by decide
  have hleads : ∀ {s t}, Kahn.Leads (prevName (accounts l)) s t →
      s = letter 97 ∧ t = letter 98 := fun h => leads_forth hprev h (by decide)
  refine ⟨accounts l, _, [letter 98, letter 97, letter 99], ⟨by decide, by decide⟩, fun s h => ?_,
    hG, ⟨by decide, fun s hs t ht => ?_, fun s t hst hnot _ => ?_⟩, by decide⟩
  · obtain ⟨h1, h2⟩ := hleads h
    exact absurd (h1.symm.trans h2) (by decide)
  · obtain ⟨rfl, rfl⟩ := hprev s hs t ht
    decide
  · have hs : ∀ s ∈ topNames (accounts l), ∀ t ∈ topNames (accounts l),
        Before (topNames (accounts l)) s t → (s = letter 97 ∧ t = letter 98) ∨
          Before [letter 98, letter 97, letter 99] s t := by decide
    rcases hs s hst.left t hst.right hst with ⟨rfl, rfl⟩ | h
    · exact absurd (Relation.TransGen.single (by decide)) hnot
    · exact h

/-- Of `a`, `b` and `c`, `b` waits for `c`. -/
def waitingLast : Tree := accounts [(97, none), (98, some 99), (99, none)]

/-- Nothing comes after what `b` waits for. -/
theorem dbTsort_stable_last :
    ∃ G, dbTsort waitingLast = some G ∧
      ∀ order, Kahn.Stable (prevName waitingLast) (topNames waitingLast) order →
        topNames G = order := by
  have ht : Told waitingLast := ⟨by decide, by decide⟩
  have hprev : ∀ s ∈ topNames waitingLast, ∀ t, prevName waitingLast s = some t →
      s = letter 98 ∧ t = letter 99 := by decide
  have hleads : ∀ {s t}, Kahn.Leads (prevName waitingLast) s t → s = letter 98 ∧ t = letter 99 :=
    fun h => leads_forth hprev h (by decide)
  have hac : ∀ s, ¬ Kahn.Leads (prevName waitingLast) s s := by
    intro s h
    obtain ⟨h1, h2⟩ := hleads h
    exact absurd (h1.symm.trans h2) (by decide)
  obtain ⟨G, hG, -⟩ := dbTsort_perm waitingLast
  refine ⟨G, hG, (dbTsort_stable ht hac hG).mpr fun _ s t m n hst h1 _ hm _ => ?_⟩
  have hpairs : ∀ s ∈ topNames waitingLast, ∀ t ∈ topNames waitingLast,
      Before (topNames waitingLast) s t → (s = letter 98 ∧ t = letter 99) ∨ s = letter 97 := by decide
  rcases hpairs s hst.left t hst.right hst with ⟨rfl, rfl⟩ | rfl
  · exact absurd (Relation.TransGen.single (by decide)) h1
  · have hzero : Kahn.Turns (prevName waitingLast) (topNames waitingLast) (letter 97) 0 :=
      .start (by decide)
    rw [hm.unique hzero]
    exact Nat.zero_le n

/-! ## Sorting again -/

theorem find_name_perm {l l' : List CString} (hp : l.Perm l') (data : Bytes) :
    (l.find? fun s => s.bytes = data) = l'.find? fun s => s.bytes = data := by
  have hfind : ∀ l : List CString, ∀ s, (l.find? fun s => s.bytes = data) = some s ↔
      s ∈ l ∧ s.bytes = data := by
    intro l s
    constructor
    · exact fun h => ⟨List.mem_of_find?_eq_some h, by simpa using List.find?_some h⟩
    · rintro ⟨hs, hd⟩
      induction l with
      | nil => cases hs
      | cons t l ih =>
          by_cases ht : t.bytes = data
          · rw [List.find?_cons_of_pos (by simpa using ht), CString.ext (ht.trans hd.symm)]
          · rw [List.find?_cons_of_neg (by simpa using ht)]
            apply ih
            rcases List.mem_cons.mp hs with rfl | hs
            · exact absurd hd ht
            · exact hs
  apply Option.ext
  intro s
  rw [hfind, hfind, hp.mem_iff]

/-- References do not depend on the order of the entries. -/
theorem prevName_perm (ht : Told F) (hp : G.siblings.Perm F.siblings) :
    prevName G = prevName F := by
  have htG := ht.perm hp
  funext s
  by_cases hs : ∃ r ∈ F.siblings, nameOf r = s
  · obtain ⟨r, hr, rfl⟩ := hs
    have hfind : ∀ (H : Tree) (data : Bytes),
        (H.tops.find? fun e => e.name.bytes = data).map DbEntry.name =
          (topNames H).find? fun s => s.bytes = data := by
      intro H data
      rw [List.find?_map]
      rfl
    have hnames : (topNames G).Perm (topNames F) := by
      rw [topNames_eq, topNames_eq]
      exact hp.map _
    rw [nameOf, prevName_of_sibling ht hr, prevName_of_sibling htG (hp.mem_iff.mpr hr)]
    simp only [hfind, find_name_perm hnames]
  · have hnone : ∀ H : Tree, H.siblings.Perm F.siblings → prevName H s = none := by
      intro H hH
      have hchild : H.child DbEntry.name s = none := by
        rw [Forest.child_eq_none, ← topNames, topNames_eq, List.mem_map]
        rintro ⟨r, hr, he⟩
        exact hs ⟨r, hH.mem_iff.mp hr, he⟩
      simp [prevName, hchild]
    rw [hnone G hp, hnone F (List.Perm.refl _)]

/-- A sort right after a sort changes nothing, whatever the references are. -/
theorem dbTsort_dbTsort (ht : Told F) (hG : dbTsort F = some G) : dbTsort G = some G := by
  have hp := dbTsort_siblings hG
  have htG := ht.perm hp
  obtain ⟨H, hH, hpH⟩ := dbTsort_perm G
  have hagain := dbTsort_names htG hH
  rw [prevName_perm ht hp] at hagain
  have hnames := Kahn.sort_sort ht.names (dbTsort_names ht hG) hagain
  rw [← topNames, ← topNames, topNames_eq, topNames_eq] at hnames
  have hsib : H.siblings = G.siblings := by
    apply eq_of_keys hpH _ hnames
    rw [← topNames_eq]
    exact (htG.perm hpH).names
  rw [hH, ← Forest.ofSiblings_siblings H, hsib, Forest.ofSiblings_siblings]

/-- Two accounts that refer to each other. -/
theorem dbTsort_dbTsort_cycle :
    ∃ G, dbTsort (accounts [(97, some 98), (98, some 97)]) = some G ∧ dbTsort G = some G := by
  have ht : Told (accounts [(97, some 98), (98, some 97)]) := ⟨by decide, by decide⟩
  obtain ⟨G, hG, -⟩ := dbTsort_perm (accounts [(97, some 98), (98, some 97)])
  exact ⟨G, hG, dbTsort_dbTsort ht hG⟩

end Sunela.Tsort
