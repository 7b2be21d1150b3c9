import Sunela.Lib.Kahn
import Sunela.Verification.Tsort.Permutation

/-! # The sort by names

What the sort does to the names of the top-level entries, whatever else the entries are. -/

namespace Sunela.Tsort

open Fields Entry

/-- The name of the entry that the entry of a name waits for. -/
def prevName (F : Tree) (s : CString) : Option CString := do
  let (e, _) ← F.child DbEntry.name s
  let f ← dbFieldFind e.fields ftPrev
  let e2 ← F.tops.find? fun e2 => e2.name.bytes = f.data
  return e2.name

def nameOf (r : DbEntry × Tree) : CString := r.1.name

/-- The slot agrees with the names: its reference is there as long as the entry has to wait. -/
structure Agrees (F : Tree) (broken out : List CString) (t : Tmp) : Prop where
  top : ∀ r, t.input = some r → r.1 ∈ F.tops
  free : ∀ r, t.input = some r → t.prev = none →
    nameOf r ∈ broken ∨ Kahn.Ready (prevName F) out (nameOf r)
  waits : ∀ r p, t.input = some r → t.prev = some p → nameOf r ∉ broken ∧
    ∃ e ∈ F.tops, e.ptr = p ∧ prevName F (nameOf r) = some e.name ∧ e.name ∉ out

variable {F G : Tree} {broken out : List CString} {t : Tmp}

theorem Agrees.not_ready (h : Agrees F broken out t) {r : DbEntry × Tree} (hr : t.input = some r)
    {p : ℕ} (hp : t.prev = some p) :
    ¬ (nameOf r ∈ broken ∨ Kahn.Ready (prevName F) out (nameOf r)) := by
  obtain ⟨hb, e, -, -, hprev, hout⟩ := h.waits r p hr hp
  rintro (hin | hready)
  · exact hb hin
  · exact hout (hready e.name hprev)

/-- The entries are told apart by their pointers and by their names. -/
structure Told (F : Tree) : Prop where
  ptrs : (F.tops.map DbEntry.ptr).Nodup
  names : (F.tops.map DbEntry.name).Nodup

theorem Told.eq_of_ptr (h : Told F) {e e' : DbEntry} (he : e ∈ F.tops) (he' : e' ∈ F.tops)
    (hp : e.ptr = e'.ptr) : e = e' := List.inj_on_of_nodup_map h.ptrs he he' hp

theorem Told.eq_of_name (h : Told F) {e e' : DbEntry} (he : e ∈ F.tops) (he' : e' ∈ F.tops)
    (hn : e.name = e'.name) : e = e' := List.inj_on_of_nodup_map h.names he he' hn

/-- An entry is put out, and references to it are cleared. -/
theorem Agrees.clear (h : Agrees F broken out t) (ht : Told F) {e : DbEntry} (he : e ∈ F.tops) :
    Agrees F broken (out ++ [e.name]) (t.clear e.ptr) where
  top r hr := h.top r (by rwa [clear_input] at hr)
  free r hr hp := by
    rw [clear_input] at hr
    unfold Tmp.clear at hp
    split at hp
    · next hprev =>
        obtain ⟨-, e', he', hptr, hname, -⟩ := h.waits r _ hr hprev
        obtain rfl := ht.eq_of_ptr he' he hptr
        refine .inr fun q hq => ?_
        rw [hname] at hq
        obtain rfl := Option.some.inj hq
        simp
    · refine (h.free r hr hp).imp_right fun hready q hq => ?_
      exact List.mem_append_left _ (hready q hq)
  waits r p hr hp := by
    rw [clear_input] at hr
    unfold Tmp.clear at hp
    split at hp
    · cases hp
    · next hne =>
        obtain ⟨hb, e', he', hptr, hname, hout⟩ := h.waits r p hr hp
        refine ⟨hb, e', he', hptr, hname, ?_⟩
        intro hmem
        rcases List.mem_append.mp hmem with hmem | hmem
        · exact hout hmem
        · obtain rfl := ht.eq_of_name he' he (List.mem_singleton.mp hmem)
          rw [hptr] at hne
          exact hne hp

/-- The names of the entries that are left. -/
def left (tmp : List Tmp) : List CString := (waiting tmp).map nameOf

theorem left_map_clear (p : ℕ) (tmp : List Tmp) : left (tmp.map (Tmp.clear p)) = left tmp := by
  rw [left, waiting_map_clear, left]

/-- The rest of a sweep. -/
theorem visits_names (ht : Told F) {a b : List Tmp} {s : Sweep} (hs : s.tmp = a ++ b)
    (hagree : ∀ t ∈ s.tmp, Agrees F broken (s.out.map nameOf) t) :
    let s' := (List.range' a.length b.length).foldl Sweep.visit s
    let r := Kahn.sweep (prevName F) broken (left b) (s.out.map nameOf)
    s'.out.map nameOf = r.2 ∧ left s'.tmp = left a ++ r.1 ∧
      (∀ t ∈ s'.tmp, Agrees F broken (s'.out.map nameOf) t) ∧
      (s'.more = true ↔ s.more = true ∨ r.1 ≠ []) ∧
      (s'.progress = true ↔ s.progress = true ∨ r.2 ≠ s.out.map nameOf) := by
  obtain ⟨n, hn⟩ : ∃ n, b.length = n := ⟨_, rfl⟩
  induction n generalizing a b s with
  | zero =>
      obtain rfl := List.length_eq_zero_iff.mp hn
      rw [List.append_nil] at hs
      refine ⟨rfl, ?_, hagree, ?_, ?_⟩
      · simp [hs, left, waiting, Kahn.sweep]
      · simp [left, waiting, Kahn.sweep]
      · simp [left, waiting, Kahn.sweep]
  | succ n ih =>
      obtain ⟨t, b, rfl⟩ := List.exists_cons_of_length_eq_add_one hn
      have hn' : b.length = n := by simpa using hn
      have hget : s.tmp[a.length]? = some t := by rw [hs]; simp
      have hmem : t ∈ s.tmp := by rw [hs]; simp
      have hagain : ∀ u : Tmp, (a ++ [u]).length = a.length + 1 := fun u => by simp
      have hcons : ∀ l, s.tmp = (a ++ [t]) ++ l ↔ s.tmp = a ++ t :: l := fun l => by simp
      intro s' r
      simp only [s', r, List.length_cons, List.range'_succ, List.foldl_cons]
      cases hr : t.input with
      | none =>
          have hvisit : s.visit a.length = s := by simp [Sweep.visit, hget, hr]
          have hleft : left (t :: b) = left b := by simp [left, waiting, hr]
          have hnone : left (a ++ [t]) = left a := by simp [left, waiting, hr]
          have h := ih ((hcons b).mpr hs) hagree hn'
          rw [hagain, hnone] at h
          rw [hvisit, hleft]
          exact h
      | some e =>
          have htop := (hagree t hmem).top e hr
          have hleft : left (t :: b) = nameOf e :: left b := by simp [left, waiting, hr]
          cases hp : t.prev with
          | some p =>
              have hvisit : s.visit a.length = { s with more := true } := by
                simp [Sweep.visit, hget, hr, hp]
              have hone : left (a ++ [t]) = left a ++ [nameOf e] := by simp [left, waiting, hr]
              have hwait := (hagree t hmem).not_ready hr hp
              have h := ih (s := { s with more := true }) ((hcons b).mpr hs) hagree hn'
              rw [hagain, hone] at h
              obtain ⟨hout, hrest, hall, hmore, hprogress⟩ := h
              rw [hvisit, hleft, Kahn.sweep, if_neg hwait]
              refine ⟨hout, ?_, hall, ?_, hprogress⟩
              · rw [hrest, List.append_assoc]
                rfl
              · simp [hmore]
          | none =>
              have hfree := (hagree t hmem).free e hr hp
              let next : Sweep :=
                { s with
                  tmp := (s.tmp.set a.length { t with input := none }).map (Tmp.clear e.1.ptr)
                  out := s.out ++ [e]
                  progress := true }
              have hvisit : s.visit a.length = next := by
                simp [Sweep.visit, hget, hr, hp, next]
              have hset : s.tmp.set a.length { t with input := none } =
                  (a ++ [{ t with input := none }]) ++ b := by
                rw [hs, List.set_append_right _ _ (Nat.le_refl _)]
                simp
              have htmp : next.tmp = (a ++ [{ t with input := none }]).map (Tmp.clear e.1.ptr) ++
                  b.map (Tmp.clear e.1.ptr) := by
                simp only [next, hset, List.map_append]
              have hnext : ∀ u ∈ next.tmp, Agrees F broken (next.out.map nameOf) u := by
                intro u hu
                obtain ⟨v, hv, rfl⟩ := List.mem_map.mp hu
                have hv' : Agrees F broken (s.out.map nameOf) v := by
                  rcases List.mem_or_eq_of_mem_set hv with hv | rfl
                  · exact hagree v hv
                  · exact ⟨by simp, by simp, by simp⟩
                simp only [next, List.map_append]
                exact hv'.clear ht htop
              have hlen : ((a ++ [{ t with input := none }]).map (Tmp.clear e.1.ptr)).length =
                  a.length + 1 := by simp
              have hnone : left (a ++ [{ t with input := none }]) = left a := by
                simp [left, waiting]
              have h := ih htmp hnext (by rw [List.length_map]; exact hn')
              rw [hlen, List.length_map, left_map_clear, left_map_clear, hnone] at h
              obtain ⟨hout, hrest, hall, hmore, hprogress⟩ := h
              rw [hvisit, hleft, Kahn.sweep, if_pos hfree]
              have houts : next.out.map nameOf = s.out.map nameOf ++ [nameOf e] := by simp [next]
              rw [houts] at hout hrest hmore hprogress
              obtain ⟨front, hfront, -⟩ := Kahn.sweep_perm (prevName F) broken (left b)
                (s.out.map nameOf ++ [nameOf e])
              refine ⟨hout, hrest, hall, hmore, ?_⟩
              rw [hprogress]
              simp [next, hfront]

/-- A sweep without progress has found that every entry has to wait, and the first one is let go. -/
theorem breakCycle_agrees {tmp : List Tmp} {x : CString} {rest out : List CString}
    (hagree : ∀ t ∈ tmp, Agrees F broken out t) (hleft : left tmp = x :: rest)
    (hn : (left tmp).Nodup) (hwait : ∀ t ∈ tmp, t.input.isSome → t.prev.isSome) :
    left (breakCycle tmp) = left tmp ∧ ∀ t ∈ breakCycle tmp, Agrees F (x :: broken) out t := by
  refine ⟨by rw [left, waiting_breakCycle, left], ?_⟩
  have hother : ∀ t, Agrees F broken out t → (∀ r, t.input = some r → nameOf r ∉ [x]) →
      Agrees F (x :: broken) out t := by
    intro t h hne
    refine ⟨h.top, fun r hr hp => ?_, fun r p hr hp => ?_⟩
    · exact (h.free r hr hp).imp_left (List.mem_cons_of_mem x)
    · obtain ⟨hb, hrest⟩ := h.waits r p hr hp
      have hx := hne r hr
      simp only [List.mem_singleton] at hx
      exact ⟨by simp [hx, hb], hrest⟩
  induction tmp with
  | nil => simp [left, waiting] at hleft
  | cons t tmp ih =>
      intro u hu
      cases hr : t.input with
      | none =>
          have hskip : left (t :: tmp) = left tmp := by simp [left, waiting, hr]
          have hbreak : breakCycle (t :: tmp) = t :: breakCycle tmp := by simp [breakCycle, hr]
          rw [hskip] at hleft hn
          rw [hbreak] at hu
          rcases List.mem_cons.mp hu with rfl | hu
          · exact hother u (hagree u (by simp)) fun r h => by rw [hr] at h; cases h
          · exact ih (fun v hv => hagree v (by simp [hv])) hleft hn
              (fun v hv => hwait v (by simp [hv])) u hu
      | some e =>
          have hfirst : left (t :: tmp) = nameOf e :: left tmp := by simp [left, waiting, hr]
          have hprev := hwait t (by simp) (by simp [hr])
          have hbreak : breakCycle (t :: tmp) = { t with prev := none } :: tmp := by
            simp [breakCycle, hr, hprev]
          rw [hfirst] at hleft hn
          obtain ⟨rfl, rfl⟩ := List.cons.inj hleft
          rw [hbreak] at hu
          rcases List.mem_cons.mp hu with rfl | hu
          · refine ⟨(hagree t (by simp)).top, fun r h _ => ?_, fun r p _ h => by cases h⟩
            have he : r = e := Option.some.inj (h.symm.trans hr)
            exact .inl (by simp [he])
          · refine hother u (hagree u (by simp [hu])) fun r h hx => ?_
            have hmem : nameOf r ∈ left tmp :=
              List.mem_map_of_mem (List.mem_filterMap.mpr ⟨u, hu, h⟩)
            rw [List.mem_singleton.mp hx] at hmem
            exact (List.nodup_cons.mp hn).1 hmem

theorem sortLoop_names (ht : Told F) {fuel : ℕ} {tmp : List Tmp} {outs l : List (DbEntry × Tree)}
    (hagree : ∀ t ∈ tmp, Agrees F broken (outs.map nameOf) t) (hn : (left tmp).Nodup)
    (hl : sortLoop fuel tmp outs = some l) :
    Kahn.rounds (prevName F) fuel broken (left tmp) (outs.map nameOf) = some (l.map nameOf) := by
  induction fuel generalizing tmp outs broken with
  | zero => cases hl
  | succ fuel ih =>
      have hvisits := visits_names ht (List.nil_append tmp).symm
        (s := ⟨tmp, outs, false, false⟩) hagree
      have hsame := @Kahn.sweep_same _ _ (prevName F) broken (left tmp) (outs.map nameOf)
      obtain ⟨front, -, hperm⟩ := Kahn.sweep_perm (prevName F) broken (left tmp) (outs.map nameOf)
      have hswept : (List.range' ([] : List Tmp).length tmp.length).foldl Sweep.visit
          ⟨tmp, outs, false, false⟩ = sweep tmp outs := by
        rw [sweep, List.range_eq_range']
        rfl
      have hidle := (sweep_sweeping tmp outs).idle
      simp only [hswept] at hvisits
      rw [sortLoop] at hl
      rw [Kahn.rounds]
      generalize sweep tmp outs = s at hvisits hidle hl
      generalize Kahn.sweep (prevName F) broken (left tmp) (outs.map nameOf) = r at *
      obtain ⟨rest, out⟩ := r
      obtain ⟨hout, hleft, hall, hmore, hprogress⟩ := hvisits
      simp only [Bool.false_eq_true, false_or] at hmore hprogress hperm
      have hrest : left s.tmp = rest := by simpa [left, waiting] using hleft
      subst hout
      cases rest with
      | nil =>
          have hm : s.more = false := by simpa using hmore
          simp only [hm, Bool.not_false, if_true, Option.some.injEq] at hl
          rw [hl]
      | cons x rest =>
          have hm : s.more = true := hmore.mpr (by simp)
          have hnodup : (left s.tmp).Nodup := by
            rw [hrest]
            exact (List.nodup_append.mp (hperm.nodup_iff.mpr hn)).2.1
          simp only [hm, Bool.not_true, Bool.false_eq_true, if_false] at hl
          simp only
          cases hp : s.progress with
          | true =>
              rw [hp, if_pos rfl] at hl
              rw [if_neg (hprogress.mp hp), ← hrest]
              exact ih hall hnodup hl
          | false =>
              have he : s.out.map nameOf = outs.map nameOf := by
                by_contra hne
                rw [hprogress.mpr hne] at hp
                cases hp
              rw [hp] at hl
              simp only [Bool.false_eq_true, if_false] at hl
              have hwait : ∀ t ∈ s.tmp, t.input.isSome → t.prev.isSome := by
                intro t ht' hin
                obtain ⟨e, hin⟩ := Option.isSome_iff_exists.mp hin
                by_contra hprev
                have hfree := (hall t ht').free e hin (by simpa using hprev)
                rw [hidle hp] at ht'
                have hmem : nameOf e ∈ left tmp :=
                  List.mem_map_of_mem (List.mem_filterMap.mpr ⟨t, ht', hin⟩)
                rw [he] at hfree
                obtain ⟨h1, h2⟩ := (hsame he).2 _ hmem
                exact hfree.elim h1 h2
              obtain ⟨hsame', hbroken⟩ := breakCycle_agrees hall hrest hnodup hwait
              rw [if_pos he, ← hrest, ← hsame']
              exact ih hbroken (by rw [hsame']; exact hnodup) hl

theorem child_of_sibling {F : Tree} (hn : (F.tops.map DbEntry.name).Nodup) {r : DbEntry × Tree}
    (hr : r ∈ F.siblings) : F.child DbEntry.name r.1.name = some r := by
  induction F with
  | nil => cases hr
  | node e ch nx _ ih =>
      simp only [Forest.tops, List.map_cons, List.nodup_cons] at hn
      rcases List.mem_cons.mp hr with rfl | hr
      · simp [Forest.child]
      · have hne : e.name ≠ r.1.name := by
          intro he
          apply hn.1
          rw [he, Forest.tops_eq, List.map_map]
          exact List.mem_map_of_mem hr
        rw [Forest.child, if_neg hne]
        exact ih hn.2 hr

theorem prevName_of_sibling (ht : Told F) {r : DbEntry × Tree} (hr : r ∈ F.siblings) :
    prevName F r.1.name = (dbFieldFind r.1.fields ftPrev).bind fun f =>
      (F.tops.find? fun e2 => e2.name.bytes = f.data).map DbEntry.name := by
  unfold prevName
  rw [child_of_sibling ht.names hr]
  simp only [Option.bind_eq_bind, Option.bind_some, Option.pure_def, Option.map_eq_bind]
  rfl

theorem start_agrees (ht : Told F) {r : DbEntry × Tree} (hr : r ∈ F.siblings) :
    Agrees F [] [] ⟨some r, resolvePrev F r.1⟩ := by
  have hprev := prevName_of_sibling ht hr
  have htop : r.1 ∈ F.tops := by
    rw [Forest.tops_eq]
    exact List.mem_map_of_mem hr
  unfold resolvePrev
  cases hf : dbFieldFind r.1.fields ftPrev with
  | none =>
      rw [hf, Option.bind_none] at hprev
      refine ⟨fun _ h => Option.some.inj h ▸ htop, fun _ h _ => .inr fun q hq => ?_,
        fun _ _ _ h => by cases h⟩
      rw [← Option.some.inj h, nameOf, hprev] at hq
      cases hq
  | some f =>
      rw [hf, Option.bind_some] at hprev
      simp only
      cases hfind : F.tops.find? fun e2 => e2.name.bytes = f.data with
      | none =>
          rw [hfind] at hprev
          refine ⟨fun _ h => Option.some.inj h ▸ htop, fun _ h _ => .inr fun q hq => ?_,
            fun _ _ _ h => by cases h⟩
          rw [← Option.some.inj h, nameOf, hprev] at hq
          cases hq
      | some e2 =>
          rw [hfind] at hprev
          refine ⟨fun _ h => Option.some.inj h ▸ htop, fun _ _ h => (by cases h),
            fun _ p h hp => ⟨by simp, e2, List.mem_of_find?_eq_some hfind, Option.some.inj hp, ?_,
              by simp⟩⟩
          rw [← Option.some.inj h]
          exact hprev

/-- The names are sorted by the names of the entries that entries wait for. -/
theorem dbTsort_names (ht : Told F) (hG : dbTsort F = some G) :
    Kahn.sort (prevName F) (F.tops.map DbEntry.name) = some (G.tops.map DbEntry.name) := by
  have htops : ∀ F : Tree, F.tops.map DbEntry.name = F.siblings.map nameOf := by
    intro F
    rw [Forest.tops_eq, List.map_map]
    rfl
  unfold dbTsort at hG
  simp only at hG
  split at hG
  · next hnil =>
      obtain rfl := Option.some.inj hG
      have hempty : F.tops.map DbEntry.name = [] := by
        rw [htops, List.length_eq_zero_iff.mp hnil]
        rfl
      rw [hempty]
      rfl
  · split at hG
    · cases hG
    · next l hl =>
        split at hG
        · obtain rfl := Option.some.inj hG
          have hagree : ∀ t ∈ F.siblings.map (fun r => (⟨some r, resolvePrev F r.1⟩ : Tmp)),
              Agrees F [] (([] : List (DbEntry × Tree)).map nameOf) t := by
            intro t hmem
            obtain ⟨r, hr, rfl⟩ := List.mem_map.mp hmem
            exact start_agrees ht hr
          have hleft : left (F.siblings.map fun r => ⟨some r, resolvePrev F r.1⟩) =
              F.tops.map DbEntry.name := by
            rw [htops, left, waiting, List.filterMap_map]
            simp
          have hsort := sortLoop_names ht hagree (by rw [hleft]; exact ht.names) hl
          rw [hleft] at hsort
          rw [Kahn.sort, htops (.ofSiblings l), Forest.siblings_ofSiblings]
          have hlen : (F.tops.map DbEntry.name).length = F.siblings.length := by
            rw [htops, List.length_map]
          rw [hlen]
          exact hsort
        · cases hG

end Sunela.Tsort
