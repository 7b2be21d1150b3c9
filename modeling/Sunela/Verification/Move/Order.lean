import Sunela.Lib.Chain
import Sunela.Verification.Move.Rewire

/-! # Moves within a total order

Where the references put all entries of the top level in one order, a move takes an entry out of
this order and puts it in again in front of another. -/

namespace Sunela.Database

open Program Storage Span Block Fields Entry Tsort

variable {env : Env} {torn : Torn} {e x : DbEntry} {p : ℕ} {db db' : Db} {f : Flash}
  {F G H : Tree}

/-- The first entry follows none, and each other one follows the entry before it. -/
abbrev Chained (l : List DbEntry) : Prop :=
  Chain (fun x => x.name.bytes) (fun x => prevData x.fields) none l

/-- The entries of the top level are in an order that their references make total. -/
structure TotalOrder (l : List DbEntry) : Prop where
  names : (l.map DbEntry.name).Nodup
  short : ∀ x ∈ l, x.name.bytes.length < 256
  once : ∀ x ∈ l, PrevOnce x.fields
  chained : Chained l

/-- The list with `e` taken out and put in again in front of `before`, or at the end if that is
none. -/
def reinsert (e : ℕ) (before : Option ℕ) (l : List ℕ) : List ℕ :=
  if before = some e then l
  else (l.erase e).takeWhile (fun x => some x ≠ before) ++
    e :: (l.erase e).dropWhile (fun x => some x ≠ before)

/-! ## Sorting a chain -/

theorem prevName_of_top (ht : Told H) (hx : x ∈ H.tops) :
    prevName H x.name = (prevData x.fields).bind fun data =>
      (H.tops.find? fun y => y.name.bytes = data).map DbEntry.name := by
  rw [Forest.tops_eq] at hx
  obtain ⟨r, hr, rfl⟩ := List.mem_map.mp hx
  rw [prevName_of_sibling ht hr, prevData]
  cases dbFieldFind r.1.fields ftPrev <;> rfl

/-- The sort brings entries whose references form a chain in the order of the chain. -/
theorem dbTsort_chain (ht : Told H) (hG : dbTsort H = some G) {l : List DbEntry}
    {ref : DbEntry → Option Bytes} (hp : (l.map DbEntry.name).Perm (topNames H))
    (hn : (l.map DbEntry.name).Nodup) (hc : Chain (fun x => x.name.bytes) ref none l)
    (hr : ∀ y ∈ H.tops, ∀ x ∈ l, y.name = x.name → prevData y.fields = ref x) :
    topNames G = l.map DbEntry.name := by
  have hbytes : Function.Injective CString.bytes := fun a b h => CString.ext h
  have hmap : ∀ l : List DbEntry, l.map (fun x => x.name.bytes) =
      (l.map DbEntry.name).map CString.bytes := fun l => by rw [List.map_map]; rfl
  have hnb : (l.map fun x => x.name.bytes).Nodup := by
    rw [hmap]
    exact hn.map hbytes
  have hsame : ∀ y ∈ H.tops, ∃ x ∈ l, x.name = y.name := fun y hy => by
    have hm := hp.mem_iff.mpr (List.mem_map_of_mem (f := DbEntry.name) hy)
    exact List.mem_map.mp hm
  -- what an entry waits for comes before it in the chain
  have hprev : ∀ s t, prevName H s = some t →
      Before (l.map fun x => x.name.bytes) t.bytes s.bytes := by
    intro s t hst
    obtain ⟨y, hy, rfl⟩ := List.mem_map.mp (prevName_mem hst)
    obtain ⟨x, hx, hxy⟩ := hsame y hy
    rw [prevName_of_top ht hy, Option.bind_eq_some_iff] at hst
    obtain ⟨data, hd, hfind⟩ := hst
    obtain ⟨z, hz, rfl⟩ := Option.map_eq_some_iff.mp hfind
    have hzd : z.name.bytes = data := by simpa using List.find?_some hz
    rw [hr y hy x hx hxy.symm] at hd
    rw [hzd, ← hxy]
    exact (hc.before hx hd).resolve_left (by simp)
  have hleads : ∀ s t, Kahn.Leads (prevName H) s t →
      Before (l.map fun x => x.name.bytes) t.bytes s.bytes := by
    intro s t h
    induction h with
    | single h => exact hprev _ _ h
    | tail _ h ih => exact (hprev _ _ h).trans hnb ih
  obtain ⟨G', hG', hperm, -, hfollows⟩ := dbTsort_sorts ht
  obtain rfl := Option.some.inj (hG.symm.trans hG')
  have hbefore := hfollows fun s h => (hleads s s h).ne hnb rfl
  have hnames : (topNames H).Perm (topNames G) := by
    rw [topNames_eq, topNames_eq]
    exact (hperm.map _).symm
  have hpb : (l.map fun x => x.name.bytes).Perm ((topNames G).map CString.bytes) := by
    rw [hmap]
    exact (hp.trans hnames).map _
  have heq := hc.eq_of_before hnb hpb fun x hx q hq => by
      obtain ⟨y, hy, hyx⟩ := List.mem_map.mp (hp.mem_iff.mp (List.mem_map_of_mem hx))
      have hq' : prevData y.fields = some q := (hr y hy x hx hyx).trans hq
      obtain ⟨w, hw, hwq⟩ : ∃ w ∈ l, w.name.bytes = q := by
        rcases hc.ref_mem hx with hnone | ⟨w, hw, hwq⟩
        · rw [hq] at hnone
          cases hnone
        · exact ⟨w, hw, Option.some.inj (hwq.symm.trans hq)⟩
      obtain ⟨z, hz, hzw⟩ := List.mem_map.mp (hp.mem_iff.mp (List.mem_map_of_mem hw))
      have hsome : (H.tops.find? fun y => y.name.bytes = q).isSome := by
        rw [List.find?_isSome]
        exact ⟨z, hz, by simp [hzw, hwq]⟩
      obtain ⟨v, hv⟩ := Option.isSome_iff_exists.mp hsome
      have hvq : v.name.bytes = q := by simpa using List.find?_some hv
      have hprevy : prevName H y.name = some v.name := by
        rw [prevName_of_top ht hy, hq', Option.bind_some, hv]
        rfl
      have hb := hbefore y hy v.name hprevy
      have hmapb : Before ((topNames G).map CString.bytes) v.name.bytes y.name.bytes :=
        List.Sublist.map CString.bytes hb
      rwa [hvq, hyx] at hmapb
  rw [hmap] at heq
  exact (List.map_injective_iff.mpr hbytes heq).symm

/-! ## The entry in front -/

theorem precedes_eq {a b : DbEntry} {U V : List DbEntry}
    (hn : ((U ++ a :: b :: V).map DbEntry.ptr).Nodup) :
    precedes b.ptr (U ++ a :: b :: V) = some a.ptr := by
  induction U with
  | nil => simp [precedes]
  | cons x U ih =>
      obtain ⟨hx, hn⟩ := List.nodup_cons.mp hn
      cases U with
      | nil =>
          have hne : a.ptr ≠ b.ptr := by
            intro h
            simp [h] at hn
          simp [precedes, hne]
      | cons y U =>
          have hne : y.ptr ≠ b.ptr := by
            intro h
            simp [h] at hn
          simp only [List.cons_append, precedes, if_neg hne]
          exact ih hn

/-- An entry is moved behind the one in front of `before`. -/
theorem dbMoveBefore_some {b : DbEntry} {U V : List DbEntry}
    (hn : (db.entries.tops.map DbEntry.ptr).Nodup) (ht : db.entries.tops = U ++ b :: V)
    (fuel : ℕ) : dbMoveBefore env fuel db p (some b.ptr) =
      dbMoveAfter env fuel db p (U.getLast?.map DbEntry.ptr) := by
  unfold dbMoveBefore
  rw [ht] at hn ⊢
  rcases List.eq_nil_or_concat' U with rfl | ⟨U, a, rfl⟩
  · simp
  · have hhead : some b.ptr ≠ ((U ++ [a] ++ b :: V).head?).map DbEntry.ptr := by
      intro h
      cases U with
      | nil =>
          simp only [List.nil_append, List.cons_append, List.head?_cons, Option.map_some,
            Option.some.injEq] at h
          simp [h] at hn
      | cons y U =>
          simp only [List.cons_append, List.head?_cons, Option.map_some, Option.some.injEq] at h
          simp [h] at hn
    rw [if_neg hhead]
    have hlist : U ++ [a] ++ b :: V = U ++ a :: b :: V := by simp
    rw [hlist] at hn ⊢
    simp [precedes_eq hn]

theorem dbMoveBefore_none (hnil : db.entries.tops ≠ []) (fuel : ℕ) :
    dbMoveBefore env fuel db p none =
      dbMoveAfter env fuel db p (db.entries.tops.getLast?.map DbEntry.ptr) := by
  unfold dbMoveBefore
  have hhead : none ≠ db.entries.tops.head?.map DbEntry.ptr := by
    cases ht : db.entries.tops with
    | nil => exact absurd ht hnil
    | cons y l => simp
  rw [if_neg hhead]

/-- The entry that `before` is behind: the last of those in front of it. -/
def inFront (before : Option DbEntry) (l : List DbEntry) : Option DbEntry :=
  match before with
  | none => l.getLast?
  | some b => (l.takeWhile fun x => x.ptr ≠ b.ptr).getLast?

theorem takeWhile_split {b : DbEntry} {l : List DbEntry} (hn : (l.map DbEntry.ptr).Nodup)
    (hb : b ∈ l) : ∃ V, l = (l.takeWhile fun x => x.ptr ≠ b.ptr) ++ b :: V := by
  induction l with
  | nil => cases hb
  | cons y l ih =>
      obtain ⟨hy, hn⟩ := List.nodup_cons.mp hn
      rcases List.mem_cons.mp hb with rfl | hb
      · exact ⟨l, by simp⟩
      · have hne : y.ptr ≠ b.ptr := fun h => hy (h ▸ List.mem_map_of_mem hb)
        obtain ⟨V, hV⟩ := ih hn hb
        exact ⟨V, by simpa [hne] using hV⟩

theorem dbMoveBefore_eq {before : Option DbEntry} (hl : Linked db.entries)
    (hnil : db.entries.tops ≠ []) (hb : ∀ b, before = some b → b ∈ db.entries.tops) (fuel : ℕ) :
    dbMoveBefore env fuel db p (before.map DbEntry.ptr) =
      dbMoveAfter env fuel db p ((inFront before db.entries.tops).map DbEntry.ptr) := by
  have hn : (db.entries.tops.map DbEntry.ptr).Nodup :=
    List.Nodup.sublist ((tops_sublist db.entries).map DbEntry.ptr) hl
  cases before with
  | none => exact dbMoveBefore_none hnil fuel
  | some b =>
      obtain ⟨V, hV⟩ := takeWhile_split hn (hb b rfl)
      exact dbMoveBefore_some hn hV fuel

/-! ## Taking out and putting in -/

theorem reinsert_eq {a : ℕ} {before : Option ℕ} {A B C D : List ℕ}
    (hn : (A ++ a :: B).Nodup) (h : A ++ B = C ++ D) (hb : before = D.head?) :
    reinsert a before (A ++ a :: B) = C ++ a :: D := by
  have hnot : a ∉ C ++ D := by
    rw [← h]
    simp only [List.nodup_append, List.nodup_cons] at hn
    intro hm
    rcases List.mem_append.mp hm with hm | hm
    · exact hn.2.2 a hm a (by simp) rfl
    · exact hn.2.1.1 hm
  have herase : (A ++ a :: B).erase a = C ++ D := by
    have hA : a ∉ A := fun hm => hnot (h ▸ List.mem_append_left _ hm)
    rw [List.erase_append_right _ hA, List.erase_cons_head, h]
  have hnd : (C ++ D).Nodup := by
    rw [← h]
    exact hn.sublist (by simp)
  have hne : before ≠ some a := by
    intro ha
    rw [ha] at hb
    exact hnot (List.mem_append_right _ (List.mem_of_head? hb.symm))
  have hC : ∀ x ∈ C, some x ≠ before := by
    intro x hx hxb
    rw [hb] at hxb
    exact (List.nodup_append.mp hnd).2.2 x hx x (List.mem_of_head? hxb.symm) rfl
  have htake : (C ++ D).takeWhile (fun x => some x ≠ before) = C ∧
      (C ++ D).dropWhile (fun x => some x ≠ before) = D := by
    rw [List.takeWhile_append_of_pos (by simpa using hC),
      List.dropWhile_append_of_pos (by simpa using hC)]
    cases D with
    | nil => simp
    | cons d D => simp [hb]
  rw [reinsert, if_neg hne, herase, htake.1, htake.2]

/-- Where the moved entry comes from, and where it goes. -/
theorem reinsert_cases {l : List DbEntry} {before : Option DbEntry}
    (hn : (l.map DbEntry.ptr).Nodup) (he : e ∈ l) (hb : ∀ b, before = some b → b ∈ l) :
    ∃ A B C D, l = A ++ e :: B ∧ A ++ B = C ++ D ∧
      reinsert e.ptr (before.map DbEntry.ptr) (l.map DbEntry.ptr) =
        (C ++ e :: D).map DbEntry.ptr ∧
      (inFront before l = some e ∧ l = C ++ e :: D ∨
        inFront before l ≠ some e ∧ inFront before l = C.getLast?) := by
  obtain ⟨U, V, hl, hfront, hhead⟩ : ∃ U V, l = U ++ V ∧ inFront before l = U.getLast? ∧
      before = V.head? := by
    cases before with
    | none => exact ⟨l, [], by simp, rfl, rfl⟩
    | some b =>
        obtain ⟨V, hV⟩ := takeWhile_split hn (hb b rfl)
        exact ⟨_, b :: V, hV, rfl, rfl⟩
  have hnl : l.Nodup := List.Nodup.of_map _ hn
  have hreinsert : ∀ A B C D, l = A ++ e :: B → A ++ B = C ++ D → before = D.head? →
      reinsert e.ptr (before.map DbEntry.ptr) (l.map DbEntry.ptr) =
        (C ++ e :: D).map DbEntry.ptr := by
    intro A B C D hA hC hD
    rw [hA, List.map_append, List.map_cons] at hn ⊢
    rw [List.map_append, List.map_cons]
    apply reinsert_eq hn
    · rw [← List.map_append, hC, List.map_append]
    · rw [hD, List.head?_map]
  rw [hfront]
  rcases List.mem_append.mp (hl ▸ he) with hU | hV
  · obtain ⟨A, B, rfl⟩ := List.append_of_mem hU
    have hA : l = A ++ e :: (B ++ V) := by simp [hl]
    rcases List.eq_nil_or_concat' B with rfl | ⟨B, a, rfl⟩
    · refine ⟨A, V, A, V, by simpa using hA, rfl, hreinsert A V A V (by simpa using hA) rfl hhead,
        .inl ⟨by simp, by simpa using hA⟩⟩
    · have hlast : (A ++ e :: (B ++ [a])).getLast? = some a := by
        rw [show A ++ e :: (B ++ [a]) = (A ++ e :: B) ++ [a] by simp, List.getLast?_concat]
      refine ⟨A, B ++ [a] ++ V, A ++ (B ++ [a]), V, by simpa using hA, by simp,
        hreinsert _ _ _ _ (by simpa using hA) (by simp) hhead, .inr ⟨fun h => ?_, ?_⟩⟩
      · obtain rfl := Option.some.inj (hlast.symm.trans h)
        rw [hl] at hnl
        simp [List.nodup_append] at hnl
      · rw [hlast, ← List.append_assoc, List.getLast?_concat]
  · have hnotU : U.getLast? ≠ some e := by
      intro h
      rw [hl] at hnl
      exact (List.nodup_append.mp hnl).2.2 e (List.mem_of_getLast? h) e hV rfl
    cases V with
    | nil => cases hV
    | cons b V =>
        rcases List.mem_cons.mp hV with rfl | hV
        · refine ⟨U, V, U, V, hl, rfl, ?_, .inr ⟨hnotU, rfl⟩⟩
          rw [hhead, ← hl]
          exact if_pos rfl
        · obtain ⟨W, B, rfl⟩ := List.append_of_mem hV
          have hA : l = (U ++ b :: W) ++ e :: B := by simp [hl]
          exact ⟨U ++ b :: W, B, U, b :: (W ++ B), hA, by simp,
            hreinsert _ _ _ _ hA (by simp) hhead, .inr ⟨hnotU, rfl⟩⟩

/-! ## Moving -/

theorem TotalOrder.irreflexive {l : List DbEntry} (h : TotalOrder l) (hx : x ∈ l) :
    prevData x.fields ≠ some x.name.bytes := by
  intro hp
  have hn : (l.map fun x => x.name.bytes).Nodup := by
    have hmap := h.names.map fun a b hab => CString.ext hab
    rwa [List.map_map] at hmap
  rcases h.chained.before hx hp with hq | hb
  · cases hq
  · exact hb.ne hn rfl

theorem TotalOrder.settles (h : TotalOrder db.entries.tops) (he : e ∈ db.entries.tops)
    {after : Option DbEntry} (ha : ∀ a, after = some a → a ∈ db.entries.tops)
    (hne : after ≠ some e) (hf : Affords env db e (nameData after)) :
    Settles env db e (nameData after) where
  self := fun hs => absurd hs (h.irreflexive he)
  cut := by
    intro x hx _ hname
    rw [DbField.ofData_data _ (h.short e he)] at hname
    obtain ⟨a, rfl, hae⟩ := Option.map_eq_some_iff.mp hname
    exact hne (by rw [List.inj_on_of_nodup_map h.names (ha a rfl) he (CString.ext hae)])
  supplied := hf.supplied

/-- The order that the references give after a move, and the sort brings about. -/
theorem moved_order (hl : Linked db.entries) (h : TotalOrder db.entries.tops)
    (he : e ∈ db.entries.tops) {after : Option DbEntry}
    (ha : ∀ a, after = some a → a ∈ db.entries.tops) {A B C D : List DbEntry}
    (hA : db.entries.tops = A ++ e :: B) (hC : A ++ B = C ++ D) (hafter : after = C.getLast?)
    (hH : dbTsort H = some G) (hal : Alike H (moved e (nameData after) db.entries)) :
    G.tops.map DbEntry.ptr = (C ++ e :: D).map DbEntry.ptr ∧ Chained G.tops := by
  have hlen : ∀ name, nameData after = some name → name.length < 256 := by
    intro name hn
    obtain ⟨a, rfl, rfl⟩ := Option.map_eq_some_iff.mp hn
    exact h.short a (ha a rfl)
  have hperm : (C ++ e :: D).Perm db.entries.tops := by
    rw [hA]
    refine List.perm_middle.trans (.trans (.cons e ?_) List.perm_middle.symm)
    rw [hC]
  have hbytes : (db.entries.tops.map fun x => x.name.bytes).Nodup := by
    have hmap := h.names.map fun a b hab => CString.ext hab
    rwa [List.map_map] at hmap
  -- the references after the move form a chain in the new order
  have hchain : Chain (fun x => x.name.bytes) (newPrev e (nameData after)) none (C ++ e :: D) := by
    have hc := h.chained
    rw [hA] at hc hbytes
    have hremoved := hc.remove hbytes
    rw [hC] at hremoved
    have hsub : (A ++ B).Sublist (A ++ e :: B) := by simp
    have hnCD : ((C ++ D).map fun x => x.name.bytes).Nodup := by
      rw [← hC]
      exact hbytes.sublist (hsub.map _)
    have hend : nameData after = chainEnd (fun x => x.name.bytes) none C := by
      rw [chainEnd_eq, hafter]
    apply hremoved.insert hnCD (by rw [← hend]; exact if_pos rfl)
    intro x hx
    have hne : x.ptr ≠ e.ptr := by
      intro hp
      have hxA : x ∈ A ++ B := hC ▸ hx
      have hn : ((A ++ e :: B).map DbEntry.ptr).Nodup :=
        hA ▸ List.Nodup.sublist ((tops_sublist db.entries).map DbEntry.ptr) hl
      rw [List.perm_middle.map DbEntry.ptr |>.nodup_iff, List.map_cons, List.nodup_cons] at hn
      exact hn.1 (hp ▸ List.mem_map_of_mem hxA)
    rw [newPrev, if_neg hne, rewired, hend]
  -- the entries of the list that is sorted
  obtain ⟨k, hk, hktop⟩ := moved_map e (nameData after) db.entries
  have hmoved : (moved e (nameData after) db.entries).tops =
      db.entries.tops.map (rewriteEntry e (nameData after)) := by
    rw [hk, tops_map]
    exact List.map_congr_left hktop
  have hspec : ∀ x ∈ db.entries.tops, OnlyPrev x (rewriteEntry e (nameData after) x) ∧
      prevData (rewriteEntry e (nameData after) x).fields = newPrev e (nameData after) x :=
    fun x hx => rewriteEntry_prev (h.once x hx) (h.irreflexive he) (h.short e he) hlen
  have hface : ∀ y ∈ H.tops, ∃ x ∈ db.entries.tops, OnlyPrev x y ∧
      prevData y.fields = newPrev e (nameData after) x := by
    intro y hy
    have hm := hal.tops.mem_iff.mp (List.mem_map_of_mem hy)
    rw [hmoved, List.map_map] at hm
    obtain ⟨x, hx, hf⟩ := List.mem_map.mp hm
    obtain ⟨ho, hp⟩ := (hspec x hx).1.of_face hf.symm
    exact ⟨x, hx, ho, hp.trans (hspec x hx).2⟩
  have hkeys : (H.tops.map fun y => (y.ptr, y.name)).Perm
      (db.entries.tops.map fun x => (x.ptr, x.name)) := by
    have hm := hal.tops.map fun t => (t.1, t.2.1)
    rw [hmoved, List.map_map, List.map_map, List.map_map] at hm
    refine hm.trans (.of_eq (List.map_congr_left fun x hx => ?_))
    have hs := (hspec x hx).1
    exact Prod.ext hs.ptr hs.name
  have hnames : (topNames H).Perm (db.entries.tops.map DbEntry.name) := by
    have hm := hkeys.map Prod.snd
    rwa [List.map_map, List.map_map] at hm
  have hptrs : (H.tops.map DbEntry.ptr).Perm (db.entries.tops.map DbEntry.ptr) := by
    have hm := hkeys.map Prod.fst
    rwa [List.map_map, List.map_map] at hm
  have hnptr : (db.entries.tops.map DbEntry.ptr).Nodup :=
    List.Nodup.sublist ((tops_sublist db.entries).map DbEntry.ptr) hl
  have ht : Told H := ⟨hptrs.nodup_iff.mpr hnptr, hnames.nodup_iff.mpr h.names⟩
  have href : ∀ y ∈ H.tops, ∀ x ∈ C ++ e :: D, y.name = x.name →
      prevData y.fields = newPrev e (nameData after) x := by
    intro y hy x hx hyx
    obtain ⟨z, hz, ho, hp⟩ := hface y hy
    have hzx := List.inj_on_of_nodup_map h.names hz (hperm.mem_iff.mp hx) (ho.name.symm.trans hyx)
    rw [hp, hzx]
  have hnD : ((C ++ e :: D).map DbEntry.name).Nodup :=
    (hperm.map DbEntry.name).nodup_iff.mpr h.names
  have hsorted : topNames G = (C ++ e :: D).map DbEntry.name :=
    dbTsort_chain ht hH ((hperm.map _).trans hnames.symm) hnD hchain href
  have hGH : G.tops.Perm H.tops := by
    rw [Forest.tops_eq, Forest.tops_eq]
    exact (dbTsort_siblings hH).map Prod.fst
  constructor
  · have hpair : G.tops.map (fun y => (y.ptr, y.name)) =
        (C ++ e :: D).map fun x => (x.ptr, x.name) := by
      have hnG : (topNames G).Nodup := hsorted ▸ hnD
      apply eq_of_keys (k := Prod.snd) (((hGH.map _).trans hkeys).trans (hperm.map _).symm)
      · rw [List.map_map]
        exact hnG
      · rw [List.map_map, List.map_map]
        exact hsorted
    have hfst := congrArg (List.map Prod.fst) hpair
    rwa [List.map_map, List.map_map] at hfst
  · have hzip : Chained G.tops ↔ Chain (fun x : DbEntry => x.name.bytes)
        (newPrev e (nameData after)) none (C ++ e :: D) := by
      apply chain_zip
      · have hm := congrArg (List.map CString.bytes) hsorted
        rwa [topNames, List.map_map, List.map_map] at hm
      · intro y hy x hx hyx
        exact href y (hGH.mem_iff.mp hy) x hx (CString.ext hyx)
    exact hzip.mpr hchain

theorem inFront_mem {before : Option DbEntry} {l : List DbEntry} {a : DbEntry}
    (h : inFront before l = some a) : a ∈ l := by
  cases before with
  | none => exact List.mem_of_getLast? h
  | some b => exact (List.takeWhile_sublist _).subset (List.mem_of_getLast? h)

/-- While no change is refused, a move comes to its end, and it takes an entry of a total order out
and puts it in again in front of `before`. -/
theorem wp_dbMoveBefore {before : Option DbEntry} (hr : InRange env db)
    (he : e ∈ db.entries.entries) (hnil : db.entries.tops ≠ [])
    (hb : ∀ b, before = some b → b ∈ db.entries.tops)
    (hf : inFront before db.entries.tops ≠ some e →
      Settles env db e (nameData (inFront before db.entries.tops)) ∧
      Affords env db e (nameData (inFront before db.entries.tops))) :
    ∃ n, ∀ fuel, n ≤ fuel →
      wp (ending (Step torn)) (dbMoveBefore env fuel db e.ptr (before.map DbEntry.ptr))
        (fun db' _ => e ∈ db.entries.tops → TotalOrder db.entries.tops →
          db'.entries.tops.map DbEntry.ptr =
            reinsert e.ptr (before.map DbEntry.ptr) (db.entries.tops.map DbEntry.ptr) ∧
          Chained db'.entries.tops) f := by
  have hn : (db.entries.tops.map DbEntry.ptr).Nodup :=
    List.Nodup.sublist ((tops_sublist db.entries).map DbEntry.ptr) hr.linked
  have heq := fun fuel => @dbMoveBefore_eq env e.ptr db before hr.linked hnil hb fuel
  by_cases hfront : inFront before db.entries.tops = some e
  · refine ⟨0, fun fuel _ => ?_⟩
    rw [heq, hfront, Option.map_some, dbMoveAfter, if_pos rfl]
    intro he ht
    obtain ⟨A, B, C, D, -, -, hreinsert, hcase⟩ := reinsert_cases hn he hb
    rcases hcase with ⟨-, hD⟩ | ⟨hne, -⟩
    · rw [hreinsert, ← hD]
      exact ⟨rfl, ht.chained⟩
    · exact absurd hfront hne
  · obtain ⟨hs, ha⟩ := hf hfront
    have hmem : ∀ a, inFront before db.entries.tops = some a → a ∈ db.entries.tops :=
      fun a h => inFront_mem h
    refine ⟨rounds (moveUpdates e (nameData (inFront before db.entries.tops))) e.ptr db.entries + 1,
      fun fuel hfuel => ?_⟩
    rw [heq]
    apply wp_mono (wp_dbMoveAfter hr he (fun a h => mem_entries_of_top (hmem a h)) hfront hs ha
      hfuel)
    intro db' g hdb' he ht
    obtain ⟨-, H, hH, hal⟩ := hdb'
    obtain ⟨A, B, C, D, hA, hC, hreinsert, hcase⟩ := reinsert_cases hn he hb
    rcases hcase with ⟨hin, -⟩ | ⟨-, hafter⟩
    · exact absurd hin hfront
    · rw [hreinsert]
      exact moved_order hr.linked ht he hmem hA hC hafter hH hal

/-- A move within a total order takes the entry out, puts it in again in front of `before`, and
leaves a total order. -/
theorem dbMoveBefore_reorders (before : Option DbEntry) (hr : InRange env db)
    (ht : TotalOrder db.entries.tops) (he : e ∈ db.entries.tops)
    (hb : ∀ b, before = some b → b ∈ db.entries.tops)
    (hf : inFront before db.entries.tops ≠ some e →
      Affords env db e (nameData (inFront before db.entries.tops))) :
    ∃ n, ∀ fuel, n ≤ fuel →
      wp (ending (Step torn)) (dbMoveBefore env fuel db e.ptr (before.map DbEntry.ptr))
        (fun db' _ => db'.entries.tops.map DbEntry.ptr =
            reinsert e.ptr (before.map DbEntry.ptr) (db.entries.tops.map DbEntry.ptr) ∧
          Chained db'.entries.tops) f := by
  have hsettles : inFront before db.entries.tops ≠ some e →
      Settles env db e (nameData (inFront before db.entries.tops)) := by
    intro hne
    exact ht.settles he (fun a h => inFront_mem h) hne (hf hne)
  obtain ⟨n, hw⟩ := @wp_dbMoveBefore env torn e db f before hr (mem_entries_of_top he)
    (List.ne_nil_of_mem he) hb fun hne => ⟨hsettles hne, hf hne⟩
  exact ⟨n, fun fuel hfuel => wp_mono (hw fuel hfuel) fun _ _ hdb' => hdb' he ht⟩

/-- Moving `c` in front of `b`. -/
theorem dbMoveBefore_reorders_three : ∃ n, ∀ fuel, n ≤ fuel → wp (ending Works)
    (dbMoveBefore (plainEnv 256) fuel threeDb 99 (some 98))
    (fun db' _ => db'.entries.tops.map DbEntry.ptr = [97, 99, 98] ∧ Chained db'.entries.tops)
    (plainFlash []) :=
  dbMoveBefore_reorders (e := account 99 (some 98)) (some (account 98 (some 97))) threeDb_inRange
    ⟨by decide, by decide, by unfold PrevOnce; decide, by decide⟩ (by decide) (by decide)
    fun _ => ⟨by decide, by decide, by decide⟩

end Sunela.Database
