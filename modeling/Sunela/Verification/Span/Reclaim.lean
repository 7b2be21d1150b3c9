import Mathlib.Data.List.Pairwise
import Sunela.Verification.Span.Groups

/-! # Reclaiming groups

Blocks are added and pulled in any order. A complete group is found again if no blocks are lost
and if neighbouring blocks end up in one span, unless a group ends between them. -/

namespace Sunela.Span

variable {s t : Spans} {n size e b : ℕ} {hs : 0 < size} {he : 0 < e}

/-- Neighbouring blocks of the list are in one span, unless a group ends between them. -/
def Spans.Whole (s : Spans) (e : ℕ) : Prop :=
  ∀ b, b ∈ s.blocks → b + 1 ∈ s.blocks → ¬ e ∣ b + 1 →
    ∃ d ∈ s.toList, d.start ≤ b ∧ b + 1 < d.start + d.len

theorem mem_same {d d' : DbSpan} (hd : s.Disjoint) (h : d ∈ s.toList) (h' : d' ∈ s.toList)
    (hb : d.start ≤ b ∧ b < d.start + d.len) (hb' : d'.start ≤ b ∧ b < d'.start + d'.len) :
    d = d' := by
  by_contra hne
  have : Std.Symm DbSpan.Apart := ⟨fun _ _ h => h.symm⟩
  have hapart : d.Apart d' := hd.forall h h' hne
  rcases hapart with h | h
  · omega
  · omega

/-- A complete group is in one span. -/
theorem Spans.Whole.group (h : s.Whole e) (hi : s.Intact) (hd : s.Disjoint) (he : 0 < e)
    (hn : e ∣ n) (hall : ∀ b, n ≤ b → b < n + e → b ∈ s.blocks) :
    ∃ d ∈ s.toList, d.HasGroup e := by
  obtain ⟨d, hdm, hlo, hhi⟩ := (mem_blocks hi).mp (hall n (Nat.le_refl _) (by omega))
  refine ⟨d, hdm, DbSpan.Holds.hasGroup (n := n) ⟨hn, hlo, ?_⟩ he⟩
  by_contra hshort
  obtain ⟨b, hb⟩ : ∃ b, d.start + d.len = b + 1 := ⟨d.start + d.len - 1, by omega⟩
  have hinside : ¬ e ∣ b + 1 := by
    intro hdvd
    have hle := Nat.le_of_dvd (by omega) ((Nat.dvd_sub_iff_left (by omega) hn).mpr hdvd)
    omega
  obtain ⟨d', hdm', hlo', hhi'⟩ :=
    h b (hall b (by omega) (by omega)) (hall (b + 1) (by omega) (by omega)) hinside
  obtain rfl := mem_same hd hdm hdm' (b := b) ⟨by omega, by omega⟩ ⟨hlo', by omega⟩
  omega

/-! ## Adding -/

/-- No span begins where the new blocks end, but the one right behind the span that they extend. -/
def Seamless (n size : ℕ) : List DbSpan → Prop
  | [] => True
  | this :: rest =>
      this.start ≠ n + size ∧
        if this.start + this.len = n then ∀ d ∈ rest.tail, d.start ≠ n + size
        else Seamless n size rest

instance decidableSeamless (n size : ℕ) : (l : List DbSpan) → Decidable (Seamless n size l)
  | [] => isTrue trivial
  | _ :: rest =>
      have := decidableSeamless n size rest
      inferInstanceAs (Decidable (_ ∧ ite _ _ _))

theorem Seamless.apart {l r : List DbSpan} {this : DbSpan} (h : Seamless n size (l ++ this :: r))
    (first : ∀ d ∈ l, d.start + d.len ≠ n) (stop : this.start + this.len = n) :
    ∀ d ∈ l ++ this :: r.tail, d.start ≠ n + size := by
  induction l with
  | nil =>
      obtain ⟨hthis, hrest⟩ := h
      rw [if_pos stop] at hrest
      exact List.forall_mem_cons.mpr ⟨hthis, hrest⟩
  | cons d l ih =>
      obtain ⟨hd, hrest⟩ := h
      rw [if_neg (first d List.mem_cons_self)] at hrest
      exact List.forall_mem_cons.mpr ⟨hd, ih hrest fun c hc => first c (List.mem_cons_of_mem _ hc)⟩

/-- The new blocks are in one span, together with the blocks next to them. -/
theorem spanAdd_new (hi : s.Intact) (hc : s.Clean n size) (hm : s.Misses n size)
    (h : spanAdd s n size hs = some t) :
    ∃ d ∈ t.toList, d.start ≤ n ∧ n + size ≤ d.start + d.len ∧
      (∀ b ∈ s.blocks, b + 1 = n → d.start ≤ b) ∧
      (Seamless n size s.toList → n + size ∈ s.blocks → n + size < d.start + d.len) := by
  have hbegins : n + size ∈ s.blocks → ∃ d ∈ s.toList, d.start = n + size := by
    intro hb
    obtain ⟨d, hd, hlo, hhi⟩ := (mem_blocks hi).mp hb
    have hmiss := hm d hd
    exact ⟨d, hd, by omega⟩
  obtain ⟨t', ht, -, hcase⟩ := spanAdd_cases hi hs hc
  obtain rfl : t' = t := Option.some.inj (ht.symm.trans h)
  rcases hcase with ⟨hnone, hlist⟩ | hext
  · refine ⟨⟨n, size, hs⟩, by simp [hlist], Nat.le_refl _, Nat.le_refl _, fun b hb hbn => ?_,
      fun _ hb => ?_⟩
    · obtain ⟨d, hd, hlo, hhi⟩ := (mem_blocks hi).mp hb
      have hmiss := hm d hd
      have hstop := (hnone d hd).1
      omega
    · obtain ⟨d, hd, hstart⟩ := hbegins hb
      exact absurd hstart (hnone d hd).2
  · generalize hl : s.toList = l at hext
    generalize hl' : t'.toList = l' at hext
    cases hext with
    | @grown l r this new first stop start len apart =>
        have hpos := this.pos
        refine ⟨new, by simp, by omega, by omega, fun b _ hbn => by omega, fun hseam hb => ?_⟩
        obtain ⟨d, hd, hstart⟩ := hbegins hb
        have hapart := hseam.apart first stop
        rw [hl, List.mem_append, List.mem_cons] at hd
        cases r with
        | nil => exact absurd hstart (hapart d (by simpa using hd))
        | cons next r =>
            rcases hd with hd | rfl | hd
            · exact absurd hstart (hapart d (by simp [hd]))
            · exact absurd hstart (hapart d (by simp))
            · rcases List.mem_cons.mp hd with rfl | hd
              · exact absurd hstart (apart d rfl)
              · exact absurd hstart (hapart d (by simp [hd]))
    | @joined l r this next new first stop touch start len =>
        have hpos := this.pos
        have hnext := next.pos
        exact ⟨new, by simp, by omega, by omega, fun b _ hbn => by omega, fun _ _ => by omega⟩

theorem Spans.Whole.add (h : s.Whole e) (hi : s.Intact) (hc : s.Clean n size)
    (hm : s.Misses n size) (hseam : e ∣ n + size ∨ Seamless n size s.toList)
    (ht : spanAdd s n size hs = some t) : t.Whole e := by
  obtain ⟨d, hd, hlo, hhi, hbelow, habove⟩ := spanAdd_new hi hc hm ht
  intro b hb hb' hdvd
  rcases (spanAdd_blocks hc ht).mp hb with hold | hnew
  · rcases (spanAdd_blocks hc ht).mp hb' with hold' | hnew'
    · obtain ⟨c, hcm, h1, h2⟩ := h b hold hold' hdvd
      obtain ⟨c', hcm', h3, h4⟩ := spanAdd_kept hi hc ht c hcm
      exact ⟨c', hcm', by omega, by omega⟩
    · have hmiss := mem_blocks_misses hi hm hold
      exact ⟨d, hd, hbelow b hold (by omega), by omega⟩
  · rcases (spanAdd_blocks hc ht).mp hb' with hold' | hnew'
    · have hmiss := mem_blocks_misses hi hm hold'
      have hb1 : b + 1 = n + size := by omega
      rw [hb1] at hold' hdvd ⊢
      exact ⟨d, hd, by omega, habove (hseam.resolve_left hdvd) hold'⟩
    · exact ⟨d, hd, by omega, by omega⟩

/-! ## Pulling -/

theorem spanPullOne_whole {r : Option ℕ} (h : s.Whole e) (hd : s.blocks.Nodup)
    (ht : spanPullOne s = some (r, t)) : t.Whole e := by
  cases s with
  | null =>
      obtain ⟨-, rfl⟩ := Prod.mk.inj (Option.some.inj ht)
      exact h
  | freed => simp [spanPullOne] at ht
  | node this next =>
      have hhead : (Spans.node this next).blocks =
          this.start :: (List.range' (this.start + 1) (this.len - 1) ++ next.blocks) := by
        rw [Spans.blocks, ← Nat.sub_add_cancel this.pos, List.range'_succ]
        rfl
      have hgone : ∀ b ∈ List.range' (this.start + 1) (this.len - 1) ++ next.blocks,
          b ∈ (Spans.node this next).blocks ∧ b ≠ this.start := by
        intro b hb
        rw [hhead] at hd ⊢
        exact ⟨List.mem_cons_of_mem _ hb, fun heq => (List.nodup_cons.mp hd).1 (heq ▸ hb)⟩
      have hfind : ∀ b, b ∈ List.range' (this.start + 1) (this.len - 1) ++ next.blocks →
          b + 1 ∈ List.range' (this.start + 1) (this.len - 1) ++ next.blocks → ¬ e ∣ b + 1 →
          (this.start + 1 ≤ b ∧ b + 1 < this.start + this.len) ∨
            ∃ d ∈ next.toList, d.start ≤ b ∧ b + 1 < d.start + d.len := by
        intro b hb hb' hdvd
        obtain ⟨d, hdm, hlo, hhi⟩ := h b (hgone b hb).1 (hgone _ hb').1 hdvd
        rcases List.mem_cons.mp hdm with rfl | hdm
        · have hne := (hgone b hb).2
          exact .inl ⟨by omega, hhi⟩
        · exact .inr ⟨d, hdm, hlo, hhi⟩
      by_cases hl : this.len - 1 ≠ 0
      · rw [spanPullOne, dif_pos hl] at ht
        obtain ⟨-, rfl⟩ := Prod.mk.inj (Option.some.inj ht)
        intro b hb hb' hdvd
        rcases hfind b hb hb' hdvd with ⟨hlo, hhi⟩ | ⟨d, hdm, hin⟩
        · exact ⟨_, List.mem_cons_self, hlo, by dsimp only; omega⟩
        · exact ⟨d, List.mem_cons_of_mem _ hdm, hin⟩
      · rw [spanPullOne, dif_neg hl] at ht
        obtain ⟨-, rfl⟩ := Prod.mk.inj (Option.some.inj ht)
        intro b hb hb' hdvd
        rcases hfind b (List.mem_append_right _ hb) (List.mem_append_right _ hb') hdvd with
          ⟨hlo, hhi⟩ | hin
        · omega
        · exact hin

theorem Spans.Pulled.whole (hp : s.Pulled n e t) (h : s.Whole e) (hi : s.Intact)
    (hd : s.Disjoint) : t.Whole e := by
  intro b hb hb' hdvd
  obtain ⟨hold, hout⟩ := (hp.left hi hd).mp hb
  obtain ⟨hold', hout'⟩ := (hp.left hi hd).mp hb'
  obtain ⟨d, hdm, hlo, hhi⟩ := h b hold hold' hdvd
  obtain ⟨l, this, r, pieces, hs, ht, hholds, hcut⟩ := hp.parts
  have hapart : b + 1 < n ∨ n + e ≤ b := by
    rcases hout with hout | hout
    · have hne : b + 1 ≠ n := fun heq => hdvd (heq ▸ hholds.aligned)
      omega
    · exact .inr hout
  rw [hs] at hdm
  rw [ht]
  rcases List.mem_append.mp hdm with hdl | hdm
  · exact ⟨d, by simp [hdl], hlo, hhi⟩
  · rcases List.mem_cons.mp hdm with rfl | hdr
    · obtain ⟨c, hc, h1, h2⟩ := hcut.piece hlo hhi (Nat.le_succ b) hapart
      exact ⟨c, by simp [hc], h1, h2⟩
    · exact ⟨d, by simp [hdr], hlo, hhi⟩

/-! ## Sequences of calls -/

inductive SpanCall where
  | add (n size : ℕ) (hs : 0 < size)
  | pullOne
  | pullEraseBlock

/-- A list, and the blocks that have been added to it and not pulled since. -/
structure History where
  spans : Spans
  blocks : List ℕ

/-- A call of one of the operations; `eraseSize` is that of the flash. -/
def SpanCall.run (he : 0 < e) (h : History) : SpanCall → Option History
  | .add n size hs => (spanAdd h.spans n size hs).map fun t => ⟨t, List.range' n size ++ h.blocks⟩
  | .pullOne => (spanPullOne h.spans).map fun r =>
      ⟨r.2, h.blocks.filter fun b => r.1 ≠ some b⟩
  | .pullEraseBlock => (spanPullEraseBlock h.spans e he).map fun r =>
      ⟨r.2, match r.1 with
        | none => h.blocks
        | some n => h.blocks.filter fun b => b < n ∨ n + e ≤ b⟩

/-- Only blocks are added that are not in the list. -/
def SpanCall.Fresh (h : History) : SpanCall → Prop
  | .add n size _ => ∀ b ∈ h.blocks, b < n ∨ n + size ≤ b
  | .pullOne => True
  | .pullEraseBlock => True

/-- The call loses no blocks, and leaves neighbouring ones in one span. -/
def SpanCall.Careful (e : ℕ) (s : Spans) : SpanCall → Prop
  | .add n size _ => s.Clean n size ∧ (e ∣ n + size ∨ Seamless n size s.toList)
  | .pullOne => True
  | .pullEraseBlock => s.Spared e

def calls (he : 0 < e) : History → List SpanCall → Option History
  | h, [] => some h
  | h, c :: cs => (c.run he h).bind fun h' => calls he h' cs

/-- Every call of the sequence is made where it may be. -/
def Admits (he : 0 < e) (Ok : History → SpanCall → Prop) : History → List SpanCall → Prop
  | _, [] => True
  | h, c :: cs => Ok h c ∧ ∀ h', c.run he h = some h' → Admits he Ok h' cs

/-- A group is found if all blocks of one are there. -/
def History.Finds (h : History) (he : 0 < e) : Prop :=
  ∀ n, e ∣ n → (∀ b, n ≤ b → b < n + e → b ∈ h.blocks) →
    ∃ m t, spanPullEraseBlock h.spans e he = some (some m, t)

/-- The list has the blocks of the history, in spans that meet only where groups do. -/
structure History.Sound (h : History) (e : ℕ) : Prop where
  intact : h.spans.Intact
  held : ∀ b, b ∈ h.spans.blocks ↔ b ∈ h.blocks
  nodup : h.spans.blocks.Nodup
  whole : h.spans.Whole e

theorem History.Sound.finds {h : History} (hs : h.Sound e) (he : 0 < e) : h.Finds he := by
  intro n hn hall
  have hd := (disjoint_iff hs.intact).mpr hs.nodup
  exact spanPullEraseBlock_finds he hs.intact
    (hs.whole.group hs.intact hd he hn fun b hlo hhi => (hs.held b).mpr (hall b hlo hhi))

theorem History.Sound.run {h : History} {c : SpanCall} (hs : h.Sound e) (he : 0 < e)
    (hf : c.Fresh h) (hc : c.Careful e h.spans) : ∃ h', c.run he h = some h' ∧ h'.Sound e := by
  have hd := (disjoint_iff hs.intact).mpr hs.nodup
  cases c with
  | add n size hpos =>
      obtain ⟨hclean, hseam⟩ := hc
      have hm : h.spans.Misses n size := by
        intro d hdm
        have hdpos := d.pos
        by_contra hboth
        have h1 := hf (max d.start n) ((hs.held _).mp (mem_blocks_of_span hdm (by omega)))
        omega
      obtain ⟨t, ht, hti, -⟩ := spanAdd_cases hs.intact hpos hclean
      refine ⟨_, by rw [SpanCall.run, ht]; rfl, hti, fun b => ?_,
        spanAdd_nodup hs.intact hs.nodup hm hclean ht,
        hs.whole.add hs.intact hclean hm hseam ht⟩
      rw [spanAdd_blocks hclean ht, hs.held, List.mem_append, List.mem_range'_1]
      exact or_comm
  | pullOne =>
      rcases spanPullOne_cases hs.intact with ⟨hnull, hpull⟩ | ⟨n, t, hpull, hti, hblocks⟩
      · refine ⟨_, by rw [SpanCall.run, hpull]; rfl, ?_⟩
        refine ⟨trivial, fun b => ?_, List.nodup_nil, ?_⟩
        · have hheld := hs.held b
          rw [hnull] at hheld
          simpa using hheld
        · exact spanPullOne_whole hs.whole hs.nodup hpull
      · have hnodup := hs.nodup
        rw [hblocks, List.nodup_cons] at hnodup
        refine ⟨_, by rw [SpanCall.run, hpull]; rfl, hti, fun b => ?_, hnodup.2,
          spanPullOne_whole hs.whole hs.nodup hpull⟩
        have hheld := hs.held b
        rw [hblocks, List.mem_cons] at hheld
        simp only [List.mem_filter, ← hheld, ne_eq, Option.some.injEq, decide_eq_true_eq]
        constructor
        · intro hb
          exact ⟨.inr hb, fun heq => hnodup.1 (heq ▸ hb)⟩
        · rintro ⟨hb | hb, hne⟩
          · exact absurd hb.symm hne
          · exact hb
  | pullEraseBlock =>
      rcases spanPullEraseBlock_pulled he hs.intact hc with ⟨-, hpull⟩ | ⟨n, t, hpull, hp⟩
      · exact ⟨_, by rw [SpanCall.run, hpull]; rfl, hs.intact, hs.held, hs.nodup, hs.whole⟩
      · refine ⟨_, by rw [SpanCall.run, hpull]; rfl, hp.intact, fun b => ?_,
          (disjoint_iff hp.intact).mp (hp.disjoint hd), hp.whole hs.whole hs.intact hd⟩
        simp only [hp.left hs.intact hd, hs.held, List.mem_filter, decide_eq_true_eq]

theorem History.Sound.calls {h : History} (hs : h.Sound e) (he : 0 < e) {cs : List SpanCall}
    (hc : Admits he (fun h c => c.Fresh h ∧ c.Careful e h.spans) h cs) :
    ∃ h', calls he h cs = some h' ∧ h'.Sound e := by
  induction cs generalizing h with
  | nil => exact ⟨h, rfl, hs⟩
  | cons c cs ih =>
      obtain ⟨⟨hf, hcare⟩, hrest⟩ := hc
      obtain ⟨h', hrun, hs'⟩ := hs.run he hf hcare
      obtain ⟨h'', hcalls, hs''⟩ := ih hs' (hrest h' hrun)
      exact ⟨h'', by rw [Span.calls, hrun]; exact hcalls, hs''⟩

/-- A complete group is found after any calls that lose no blocks, and that leave neighbouring
ones in one span. -/
theorem calls_finds (he : 0 < e) (cs : List SpanCall)
    (hc : Admits he (fun h c => c.Fresh h ∧ c.Careful e h.spans) ⟨.null, []⟩ cs) :
    ∃ h, calls he ⟨.null, []⟩ cs = some h ∧ h.Finds he := by
  have hempty : History.Sound ⟨.null, []⟩ e :=
    { intact := trivial
      held := fun _ => Iff.rfl
      nodup := List.nodup_nil
      whole := fun _ hb => absurd hb List.not_mem_nil }
  obtain ⟨h, hcalls, hs⟩ := hempty.calls he hc
  exact ⟨h, hcalls, hs.finds he⟩

theorem calls_finds_split : ∃ cs : List SpanCall, cs.length = 4 ∧ ∃ h,
    calls (e := 4) (by decide) ⟨.null, []⟩ cs = some h ∧ h.Finds (e := 4) (by decide) :=
  ⟨[.add 0 2 Nat.two_pos, .add 10 2 Nat.two_pos, .add 2 4 (by decide), .pullOne], rfl,
    calls_finds (by decide) _ (by
      simp [Admits, SpanCall.run, SpanCall.Fresh, SpanCall.Careful, spanAdd, Spans.Clean,
        Seamless, Spans.toList]
      exact ⟨fun b hb => by omega, fun b hb => by omega⟩)⟩

/-- Blocks 0 to 3 are there, but in two spans: when block 1 joins them, block 10 is between. -/
theorem calls_split_loses : ¬ ∀ (e : ℕ) (he : 0 < e) (cs : List SpanCall),
    Admits he (fun h c => c.Fresh h) ⟨.null, []⟩ cs →
    ∃ h, calls he ⟨.null, []⟩ cs = some h ∧ h.Finds he := by
  intro h
  obtain ⟨h', hcalls, hfinds⟩ := h 4 (by decide)
    [.add 0 1 Nat.one_pos, .add 10 1 Nat.one_pos, .add 2 1 Nat.one_pos, .add 1 1 Nat.one_pos,
      .add 3 1 Nat.one_pos]
    (by simp [Admits, SpanCall.run, SpanCall.Fresh, spanAdd])
  obtain rfl := Option.some.inj hcalls
  obtain ⟨m, t, hpull⟩ := hfinds 0 (Nat.dvd_zero 4) (by
    intro b _ hb
    simp
    omega)
  exact absurd hpull (by simp [spanPullEraseBlock, DbSpan.HasGroup, roundUp])

end Sunela.Span
