import Sunela.Verification.Alloc.Calls
import Sunela.Verification.Support.PlainCrypt

/-! # Records are safe in every run -/

namespace Sunela.Database

open Program Storage Span Block Fields Entry

variable {env : Env} {torn : Torn}

/-- A database that has just been opened has its lists in line. -/
theorem Opened.alloc {f : Flash} {db : Db} (h : Opened env f db) : Alloc env db f := by
  have hmem : ∀ {s : Spans} {k : ℤ} {c : Contents},
      Counted s k (having env f c (dbBlocks env)) →
        ∀ n, n ∈ s.blocks ↔ n ∈ dbBlocks env ∧ contents env.c f n = c := by
    intro s k c hc n
    rw [hc.perm.mem_iff, having, List.mem_filter, decide_eq_true_eq]
  have hfree : ∀ {n c}, contents env.c f n = c → c ≠ .erased → n ∉ db.erased.blocks := by
    intro n c hc hne hm
    exact hne (hc ▸ ((hmem h.erased n).mp hm).2)
  refine ⟨⟨h.erased.intact, h.deleted.intact, h.empty.intact⟩, fun n hn => ?_, ?_,
    fun n hn => ?_, fun n hn => ?_, fun e he => ?_, fun n hn => ?_, ?_⟩
  · obtain ⟨hb, hc⟩ := (hmem h.erased n).mp hn
    exact ⟨hb, contents_eq_erased hc⟩
  · exact h.erased.perm.nodup_iff.mpr (List.Nodup.filter _ List.nodup_range')
  · have hc := ((hmem h.deleted n).mp hn).2
    exact ⟨by simp [Free, hc, Contents.IsRecord], hfree hc (by simp)⟩
  · have hc := ((hmem h.empty n).mp hn).2
    exact ⟨by simp [Free, hc, Contents.IsRecord], hfree hc (by simp)⟩
  · obtain ⟨q, hq, hl⟩ := look_of_mem h.distinct he
    rw [h.look q hq] at hl
    rcases opened_block hl with hz | ⟨r, hr, -, hb⟩
    · intro hm
      have := (mem_dbBlocks.mp ((hmem h.erased _).mp hm).1).1
      have hz' : e.block = 0 := hz
      rw [hz'] at this
      exact absurd this (by decide)
    · obtain ⟨seq, payload, hc⟩ := recordIn_contents (mem_records.mp hr).2
      have hb' : r.block = e.block := hb
      exact hfree (hb' ▸ hc) (by simp)
  · obtain ⟨-, seq, payload, hc⟩ := h.settings n hn
    exact hfree hc (by simp)
  · rw [h.handed]
    simp

/-- The call is made on entries of the tree, and no request frees a span that stays linked. -/
def Careful (s : State) (c : Call) : Prop := c.Sane s.db ∧ (c.Requests s.db → Spare s.db)

theorem Opens.opened {s : State} (h : Opens env s) : Opened env s.flash s.db := by
  obtain ⟨st, st', hs⟩ := h
  obtain ⟨r, hr, ho⟩ := dbOpen_opened env st s.flash
  rw [hs] at hr
  obtain rfl := Option.some.inj hr
  exact ho

/-- The lists stay in line over whole runs. -/
theorem reachable_alloc (ht : Tears env torn) {s t : State} (ho : Opens env s)
    (hr : Reachable (Step torn) env Careful s t) : Alloc env t.db t.flash := by
  induction hr with
  | start => exact ho.opened.alloc
  | next _ h ends ih =>
      have hw := wp_returns (K := safeContract env torn) (wp_exec_safe ht ih h.1 h.2) ends
      exact hw

/-- No record is erased or overwritten, and no block is handed out twice. -/
theorem calls_safe (ht : Tears env torn) {s t : State} (ho : Opens env s)
    (hr : Reachable (Step torn) env Careful s t) :
    t.db.handed.Nodup ∧ ∀ c, Careful t c → ∀ cmd f,
      Issues (Step torn) (c.exec env t.db) t.flash cmd f → Safe env f cmd := by
  have h := reachable_alloc ht ho hr
  refine ⟨h.handed.1, fun c hc cmd f hi => ?_⟩
  exact wp_issues (K := safeContract env torn) (wp_exec_safe ht h hc.1 hc.2)
    (fun _ hu => hu) hi

/-! ## A group that is a span of its own -/

/-- Four accounts behind a deleted group of blocks, and no erased block. -/
def exactFitFlash : Flash :=
  (plainFlash [(12, 1, [nameField [97]]), (13, 1, [nameField [98]]),
    (14, 1, [nameField [99]]), (15, 1, [nameField [100]])]).setRange 8 4 fun _ => zeroBlock

def exactFitState : State := afterOpen (plainEnv 16) exactFitFlash

/-- The storage at the point where the freed span is followed. -/
def exactFitErased : Flash :=
  (run answer ((Call.changeField 0 3 [120]).exec (plainEnv 16) exactFitState.db)
    exactFitState.flash).2

/-- Changing the first account follows a freed span, after which even the group of the
accounts may be erased. -/
theorem request_follows_freed_span :
    Opens (plainEnv 16) exactFitState ∧
    (Call.changeField 0 3 [120]).Sane exactFitState.db ∧
    Issues (Step fun _ _ _ => False) ((Call.changeField 0 3 [120]).exec (plainEnv 16)
      exactFitState.db) exactFitState.flash (.erase 12 4) exactFitErased ∧
    ¬ Safe (plainEnv 16) exactFitErased (.erase 12 4) := by
  refine ⟨opens_afterOpen _ _, ?_, .inr ?_, fun h => ?_⟩
  · show (find 0 exactFitState.db.entries).isSome = true
    decide +kernel
  · have hrun := run_reaches answer_works
      ((Call.changeField 0 3 [120]).exec (plainEnv 16) exactFitState.db) exactFitState.flash
    rw [Prog.eq_undef_of_isUndef (p := (run answer ((Call.changeField 0 3 [120]).exec
      (plainEnv 16) exactFitState.db) exactFitState.flash).1) (by decide +kernel)] at hrun
    exact hrun
  · have hc : contents plainCrypt exactFitErased 12 =
        .data 1 (padded plainCrypt ([nameField [97]].flatMap encodeField)) := by decide +kernel
    refine h 12 (by omega) ?_
    show (contents plainCrypt exactFitErased 12).IsRecord
    rw [hc]
    trivial

/-! ## A block that is left -/

/-- The state after a change to the only account of a storage with erased blocks. -/
def changedState : State :=
  afterCall (plainEnv 16) (.changeField 0 3 [120])
    (afterOpen (plainEnv 16) (plainFlash [(8, 1, [nameField [97]])]))

theorem calls_safe_changed :
    changedState.db.handed.Nodup ∧ ∀ cmd f,
      Issues Works ((Call.changeField 0 4 [121]).exec (plainEnv 16) changedState.db)
        changedState.flash cmd f → Safe (plainEnv 16) f cmd := by
  have ht : Tears (plainEnv 16) fun _ _ _ => False := fun _ _ _ h => h.elim
  have hstart : Careful (afterOpen (plainEnv 16) (plainFlash [(8, 1, [nameField [97]])]))
      (.changeField 0 3 [120]) := by
    refine ⟨?_, fun _ => .inl ?_⟩
    · show (find 0 _).isSome = true
      decide +kernel
    · decide +kernel
  have hnext : Careful changedState (.changeField 0 4 [121]) := by
    refine ⟨?_, fun _ => .inl ?_⟩
    · show (find 0 _).isSome = true
      decide +kernel
    · decide +kernel
  have hresult : callResult (plainEnv 16) (.changeField 0 3 [120])
      (afterOpen (plainEnv 16) (plainFlash [(8, 1, [nameField [97]])])) = some true := by
    decide +kernel
  obtain ⟨hn, hc⟩ := calls_safe ht (opens_afterOpen (plainEnv 16) _)
    (.next .start hstart (ends_afterCall _ _ _ hresult))
  exact ⟨hn, hc _ hnext⟩

end Sunela.Database
