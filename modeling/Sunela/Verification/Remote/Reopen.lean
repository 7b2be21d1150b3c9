import Sunela.Verification.Remote.Session

/-! # Leaving and entering the page

What an earlier session leaves behind does not matter to the next one, if `rmt-db.c` was idle
when the page was left. Two runs are compared, one of them on a device that has just started. -/

namespace Sunela.Remote

open Program Fields Entry

/-! ## Mailboxes with different leftovers -/

/-- The same state up to the bytes of the buffer that belong to no message. -/
structure Matches (s t : Rmt) : Prop where
  state : s.state = t.state
  reset : s.reset = t.reset
  asyncReset : s.asyncReset = t.asyncReset
  strictRmt : s.strictRmt = t.strictRmt
  inbox : s.inbox = t.inbox
  outbox : s.outbox = t.outbox
  inOn : s.inbox.enabled = true
  outOn : s.outbox.enabled = true
  bufferLeft : s.mboxBuf.length = rmtMaxLen
  bufferRight : t.mboxBuf.length = rmtMaxLen
  incoming : ∀ n, s.inbox.length = some n → s.mboxBuf.take n = t.mboxBuf.take n
  outgoing : ∀ n, s.outbox.length = some n → s.mboxBuf.take n = t.mboxBuf.take n

/-- The program does the same in matching states. -/
def Same {α : Type} (p : Shared α) : Prop :=
  ∀ s t, Matches s t → (run answer p s).1 = (run answer p t).1 ∧
    Matches (run answer p s).2 (run answer p t).2

variable {α β : Type} {s t : Rmt}

theorem same_ret (a : α) : Same (.ret a) := fun _ _ h => ⟨rfl, h⟩

theorem same_halt {i : ℕ} : Same (.halt i : Shared α) := fun _ _ h => ⟨rfl, h⟩

theorem same_undef : Same (.undef : Shared α) := fun _ _ h => ⟨rfl, h⟩

theorem same_bind {p : Shared α} {f : α → Shared β} (hp : Same p) (hf : ∀ a, Same (f a)) :
    Same (p >>= f) := by
  intro s t h
  obtain ⟨heq, hm⟩ := hp s t h
  rw [run_bind_eq answer p f s, run_bind_eq answer p f t, ← heq]
  cases hq : (run answer p s).1 with
  | ret a => exact hf a _ _ hm
  | call c next => exact absurd hq (run_ne_call p s c next)
  | halt => exact ⟨rfl, hm⟩
  | undef => exact ⟨rfl, hm⟩

theorem same_getState : Same getState := by
  intro s t h
  exact ⟨by simp [getState, Prog.exec, run, answer, h.state], h⟩

theorem same_setState (st : RmtState) : Same (setState st) := fun _ _ h =>
  ⟨rfl, rfl, h.reset, h.asyncReset, h.strictRmt, h.inbox, h.outbox, h.inOn, h.outOn,
    h.bufferLeft, h.bufferRight, h.incoming, h.outgoing⟩

theorem same_callReset : Same callReset := by
  intro s t h
  have hcond : (s.reset = true ∧ s.strictRmt = false) ↔
      (t.reset = true ∧ t.strictRmt = false) := by
    rw [h.reset, h.strictRmt]
  simp only [callReset, Prog.exec, run, answer, rmtDbReset, hcond]
  split
  · exact ⟨rfl, h.state, h.reset, rfl, h.strictRmt, h.inbox, h.outbox, h.inOn, h.outOn,
      h.bufferLeft, h.bufferRight, h.incoming, h.outgoing⟩
  · exact ⟨rfl, h⟩

theorem Matches.mbox (h : Matches s t) (m : Side) : s.mbox m = t.mbox m := by
  cases m with
  | inbox => exact h.inbox
  | outbox => exact h.outbox

theorem Matches.enabled (h : Matches s t) (m : Side) : (s.mbox m).enabled = true := by
  cases m with
  | inbox => exact h.inOn
  | outbox => exact h.outOn

theorem Matches.message (h : Matches s t) {m : Side} {n : ℕ} (hl : (s.mbox m).length = some n) :
    s.mboxBuf.take n = t.mboxBuf.take n := by
  cases m with
  | inbox => exact h.incoming n hl
  | outbox => exact h.outgoing n hl

theorem Matches.emptied (h : Matches s t) (m : Side) :
    Matches (s.withLength m none) (t.withLength m none) := by
  cases m with
  | inbox =>
      exact ⟨h.state, h.reset, h.asyncReset, h.strictRmt,
        by simp [Rmt.withLength, h.inbox], h.outbox, h.inOn, h.outOn, h.bufferLeft, h.bufferRight,
        by simp [Rmt.withLength], h.outgoing⟩
  | outbox =>
      exact ⟨h.state, h.reset, h.asyncReset, h.strictRmt, h.inbox,
        by simp [Rmt.withLength, h.outbox], h.inOn, h.outOn, h.bufferLeft, h.bufferRight,
        h.incoming, by simp [Rmt.withLength]⟩

/-- The start of a buffer after a copy depends on the start of what was there before. -/
theorem take_overwrite (buf data : Bytes) (n : ℕ) :
    (overwrite buf 0 data).take n = data.take n ++ (buf.take n).drop data.length := by
  simp [overwrite, List.take_append, List.drop_take]

theorem Matches.deposited (h : Matches s t) (m : Side) {data : Bytes}
    (hd : data.length ≤ rmtMaxLen) : Matches (s.deposited m data) (t.deposited m data) := by
  have hleft : (overwrite s.mboxBuf 0 data).length = rmtMaxLen := by
    rw [overwrite_length (by rw [h.bufferLeft]; omega), h.bufferLeft]
  have hright : (overwrite t.mboxBuf 0 data).length = rmtMaxLen := by
    rw [overwrite_length (by rw [h.bufferRight]; omega), h.bufferRight]
  have hother : ∀ n, s.mboxBuf.take n = t.mboxBuf.take n →
      (overwrite s.mboxBuf 0 data).take n = (overwrite t.mboxBuf 0 data).take n := by
    intro n hn
    rw [take_overwrite, take_overwrite, hn]
  have hown : ∀ n, some data.length = some n →
      (overwrite s.mboxBuf 0 data).take n = (overwrite t.mboxBuf 0 data).take n := by
    intro n hn
    obtain rfl := Option.some.inj hn
    rw [overwrite_take, overwrite_take]
  cases m with
  | inbox =>
      exact ⟨h.state, h.reset, h.asyncReset, h.strictRmt,
        by simp [Rmt.deposited, Rmt.withLength, h.inbox], h.outbox, h.inOn, h.outOn, hleft, hright,
        hown, fun n hn => hother n (h.outgoing n hn)⟩
  | outbox =>
      exact ⟨h.state, h.reset, h.asyncReset, h.strictRmt, h.inbox,
        by simp [Rmt.deposited, Rmt.withLength, h.outbox], h.inOn, h.outOn, hleft, hright,
        fun n hn => hother n (h.incoming n hn), hown⟩

theorem same_vdepositv (m : Side) (parts : List Bytes) : Same (mboxVdepositv m parts) := by
  intro s t h
  have he := h.enabled m
  have he' : (t.mbox m).enabled = true := by rw [← h.mbox m, he]
  cases hl : (s.mbox m).length with
  | some n =>
      have hl' : (t.mbox m).length = some n := by rw [← h.mbox m, hl]
      rw [run_vdepositv_full he hl, run_vdepositv_full he' hl']
      exact ⟨rfl, h⟩
  | none =>
      have hl' : (t.mbox m).length = none := by rw [← h.mbox m, hl]
      by_cases hmax : parts.flatten.length ≤ rmtMaxLen
      · rw [run_vdepositv_free he hl hmax h.bufferLeft,
          run_vdepositv_free he' hl' hmax h.bufferRight]
        exact ⟨rfl, h.deposited m hmax⟩
      · rw [run_vdepositv_big he hl (by omega), run_vdepositv_big he' hl' (by omega)]
        exact ⟨rfl, h⟩

theorem same_retrieve (m : Side) (size : ℕ) : Same (mboxRetrieve m size) := by
  intro s t h
  have he := h.enabled m
  have he' : (t.mbox m).enabled = true := by rw [← h.mbox m, he]
  cases hl : (s.mbox m).length with
  | none =>
      have hl' : (t.mbox m).length = none := by rw [← h.mbox m, hl]
      rw [run_retrieve_none he hl, run_retrieve_none he' hl']
      exact ⟨rfl, h⟩
  | some n =>
      have hl' : (t.mbox m).length = some n := by rw [← h.mbox m, hl]
      by_cases hn : n ≤ size
      · rw [run_retrieve_some he hl hn, run_retrieve_some he' hl' hn, h.message hl]
        exact ⟨rfl, h.emptied m⟩
      · rw [run_retrieve_big he hl (by omega), run_retrieve_big he' hl' (by omega)]
        exact ⟨rfl, h⟩

/-! ## Calls -/

theorem same_call (c : Call) : Same c.prog := by
  cases c with
  | request size =>
      refine same_bind same_getState fun st => ?_
      split
      · exact same_halt
      · refine same_bind (same_retrieve .inbox size) fun r => ?_
        rcases r with _ | _ | _
        · exact same_bind same_getState fun _ => same_ret _
        · exact same_bind (same_setState _) fun _ => same_ret _
        · exact same_bind (same_setState _) fun _ => same_ret _
  | responsev parts =>
      refine same_bind same_getState fun st => ?_
      split
      · exact same_halt
      · exact same_vdepositv .outbox parts
  | finish =>
      refine same_bind same_getState fun st => ?_
      split
      · exact same_halt
      · refine same_bind (same_vdepositv .outbox []) fun ok => ?_
        cases ok with
        | true => exact same_bind (same_setState _) fun _ => same_ret _
        | false => exact same_ret _
  | asyncReset => exact fun s t h => ⟨by simp [Call.prog, Prog.exec, run, answer, h.asyncReset], h⟩
  | clearReset =>
      exact fun s t h => ⟨rfl, h.state, h.reset, rfl, h.strictRmt, h.inbox, h.outbox, h.inOn,
        h.outOn, h.bufferLeft, h.bufferRight, h.incoming, h.outgoing⟩

theorem same_expand (p : App α) : Same (p.expand Call.prog) := by
  induction p with
  | ret a => exact same_ret a
  | call c next ih => exact same_bind (same_call c) ih
  | halt => exact same_halt
  | undef => exact same_undef

theorem same_arrival (data : Bytes) : Same (rmtArrival data) := by
  refine same_bind (same_bind same_getState fun st => ?_) fun _ =>
    same_bind same_getState fun st => ?_
  · split
    · refine same_bind same_callReset fun ok => ?_
      cases ok with
      | true => exact same_setState _
      | false => exact same_ret _
    · exact same_ret _
  · split
    · exact same_halt
    · exact same_vdepositv .inbox [data]

theorem same_event (after : Bytes) (h : Host) (e : Event) : Same (e.prog after h) := by
  cases e with
  | transfer data => exact same_bind (same_arrival data) fun _ => same_ret _
  | query => exact same_bind (same_retrieve .outbox rmtMaxLen) fun _ => same_ret _
  | poll timeUs => exact same_bind (same_expand _) fun _ => same_ret _
  | tap yes => exact same_ret _

/-! ## Leftovers of the database side -/

/-- The static variables that are read before they are written again. -/
def Rdb.live (r : Rdb) : Rdb :=
  if r.state = .idle ∨ r.state = .done then ⟨r.state, 0, 0, [], []⟩
  else
    { r with
      generation := if r.op = rdopLs ∨ r.op = rdopShow then r.generation else 0
      de := if r.op = rdopLs then r.de else []
      f := if r.op = rdopShow then r.f else [] }

def Host.live (h : Host) : Host := { h with rdb := h.rdb.live }

/-- The result of a poll without what is not read again. -/
def livePoll (p : App (Option Host)) : App (Option Host) := Option.map Host.live <$> p

/-- Other pointers than those of the host. -/
def Host.pointed (h : Host) (de : List DbEntry) (f : List DbField) : Host :=
  { h with rdb := { h.rdb with de, f } }

variable {h : Host} {de : List DbEntry} {f : List DbField}

/-- Most operations read neither pointer. -/
theorem live_pointed (hls : h.rdb.op ≠ rdopLs) (hshow : h.rdb.op ≠ rdopShow) :
    (h.pointed de f).live = h.live := by
  simp [Host.pointed, Host.live, Rdb.live, hls, hshow]

theorem startLs_live (hop : h.rdb.op = rdopLs) :
    (startLs (h.pointed de f)).live = (startLs h).live := by
  simp [startLs, Host.pointed, Host.live, Rdb.live, hop, rdopShow, rdopLs]

theorem startShow_pointed (b : Bytes) : startShow (h.pointed de f) b = startShow h b := rfl

theorem withOp_pointed {op : UInt8} (hls : op ≠ rdopLs) (hshow : op ≠ rdopShow) :
    ((h.pointed de f).withOp op).live = (h.withOp op).live :=
  live_pointed (h := h.withOp op) hls hshow

theorem startReveal_live (b : Bytes) :
    (startReveal (h.pointed de f) b).live = (startReveal h b).live := by
  by_cases hlen : b.length < 2
  · rw [startReveal, startReveal, if_pos hlen, if_pos hlen]
    exact withOp_pointed (by decide) (by decide)
  · rw [startReveal, startReveal, if_neg hlen, if_neg hlen]
    have hfrom : ∀ name, fromEntry (h.pointed de f) name = fromEntry h name := fun _ => rfl
    rw [hfrom]
    cases fromEntry h ((b.drop 1).take (b.length - 2)) with
    | nil =>
        exact withOp_pointed (h := { h with rdb := { h.rdb with de := [] } }) (by decide) (by decide)
    | cons e rest => rfl

theorem startSetTime_live (hop : h.rdb.op = rdopSetTime) (timeUs : UInt64) (b : Bytes) :
    (startSetTime (h.pointed de f) timeUs b).live = (startSetTime h timeUs b).live := by
  by_cases hlen : b.length = 9
  · rw [startSetTime, startSetTime, if_neg (not_not.mpr hlen), if_neg (not_not.mpr hlen)]
    unfold uiRmtSetTime
    have hls : h.rdb.op ≠ rdopLs := by rw [hop]; decide
    have hshow : h.rdb.op ≠ rdopShow := by rw [hop]; decide
    obtain ⟨rdb, ⟨revealing, action, generation, display⟩, db, timeOffset⟩ := h
    cases action with
    | some action => exact withOp_pointed (by decide) (by decide)
    | none =>
        simp only [Host.pointed, Option.isSome_none, Bool.false_eq_true, if_false]
        cases Time.setTimeDelta ⟨timeUs, timeOffset⟩ (le64 (b.drop 1)).toInt64 with
        | none => exact live_pointed hls hshow
        | some delta =>
            let h' : Host := ⟨rdb, ⟨revealing, some (.setTime delta), generation,
              .prompt (.setTime delta)⟩, db, timeOffset⟩
            have hlive : (h'.pointed de f).live = h'.live := live_pointed hls hshow
            exact hlive
  · rw [startSetTime, startSetTime, if_pos hlen, if_pos hlen]
    exact withOp_pointed (by decide) (by decide)

theorem startRequest_live (h : Host) (r : Rdb) (timeUs : UInt64) (b : Bytes) :
    (startRequest { h with rdb := r } timeUs b).live = (startRequest h timeUs b).live := by
  have hreq : ({ h with rdb := r } : Host).requested (b.headD 0) =
      (h.requested (b.headD 0)).pointed r.de r.f := rfl
  simp only [startRequest, hreq]
  split_ifs with h1 h2 h3 h4 h5
  · exact startLs_live h1
  · rw [startShow_pointed]
  · exact startReveal_live b
  · exact live_pointed h1 h2
  · exact startSetTime_live h5 timeUs b
  · exact withOp_pointed (by decide) (by decide)

/-! ### Polls -/

@[simp] theorem live_state (h : Host) : h.live.rdb.state = h.rdb.state := by
  simp only [Host.live, Rdb.live]
  split <;> rfl

@[simp] theorem live_db (h : Host) : h.live.db = h.db := rfl

@[simp] theorem live_timeOffset (h : Host) : h.live.timeOffset = h.timeOffset := rfl

@[simp] theorem rdopLs_ne_rdopShow : rdopLs ≠ rdopShow := by decide

@[simp] theorem live_live (h : Host) : h.live.live = h.live := by
  obtain ⟨⟨state, op, generation, de, f⟩, ui, db, timeOffset⟩ := h
  by_cases hs : state = .idle ∨ state = .done
  · simp [Host.live, Rdb.live, hs]
  · by_cases hls : op = rdopLs
    · simp [Host.live, Rdb.live, hs, hls]
    · by_cases hshow : op = rdopShow
      · simp [Host.live, Rdb.live, hs, hshow, rdopLs_ne_rdopShow.symm]
      · simp [Host.live, Rdb.live, hs, hls, hshow]

/-- In a request or a response, the operation is read. -/
theorem live_op {h : Host} (hs : h.rdb.state = .req ∨ h.rdb.state = .res) :
    h.live.rdb.op = h.rdb.op := by
  rcases hs with hs | hs <;> simp [Host.live, Rdb.live, hs]

theorem live_generation {h : Host} (hs : h.rdb.state = .req ∨ h.rdb.state = .res)
    (hop : h.rdb.op = rdopLs ∨ h.rdb.op = rdopShow) :
    h.live.rdb.generation = h.rdb.generation := by
  rcases hs with hs | hs <;> simp [Host.live, Rdb.live, hs, hop]

theorem live_de {h : Host} (hs : h.rdb.state = .req ∨ h.rdb.state = .res)
    (hop : h.rdb.op = rdopLs) : h.live.rdb.de = h.rdb.de := by
  rcases hs with hs | hs <;> simp [Host.live, Rdb.live, hs, hop]

theorem live_f {h : Host} (hs : h.rdb.state = .req ∨ h.rdb.state = .res)
    (hop : h.rdb.op = rdopShow) : h.live.rdb.f = h.rdb.f := by
  rcases hs with hs | hs <;> simp [Host.live, Rdb.live, hs, hop]

/-- For other operations nothing is left to be read. -/
theorem withOp_live {h : Host} {op : UInt8} (hls : op ≠ rdopLs) (hshow : op ≠ rdopShow) :
    (h.live.withOp op).live = (h.withOp op).live := by
  by_cases hs : h.rdb.state = .idle ∨ h.rdb.state = .done
  · simp [Host.live, Rdb.live, Host.withOp, hs]
  · simp [Host.live, Rdb.live, Host.withOp, hs, hls, hshow]

theorem live_withState_done (h : Host) : (h.live.withState .done).live = (h.withState .done).live :=
  rfl

theorem respond_live (h : Host) (b : Bytes) :
    livePoll (respond h.live b) = livePoll (respond h b) := by
  simp only [livePoll, respond, Prog.map_bind]
  congr 1
  funext ok
  cases ok with
  | false => simp
  | true => simp [live_withState_done]

theorem pollLs_live {h : Host} (hs : h.rdb.state = .res) (hop : h.rdb.op = rdopLs) :
    livePoll (pollLs h.live) = livePoll (pollLs h) := by
  have hgen := live_generation (.inr hs) (.inl hop)
  have hde := live_de (.inr hs) hop
  simp only [pollLs, hgen, live_db, hde]
  by_cases hg : h.rdb.generation = h.db.generation
  · simp only [ne_eq, hg, not_true_eq_false, if_false]
    cases h.rdb.de with
    | nil => rfl
    | cons e rest =>
        simp only [livePoll, Prog.map_bind]
        congr 1
        funext ok
        cases ok with
        | false => simp
        | true =>
            by_cases hr : rest = []
            · simp only [hr, if_true]
              rfl
            · simp only [hr, if_true, if_false]
              simp [Host.live, Rdb.live, hs, hop]
  · simp only [ne_eq, hg, not_false_eq_true, if_true, livePoll, Prog.map_bind]
    congr 1
    funext ok
    cases ok <;> simp

theorem showLoop_live {h : Host} (hs : h.rdb.state = .res) (hop : h.rdb.op = rdopShow)
    (fields : List DbField) : livePoll (showLoop h.live fields) = livePoll (showLoop h fields) := by
  induction fields with
  | nil => rfl
  | cons f rest ih =>
      simp only [showLoop]
      rcases fieldParts f with _ | _ | parts
      · rfl
      · exact ih
      · simp only [livePoll, Prog.map_bind]
        congr 1
        funext ok
        cases ok with
        | false => simp [Host.live, Rdb.live, hs, hop, rdopLs_ne_rdopShow.symm]
        | true => exact ih

theorem pollShow_live {h : Host} (hs : h.rdb.state = .res) (hop : h.rdb.op = rdopShow) :
    livePoll (pollShow h.live) = livePoll (pollShow h) := by
  have hgen := live_generation (.inr hs) (.inr hop)
  have hf := live_f (.inr hs) hop
  simp only [pollShow, hgen, live_db, hf]
  by_cases hg : h.rdb.generation = h.db.generation
  · simp only [ne_eq, hg, not_true_eq_false, if_false]
    exact showLoop_live hs hop h.rdb.f
  · simp only [ne_eq, hg, not_false_eq_true, if_true, livePoll, Prog.map_bind]
    congr 1
    funext ok
    cases ok with
    | false => simp
    | true => cases h.rdb.f <;> simp [live_withState_done]

theorem pollRes_live {h : Host} (hs : h.rdb.state = .res) (after : Bytes) (timeUs : UInt64) :
    livePoll (pollRes after timeUs h.live) = livePoll (pollRes after timeUs h) := by
  simp only [pollRes, live_op (.inr hs)]
  split_ifs with h1 h2
  · exact pollLs_live hs h1
  · exact pollShow_live hs h2
  · exact respond_live h _
  · exact respond_live h _
  · exact respond_live h _
  · exact respond_live h _
  · rfl
  · rfl

theorem pollReq_live {h : Host} (hs : h.rdb.state = .req) (after : Bytes) (timeUs : UInt64) :
    livePoll (pollReq after timeUs h.live) = livePoll (pollReq after timeUs h) := by
  simp only [livePoll, pollReq, Prog.map_bind]
  congr 1
  funext r
  cases r with
  | zero => simp
  | block b => simp [withOp_live (h := h) (show rdopInvalid ≠ rdopLs by decide) (by decide)]
  | negative =>
      have hop := live_op (.inl hs)
      have hcond : (h.live.rdb.op = rdopLs ∧ h.live.rdb.de = [] ∨
          h.live.rdb.op = rdopShow ∧ h.live.rdb.f = [] ∨ h.live.rdb.op = rdopSetTime) ↔
          (h.rdb.op = rdopLs ∧ h.rdb.de = [] ∨ h.rdb.op = rdopShow ∧ h.rdb.f = [] ∨
          h.rdb.op = rdopSetTime) := by
        rw [hop]
        refine or_congr (and_congr_right fun ho => ?_) (or_congr (and_congr_right fun ho => ?_) ?_)
        · rw [live_de (.inl hs) ho]
        · rw [live_f (.inl hs) ho]
        · rfl
      simp only [hcond]
      split_ifs
      · rfl
      · have hres : h.live.withState .res = (h.withState .res).live := by
          simp only [Host.live, Rdb.live, Host.withState, hs]
          rfl
        rw [hres]
        exact pollRes_live rfl after timeUs

theorem pollIdle_live (h : Host) (timeUs : UInt64) :
    livePoll (pollIdle timeUs h.live) = livePoll (pollIdle timeUs h) := by
  simp only [livePoll, pollIdle, Prog.map_bind]
  congr 1
  funext r
  cases r with
  | negative => simp
  | zero =>
      simp [Host.live, Rdb.live, Host.withState, Host.withOp, rdopNull, rdopShow, rdopLs]
  | block b =>
      have hstart := startRequest_live h h.rdb.live timeUs b
      exact congrArg (fun k => (Prog.ret (some k) : App (Option Host))) hstart

theorem pollEnd_live (h : Host) :
    livePoll (pollEnd h.live) = livePoll (pollEnd h) := by
  simp only [livePoll, pollEnd, Prog.map_bind]
  congr 1
  funext ok
  cases ok with
  | false => simp
  | true => rfl

theorem pollState_live (after : Bytes) (timeUs : UInt64) (h : Host) :
    livePoll (pollState after timeUs h.live) = livePoll (pollState after timeUs h) := by
  simp only [pollState, live_state]
  cases hs : h.rdb.state with
  | idle => exact pollIdle_live h timeUs
  | req => exact pollReq_live hs after timeUs
  | res => exact pollRes_live hs after timeUs
  | done => exact pollEnd_live h

theorem rmtDbPoll_live (after : Bytes) (timeUs : UInt64) (h : Host) :
    livePoll (rmtDbPoll after timeUs h.live) = livePoll (rmtDbPoll after timeUs h) := by
  simp only [livePoll, rmtDbPoll, Prog.map_bind]
  congr 1
  funext reset
  cases reset with
  | false => exact pollState_live after timeUs h
  | true =>
      simp only [if_true, Prog.map_bind]
      congr 1
      funext _
      have hleft := pollState_live after timeUs (h.live.withState .idle)
      have hright := pollState_live after timeUs (h.withState .idle)
      exact hleft.symm.trans hright
/-! ## Two sessions -/

/-- Two sessions that differ in leftovers only. -/
structure Session.Alike (s t : Session) : Prop where
  rmt : Matches s.rmt t.rmt
  host : s.host.live = t.host.live

inductive Outcome.Agree : Outcome → Outcome → Prop where
  | next {s t : Session} (o : Output) (h : s.Alike t) : Agree (.next o s) (.next o t)
  | failed : Agree .failed .failed
  | aborted : Agree .aborted .aborted
  | undefined : Agree .undefined .undefined

theorem uiRmtTap_rdb (h : Host) (r : Rdb) (yes : Option Bool) :
    uiRmtTap { h with rdb := r } yes = { uiRmtTap h yes with rdb := r } := by
  obtain ⟨rdb, ⟨revealing, action, generation, display⟩, db, timeOffset⟩ := h
  cases action with
  | none => cases revealing <;> rfl
  | some action =>
      rcases yes with _ | _ | _
      · rfl
      · rfl
      · cases action with
        | setTime deltaS => rfl
        | reveal user =>
            simp only [uiRmtTap, doActionReveal, showRemote]
            split <;> rfl

theorem uiRmtTap_live (h : Host) (yes : Option Bool) :
    (uiRmtTap h.live yes).live = (uiRmtTap h yes).live := by
  have htap : uiRmtTap h.live yes = (uiRmtTap h yes).live := by
    rw [Host.live, uiRmtTap_rdb, Host.live, (uiRmtTap_same h yes).1]
  rw [htap, live_live]

def liveResult (r : Output × Option Host) : Output × Option Host := (r.1, r.2.map Host.live)

theorem prog_live (after : Bytes) (h : Host) (e : Event) :
    liveResult <$> e.prog after h.live = liveResult <$> e.prog after h := by
  cases e with
  | transfer data => simp [Event.prog, Prog.map_bind, liveResult]
  | query => simp [Event.prog, Prog.map_bind, liveResult]
  | poll timeUs =>
      have hpoll : ∀ k, liveResult <$> (Event.poll timeUs).prog after k =
          (livePoll (rmtDbPoll after timeUs k)).expand Call.prog >>=
            fun r => .ret (Output.nothing, r) := by
        intro k
        simp only [Event.prog, livePoll, Prog.expand_map, Prog.map_bind, Prog.bind_map]
        rfl
      rw [hpoll, hpoll, rmtDbPoll_live]
  | tap yes => simp [Event.prog, liveResult, uiRmtTap_live]

theorem prog_alike {h k : Host} (hl : h.live = k.live) (after : Bytes) (e : Event) :
    liveResult <$> e.prog after h = liveResult <$> e.prog after k := by
  rw [← prog_live, hl, prog_live]

theorem outcome_agree {p q : Shared (Output × Option Host)} {r u : Rmt} (hr : Matches r u)
    (h : liveResult <$> p = liveResult <$> q) : (outcome (p, r)).Agree (outcome (q, u)) := by
  cases p with
  | ret a =>
      cases q with
      | ret b =>
          obtain ⟨o, h₁⟩ := a
          obtain ⟨o', h₂⟩ := b
          obtain ⟨rfl, hlive⟩ := Prod.mk.inj (Prog.ret.inj h)
          cases h₁ with
          | none =>
              cases h₂ with
              | none => exact .aborted
              | some k => simp at hlive
          | some k =>
              cases h₂ with
              | none => simp at hlive
              | some l => exact .next o ⟨hr, Option.some.inj hlive⟩
      | call c next => simp at h
      | halt => simp at h
      | undef => simp at h
  | call c next =>
      cases q with
      | call c next => exact .failed
      | ret b => simp at h
      | halt => simp at h
      | undef => simp at h
  | halt =>
      cases q with
      | halt => exact .failed
      | ret b => simp at h
      | call c next => simp at h
      | undef => simp at h
  | undef =>
      cases q with
      | undef => exact .undefined
      | ret b => simp at h
      | call c next => simp at h
      | halt => simp at h

theorem step_alike {s t : Session} (h : s.Alike t) (after : Bytes) (e : Event) :
    (s.step after e).Agree (t.step after e) := by
  obtain ⟨heq, hm⟩ := same_event after s.host e s.rmt t.rmt h.rmt
  have hprog := congrArg (fun p => run answer p t.rmt) (prog_alike h.host after e)
  simp only [run_map, Prod.mk.injEq, ← heq] at hprog
  rw [hprog.2] at hm
  exact outcome_agree hm hprog.1

theorem outputs_alike {s t : Session} (h : s.Alike t) (after : Bytes) (events : List Event) :
    outputs after events s = outputs after events t := by
  induction events generalizing s t with
  | nil => rfl
  | cons e events ih =>
      have hstep := step_alike h after e
      simp only [outputs]
      generalize s.step after e = o at hstep
      generalize t.step after e = o' at hstep
      cases hstep with
      | next o h => exact congrArg (o :: ·) (ih h)
      | failed => rfl
      | aborted => rfl
      | undefined => rfl

/-! ## Hosts that follow the protocol -/

inductive HostPhase where
  /-- no request, or the response has been received -/
  | idle
  | sending
  | awaiting
  deriving DecidableEq

/-- What a host does that follows the protocol, and the user: refused transfers are repeated,
and the response is received up to its end. -/
inductive Follows : HostPhase → Event → Output → HostPhase → Prop where
  | first {data : Bytes} (h : data ≠ []) (hmax : data.length ≤ rmtMaxLen) (ok : Bool) :
      Follows .idle (.transfer data) (.accepted ok) (if ok then .sending else .idle)
  | block {data : Bytes} (h : data ≠ []) (hmax : data.length ≤ rmtMaxLen) (ok : Bool) :
      Follows .sending (.transfer data) (.accepted ok) .sending
  | last (ok : Bool) :
      Follows .sending (.transfer []) (.accepted ok) (if ok then .awaiting else .sending)
  | query (b : Option Bytes) :
      Follows .awaiting .query (.handed b) (if b = some [] then .idle else .awaiting)
  | poll (p : HostPhase) (timeUs : UInt64) : Follows p (.poll timeUs) .nothing p
  | tap (p : HostPhase) (yes : Option Bool) : Follows p (.tap yes) .nothing p

/-- The sessions that a host gets to which follows the protocol. -/
inductive Conforms (after : Bytes) (s : Session) : HostPhase → Session → Prop where
  | start : Conforms after s .idle s
  | next {p q : HostPhase} {t u : Session} {e : Event} {o : Output} (run : Conforms after s p t)
      (h : Follows p e o q) (step : t.step after e = .next o u) : Conforms after s q u

/-- While a request is sent, its last block is in the mailbox or has been taken. -/
structure Sending (s : Rmt) : Prop where
  state : s.state ≠ .res
  begun : s.state = .req ∨ s.inbox.length.isSome
  block : s.inbox.length ≠ some 0

/-- A transfer during a request leaves the state of the protocol. -/
theorem Sending.arriving {s : Rmt} (h : Sending s) : s.arriving = s := by
  rw [Rmt.arriving, if_neg h.state]

theorem arrival_sending {s t : Rmt} {h : Host} (hi : InStep s h) {data : Bytes}
    (hd : data.length ≤ rmtMaxLen) (hs : s.arriving.state ≠ .res) {ok : Bool}
    (hrun : run answer (rmtArrival data) s = (.ret ok, t)) :
    (ok = true → data ≠ [] → Sending t) ∧ (ok = false → t = s.arriving) := by
  have ha := arriving_inStep hi hs
  have hflat : [data].flatten = data := by simp
  rw [run_arrival hs] at hrun
  cases hl : s.arriving.inbox.length with
  | some n =>
      rw [run_vdepositv_full (m := .inbox) ha.steady.inOn hl] at hrun
      obtain ⟨hok, rfl⟩ := Prod.mk.inj hrun
      simp [← Prog.ret.inj hok]
  | none =>
      rw [run_vdepositv_free (m := .inbox) ha.steady.inOn hl (by rw [hflat]; exact hd) ha.steady.buffer,
        hflat] at hrun
      obtain ⟨hok, rfl⟩ := Prod.mk.inj hrun
      simp only [← Prog.ret.inj hok, Bool.true_eq_false, false_implies, and_true]
      intro _ hne
      refine ⟨hs, .inr rfl, fun hz => hne ?_⟩
      exact List.length_eq_zero_iff.mp (Option.some.inj hz)

/-- While a request is sent, a poll finds its next block or none. -/
theorem request_sending {s : Rmt} (hs : Steady s) (hsend : Sending s) :
    ∃ r t, run answer (rmtRequest maxReqLen) s = (.ret r, t) ∧ r ≠ .negative ∧ Sending t := by
  cases hl : s.inbox.length with
  | none =>
      have hreq : s.state = .req := by simpa [hl] using hsend.begun
      refine ⟨_, s, run_request_none hsend.state hs.inOn hl, ?_, hsend⟩
      simp [hreq]
  | some n =>
      have hn := hs.inFits n hl
      have hpos : 0 < n := by
        apply Nat.pos_of_ne_zero
        rintro rfl
        exact hsend.block hl
      refine ⟨_, _, run_request_block hsend.state hs.inOn hl hn hpos
        (by rw [hs.buffer]; exact hn), by simp, ?_⟩
      exact ⟨by simp, .inl rfl, by simp [Rmt.withLength]⟩

theorem pollState_sending {s : Rmt} {h : Host} (hi : InStep s h) (hs : Sending s)
    (hq : s.asyncReset = false) (after : Bytes) (timeUs : UInt64) :
    Plays (fun _ t => Sending t) (pollState after timeUs h) s := by
  obtain ⟨r, t, hrun, hne, ht⟩ := request_sending hi.steady hs
  have hp := hi.paired
  rw [hq] at hp
  generalize hstate : s.state = st at hp
  generalize hrdb : h.rdb.state = rdb at hp
  cases hp with
  | idle =>
      simp only [pollState, hrdb]
      refine plays_call hrun ?_
      cases r with
      | negative => exact absurd rfl hne
      | zero => exact ht
      | block b => exact ht
  | req started =>
      simp only [pollState, hrdb]
      refine plays_call hrun ?_
      cases r with
      | negative => exact absurd rfl hne
      | zero => exact ht
      | block b => exact ht
  | res started more => exact absurd hstate hs.state
  | done => exact absurd hstate hs.state

/-- A poll takes the block that is in the mailbox. -/
theorem rmtDbPoll_sending {s : Rmt} {h : Host} (hi : InStep s h) (hs : Sending s) (after : Bytes)
    (timeUs : UInt64) : Plays (fun _ t => Sending t) (rmtDbPoll after timeUs h) s := by
  have hflag : run answer Call.asyncReset.prog s = (.ret s.asyncReset, s) := rfl
  refine plays_call hflag ?_
  cases hq : s.asyncReset with
  | false => exact pollState_sending hi hs hq after timeUs
  | true =>
      have hclear : run answer Call.clearReset.prog s =
          (.ret (), { s with asyncReset := false }) := rfl
      refine plays_call hclear (pollState_sending ?_ ?_ rfl after timeUs)
      · exact hi.cleared hq
      · exact ⟨hs.state, hs.begun, hs.block⟩

theorem step_transfer {after : Bytes} {s t : Session} {data : Bytes} {o : Output}
    (h : s.step after (.transfer data) = .next o t) :
    ∃ ok, o = .accepted ok ∧ run answer (rmtArrival data) s.rmt = (.ret ok, t.rmt) := by
  obtain ⟨r, k⟩ := s
  rw [Session.step, Event.prog, run_bind_eq] at h
  rcases hrun : run answer (rmtArrival data) r with ⟨p, u⟩
  rw [hrun] at h
  cases p with
  | ret ok =>
      obtain ⟨rfl, rfl⟩ := Outcome.next.inj h
      exact ⟨ok, rfl, rfl⟩
  | call c next => exact absurd (congrArg Prod.fst hrun) (run_ne_call _ _ _ _)
  | halt => simp [outcome, run] at h
  | undef => simp [outcome, run] at h

theorem step_poll {after : Bytes} {s t : Session} {timeUs : UInt64} {o : Output}
    (h : s.step after (.poll timeUs) = .next o t) :
    run answer ((rmtDbPoll after timeUs s.host).expand Call.prog) s.rmt =
      (.ret (some t.host), t.rmt) := by
  obtain ⟨r, k⟩ := s
  rw [Session.step, Event.prog, run_bind_eq] at h
  rcases hrun : run answer ((rmtDbPoll after timeUs k).expand Call.prog) r with ⟨p, u⟩
  rw [hrun] at h
  cases p with
  | ret k =>
      cases k with
      | none => simp [outcome, run] at h
      | some k =>
          obtain ⟨-, rfl⟩ := Outcome.next.inj h
          rfl
  | call c next => exact absurd (congrArg Prod.fst hrun) (run_ne_call _ _ _ _)
  | halt => simp [outcome, run] at h
  | undef => simp [outcome, run] at h

/-- What a host sends that follows the protocol is allowed. -/
theorem Follows.allowed {p q : HostPhase} {s : Session} {e : Event} {o : Output}
    (h : Follows p e o q) (hs : p = .sending → Sending s.rmt) : HostAllowed s e := by
  cases h with
  | first hne hmax ok => exact ⟨hmax, fun hnil => absurd hnil hne⟩
  | block hne hmax ok => exact ⟨hmax, fun hnil => absurd hnil hne⟩
  | last ok => exact ⟨Nat.zero_le _, fun _ => (hs rfl).begun⟩
  | query b => trivial
  | poll timeUs => trivial
  | tap yes => trivial

/-- While the host sends, its blocks are taken one after the other. -/
theorem Follows.sending {after : Bytes} {p q : HostPhase} {s t : Session} {e : Event} {o : Output}
    (h : Follows p e o q) (hi : InStep s.rmt s.host) (hs : p = .sending → Sending s.rmt)
    (step : s.step after e = .next o t) (hq : q = .sending) : Sending t.rmt := by
  have harrive : ∀ data, e = .transfer data → data.length ≤ rmtMaxLen → ∀ ok, o = .accepted ok →
      (ok = true → data ≠ [] → Sending t.rmt) ∧ (ok = false → t.rmt = s.rmt.arriving) := by
    rintro data rfl hmax ok rfl
    obtain ⟨ok', hok, hrun⟩ := step_transfer step
    obtain rfl := Output.accepted.inj hok
    by_cases hres : s.rmt.arriving.state = .res
    · rw [run_arrival_res hres] at hrun
      simp at hrun
    · exact arrival_sending hi hmax hres hrun
  cases h with
  | first hne hmax ok =>
      cases ok with
      | true => exact (harrive _ rfl hmax true rfl).1 rfl hne
      | false => simp at hq
  | block hne hmax ok =>
      cases ok with
      | true => exact (harrive _ rfl hmax true rfl).1 rfl hne
      | false =>
          rw [(harrive _ rfl hmax false rfl).2 rfl, (hs rfl).arriving]
          exact hs rfl
  | last ok =>
      cases ok with
      | true => simp at hq
      | false =>
          rw [(harrive _ rfl (Nat.zero_le _) false rfl).2 rfl, (hs rfl).arriving]
          exact hs rfl
  | query b => split at hq <;> simp at hq
  | poll timeUs =>
      have hplays := rmtDbPoll_sending hi (hs hq) after ‹_›
      unfold Plays at hplays
      rw [step_poll step] at hplays
      exact hplays
  | tap yes =>
      obtain ⟨-, rfl⟩ := Outcome.next.inj step
      exact hs hq

theorem conforms_sending {after : Bytes} {s t : Session} {p : HostPhase}
    (hi : InStep s.rmt s.host) (h : Conforms after s p t) :
    InStep t.rmt t.host ∧ (p = .sending → Sending t.rmt) := by
  induction h with
  | start => exact ⟨hi, by simp⟩
  | next run hf step ih =>
      obtain ⟨hi', hs⟩ := ih
      refine ⟨?_, hf.sending hi' hs step⟩
      exact reached_inStep hi' (.next .start (hf.allowed hs) step)

/-! ## Opened again -/

/-- The device has just started, with the database and the clock as they are. -/
def Session.restarted (s : Session) : Session :=
  ⟨rmtDbInit (.boot s.rmt.strictRmt), { s.host with rdb := ⟨.idle, 0, 0, [], []⟩ }⟩

/-- A session that starts clean: `rmt-db.c` is ready for a request, no poll fails as long as the
host follows the protocol, and the host learns what it would learn from a device that has just
started. -/
structure Clean (after : Bytes) (s : Session) : Prop where
  ready : s.host.rdb.state = .idle
  safe : ∀ {p t}, Conforms after s p t → ∀ timeUs,
    t.step after (.poll timeUs) ≠ .failed ∧ t.step after (.poll timeUs) ≠ .undefined
  same : ∀ events, outputs after events s = outputs after events s.restarted

theorem rmtDbInit_matches {r u : Rmt} (hr : r.mboxBuf.length = rmtMaxLen)
    (hu : u.mboxBuf.length = rmtMaxLen) (hs : r.strictRmt = u.strictRmt) :
    Matches (rmtDbInit r) (rmtDbInit u) :=
  ⟨rfl, rfl, rfl, hs, rfl, rfl, rfl, rfl, hr, hu, by simp [rmtDbInit, rmtSetReset, rmtOpen],
    by simp [rmtDbInit, rmtSetReset, rmtOpen]⟩

theorem rmtDbInit_clean {after : Bytes} {r : Rmt} {h : Host} (hbuf : r.mboxBuf.length = rmtMaxLen)
    (hidle : h.rdb.state = .idle) (hn : NamesFit h.db.entries.tops) :
    Clean after ⟨rmtDbInit r, h⟩ := by
  refine ⟨hidle, ?_, ?_⟩
  · intro p t hc timeUs
    obtain ⟨hi, -⟩ := conforms_sending (rmtDbInit_inStep hbuf hidle hn) hc
    rcases step_inStep (e := .poll timeUs) hi trivial after with ⟨o, u, hu, -⟩ | hu | ⟨⟨data, hd⟩, -⟩
    · simp [hu]
    · simp [hu]
    · simp at hd
  · intro events
    refine outputs_alike ⟨?_, ?_⟩ after events
    · exact rmtDbInit_matches hbuf List.length_replicate rfl
    · simp [Session.restarted, Host.live, Rdb.live, hidle]

theorem Matches.refl {s : Rmt} (hin : s.inbox.enabled = true) (hout : s.outbox.enabled = true)
    (hbuf : s.mboxBuf.length = rmtMaxLen) : Matches s s :=
  ⟨rfl, rfl, rfl, rfl, rfl, rfl, hin, hout, hbuf, hbuf, fun _ _ => rfl, fun _ _ => rfl⟩

/-- The mailboxes stay open, and the buffer keeps its size. -/
theorem reached_matches {after : Bytes} {allowed : Session → Event → Prop} {s t : Session}
    (hs : Matches s.rmt s.rmt) (h : Reached after allowed s t) : Matches t.rmt t.rmt := by
  induction h with
  | start => exact hs
  | @next t u e o _ _ step ih =>
      obtain ⟨-, hm⟩ := same_event after t.host e t.rmt t.rmt ih
      unfold Session.step at step
      rcases hrun : run answer (e.prog after t.host) t.rmt with ⟨p, r⟩
      rw [hrun] at step hm
      rcases p with ⟨o', _ | k⟩ | _ | _ | _
      · simp [outcome] at step
      · obtain ⟨-, rfl⟩ := Outcome.next.inj step
        exact hm
      · simp [outcome] at step
      · simp [outcome] at step
      · simp [outcome] at step

/-- The page can always be left. -/
theorem rmtClose_some {s : Rmt} (hin : s.inbox.enabled = true) (hout : s.outbox.enabled = true) :
    ∃ r, rmtClose s = some r ∧ r.mboxBuf = s.mboxBuf := by
  unfold rmtClose mboxDisable
  split
  · rw [if_pos hout]
    exact ⟨_, rfl, rfl⟩
  · rw [if_pos hin]
    exact ⟨_, rfl, rfl⟩

end Sunela.Remote
