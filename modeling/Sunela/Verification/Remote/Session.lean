import Sunela.Verification.Remote.Calls
import Sunela.Verification.Support.RemoteAccount

/-! # The two state machines stay in step

The states of `rmt.c` and of `rmt-db.c` belong together, whatever the host sends. This takes
that requests do not start with an empty block. -/

namespace Sunela.Remote

open Program Fields Entry

/-- The mailboxes are open, and their messages fit the buffer. -/
structure Steady (s : Rmt) : Prop where
  inOn : s.inbox.enabled = true
  outOn : s.outbox.enabled = true
  buffer : s.mboxBuf.length = rmtMaxLen
  inFits : ∀ n, s.inbox.length = some n → n ≤ rmtMaxLen
  outFits : ∀ n, s.outbox.length = some n → n ≤ rmtMaxLen

/-- The names fit into a block, as they do if they come from the identifiers of entries. -/
def NamesFit (entries : List DbEntry) : Prop :=
  ∀ e ∈ entries, e.name.bytes.length ≤ rmtMaxLen

instance (entries : List DbEntry) : Decidable (NamesFit entries) :=
  inferInstanceAs (Decidable (∀ e ∈ entries, _))

/-- The request has been made to the database as it is. -/
structure Started (h : Host) : Prop where
  current : h.rdb.generation = h.db.generation
  named : h.rdb.op = rdopLs → NamesFit h.rdb.de

/-- The states that belong together. After a reset any state is left before the next poll. -/
inductive Paired (h : Host) : RmtState → RdbState → Bool → Prop where
  | idle : Paired h .idle .idle false
  | req (started : Started h) : Paired h .req .req false
  | res (started : Started h) (more : h.rdb.op = rdopLs → h.rdb.de ≠ []) :
      Paired h .res .res false
  | done : Paired h .res .done false
  | reset (st : RdbState) : Paired h .idle st true

theorem Paired.same {h k : Host} {st : RmtState} {rdb : RdbState} {flag : Bool}
    (hp : Paired h st rdb flag) (hr : k.rdb = h.rdb) (hd : k.db = h.db) :
    Paired k st rdb flag := by
  have hst : Started h → Started k := by
    rintro ⟨hcurrent, hnamed⟩
    refine ⟨by rw [hr, hd, hcurrent], ?_⟩
    rw [hr]
    exact hnamed
  cases hp with
  | idle => exact .idle
  | req started => exact .req (hst started)
  | res started more => exact .res (hst started) (by rw [hr]; exact more)
  | done => exact .done
  | reset => exact .reset rdb

structure InStep (s : Rmt) (h : Host) : Prop where
  steady : Steady s
  paired : Paired h s.state h.rdb.state s.asyncReset
  begun : s.inbox.length = some 0 → s.state = .req
  taken : s.state = .res → s.inbox.length = none
  fits : NamesFit h.db.entries.tops

/-- A transfer of up to the maximum length. An empty one comes while a request is received, or
is refused as the mailbox is full. -/
def HostAllowed (s : Session) : Event → Prop
  | .transfer data =>
      data.length ≤ rmtMaxLen ∧
        (data = [] → s.rmt.state = .req ∨ s.rmt.inbox.length.isSome)
  | _ => True

/-! ## What no call changes -/

theorem run_frame {α : Type} (p : Shared α) (s : Rmt) :
    (run answer p s).2.reset = s.reset ∧ (run answer p s).2.strictRmt = s.strictRmt ∧
      (run answer p s).2.inbox.enabled = s.inbox.enabled ∧
      (run answer p s).2.outbox.enabled = s.outbox.enabled := by
  induction p generalizing s with
  | ret a => exact ⟨rfl, rfl, rfl, rfl⟩
  | call c next ih =>
      have hc : (answer s c).2.reset = s.reset ∧ (answer s c).2.strictRmt = s.strictRmt ∧
          (answer s c).2.inbox.enabled = s.inbox.enabled ∧
          (answer s c).2.outbox.enabled = s.outbox.enabled := by
        cases c with
        | setLength m n => cases m <;> exact ⟨rfl, rfl, rfl, rfl⟩
        | callReset =>
            simp only [answer, rmtDbReset]
            split <;> exact ⟨rfl, rfl, rfl, rfl⟩
        | _ => exact ⟨rfl, rfl, rfl, rfl⟩
      obtain ⟨h₁, h₂, h₃, h₄⟩ := ih (answer s c).1 (answer s c).2
      exact ⟨h₁.trans hc.1, h₂.trans hc.2.1, h₃.trans hc.2.2.1, h₄.trans hc.2.2.2⟩
  | halt => exact ⟨rfl, rfl, rfl, rfl⟩
  | undef => exact ⟨rfl, rfl, rfl, rfl⟩

/-! ## Polls -/

/-- The program ends in a state that satisfies `Q`, or with `ABORT`. -/
def Plays (Q : Host → Rmt → Prop) (p : App (Option Host)) (s : Rmt) : Prop :=
  match run answer (p.expand Call.prog) s with
  | (.ret none, _) => True
  | (.ret (some h), t) => Q h t
  | (_, _) => False

variable {Q : Host → Rmt → Prop} {s t : Rmt} {h : Host}

@[simp] theorem plays_ret : Plays Q (.ret (some h)) s ↔ Q h s := Iff.rfl

@[simp] theorem plays_none : Plays Q (.ret none) s := trivial

theorem plays_call {c : Call} {a : c.Reply} {f : c.Reply → App (Option Host)}
    (hrun : run answer c.prog s = (.ret a, t)) (hf : Plays Q (f a) t) :
    Plays Q (Prog.exec c >>= f) s := by
  have hexp : (Prog.exec c >>= f).expand Call.prog =
      c.prog >>= fun r => (f r).expand Call.prog := rfl
  rw [Plays, hexp, run_bind hrun]
  exact hf

theorem Steady.deposited (hs : Steady s) (m : Side) {data : Bytes}
    (hd : data.length ≤ rmtMaxLen) : Steady (s.deposited m data) := by
  have hbuf : (overwrite s.mboxBuf 0 data).length = rmtMaxLen := by
    rw [overwrite_length (by rw [hs.buffer]; omega), hs.buffer]
  have hlen : ∀ n, some data.length = some n → n ≤ rmtMaxLen := by
    intro n hn
    exact Option.some.inj hn ▸ hd
  cases m with
  | inbox => exact ⟨hs.inOn, hs.outOn, hbuf, hlen, hs.outFits⟩
  | outbox => exact ⟨hs.inOn, hs.outOn, hbuf, hs.inFits, hlen⟩

/-- The state of the protocol and the flag do not matter to the mailboxes. -/
theorem Steady.same (hs : Steady s) (hin : t.inbox = s.inbox) (hout : t.outbox = s.outbox)
    (hbuf : t.mboxBuf = s.mboxBuf) : Steady t := by
  refine ⟨?_, ?_, ?_, ?_, ?_⟩
  · rw [hin]
    exact hs.inOn
  · rw [hout]
    exact hs.outOn
  · rw [hbuf]
    exact hs.buffer
  · rw [hin]
    exact hs.inFits
  · rw [hout]
    exact hs.outFits

theorem Steady.emptied (hs : Steady s) (m : Side) : Steady (s.withLength m none) := by
  cases m with
  | inbox => exact ⟨hs.inOn, hs.outOn, hs.buffer, by simp [Rmt.withLength], hs.outFits⟩
  | outbox => exact ⟨hs.inOn, hs.outOn, hs.buffer, hs.inFits, by simp [Rmt.withLength]⟩

/-- The device is in the response to a request. -/
structure Responding (s : Rmt) : Prop where
  steady : Steady s
  state : s.state = .res
  quiet : s.asyncReset = false
  taken : s.inbox.length = none

theorem Responding.deposited (hs : Responding s) {data : Bytes} (hd : data.length ≤ rmtMaxLen) :
    Responding (s.deposited .outbox data) :=
  ⟨hs.steady.deposited .outbox hd, hs.state, hs.quiet, hs.taken⟩

theorem Responding.inStep (hs : Responding s) (hp : Paired h .res h.rdb.state false)
    (hn : NamesFit h.db.entries.tops) : InStep s h := by
  refine ⟨hs.steady, ?_, ?_, fun _ => hs.taken, hn⟩
  · rw [hs.state, hs.quiet]
    exact hp
  · simp [hs.taken]

theorem responsev_plays {parts : List Bytes} {f : Bool → App (Option Host)}
    (hs : Responding s) (hmax : parts.flatten.length ≤ rmtMaxLen) (hfull : Plays Q (f false) s)
    (hfree : ∀ t, Responding t → Plays Q (f true) t) : Plays Q (responsev parts >>= f) s := by
  cases hl : s.outbox.length with
  | none =>
      exact plays_call (run_responsev_free hs.state hs.steady.outOn hl hmax hs.steady.buffer)
        (hfree _ (hs.deposited hmax))
  | some n => exact plays_call (run_responsev_full hs.state hs.steady.outOn hl) hfull

/-! ### Responses -/

theorem respond_plays {b : Bytes} (hs : Responding s) (hb : b.length ≤ rmtMaxLen)
    (hp : Paired h .res h.rdb.state false) (hn : NamesFit h.db.entries.tops) :
    Plays (fun h t => InStep t h) (respond h b) s := by
  refine responsev_plays hs (by simpa using hb) (hs.inStep hp hn) ?_
  intro t ht
  exact ht.inStep .done hn

theorem pollLs_plays (hs : Responding s) (hst : Started h) (hstate : h.rdb.state = .res)
    (hop : h.rdb.op = rdopLs) (hde : h.rdb.de ≠ []) (hn : NamesFit h.db.entries.tops) :
    Plays (fun h t => InStep t h) (pollLs h) s := by
  obtain ⟨⟨state, op, generation, de, f⟩, ui, db, timeOffset⟩ := h
  obtain ⟨hgen, hnamed⟩ := hst
  dsimp only at hgen hnamed hstate hop hde
  subst hgen hstate hop
  cases de with
  | nil => exact absurd rfl hde
  | cons e rest =>
      simp only [pollLs, ne_eq, not_true_eq_false, if_false]
      have hfit := hnamed rfl
      refine responsev_plays hs (by simpa using hfit e (by simp)) ?_ ?_
      · exact hs.inStep (.res ⟨rfl, hnamed⟩ fun _ => hde) hn
      · intro t ht
        by_cases hr : rest = []
        · simp only [if_true, hr]
          exact ht.inStep .done hn
        · simp only [if_true, hr, if_false]
          exact ht.inStep (.res ⟨rfl, fun _ x hx => hfit x (by simp [hx])⟩ fun _ => hr) hn

theorem fieldParts_fits {f : DbField} {parts : List Bytes} (h : fieldParts f = some (some parts)) :
    parts.flatten.length ≤ rmtMaxLen := by
  have hf := f.fits
  unfold fieldParts at h
  split_ifs at h
  · simp at h
  · obtain rfl := Option.some.inj (Option.some.inj h)
    simp [rmtMaxLen]
    omega
  · obtain rfl := Option.some.inj (Option.some.inj h)
    simp [rmtMaxLen]

theorem showLoop_plays (hs : Responding s) (hst : Started h) (hstate : h.rdb.state = .res)
    (hop : h.rdb.op = rdopShow) (hn : NamesFit h.db.entries.tops) (fields : List DbField) :
    Plays (fun h t => InStep t h) (showLoop h fields) s := by
  induction fields generalizing s with
  | nil => exact hs.inStep .done hn
  | cons f rest ih =>
      simp only [showLoop]
      cases hf : fieldParts f with
      | none => exact plays_none
      | some shown =>
          cases shown with
          | none => exact ih hs
          | some parts =>
              refine responsev_plays hs (fieldParts_fits hf) ?_ fun t ht => ih ht
              refine hs.inStep ?_ hn
              simp only [hstate]
              refine .res ⟨hst.current, hst.named⟩ fun hls => ?_
              rw [hop] at hls
              exact absurd hls (by decide)

theorem pollRes_plays (hs : Responding s) (hst : Started h) (hstate : h.rdb.state = .res)
    (hde : h.rdb.op = rdopLs → h.rdb.de ≠ []) (hn : NamesFit h.db.entries.tops) (after : Bytes)
    (timeUs : UInt64) : Plays (fun h t => InStep t h) (pollRes after timeUs h) s := by
  have hp : Paired h .res h.rdb.state false := by
    rw [hstate]
    exact .res hst hde
  unfold pollRes
  split_ifs with h1 h2 h3 h4 h5 h6 h7
  · exact pollLs_plays hs hst hstate h1 (hde h1) hn
  · rw [pollShow, if_neg (not_not.mpr hst.current)]
    exact showLoop_plays hs hst hstate h2 hn _
  · exact respond_plays hs (by simp [bytes64, rmtMaxLen]) hp hn
  · exact respond_plays hs (by decide) hp hn
  · exact respond_plays hs (by decide) hp hn
  · refine respond_plays hs ?_ hp hn
    simp only [busy, List.length_append, List.length_cons, List.length_take]
    have hlen : (ascii "Busy").length = 4 := by decide
    rw [hlen, rmtMaxLen]
    omega
  · exact hs.inStep .done hn
  · exact plays_none

/-! ### Requests -/

/-- What becomes of a request that is not a list. -/
structure Entered (h k : Host) : Prop where
  state : k.rdb.state = h.rdb.state
  generation : k.rdb.generation = h.rdb.generation
  db : k.db = h.db
  op : h.rdb.op ≠ rdopLs → k.rdb.op ≠ rdopLs

theorem Entered.refl (h : Host) : Entered h h := ⟨rfl, rfl, rfl, id⟩

theorem Entered.trans {k l : Host} (hk : Entered h k) (hl : Entered k l) : Entered h l :=
  ⟨hl.state.trans hk.state, hl.generation.trans hk.generation, hl.db.trans hk.db,
    fun ho => hl.op (hk.op ho)⟩

theorem Entered.withOp {k : Host} (hk : Entered h k) (op : UInt8) (ho : op ≠ rdopLs) :
    Entered h (k.withOp op) := ⟨hk.state, hk.generation, hk.db, fun _ => ho⟩

/-- Where an action cannot be asked for, the device is busy. -/
theorem Entered.asked {r : Bool × Host} (hr : Entered h r.2) :
    Entered h (if r.1 then r.2 else r.2.withOp rdopBusy) := by
  split
  · exact hr
  · exact hr.withOp rdopBusy (by decide)

theorem startShow_entered (h : Host) (b : Bytes) : Entered h (startShow h b) := by
  have hde : ∀ de f, Entered h { h with rdb := { h.rdb with de, f } } :=
    fun de f => ⟨rfl, rfl, rfl, id⟩
  unfold startShow
  cases fromEntry h (b.drop 1) with
  | nil => exact (hde [] []).withOp rdopNotFound (by decide)
  | cons e de => exact hde (e :: de) e.fields

theorem uiRmtReveal_entered (h : Host) (field : UiRmtField) :
    Entered h (uiRmtReveal h field).2 := by
  unfold uiRmtReveal
  split
  · exact .refl h
  · dsimp only
    split <;> exact ⟨rfl, rfl, rfl, id⟩

theorem startReveal_entered (h : Host) (b : Bytes) : Entered h (startReveal h b) := by
  have hde : ∀ de f, Entered h { h with rdb := { h.rdb with de, f } } :=
    fun de f => ⟨rfl, rfl, rfl, id⟩
  unfold startReveal
  split
  · exact (Entered.refl h).withOp rdopInvalid (by decide)
  · cases fromEntry h ((b.drop 1).take (b.length - 2)) with
    | nil => exact (hde [] h.rdb.f).withOp rdopNotFound (by decide)
    | cons e de =>
        dsimp only
        split
        · exact ((hde (e :: de) _).trans (uiRmtReveal_entered _ _)).asked
        · exact (hde (e :: de) []).withOp rdopNotFound (by decide)

theorem uiRmtSetTime_entered (h : Host) (timeUs : UInt64) (newTime : Int64) :
    Entered h (uiRmtSetTime h timeUs newTime).2 := by
  unfold uiRmtSetTime
  split
  · exact .refl h
  · split
    · exact .refl h
    · exact ⟨rfl, rfl, rfl, id⟩

theorem startSetTime_entered (h : Host) (timeUs : UInt64) (b : Bytes) :
    Entered h (startSetTime h timeUs b) := by
  unfold startSetTime
  split
  · exact (Entered.refl h).withOp rdopInvalid (by decide)
  · exact (uiRmtSetTime_entered h timeUs _).asked

/-- After its first block a request is in progress. -/
theorem startRequest_entered (h : Host) (timeUs : UInt64) (b : Bytes) :
    (startRequest h timeUs b).rdb.state = .req ∧
      (startRequest h timeUs b).rdb.generation = h.db.generation ∧
      (startRequest h timeUs b).db = h.db ∧
      ((startRequest h timeUs b).rdb.op = rdopLs →
        (startRequest h timeUs b).rdb.de = h.db.entries.tops) := by
  have hother : ∀ k, Entered (h.requested (b.headD 0)) k → b.headD 0 ≠ rdopLs →
      k.rdb.state = .req ∧ k.rdb.generation = h.db.generation ∧ k.db = h.db ∧
        (k.rdb.op = rdopLs → k.rdb.de = h.db.entries.tops) := by
    intro k hk hop
    exact ⟨hk.state, hk.generation, hk.db, fun hls => absurd hls (hk.op hop)⟩
  simp only [startRequest]
  split_ifs with h1 h2 h3 h4 h5
  · exact ⟨rfl, rfl, rfl, fun _ => rfl⟩
  · exact hother _ (startShow_entered _ b) h1
  · exact hother _ (startReveal_entered _ b) h1
  · exact hother _ (.refl _) h1
  · exact hother _ (startSetTime_entered _ timeUs b) h1
  · exact hother _ ((Entered.refl _).withOp rdopInvalid (by decide)) h1

theorem startRequest_started (hn : NamesFit h.db.entries.tops) (timeUs : UInt64) (b : Bytes) :
    (startRequest h timeUs b).rdb.state = .req ∧ Started (startRequest h timeUs b) ∧
      (startRequest h timeUs b).db = h.db := by
  obtain ⟨hstate, hgen, hdb, hls⟩ := startRequest_entered h timeUs b
  exact ⟨hstate, ⟨by rw [hgen, hdb], fun hop => by rw [hls hop]; exact hn⟩, hdb⟩

/-- A block that has been taken from the mailbox leaves it empty. -/
theorem emptied_inStep {st : RmtState} (hs : Steady s) (hst : st ≠ .res)
    (hp : Paired h st h.rdb.state s.asyncReset) (hn : NamesFit h.db.entries.tops) :
    InStep { s.withLength .inbox none with state := st } h := by
  refine ⟨(hs.emptied .inbox).same rfl rfl rfl, hp, ?_, fun hres => absurd hres hst, hn⟩
  intro hl
  simp [Rmt.withLength] at hl

theorem pollIdle_plays (hi : InStep s h) (hs : s.state = .idle) (hq : s.asyncReset = false)
    (timeUs : UInt64) :
    Plays (fun h t => InStep t h) (pollIdle timeUs h) s := by
  have hne : s.state ≠ .res := by simp [hs]
  cases hl : s.inbox.length with
  | none =>
      refine plays_call (run_request_none hne hi.steady.inOn hl) ?_
      rw [if_pos hs]
      exact hi
  | some n =>
      have hpos : 0 < n := by
        apply Nat.pos_of_ne_zero
        rintro rfl
        simpa [hs] using hi.begun hl
      have hn := hi.steady.inFits n hl
      refine plays_call (run_request_block hne hi.steady.inOn hl hn hpos
        (by rw [hi.steady.buffer]; exact hn)) ?_
      obtain ⟨hreq, hst, hdb⟩ :=
        startRequest_started hi.fits timeUs (s.mboxBuf.take n)
      refine emptied_inStep hi.steady (by simp) ?_ (by rw [hdb]; exact hi.fits)
      rw [hreq, hq]
      exact .req hst

theorem pollReq_plays (hi : InStep s h) (hst : Started h) (hstate : h.rdb.state = .req)
    (hs : s.state = .req) (hq : s.asyncReset = false) (after : Bytes) (timeUs : UInt64) :
    Plays (fun h t => InStep t h) (pollReq after timeUs h) s := by
  have hne : s.state ≠ .res := by simp [hs]
  cases hl : s.inbox.length with
  | none =>
      refine plays_call (run_request_none hne hi.steady.inOn hl) ?_
      rw [if_neg (by simp [hs])]
      exact hi
  | some n =>
      rcases Nat.eq_zero_or_pos n with rfl | hpos
      · refine plays_call (run_request_end hne hi.steady.inOn hl) ?_
        have hres : Responding { s.withLength .inbox none with state := .res } :=
          ⟨(hi.steady.emptied .inbox).same rfl rfl rfl, rfl, hq, rfl⟩
        dsimp only
        split_ifs with hend
        · exact hres.inStep .done hi.fits
        · refine pollRes_plays (h := h.withState .res) hres ⟨hst.current, hst.named⟩ rfl ?_
            hi.fits after timeUs
          intro hop hde
          exact hend (.inl ⟨hop, hde⟩)
      · have hn := hi.steady.inFits n hl
        refine plays_call (run_request_block hne hi.steady.inOn hl hn hpos
          (by rw [hi.steady.buffer]; exact hn)) ?_
        refine emptied_inStep hi.steady (by simp) ?_ hi.fits
        rw [hq]
        change Paired (h.withOp rdopInvalid) .req h.rdb.state false
        rw [hstate]
        exact .req ⟨hst.current, fun hop => absurd hop (show rdopInvalid ≠ rdopLs by decide)⟩

theorem pollEnd_plays (hs : Responding s) (hstate : h.rdb.state = .done)
    (hn : NamesFit h.db.entries.tops) : Plays (fun h t => InStep t h) (pollEnd h) s := by
  cases hl : s.outbox.length with
  | none =>
      refine plays_call (run_end_free hs.state hs.steady.outOn hl hs.steady.buffer) ?_
      have hsteady := hs.steady.deposited .outbox (show ([] : Bytes).length ≤ rmtMaxLen by simp)
      refine ⟨hsteady.same rfl rfl rfl, ?_, ?_, by simp, hn⟩
      · change Paired (h.withState .idle) .idle .idle s.asyncReset
        rw [hs.quiet]
        exact .idle
      · intro hin
        change s.inbox.length = some 0 at hin
        rw [hs.taken] at hin
        simp at hin
  | some n =>
      refine plays_call (run_end_full hs.state hs.steady.outOn hl) ?_
      refine hs.inStep ?_ hn
      rw [hstate]
      exact .done

theorem pollState_plays (hi : InStep s h) (hq : s.asyncReset = false) (after : Bytes)
    (timeUs : UInt64) : Plays (fun h t => InStep t h) (pollState after timeUs h) s := by
  have hp := hi.paired
  rw [hq] at hp
  generalize hs : s.state = st at hp
  generalize hstate : h.rdb.state = rdb at hp
  cases hp with
  | idle =>
      simp only [pollState, hstate]
      exact pollIdle_plays hi hs hq timeUs
  | req started =>
      simp only [pollState, hstate]
      exact pollReq_plays hi started hstate hs hq after timeUs
  | res started more =>
      simp only [pollState, hstate]
      exact pollRes_plays ⟨hi.steady, hs, hq, hi.taken hs⟩ started hstate more hi.fits after timeUs
  | done =>
      simp only [pollState, hstate]
      exact pollEnd_plays ⟨hi.steady, hs, hq, hi.taken hs⟩ hstate hi.fits

/-- Once the flag has been seen, both are idle. -/
theorem InStep.cleared (hi : InStep s h) (hq : s.asyncReset = true) :
    InStep { s with asyncReset := false } (h.withState .idle) := by
  have hidle : s.state = .idle := by
    have hp := hi.paired
    rw [hq] at hp
    generalize s.state = st at hp
    generalize h.rdb.state = rdb at hp
    cases hp
    rfl
  refine ⟨hi.steady.same rfl rfl rfl, ?_, hi.begun, hi.taken, hi.fits⟩
  change Paired (h.withState .idle) s.state .idle false
  rw [hidle]
  exact .idle

/-- A poll keeps the state machines in step. -/
theorem rmtDbPoll_plays (hi : InStep s h) (after : Bytes) (timeUs : UInt64) :
    Plays (fun h t => InStep t h) (rmtDbPoll after timeUs h) s := by
  have hflag : run answer Call.asyncReset.prog s = (.ret s.asyncReset, s) := rfl
  refine plays_call hflag ?_
  cases hq : s.asyncReset with
  | false => exact pollState_plays hi hq after timeUs
  | true =>
      have hclear : run answer Call.clearReset.prog s =
          (.ret (), { s with asyncReset := false }) := rfl
      exact plays_call hclear (pollState_plays (hi.cleared hq) rfl after timeUs)

/-! ## The host -/

theorem arriving_inStep (hi : InStep s h) (hs : s.arriving.state ≠ .res) :
    InStep s.arriving h := by
  unfold Rmt.arriving at hs ⊢
  split_ifs at hs ⊢ with hres hreset
  · refine ⟨hi.steady.same rfl rfl rfl, .reset _, ?_, by simp, hi.fits⟩
    intro hl
    change s.inbox.length = some 0 at hl
    rw [hi.taken hres] at hl
    simp at hl
  · exact absurd hres hs
  · exact hi

/-- A transfer is accepted or refused, unless the protocol is not allowed to be reset. -/
theorem arrival_inStep (hi : InStep s h) {data : Bytes} (hd : data.length ≤ rmtMaxLen)
    (he : data = [] → s.state = .req ∨ s.inbox.length.isSome) (hs : s.arriving.state ≠ .res) :
    ∃ ok t, run answer (rmtArrival data) s = (.ret ok, t) ∧ InStep t h := by
  have ha := arriving_inStep hi hs
  have hflat : [data].flatten = data := by simp
  rw [run_arrival hs]
  cases hl : s.arriving.inbox.length with
  | some n => exact ⟨false, _, run_vdepositv_full ha.steady.inOn hl, ha⟩
  | none =>
      refine ⟨true, _, run_vdepositv_free ha.steady.inOn hl (by rw [hflat]; exact hd)
        ha.steady.buffer, ?_⟩
      rw [hflat]
      refine ⟨ha.steady.deposited .inbox hd, ha.paired, ?_, fun hres => absurd hres hs, ha.fits⟩
      intro hz
      have hnil : data = [] := List.length_eq_zero_iff.mp (Option.some.inj hz)
      change s.arriving.state = .req
      unfold Rmt.arriving at hl ⊢
      rcases he hnil with hreq | hsome
      · simp [hreq]
      · split_ifs at hl ⊢ with hres hreset
        · rw [hi.taken hres] at hsome
          simp at hsome
        · change s.inbox.length = none at hl
          rw [hl] at hsome
          simp at hsome
        · rw [hl] at hsome
          simp at hsome

theorem query_inStep (hi : InStep s h) :
    ∃ b t, run answer rmtQuery s = (.ret b, t) ∧ InStep t h := by
  cases hl : s.outbox.length with
  | none => exact ⟨none, s, run_query_none hi.steady.outOn hl, hi⟩
  | some n =>
      exact ⟨_, _, run_query_some hi.steady.outOn hl (hi.steady.outFits n hl),
        hi.steady.emptied .outbox, hi.paired, hi.begun, hi.taken, hi.fits⟩

theorem uiRmtTap_same (h : Host) (yes : Option Bool) :
    (uiRmtTap h yes).rdb = h.rdb ∧ (uiRmtTap h yes).db = h.db := by
  unfold uiRmtTap
  split
  · rcases yes with _ | _ | _
    · exact ⟨rfl, rfl⟩
    · exact ⟨rfl, rfl⟩
    · dsimp only
      split
      · unfold doActionReveal
        split <;> exact ⟨rfl, rfl⟩
      · exact ⟨rfl, rfl⟩
  · split <;> exact ⟨rfl, rfl⟩

/-- What an event can do. Only a transfer that is not allowed to reset the protocol fails. -/
theorem step_inStep {s : Session} {e : Event} (hi : InStep s.rmt s.host) (he : HostAllowed s e)
    (after : Bytes) :
    (∃ o t, s.step after e = .next o t ∧ InStep t.rmt t.host) ∨ s.step after e = .aborted ∨
      ((∃ data, e = .transfer data) ∧ s.rmt.arriving.state = .res ∧ s.step after e = .failed) := by
  obtain ⟨r, h⟩ := s
  cases e with
  | transfer data =>
      by_cases hs : r.arriving.state = .res
      · refine .inr (.inr ⟨⟨data, rfl⟩, hs, ?_⟩)
        rw [Session.step, Event.prog, run_bind_halt (run_arrival_res hs data)]
        rfl
      · obtain ⟨ok, t, hrun, ht⟩ := arrival_inStep hi he.1 he.2 hs
        refine .inl ⟨.accepted ok, ⟨t, h⟩, ?_, ht⟩
        rw [Session.step, Event.prog, run_bind hrun]
        rfl
  | query =>
      obtain ⟨b, t, hrun, ht⟩ := query_inStep hi
      refine .inl ⟨.handed b, ⟨t, h⟩, ?_, ht⟩
      rw [Session.step, Event.prog, run_bind hrun]
      rfl
  | poll timeUs =>
      have hp := rmtDbPoll_plays hi after timeUs
      unfold Plays at hp
      rcases hrun : run answer ((rmtDbPoll after timeUs h).expand Call.prog) r with ⟨p, t⟩
      rw [hrun] at hp
      cases p with
      | ret k =>
          cases k with
          | none =>
              refine .inr (.inl ?_)
              rw [Session.step, Event.prog, run_bind hrun]
              rfl
          | some k =>
              refine .inl ⟨.nothing, ⟨t, k⟩, ?_, hp⟩
              rw [Session.step, Event.prog, run_bind hrun]
              rfl
      | call c next => exact hp.elim
      | halt => exact hp.elim
      | undef => exact hp.elim
  | tap yes =>
      obtain ⟨hrdb, hdb⟩ := uiRmtTap_same h yes
      refine .inl ⟨.nothing, ⟨r, uiRmtTap h yes⟩, rfl, hi.steady, ?_, hi.begun, hi.taken, ?_⟩
      · rw [hrdb]
        exact hi.paired.same hrdb hdb
      · rw [hdb]
        exact hi.fits

/-! ## Runs -/

theorem reached_inStep {after : Bytes} {s t : Session} (hi : InStep s.rmt s.host)
    (hr : Reached after HostAllowed s t) : InStep t.rmt t.host := by
  induction hr with
  | start => exact hi
  | next run he step ih =>
      rcases step_inStep ih he after with ⟨o, u, hu, hok⟩ | hu | ⟨-, -, hu⟩
      · rw [step] at hu
        obtain ⟨rfl, rfl⟩ := Outcome.next.inj hu
        exact hok
      · rw [step] at hu
        simp at hu
      · rw [step] at hu
        simp at hu

theorem step_frame {after : Bytes} {s t : Session} {e : Event} {o : Output}
    (h : s.step after e = .next o t) :
    t.rmt.reset = s.rmt.reset ∧ t.rmt.strictRmt = s.rmt.strictRmt ∧
      t.rmt.inbox.enabled = s.rmt.inbox.enabled ∧
      t.rmt.outbox.enabled = s.rmt.outbox.enabled := by
  have hf := run_frame (e.prog after s.host) s.rmt
  unfold Session.step at h
  rcases hrun : run answer (e.prog after s.host) s.rmt with ⟨p, r⟩
  rw [hrun] at h hf
  cases p with
  | ret a =>
      obtain ⟨o', k⟩ := a
      cases k with
      | none => simp [outcome] at h
      | some k =>
          obtain ⟨-, rfl⟩ := Outcome.next.inj h
          exact hf
  | call c next => simp [outcome] at h
  | halt => simp [outcome] at h
  | undef => simp [outcome] at h

theorem reached_frame {after : Bytes} {allowed : Session → Event → Prop} {s t : Session}
    (hr : Reached after allowed s t) :
    t.rmt.reset = s.rmt.reset ∧ t.rmt.strictRmt = s.rmt.strictRmt ∧
      t.rmt.inbox.enabled = s.rmt.inbox.enabled ∧
      t.rmt.outbox.enabled = s.rmt.outbox.enabled := by
  induction hr with
  | start => exact ⟨rfl, rfl, rfl, rfl⟩
  | next _ _ step ih =>
      obtain ⟨h₁, h₂, h₃, h₄⟩ := step_frame step
      exact ⟨h₁.trans ih.1, h₂.trans ih.2.1, h₃.trans ih.2.2.1, h₄.trans ih.2.2.2⟩

/-- A session starts in step if `rmt-db.c` is idle when the page is opened. -/
theorem rmtDbInit_inStep {r : Rmt} {h : Host} (hbuf : r.mboxBuf.length = rmtMaxLen)
    (hidle : h.rdb.state = .idle) (hn : NamesFit h.db.entries.tops) : InStep (rmtDbInit r) h := by
  refine ⟨⟨rfl, rfl, hbuf, ?_, ?_⟩, ?_, ?_, by simp [rmtDbInit, rmtSetReset, rmtOpen], hn⟩
  · simp [rmtDbInit, rmtSetReset, rmtOpen]
  · simp [rmtDbInit, rmtSetReset, rmtOpen]
  · rw [hidle]
    exact .idle
  · simp [rmtDbInit, rmtSetReset, rmtOpen]

/-- Whatever the host sends, as long as requests do not start with an empty block, no assertion
fails. -/
theorem session_safe {after : Bytes} {r : Rmt} {h : Host} {t : Session} {e : Event}
    (hbuf : r.mboxBuf.length = rmtMaxLen) (hstrict : r.strictRmt = false)
    (hidle : h.rdb.state = .idle) (hn : NamesFit h.db.entries.tops)
    (hr : Reached after HostAllowed ⟨rmtDbInit r, h⟩ t) (he : HostAllowed t e) :
    t.step after e ≠ .failed ∧ t.step after e ≠ .undefined := by
  have hi := reached_inStep (rmtDbInit_inStep hbuf hidle hn) hr
  obtain ⟨hreset, hstrict', -, -⟩ := reached_frame hr
  rcases step_inStep hi he after with ⟨o, u, hu, -⟩ | hu | ⟨-, hres, -⟩
  · simp [hu]
  · simp [hu]
  · have hr' : t.rmt.reset = true := hreset
    have hs' : t.rmt.strictRmt = false := hstrict'.trans hstrict
    unfold Rmt.arriving at hres
    simp only [hr', hs', and_self, if_true] at hres
    split at hres
    · simp at hres
    · next hne => exact absurd hres hne

theorem session_safe_account :
    (openedSession (account [])).step [] (.poll 0) ≠ .failed ∧
      (openedSession (account [])).step [] (.poll 0) ≠ .undefined :=
  session_safe (r := .boot false) (h := (openedSession (account [])).host)
    List.length_replicate rfl rfl (by decide) .start trivial

/-- A request that starts with an empty block is taken, but not noticed. -/
theorem session_fails :
    ∃ s t, (openedSession .nil).step [] (.transfer []) = .next (.accepted true) s ∧
      s.step [] (.poll 0) = .next .nothing t ∧ t.step [] (.poll 0) = .failed :=
  ⟨_, _, rfl, rfl, rfl⟩

end Sunela.Remote
