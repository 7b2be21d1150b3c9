import Sunela.Verification.Remote.Permission

/-! # Rejected requests

The first block of a request is acted upon before the request is complete. What follows can still
turn the request into one that is rejected. -/

namespace Sunela.Remote

open Program Fields Entry

variable {after : Bytes} {timeUs : UInt64} {h k : Host} {b : Bytes}

/-! ## Polls and requests -/

/-- A call of a poll, with its reply. -/
abbrev Exchange := (c : Call) × c.Reply

/-- A poll: the states before and after it, and its calls after that of `async_reset`. -/
structure Poll where
  before : Host
  calls : List Exchange
  result : Host

/-- The poll is one of `rmt_db_poll`, which finds `async_reset` set or not. -/
def Poll.Runs (after : Bytes) (timeUs : UInt64) (reset : Bool) (p : Poll) : Prop :=
  Exchanges (rmtDbPoll after timeUs p.before) (⟨.asyncReset, reset⟩ :: p.calls)
    (.ret (some p.result))

/-- The blocks of the request that have been received. -/
def blocks (l : List Exchange) : List Bytes :=
  l.filterMap fun x =>
    match x with
    | ⟨.request _, .block b⟩ => some b
    | _ => none

/-- The polls that handle a request whose first block is `b`, and which begins while the state of
the host is `h`. The other blocks are those received since. Between the polls the user taps, and the
database changes. -/
inductive Handling (after : Bytes) (timeUs : UInt64) (h : Host) (b : Bytes) :
    List Bytes → List Poll → Host → Prop where
  | first {reset : Bool} {calls : List Exchange} {k : Host}
      (poll : Poll.Runs after timeUs reset ⟨h, calls, k⟩)
      (idle : h.rdb.state = .idle ∨ reset = true) (block : blocks calls = [b]) :
      Handling after timeUs h b [] [⟨h, calls, k⟩] k
  | other {more : List Bytes} {polls : List Poll} {k k' : Host}
      (run : Handling after timeUs h b more polls k) (same : k'.rdb = k.rdb) :
      Handling after timeUs h b more polls k'
  | next {more : List Bytes} {polls : List Poll} {calls : List Exchange} {k k' : Host}
      {timeUs' : UInt64} (run : Handling after timeUs h b more polls k)
      (busy : k.rdb.state ≠ .idle) (poll : Poll.Runs after timeUs' false ⟨k, calls, k'⟩) :
      Handling after timeUs h b (more ++ blocks calls) (polls ++ [⟨k, calls, k'⟩]) k'

/-- The response is an error. -/
def Rejected (after : Bytes) (polls : List Poll) : Prop :=
  ∃ p ∈ polls, ∃ e ∈ [badRequest, notFound, busy after, dbChanged],
    (⟨.responsev [e], true⟩ : Exchange) ∈ p.calls

/-- No prompt is opened, and those that are pending, the time, and the database stay. -/
structure NoEffect (p : Poll) : Prop where
  ui : p.result.ui = p.before.ui
  timeOffset : p.result.timeOffset = p.before.timeOffset
  db : p.result.db = p.before.db

/-! ## Prompts -/

/-- The first block asks for a secret that is there. -/
structure RevealAsked (h : Host) (b : Bytes) : Prop where
  idle : h.ui.action = none
  len : 2 ≤ b.length
  found : ∃ e f, h.db.entries.tops.find?
      (fun d => d.name.bytes = (b.drop 1).take (b.length - 2)) = some e ∧
    dbFieldFind e.fields (b.getLastD 0) = some f ∧ (revealed f.type).isSome

/-- The first block asks for a time that differs enough. -/
structure SetTimeAsked (h : Host) (timeUs : UInt64) (b : Bytes) : Prop where
  idle : h.ui.action = none
  len : b.length = 9
  far : (Time.setTimeDelta ⟨timeUs, h.timeOffset⟩ (le64 (b.drop 1)).toInt64).isSome

/-- The first block opens a prompt. -/
def Prompts (h : Host) (timeUs : UInt64) (b : Bytes) : Prop :=
  b.headD 0 = rdopReveal ∧ RevealAsked h b ∨ b.headD 0 = rdopSetTime ∧ SetTimeAsked h timeUs b

theorem find_eq_head_dropWhile {α : Type} {p : α → Prop} [DecidablePred p] (l : List α) :
    l.find? (fun x => p x) = (l.dropWhile fun x => ¬ p x).head? := by
  rw [List.find?_eq_head?_dropWhile_not]
  simp only [decide_not]

theorem fromEntry_find (h : Host) (name : Bytes) :
    h.db.entries.tops.find? (fun d => d.name.bytes = name) = (fromEntry h name).head? :=
  find_eq_head_dropWhile _

theorem uiRmtReveal_opens {field : UiRmtField} (hidle : h.ui.action = none)
    (hr : (revealed field.f.type).isSome) :
    (uiRmtReveal h field).1 = true ∧ (uiRmtReveal h field).2.rdb = h.rdb ∧
      (uiRmtReveal h field).2.ui ≠ h.ui := by
  have hname := fieldName_isSome field.f.type
  rw [hr] at hname
  obtain ⟨name, hn⟩ := Option.isSome_iff_exists.mp hname
  simp only [uiRmtReveal, hidle, Option.isSome_none, Bool.false_eq_true, if_false, hn]
  refine ⟨trivial, rfl, fun he => ?_⟩
  have ha := congrArg UiRmtCtx.action he
  rw [hidle] at ha
  cases ha

theorem startReveal_asked (ha : RevealAsked h b) :
    (startReveal h b).rdb.op = h.rdb.op ∧ (startReveal h b).ui ≠ h.ui := by
  obtain ⟨e, f, he, hf, hr⟩ := ha.found
  rw [fromEntry_find] at he
  rw [dbFieldFind, find_eq_head_dropWhile] at hf
  have hshort : ¬ b.length < 2 := Nat.not_lt.mpr ha.len
  rw [startReveal, if_neg hshort]
  cases hde : fromEntry h ((b.drop 1).take (b.length - 2)) with
  | nil =>
      rw [hde] at he
      cases he
  | cons d de =>
      rw [hde] at he
      obtain rfl := Option.some.inj he
      dsimp only
      cases hfs : d.fields.dropWhile fun f => ¬ f.type = b.getLastD 0 with
      | nil =>
          rw [hfs] at hf
          cases hf
      | cons g rest =>
          rw [hfs] at hf
          obtain rfl := Option.some.inj hf
          have htype : g.type = b.getLastD 0 := (find_of_dropWhile hfs).1
          obtain ⟨binary, hb⟩ := Option.isSome_iff_exists.mp hr
          have hopens := @uiRmtReveal_opens
            { h with rdb := { h.rdb with de := d :: de, f := g :: rest } } ⟨d, g, binary⟩ ha.idle hr
          rw [← htype, hb]
          simp only [hopens.1, if_true, hopens.2.1]
          exact ⟨trivial, hopens.2.2⟩

theorem startReveal_only (hn : ¬ RevealAsked h b) : OnlyRdb h (startReveal h b) := by
  rw [startReveal]
  by_cases hshort : b.length < 2
  · rw [if_pos hshort]
    exact .withOp h _
  · rw [if_neg hshort]
    cases hde : fromEntry h ((b.drop 1).take (b.length - 2)) with
    | nil => exact ⟨_, rfl⟩
    | cons e de =>
        dsimp only
        split
        · next f rest binary hf hb =>
            obtain ⟨htype, hfield⟩ := find_of_dropWhile hf
            have hbusy : h.ui.action.isSome = true := by
              by_contra hidle
              refine hn ⟨Option.not_isSome_iff_eq_none.mp hidle, Nat.le_of_not_lt hshort, e, f, ?_,
                hfield, ?_⟩
              · rw [fromEntry_find, hde]
                rfl
              · rw [htype, hb]
                rfl
            simp only [uiRmtReveal, hbusy, if_true]
            exact ⟨_, rfl⟩
        · exact ⟨_, rfl⟩

theorem startSetTime_asked (ha : SetTimeAsked h timeUs b) :
    (startSetTime h timeUs b).rdb.op = h.rdb.op ∧ (startSetTime h timeUs b).ui ≠ h.ui := by
  obtain ⟨delta, hd⟩ := Option.isSome_iff_exists.mp ha.far
  rw [startSetTime, if_neg (not_not.mpr ha.len)]
  simp only [uiRmtSetTime, ha.idle, Option.isSome_none, Bool.false_eq_true, if_false, hd, if_true]
  refine ⟨rfl, fun he => ?_⟩
  have ha' := congrArg UiRmtCtx.action he
  rw [ha.idle] at ha'
  cases ha'

theorem startSetTime_only (hn : ¬ SetTimeAsked h timeUs b) :
    OnlyRdb h (startSetTime h timeUs b) := by
  rw [startSetTime]
  by_cases hlen : b.length = 9
  · rw [if_neg (not_not.mpr hlen), uiRmtSetTime]
    by_cases hbusy : h.ui.action.isSome = true
    · simp only [hbusy, if_true]
      exact ⟨_, rfl⟩
    · have hidle := Option.not_isSome_iff_eq_none.mp hbusy
      cases hd : Time.setTimeDelta ⟨timeUs, h.timeOffset⟩ (le64 (b.drop 1)).toInt64 with
      | none =>
          simp only [hbusy]
          exact .refl h
      | some delta => exact absurd ⟨hidle, hlen, by rw [hd]; rfl⟩ hn
  · rw [if_pos hlen]
    exact .withOp h _

theorem startShow_only (h : Host) (b : Bytes) : OnlyRdb h (startShow h b) := by
  rw [startShow]
  cases fromEntry h (b.drop 1) <;> exact ⟨_, rfl⟩

theorem startRequest_asked (ha : Prompts h timeUs b) :
    ((startRequest h timeUs b).rdb.op = rdopReveal ∨
      (startRequest h timeUs b).rdb.op = rdopSetTime) ∧ (startRequest h timeUs b).ui ≠ h.ui := by
  rcases ha with ⟨hop, ha⟩ | ⟨hop, ha⟩
  · obtain ⟨hsame, hui⟩ :=
      @startReveal_asked (h.requested (b.headD 0)) b ⟨ha.idle, ha.len, ha.found⟩
    have hstart : startRequest h timeUs b = startReveal (h.requested (b.headD 0)) b := by
      rw [startRequest, hop]
      rfl
    rw [hstart]
    exact ⟨.inl (hsame.trans hop), hui⟩
  · obtain ⟨hsame, hui⟩ := @startSetTime_asked timeUs (h.requested (b.headD 0)) b
      ⟨ha.idle, ha.len, ha.far⟩
    have hstart : startRequest h timeUs b = startSetTime (h.requested (b.headD 0)) timeUs b := by
      rw [startRequest, hop]
      rfl
    rw [hstart]
    exact ⟨.inr (hsame.trans hop), hui⟩

theorem startRequest_only (hn : ¬ Prompts h timeUs b) : OnlyRdb h (startRequest h timeUs b) := by
  have hreq : OnlyRdb h (h.requested (b.headD 0)) := ⟨_, rfl⟩
  apply hreq.trans
  unfold startRequest
  dsimp only
  split_ifs with hls hshow hreveal hget hset
  · exact ⟨_, rfl⟩
  · exact startShow_only _ b
  · exact startReveal_only fun ha => hn (.inl ⟨hreveal, ha.idle, ha.len, ha.found⟩)
  · exact .refl _
  · exact startSetTime_only fun ha => hn (.inr ⟨hset, ha.idle, ha.len, ha.far⟩)
  · exact .withOp _ _

/-! ## The polls of a request -/

theorem Leads.exchanges {Q : Host → Prop} {p : App (Option Host)} {l : List Exchange}
    (hp : Leads Q p) (hr : Exchanges p l (.ret (some k))) : Q k := by
  generalize ho : Prog.ret (some k) = q at hr
  induction hr with
  | refl p =>
      subst ho
      exact leads_some.mp hp
  | call run ih => exact ih (hp.2 _ () trivial) ho

/-- Once a request has begun, polls have no effect. -/
theorem pollState_only (hne : h.rdb.state ≠ .idle) :
    Leads (OnlyRdb h) (pollState after timeUs h) := by
  unfold pollState
  cases hs : h.rdb.state with
  | idle => exact absurd hs hne
  | req =>
      refine leads_call fun r => ?_
      cases r with
      | zero => exact leads_some.mpr (.refl h)
      | block b => exact leads_some.mpr (.withOp h _)
      | negative =>
          dsimp only
          split
          · exact leads_some.mpr (.withState h _)
          · exact (pollRes_only after timeUs _).mono fun _ hk => (OnlyRdb.withState h .res).trans hk
  | res => exact pollRes_only after timeUs h
  | done =>
      refine leads_call fun ok => ?_
      cases ok
      · exact leads_some.mpr (.refl h)
      · exact leads_some.mpr (.withState h _)

theorem poll_only {calls : List Exchange} (hr : Poll.Runs after timeUs false ⟨h, calls, k⟩)
    (hne : h.rdb.state ≠ .idle) : OnlyRdb h k := by
  cases hr with
  | call run => exact (pollState_only hne).exchanges run

theorem OnlyRdb.noEffect {calls : List Exchange} (hk : OnlyRdb h k) : NoEffect ⟨h, calls, k⟩ := by
  obtain ⟨r, rfl⟩ := hk
  exact ⟨rfl, rfl, rfl⟩

theorem pollIdle_first {calls : List Exchange}
    (hr : Exchanges (pollIdle timeUs h) calls (.ret (some k))) (hb : blocks calls = [b]) :
    k = startRequest h timeUs b := by
  obtain ⟨r, l, rfl, run⟩ := exchanges_call hr
  cases r with
  | negative =>
      obtain ⟨rfl, -⟩ := exchanges_ret run
      cases hb
  | zero =>
      obtain ⟨rfl, -⟩ := exchanges_ret run
      cases hb
  | block b' =>
      obtain ⟨rfl, ho⟩ := exchanges_ret run
      obtain rfl : b' = b := List.head_eq_of_cons_eq hb
      exact (Option.some.inj ho).symm

theorem withState_of_state {state : RdbState} (hs : h.rdb.state = state) :
    h.withState state = h := by
  subst hs
  rfl

/-- The first poll does what the first block asks for. -/
theorem poll_first {reset : Bool} {calls : List Exchange}
    (hr : Poll.Runs after timeUs reset ⟨h, calls, k⟩)
    (hidle : h.rdb.state = .idle ∨ reset = true) (hb : blocks calls = [b]) :
    k = startRequest (h.withState .idle) timeUs b := by
  cases hr with
  | call run =>
      cases reset with
      | false =>
          have hs : h.rdb.state = .idle := hidle.resolve_right Bool.false_ne_true
          have hstate : pollState after timeUs h = pollIdle timeUs h := by rw [pollState, hs]
          rw [withState_of_state hs]
          exact pollIdle_first (hstate ▸ run) hb
      | true =>
          cases run with
          | call run => exact pollIdle_first run hb

theorem prompts_withState {state : RdbState} :
    Prompts (h.withState state) timeUs b ↔ Prompts h timeUs b := by
  constructor
  · rintro (⟨hop, ha⟩ | ⟨hop, ha⟩)
    · exact .inl ⟨hop, ha.idle, ha.len, ha.found⟩
    · exact .inr ⟨hop, ha.idle, ha.len, ha.far⟩
  · rintro (⟨hop, ha⟩ | ⟨hop, ha⟩)
    · exact .inl ⟨hop, ha.idle, ha.len, ha.found⟩
    · exact .inr ⟨hop, ha.idle, ha.len, ha.far⟩

variable {more : List Bytes} {polls : List Poll}

/-- A request that opens no prompt has no effect at all. -/
theorem Handling.noEffect (hr : Handling after timeUs h b more polls k)
    (hn : ¬ Prompts h timeUs b) : ∀ p ∈ polls, NoEffect p := by
  induction hr with
  | first poll idle block =>
      intro p hp
      obtain rfl := List.mem_singleton.mp hp
      have hidle : ¬ Prompts (h.withState .idle) timeUs b := mt prompts_withState.mp hn
      rw [poll_first poll idle block]
      exact ((OnlyRdb.withState h .idle).trans (startRequest_only hidle)).noEffect
  | other run same ih => exact ih
  | next run busy poll ih =>
      intro p hp
      rcases List.mem_append.mp hp with hp | hp
      · exact ih p hp
      · obtain rfl := List.mem_singleton.mp hp
        exact (poll_only poll busy).noEffect

/-! ## Requests of one block -/

/-- The request for a prompt is being handled. -/
def Acted (h : Host) : Prop := h.rdb.op = rdopReveal ∨ h.rdb.op = rdopSetTime

/-- No response has been deposited. -/
def Unanswered (l : List Exchange) : Prop := ∀ parts ok, (⟨.responsev parts, ok⟩ : Exchange) ∉ l

theorem pollRes_acted {calls : List Exchange} (ha : Acted h)
    (hr : Exchanges (pollRes after timeUs h) calls (.ret (some k))) :
    calls = [] ∧ k.rdb.op = h.rdb.op := by
  rcases ha with hop | hop
  · have hdone : pollRes after timeUs h = .ret (some (h.withState .done)) := by
      rw [pollRes, hop]
      rfl
    rw [hdone] at hr
    obtain ⟨rfl, ho⟩ := exchanges_ret hr
    obtain rfl := Option.some.inj ho
    exact ⟨rfl, rfl⟩
  · have habort : pollRes after timeUs h = .ret none := by
      rw [pollRes, hop]
      rfl
    rw [habort] at hr
    cases (exchanges_ret hr).2

theorem unanswered_nil : Unanswered [] := fun _ _ => List.not_mem_nil

theorem Unanswered.cons {c : Call} {r : c.Reply} {l : List Exchange} (hl : Unanswered l)
    (hc : ∀ parts, c ≠ .responsev parts) : Unanswered (⟨c, r⟩ :: l) := by
  intro parts ok hmem
  rcases List.mem_cons.mp hmem with he | hmem
  · exact hc parts (Sigma.mk.inj he).1.symm
  · exact hl parts ok hmem

/-- As long as no other block is received, nothing is deposited. -/
theorem pollState_acted {calls : List Exchange}
    (hr : Exchanges (pollState after timeUs h) calls (.ret (some k))) (hne : h.rdb.state ≠ .idle)
    (ha : Acted h) (hb : blocks calls = []) : Acted k ∧ Unanswered calls := by
  have hsame : ∀ {k : Host}, k.rdb.op = h.rdb.op → Acted k := fun hop => by rwa [Acted, hop]
  unfold pollState at hr
  cases hs : h.rdb.state with
  | idle => exact absurd hs hne
  | req =>
      rw [hs] at hr
      obtain ⟨r, l, rfl, run⟩ := exchanges_call hr
      cases r with
      | block b => cases hb
      | zero =>
          obtain ⟨rfl, ho⟩ := exchanges_ret run
          obtain rfl := Option.some.inj ho
          exact ⟨ha, unanswered_nil.cons fun parts => nofun⟩
      | negative =>
          split at run
          · obtain ⟨rfl, ho⟩ := exchanges_ret run
            obtain rfl := Option.some.inj ho
            exact ⟨ha, unanswered_nil.cons fun parts => nofun⟩
          · obtain ⟨rfl, hop⟩ := pollRes_acted (h := h.withState .res) ha run
            exact ⟨hsame hop, unanswered_nil.cons fun parts => nofun⟩
  | res =>
      rw [hs] at hr
      obtain ⟨rfl, hop⟩ := pollRes_acted ha hr
      exact ⟨hsame hop, unanswered_nil⟩
  | done =>
      rw [hs] at hr
      obtain ⟨ok, l, rfl, run⟩ := exchanges_call hr
      cases ok with
      | false =>
          obtain ⟨rfl, ho⟩ := exchanges_ret run
          obtain rfl := Option.some.inj ho
          exact ⟨ha, unanswered_nil.cons fun parts => nofun⟩
      | true =>
          obtain ⟨rfl, ho⟩ := exchanges_ret run
          obtain rfl := Option.some.inj ho
          exact ⟨ha, unanswered_nil.cons fun parts => nofun⟩

theorem first_unanswered {reset : Bool} {calls : List Exchange}
    (hr : Poll.Runs after timeUs reset ⟨h, calls, k⟩)
    (hidle : h.rdb.state = .idle ∨ reset = true) : Unanswered calls := by
  have hpoll : ∀ {h : Host} {calls : List Exchange},
      Exchanges (pollIdle timeUs h) calls (.ret (some k)) → Unanswered calls := by
    intro h calls hr
    obtain ⟨r, l, rfl, run⟩ := exchanges_call hr
    cases r with
    | negative =>
        obtain ⟨rfl, -⟩ := exchanges_ret run
        exact unanswered_nil.cons (by simp)
    | zero =>
        obtain ⟨rfl, -⟩ := exchanges_ret run
        exact unanswered_nil.cons (by simp)
    | block b =>
        obtain ⟨rfl, -⟩ := exchanges_ret run
        exact unanswered_nil.cons (by simp)
  cases hr with
  | call run =>
      cases reset with
      | false =>
          have hs : h.rdb.state = .idle := hidle.resolve_right Bool.false_ne_true
          have hstate : pollState after timeUs h = pollIdle timeUs h := by rw [pollState, hs]
          exact hpoll (hstate ▸ run)
      | true =>
          obtain ⟨r, l, rfl, tail⟩ := exchanges_call run
          exact (hpoll tail).cons (by simp)

/-- A request of one block that opens a prompt is not answered. -/
theorem Handling.unanswered (hr : Handling after timeUs h b more polls k)
    (hp : Prompts h timeUs b) (hone : more = []) :
    Acted k ∧ ∀ p ∈ polls, Unanswered p.calls := by
  induction hr with
  | first poll idle block =>
      have hidle : Prompts (h.withState .idle) timeUs b := prompts_withState.mpr hp
      have hacted := (startRequest_asked hidle).1
      rw [← poll_first poll idle block] at hacted
      refine ⟨hacted, fun p hmem => ?_⟩
      obtain rfl := List.mem_singleton.mp hmem
      exact first_unanswered poll idle
  | other run same ih =>
      obtain ⟨hacted, hall⟩ := ih hone
      exact ⟨by rwa [Acted, same], hall⟩
  | next run busy poll ih =>
      obtain ⟨hmore, hblocks⟩ := List.append_eq_nil_iff.mp hone
      obtain ⟨hacted, hall⟩ := ih hmore
      cases poll with
      | call poll =>
          obtain ⟨hacted', hcalls⟩ := pollState_acted poll busy hacted hblocks
          refine ⟨hacted', fun p hmem => ?_⟩
          rcases List.mem_append.mp hmem with hmem | hmem
          · exact hall p hmem
          · obtain rfl := List.mem_singleton.mp hmem
            exact hcalls

/-! ## Requests of several blocks -/

/-- The first block is acted upon, and the others make the request invalid. -/
theorem exists_received (after : Bytes) (timeUs : UInt64) (h : Host) (b : Bytes)
    (more : List Bytes) : ∃ polls k, Handling after timeUs h b more polls k ∧
      k.rdb.state = .req ∧ (more ≠ [] → k.rdb.op = rdopInvalid) ∧
      ∃ p ∈ polls, p.before = h ∧ p.result = startRequest (h.withState .idle) timeUs b := by
  induction more using List.reverseRecOn with
  | nil =>
      have hrun : Poll.Runs after timeUs true ⟨h, [⟨.clearReset, ()⟩,
          ⟨.request maxReqLen, .block b⟩], startRequest (h.withState .idle) timeUs b⟩ :=
        .call (.call (.call (.refl _)))
      exact ⟨_, _, .first hrun (.inr rfl) rfl, (startRequest_entered _ timeUs b).1,
        fun hne => absurd rfl hne, _, List.mem_singleton_self _, rfl, rfl⟩
  | append_singleton more c ih =>
      obtain ⟨polls, k, hr, hs, -, p, hmem, hp⟩ := ih
      have hrun : Poll.Runs after timeUs false ⟨k, [⟨.request maxReqLen, .block c⟩],
          k.withOp rdopInvalid⟩ := by
        refine .call ?_
        have hstate : pollState after timeUs k = pollReq after timeUs k := by rw [pollState, hs]
        exact hstate ▸ .call (.refl _)
      exact ⟨_, _, hr.next (by simp [hs]) hrun, hs, fun _ => rfl, p, List.mem_append_left _ hmem,
        hp⟩

/-- Then the response is an error. -/
theorem exists_rejected (hmore : more ≠ []) : ∃ polls k, Handling after timeUs h b more polls k ∧
    Rejected after polls ∧
    ∃ p ∈ polls, p.before = h ∧ p.result = startRequest (h.withState .idle) timeUs b := by
  obtain ⟨polls, k, hr, hs, hop, p, hmem, hp⟩ := exists_received after timeUs h b more
  have hrun : Poll.Runs after timeUs false ⟨k, [⟨.request maxReqLen, .negative⟩,
      ⟨.responsev [badRequest], true⟩], (k.withState .res).withState .done⟩ := by
    refine .call ?_
    have hstate : pollState after timeUs k = pollReq after timeUs k := by rw [pollState, hs]
    refine hstate ▸ .call ?_
    have hres : pollRes after timeUs (k.withState .res) =
        respond (k.withState .res) badRequest := by
      rw [pollRes, Host.withState, hop hmore]
      rfl
    rw [if_neg (by simp [hop hmore, rdopInvalid, rdopLs, rdopShow, rdopSetTime]), hres]
    exact .call (.refl _)
  have hnext := hr.next (by simp [hs]) hrun
  rw [show blocks _ = [] from rfl, List.append_nil] at hnext
  exact ⟨_, _, hnext, ⟨_, List.mem_append_right _ (List.mem_singleton_self _), badRequest,
    by simp, by simp⟩, p, List.mem_append_left _ hmem, hp⟩

/-- A request that is rejected has no effect exactly if there is one block only, or the first one
opens no prompt. -/
theorem rejected_noEffect (after : Bytes) (timeUs : UInt64) (h : Host) (b : Bytes)
    (more : List Bytes) :
    (∀ polls k, Handling after timeUs h b more polls k → Rejected after polls →
      ∀ p ∈ polls, NoEffect p) ↔ more = [] ∨ ¬ Prompts h timeUs b := by
  constructor
  · intro hall
    by_contra hcond
    obtain ⟨hmore, hp⟩ := not_or.mp hcond
    obtain ⟨polls, k, hr, hrejected, p, hmem, hbefore, hresult⟩ :=
      @exists_rejected after timeUs h b more hmore
    have hui := (hall polls k hr hrejected p hmem).ui
    rw [hbefore, hresult] at hui
    exact (startRequest_asked (prompts_withState.mpr (not_not.mp hp))).2 hui
  · intro hcond polls k hr hrejected
    by_cases hp : Prompts h timeUs b
    · obtain ⟨p, hmem, e, -, he⟩ := hrejected
      have hone : more = [] := hcond.resolve_right (not_not.mpr hp)
      exact absurd he ((hr.unanswered hp hone).2 p hmem [e] true)
    · exact hr.noEffect hp

/-- The host asks for the password of the account, and sends another block: the answer is "Bad
request", but the user is asked for permission. -/
theorem rejected_prompts : ∃ s : Session,
    s.host.ui.action = none ∧
    outputs [] [.transfer [5, 97, 5], .poll 0, .transfer [1], .poll 0, .transfer [], .poll 0,
      .query] s = [.accepted true, .nothing, .accepted true, .nothing, .accepted true, .nothing,
      .handed (some badRequest)] ∧
    (((s.step [] (.transfer [5, 97, 5])).session.bind fun t =>
      (t.step [] (.poll 0)).session).map fun t => t.host.ui.action.isSome) = some true :=
  ⟨openedSession (account [115, 101, 99]), by decide +kernel⟩

end Sunela.Remote
