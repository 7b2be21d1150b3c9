import Mathlib.Data.List.TakeWhile
import Sunela.Model.RmtPage
import Sunela.Verification.Remote.Session

/-! # Secrets are shown with permission

The prompt stays on the display from the request to the tap on a button, so the text that is
drawn is the one that was asked for. -/

namespace Sunela.Remote

open Program Fields Entry

/-! ## What a poll can ask for -/

/-- Any replies at all. -/
def anyReply : Contract Call Call.Reply Unit where
  step _ _ _ _ := True
  call _ _ := True
  halt _ _ := True
  undef _ := True

/-- Whatever the calls reply, a result of the poll satisfies `Q`. -/
def Leads (Q : Host → Prop) (p : App (Option Host)) : Prop :=
  wp anyReply p (fun o _ => ∀ k, o = some k → Q k) ()

variable {Q : Host → Prop} {h k : Host} {p : App (Option Host)}

@[simp] theorem leads_some : Leads Q (.ret (some h)) ↔ Q h := by simp [Leads]

@[simp] theorem leads_none : Leads Q (.ret none) := by simp [Leads]

@[simp] theorem leads_undef : Leads Q .undef := trivial

theorem leads_call {c : Call} {f : c.Reply → App (Option Host)} (hf : ∀ r, Leads Q (f r)) :
    Leads Q (Prog.exec c >>= f) := ⟨trivial, fun r _ _ => hf r⟩

theorem Leads.mono {Q' : Host → Prop} (hp : Leads Q p) (hQ : ∀ k, Q k → Q' k) : Leads Q' p :=
  wp_mono hp fun _ _ ho k hk => hQ k (ho k hk)

/-- The result of a poll that has been carried out is one of these. -/
theorem Leads.run (hp : Leads Q p) {s t : Rmt}
    (hrun : Program.run answer (p.expand Call.prog) s = (.ret (some k), t)) : Q k := by
  induction p generalizing s with
  | ret o =>
      obtain rfl : o = some k := by simpa [Prog.expand, Program.run] using congrArg Prod.fst hrun
      exact leads_some.mp hp
  | call c next ih =>
      have hexp : (Prog.call c next : App (Option Host)).expand Call.prog =
          c.prog >>= fun r => (next r).expand Call.prog := rfl
      rw [hexp, run_bind_eq] at hrun
      rcases hc : Program.run answer c.prog s with ⟨q, u⟩
      rw [hc] at hrun
      cases q with
      | ret r => exact ih r (hp.2 r () trivial) hrun
      | call d more => exact absurd (by rw [hc]) (run_ne_call c.prog s d more)
      | halt => simp [Program.run] at hrun
      | undef => simp [Program.run] at hrun
  | halt => simp [Prog.expand, Program.run] at hrun
  | undef => simp [Prog.expand, Program.run] at hrun

/-- The field a request asks for: the first one of its type in the first entry of its name. -/
structure Requested (db : Database.Db) (e : DbEntry) (f : DbField) (binary : Bool) : Prop where
  entry : db.entries.tops.find? (fun d => d.name = e.name) = some e
  field : dbFieldFind e.fields f.type = some f
  binary : revealed f.type = some binary

/-- What can become of the page in a poll. -/
inductive Prompted (h k : Host) : Prop where
  | same (ui : k.ui = h.ui)
  | reveal (idle : h.ui.action = none) {e : DbEntry} {f : DbField} {binary : Bool} {name : String}
      (asked : Requested h.db e f binary) (named : fieldName f.type = some name)
      (ui : k.ui = { h.ui with
        action := some (.reveal ⟨binary, f.data⟩), generation := h.db.generation
        display := .prompt (.reveal name e.name) })
  | setTime (idle : h.ui.action = none) (delta : Int64)
      (ui : k.ui = { h.ui with
        action := some (.setTime delta), display := .prompt (.setTime delta) })

theorem find_of_dropWhile {α : Type} {p : α → Prop} [DecidablePred p] {l rest : List α} {a : α}
    (hl : l.dropWhile (fun x => ¬ p x) = a :: rest) :
    p a ∧ l.find? (fun x => p x) = some a := by
  have hfind : l.find? (fun x => p x) = some a := by
    rw [List.find?_eq_head?_dropWhile_not]
    simp only [decide_not] at hl
    rw [hl]
    rfl
  exact ⟨by simpa using List.find?_some hfind, hfind⟩

/-- Fields that can be revealed have names. -/
theorem fieldName_isSome (type : UInt8) :
    (fieldName type).isSome = (revealed type).isSome := by
  by_cases hp : type = ftPw
  · subst hp
    rfl
  by_cases hp2 : type = ftPw2
  · subst hp2
    rfl
  by_cases hh : type = ftHotpSecret
  · subst hh
    rfl
  by_cases ht : type = ftTotpSecret
  · subst ht
    rfl
  simp [fieldName, revealed, hp, hp2, hh, ht]

/-- The request for a field comes from the main program as it is. -/
theorem startReveal_prompted (h : Host) (b : Bytes) : Prompted h (startReveal h b) := by
  unfold startReveal
  split
  · exact .same rfl
  · cases hde : fromEntry h ((b.drop 1).take (b.length - 2)) with
    | nil => exact .same rfl
    | cons e de =>
        dsimp only
        split
        · next f rest binary hf hbin =>
            obtain ⟨htype, hfield⟩ := find_of_dropWhile hf
            obtain ⟨hname, hentry⟩ := find_of_dropWhile hde
            have hasked : Requested h.db e f binary := by
              refine ⟨?_, by rw [htype]; exact hfield, by rw [htype]; exact hbin⟩
              rw [← hname] at hentry
              simpa only [CString.ext_iff] using hentry
            unfold uiRmtReveal
            by_cases hidle : h.ui.action = none
            · simp only [hidle, Option.isSome_none, Bool.false_eq_true, if_false]
              cases hn : fieldName f.type with
              | none =>
                  have hsome := fieldName_isSome f.type
                  rw [hn, hasked.binary] at hsome
                  exact absurd hsome (by simp)
              | some name => exact .reveal hidle hasked hn rfl
            · simp only [Option.isSome_iff_ne_none.mpr hidle, if_true]
              exact .same rfl
        · exact .same rfl

theorem startSetTime_prompted (h : Host) (timeUs : UInt64) (b : Bytes) :
    Prompted h (startSetTime h timeUs b) := by
  unfold startSetTime
  split
  · exact .same rfl
  · unfold uiRmtSetTime
    by_cases hidle : h.ui.action = none
    · simp only [hidle, Option.isSome_none, Bool.false_eq_true, if_false]
      cases Time.setTimeDelta ⟨timeUs, h.timeOffset⟩ (le64 (b.drop 1)).toInt64 with
      | none => exact .same rfl
      | some delta => exact .setTime hidle delta rfl
    · simp only [Option.isSome_iff_ne_none.mpr hidle, if_true]
      exact .same rfl

theorem startShow_prompted (h : Host) (b : Bytes) : Prompted h (startShow h b) := by
  unfold startShow
  cases fromEntry h (b.drop 1) <;> exact .same rfl

/-- A poll leaves the database alone, and the page unless it asks something. -/
structure Quiet (h k : Host) : Prop where
  ui : k.ui = h.ui
  db : k.db = h.db

theorem Prompted.since {h' : Host} (hp : Prompted h' k) (hui : h'.ui = h.ui) (hdb : h'.db = h.db) :
    Prompted h k := by
  cases hp with
  | same ui => exact .same (ui.trans hui)
  | reveal idle asked named ui =>
      rw [hui] at idle ui
      rw [hdb] at asked ui
      exact .reveal idle asked named ui
  | setTime idle delta ui =>
      rw [hui] at idle ui
      exact .setTime idle delta ui

theorem startRequest_prompted (h : Host) (timeUs : UInt64) (b : Bytes) :
    Prompted h (startRequest h timeUs b) ∧ (startRequest h timeUs b).db = h.db := by
  unfold startRequest
  dsimp only
  split_ifs
  · exact ⟨.same rfl, rfl⟩
  · exact ⟨(startShow_prompted _ b).since rfl rfl, (startShow_entered _ b).db⟩
  · exact ⟨(startReveal_prompted _ b).since rfl rfl, (startReveal_entered _ b).db⟩
  · exact ⟨.same rfl, rfl⟩
  · exact ⟨(startSetTime_prompted _ timeUs b).since rfl rfl, (startSetTime_entered _ timeUs b).db⟩
  · exact ⟨.same rfl, rfl⟩

/-- Only the variables of `rmt-db.c` change. -/
def OnlyRdb (h k : Host) : Prop := ∃ rdb, k = { h with rdb }

theorem OnlyRdb.withState (h : Host) (state : RdbState) : OnlyRdb h (h.withState state) := ⟨_, rfl⟩

theorem OnlyRdb.withOp (h : Host) (op : UInt8) : OnlyRdb h (h.withOp op) := ⟨_, rfl⟩

theorem OnlyRdb.refl (h : Host) : OnlyRdb h h := ⟨_, rfl⟩

theorem OnlyRdb.trans {h' : Host} (hk : OnlyRdb h k) (hk' : OnlyRdb k h') : OnlyRdb h h' := by
  obtain ⟨r, rfl⟩ := hk
  obtain ⟨r', rfl⟩ := hk'
  exact ⟨r', rfl⟩

theorem OnlyRdb.quiet (hk : OnlyRdb h k) : Quiet h k := by
  obtain ⟨r, rfl⟩ := hk
  exact ⟨rfl, rfl⟩

theorem respond_only (h : Host) (b : Bytes) : Leads (OnlyRdb h) (respond h b) := by
  refine leads_call fun ok => ?_
  cases ok
  · exact leads_some.mpr (.refl h)
  · exact leads_some.mpr (.withState h _)

theorem pollLs_only (h : Host) : Leads (OnlyRdb h) (pollLs h) := by
  unfold pollLs
  split
  · refine leads_call fun ok => ?_
    cases ok
    · exact leads_some.mpr (.refl h)
    · exact leads_undef
  · cases h.rdb.de with
    | nil => exact leads_undef
    | cons e rest =>
        refine leads_call fun ok => ?_
        cases ok
        · exact leads_some.mpr (.refl h)
        · refine leads_some.mpr ?_
          split <;> exact ⟨_, rfl⟩

theorem showLoop_only (h : Host) (l : List DbField) : Leads (OnlyRdb h) (showLoop h l) := by
  induction l with
  | nil => exact leads_some.mpr ⟨_, rfl⟩
  | cons f rest ih =>
      simp only [showLoop]
      cases fieldParts f with
      | none => exact leads_none
      | some parts =>
          cases parts with
          | none => exact ih
          | some parts =>
              refine leads_call fun ok => ?_
              cases ok
              · exact leads_some.mpr ⟨_, rfl⟩
              · exact ih

theorem pollShow_only (h : Host) : Leads (OnlyRdb h) (pollShow h) := by
  unfold pollShow
  split
  · refine leads_call fun ok => ?_
    cases ok
    · exact leads_some.mpr (.refl h)
    · by_cases hf : h.rdb.f = []
      · simp only [hf, if_true]
        exact leads_some.mpr (.withState h _)
      · simp only [hf, if_false]
        exact leads_undef
  · exact showLoop_only h _

/-- The response to a request has no effect. -/
theorem pollRes_only (after : Bytes) (timeUs : UInt64) (h : Host) :
    Leads (OnlyRdb h) (pollRes after timeUs h) := by
  unfold pollRes
  split_ifs
  · exact pollLs_only h
  · exact pollShow_only h
  · exact respond_only h _
  · exact respond_only h _
  · exact respond_only h _
  · exact respond_only h _
  · exact leads_some.mpr (.withState h _)
  · exact leads_none

theorem pollRes_quiet (after : Bytes) (timeUs : UInt64) (h : Host) :
    Leads (Quiet h) (pollRes after timeUs h) :=
  (pollRes_only after timeUs h).mono fun _ hk => hk.quiet

/-- A poll asks for nothing but what is in the database. -/
structure Asks (h k : Host) : Prop where
  prompted : Prompted h k
  db : k.db = h.db

theorem Quiet.asks (hq : Quiet h k) : Asks h k := ⟨.same hq.ui, hq.db⟩

theorem pollReq_asks (after : Bytes) (timeUs : UInt64) (h : Host) :
    Leads (Asks h) (pollReq after timeUs h) := by
  refine leads_call fun r => ?_
  cases r with
  | zero => exact leads_some.mpr ⟨.same rfl, rfl⟩
  | block b => exact leads_some.mpr ⟨.same rfl, rfl⟩
  | negative =>
      dsimp only
      split
      · exact leads_some.mpr ⟨.same rfl, rfl⟩
      · exact (pollRes_quiet after timeUs (h.withState .res)).mono fun _ hq => ⟨.same hq.ui, hq.db⟩

theorem pollIdle_asks (timeUs : UInt64) (h : Host) : Leads (Asks h) (pollIdle timeUs h) := by
  refine leads_call fun r => ?_
  cases r with
  | negative => exact leads_some.mpr ⟨.same rfl, rfl⟩
  | zero => exact leads_some.mpr ⟨.same rfl, rfl⟩
  | block b =>
      obtain ⟨hprompted, hdb⟩ := startRequest_prompted h timeUs b
      exact leads_some.mpr ⟨hprompted, hdb⟩

theorem pollState_asks (after : Bytes) (timeUs : UInt64) (h : Host) :
    Leads (Asks h) (pollState after timeUs h) := by
  unfold pollState
  cases h.rdb.state with
  | idle => exact pollIdle_asks timeUs h
  | req => exact pollReq_asks after timeUs h
  | res => exact (pollRes_quiet after timeUs h).mono fun _ hq => hq.asks
  | done =>
      refine leads_call fun ok => ?_
      cases ok
      · exact leads_some.mpr ⟨.same rfl, rfl⟩
      · exact leads_some.mpr ⟨.same rfl, rfl⟩

theorem rmtDbPoll_asks (after : Bytes) (timeUs : UInt64) (h : Host) :
    Leads (Asks h) (rmtDbPoll after timeUs h) := by
  refine leads_call fun flag => ?_
  cases flag with
  | false => exact pollState_asks after timeUs h
  | true =>
      refine leads_call fun _ => ?_
      exact (pollState_asks after timeUs (h.withState .idle)).mono fun k hk =>
        ⟨hk.prompted.since rfl rfl, hk.db⟩

/-! ## Events -/

/-- What an event does to the main program. -/
inductive Effect (h k : Host) : PageEvent → Prop where
  | transfer {data : Bytes} (same : k = h) : Effect h k (.transfer data)
  | query (same : k = h) : Effect h k .query
  | tick {timeUs : UInt64} (asks : Asks h k) : Effect h k (.tick timeUs)
  | tap {x y : UInt32} (tapped : k = uiRmtTap h (button x y)) : Effect h k (.tap x y)
  | change {n : ℕ} {db : Database.Db} (ui : k.ui = h.ui)
      (generation : k.db.generation = h.db.generation + UInt32.ofNat n) : Effect h k (.change n db)
  | reopen (opened : k = uiRmtOpen h) : Effect h k .reopen

variable {after : Bytes} {s t u : Session} {e : PageEvent} {user : Secret}

theorem session_step {ev : Event} (hs : (s.step after ev).session = some t) :
    ∃ o, run answer (ev.prog after s.host) s.rmt = (.ret (o, some t.host), t.rmt) := by
  unfold Session.step at hs
  rcases hrun : run answer (ev.prog after s.host) s.rmt with ⟨p, r⟩
  rw [hrun] at hs
  cases p with
  | ret a =>
      obtain ⟨o, k⟩ := a
      cases k with
      | none => simp [outcome, Outcome.session] at hs
      | some k =>
          obtain rfl := Option.some.inj hs
          exact ⟨o, rfl⟩
  | call c next => simp [outcome, Outcome.session] at hs
  | halt => simp [outcome, Outcome.session] at hs
  | undef => simp [outcome, Outcome.session] at hs

/-- The result of a sequence is that of its second part. -/
theorem run_bind_ret {α β : Type} {p : Shared α} {f : α → Shared β} {r r' : Rmt} {b : β}
    (hrun : run answer (p >>= f) r = (.ret b, r')) :
    ∃ a q, run answer p r = (.ret a, q) ∧ run answer (f a) q = (.ret b, r') := by
  rw [run_bind_eq] at hrun
  rcases hp : run answer p r with ⟨q, v⟩
  rw [hp] at hrun
  cases q with
  | ret a => exact ⟨a, v, rfl, hrun⟩
  | call c next => exact absurd (by rw [hp]) (run_ne_call p r c next)
  | halt => simp [run] at hrun
  | undef => simp [run] at hrun

theorem ret_host {o o' : Output} {h' : Option Host} {r r' : Rmt}
    (hrun : run answer (.ret (o, h') : Shared (Output × Option Host)) r =
      (.ret (o', some k), r')) : h' = some k := by
  have hres := congrArg (fun x => x.1.result?) hrun
  simp only [run, Prog.result?, Option.some.injEq, Prod.mk.injEq] at hres
  exact hres.2

theorem happen_effect (hs : s.happen after e = some t) : Effect s.host t.host e := by
  cases e with
  | transfer data =>
      obtain ⟨o, hrun⟩ := session_step hs
      obtain ⟨ok, r, -, hret⟩ := run_bind_ret hrun
      exact .transfer (Option.some.inj (ret_host hret)).symm
  | query =>
      obtain ⟨o, hrun⟩ := session_step hs
      obtain ⟨b, r, -, hret⟩ := run_bind_ret hrun
      exact .query (Option.some.inj (ret_host hret)).symm
  | tick timeUs =>
      obtain ⟨o, hrun⟩ := session_step hs
      obtain ⟨k, r, hpoll, hret⟩ := run_bind_ret hrun
      obtain rfl := ret_host hret
      exact .tick ((rmtDbPoll_asks after timeUs s.host).run hpoll)
  | tap x y =>
      have hstep : (s.step after (.tap (button x y))).session = some t := hs
      obtain ⟨o, hrun⟩ := session_step hstep
      exact .tap (Option.some.inj (ret_host hrun)).symm
  | change n db =>
      obtain rfl := Option.some.inj hs
      exact .change rfl rfl
  | reopen =>
      obtain ⟨r, -, rfl⟩ := Option.map_eq_some_iff.mp hs
      exact .reopen rfl

theorem button_yes {x y : UInt32} (hb : button x y = some true) :
    gfxInRect (yesnoRect true) (Gfx.signed x.toNat) (Gfx.signed y.toNat) = true := by
  unfold button at hb
  dsimp only at hb
  split_ifs at hb
  exact Option.some.inj hb

/-- How often the database changes in an event. -/
def PageEvent.changes : PageEvent → ℕ
  | .change n _ => n
  | _ => 0

theorem uiRmtTap_action (h : Host) (b : Bool) : (uiRmtTap h (some b)).ui.action = none := by
  unfold uiRmtTap
  split
  · next action ha =>
      cases b with
      | false => rfl
      | true =>
          cases action with
          | setTime deltaS => rfl
          | reveal user =>
              dsimp only [doActionReveal]
              split <;> rfl
  · next ha =>
      split
      · rfl
      · exact ha

theorem uiRmtTap_none (h : Host) (ha : h.ui.action ≠ none) : uiRmtTap h none = h := by
  unfold uiRmtTap
  split
  · rfl
  · next hn => exact absurd hn ha

/-- While an action waits for permission, it is the one that waited before, or a poll has asked
for it. -/
theorem Effect.prompted {a : Action} (he : Effect h k e) (ha : k.ui.action = some a) :
    Prompted h k ∧ k.db.generation = h.db.generation + UInt32.ofNat e.changes := by
  have hzero : h.db.generation = h.db.generation + UInt32.ofNat 0 := by simp
  cases he with
  | transfer same => exact ⟨.same (congrArg Host.ui same), by rw [same]; exact hzero⟩
  | query same => exact ⟨.same (congrArg Host.ui same), by rw [same]; exact hzero⟩
  | tick asks => exact ⟨asks.prompted, by rw [asks.db]; exact hzero⟩
  | @tap x y tapped =>
      subst tapped
      cases hb : button x y with
      | some b =>
          rw [hb, uiRmtTap_action] at ha
          exact absurd ha (by simp)
      | none =>
          rw [hb] at ha
          by_cases hn : h.ui.action = none
          · exfalso
            unfold uiRmtTap at ha
            rw [hn] at ha
            dsimp only at ha
            split at ha
            · exact absurd ha (by simp [showRemote])
            · rw [hn] at ha
              exact absurd ha (by simp)
          · rw [uiRmtTap_none h hn]
            exact ⟨.same rfl, hzero⟩
  | change ui generation => exact ⟨.same ui, generation⟩
  | reopen opened =>
      subst opened
      exact absurd ha (by simp [uiRmtOpen])

/-- A text is drawn where the user agrees to what waits for permission. -/
theorem uiRmtTap_drawn {yes : Option Bool} (hk : (uiRmtTap h yes).ui.display = .text user)
    (hne : h.ui.display ≠ .text user) :
    yes = some true ∧ h.ui.action = some (.reveal user) ∧
      h.db.generation = h.ui.generation := by
  by_cases ha : h.ui.action = none
  · exfalso
    simp only [uiRmtTap, ha] at hk
    split at hk
    · exact absurd hk (by simp [showRemote])
    · exact hne hk
  · obtain ⟨action, ha'⟩ := Option.ne_none_iff_exists'.mp ha
    rcases yes with _ | _ | _
    · rw [uiRmtTap_none h ha] at hk
      exact absurd hk hne
    · simp [uiRmtTap, ha', showRemote] at hk
    · cases action with
      | setTime deltaS => simp [uiRmtTap, ha', showRemote] at hk
      | reveal user' =>
          simp only [uiRmtTap, ha', doActionReveal] at hk
          split at hk
          · simp [showRemote] at hk
          · next hg =>
              have huser : user' = user := by simpa using hk
              exact ⟨rfl, by rw [ha', huser], not_not.mp hg⟩

theorem Effect.drawn (he : Effect h k e) (hk : k.ui.display = .text user)
    (hne : h.ui.display ≠ .text user) :
    ∃ x y, e = .tap x y ∧ button x y = some true ∧ h.ui.action = some (.reveal user) ∧
      h.db.generation = h.ui.generation := by
  cases he with
  | transfer same => exact absurd (same ▸ hk) hne
  | query same => exact absurd (same ▸ hk) hne
  | tick asks =>
      cases asks.prompted with
      | same ui => exact absurd (ui ▸ hk) hne
      | reveal idle asked named ui =>
          rw [ui] at hk
          exact absurd hk (by simp)
      | setTime idle delta ui =>
          rw [ui] at hk
          exact absurd hk (by simp)
  | @tap x y tapped =>
      rw [tapped] at hk
      exact ⟨x, y, rfl, uiRmtTap_drawn hk hne⟩
  | change ui generation => exact absurd (ui ▸ hk) hne
  | reopen opened =>
      rw [opened] at hk
      exact absurd hk (by simp [uiRmtOpen])

/-! ## Runs -/

def changes (es : List PageEvent) : ℕ := (es.map PageEvent.changes).sum

/-- The prompt is on the display, and permission for the secret has not been given yet. -/
structure Pends (user : Secret) (p : Prompt) (s : Session) : Prop where
  action : s.host.ui.action = some (.reveal user)
  display : s.host.ui.display = .prompt p

/-- The event `req` of the session `s` asks whether to show a field of an entry. The prompt is
pending ever since, and after the events `mid` the session is `t`. -/
structure Asking (after : Bytes) (s : Session) (req : PageEvent) (mid : List PageEvent)
    (t : Session) (user : Secret) (entry : DbEntry) (f : DbField) : Prop where
  idle : s.host.ui.action = none
  requested : Requested s.host.db entry f user.binary
  data : user.data = f.data
  pending : ∃ name u, fieldName f.type = some name ∧ s.happen after req = some u ∧
    u.play after mid = some t ∧ ∀ part w, part <+: mid → u.play after part = some w →
      Pends user (.reveal name entry.name) w
  generation : t.host.ui.generation = s.host.db.generation
  changed : t.host.db.generation = s.host.db.generation + UInt32.ofNat (changes (req :: mid))

theorem play_append (s : Session) (es : List PageEvent) (e : PageEvent) :
    s.play after (es ++ [e]) = (s.play after es).bind fun t => t.happen after e := by
  simp [Session.play, List.foldlM_append]

/-- The prompt stays as it is while it is pending. -/
theorem Asking.next {req : PageEvent} {mid : List PageEvent} {entry : DbEntry} {f : DbField}
    (ha : Asking after s req mid t user entry f) (hs : t.happen after e = some u)
    (hui : u.host.ui = t.host.ui)
    (hgen : u.host.db.generation = t.host.db.generation + UInt32.ofNat e.changes) :
    Asking after s req (mid ++ [e]) u user entry f := by
  obtain ⟨name, v, hn, hreq, hmid, hpart⟩ := ha.pending
  have hplay : v.play after (mid ++ [e]) = some u := by rw [play_append, hmid]; exact hs
  refine ⟨ha.idle, ha.requested, ha.data, ⟨name, v, hn, hreq, hplay, ?_⟩, ?_, ?_⟩
  · intro part w hprefix hw
    rcases List.prefix_concat_iff.mp hprefix with rfl | hprefix
    · obtain rfl := Option.some.inj (hplay.symm.trans hw)
      have hpend := hpart mid t (List.prefix_refl mid) hmid
      exact ⟨by rw [hui]; exact hpend.action, by rw [hui]; exact hpend.display⟩
    · exact hpart part w hprefix hw
  · rw [hui]
    exact ha.generation
  · have hsum : changes (req :: (mid ++ [e])) = changes (req :: mid) + e.changes := by
      simp [changes, Nat.add_assoc]
    rw [hgen, ha.changed, hsum, UInt32.ofNat_add, UInt32.add_assoc]

/-- Where a secret waits for permission, the request for it can be found, and its prompt. -/
theorem play_asking (hs : s.host.ui.action = none) {es : List PageEvent}
    (hplay : s.play after es = some t) (ha : t.host.ui.action = some (.reveal user)) :
    ∃ pre req mid u entry f, es = pre ++ req :: mid ∧ s.play after pre = some u ∧
      Asking after u req mid t user entry f := by
  induction es using List.reverseRecOn generalizing t with
  | nil =>
      obtain rfl : s = t := by simpa [Session.play] using hplay
      rw [hs] at ha
      exact absurd ha (by simp)
  | append_singleton es e ih =>
      rw [play_append] at hplay
      obtain ⟨w, hw, he⟩ := Option.bind_eq_some_iff.mp hplay
      obtain ⟨hprompted, hgen⟩ := (happen_effect he).prompted ha
      cases hprompted with
      | same ui =>
          have haw : w.host.ui.action = some (.reveal user) := ui ▸ ha
          obtain ⟨pre, req, mid, u, entry, f, rfl, hu, hask⟩ := ih hw haw
          exact ⟨pre, req, mid ++ [e], u, entry, f, by simp, hu, hask.next he ui hgen⟩
      | @reveal idle entry f binary name asked named ui =>
          have huser : user = ⟨binary, f.data⟩ := by
            rw [ui] at ha
            exact (Action.reveal.inj (Option.some.inj ha)).symm
          subst huser
          refine ⟨es, e, [], w, entry, f, rfl, hw, idle, asked, rfl, ⟨name, t, named, he, rfl, ?_⟩,
            by rw [ui], ?_⟩
          · intro part v hprefix hv
            obtain rfl := List.prefix_nil.mp hprefix
            obtain rfl := Option.some.inj hv
            exact ⟨ha, by rw [ui]⟩
          · simpa [changes] using hgen
      | setTime idle delta ui =>
          rw [ui] at ha
          exact absurd ha (by simp)

/-- A question that waits for an answer is on the display. -/
theorem play_prompt (hs : s.host.ui.action = none) {es : List PageEvent}
    (hplay : s.play after es = some t) (ha : t.host.ui.action ≠ none) :
    ∃ p, t.host.ui.display = .prompt p := by
  induction es using List.reverseRecOn generalizing t with
  | nil =>
      obtain rfl : s = t := by simpa [Session.play] using hplay
      exact absurd hs ha
  | append_singleton es e ih =>
      rw [play_append] at hplay
      obtain ⟨w, hw, he⟩ := Option.bind_eq_some_iff.mp hplay
      obtain ⟨a, ha'⟩ := Option.ne_none_iff_exists'.mp ha
      cases ((happen_effect he).prompted ha').1 with
      | same ui =>
          rw [ui] at ha ⊢
          exact ih hw ha
      | reveal idle asked named ui => exact ⟨_, by rw [ui]⟩
      | setTime idle delta ui => exact ⟨_, by rw [ui]⟩

/-- While an action waits for permission, nothing but a tap on a button, or leaving the page,
makes a difference to it. -/
theorem Effect.waiting {a : Action} (he : Effect h k e) (ha : h.ui.action = some a)
    (htap : ∀ x y, e = .tap x y → button x y = none) (hstay : e ≠ .reopen) : k.ui = h.ui := by
  cases he with
  | transfer same => exact congrArg Host.ui same
  | query same => exact congrArg Host.ui same
  | tick asks =>
      cases asks.prompted with
      | same ui => exact ui
      | reveal idle asked named ui =>
          rw [idle] at ha
          exact absurd ha (by simp)
      | setTime idle delta ui =>
          rw [idle] at ha
          exact absurd ha (by simp)
  | tap tapped =>
      rw [tapped, htap _ _ rfl, uiRmtTap_none h (by simp [ha])]
  | change ui generation => exact ui
  | reopen opened => exact absurd rfl hstay

theorem dvd_of_add_eq {g : UInt32} {n : ℕ} (hg : g + UInt32.ofNat n = g) : 2 ^ 32 ∣ n := by
  have hn : UInt32.ofNat n = 0 := by simpa using hg
  exact Nat.dvd_of_mod_eq_zero (by simpa using congrArg UInt32.toNat hn)

/-- A text is drawn only when the user taps on "Yes" while the prompt for it is pending, and the
database is that of the request. A prompt that is pending is not replaced. -/
theorem reveal_permitted {r : Rmt} {es : List PageEvent}
    (hplay : (Session.mk (rmtDbInit r) (uiRmtOpen h)).play after es = some t) :
    (∀ e u user, t.happen after e = some u → u.host.ui.display = .text user →
      t.host.ui.display ≠ .text user →
        ∃ pre req mid s entry f x y, es = pre ++ req :: mid ∧
          (Session.mk (rmtDbInit r) (uiRmtOpen h)).play after pre = some s ∧
          Asking after s req mid t user entry f ∧ e = .tap x y ∧
          gfxInRect (yesnoRect true) (Gfx.signed x.toNat) (Gfx.signed y.toNat) = true ∧
          t.host.db.generation = s.host.db.generation ∧ 2 ^ 32 ∣ changes (req :: mid)) ∧
    (∀ a, t.host.ui.action = some a → (∃ p, t.host.ui.display = .prompt p) ∧
      ∀ e u, t.happen after e = some u → (∀ x y, e = .tap x y → button x y = none) →
        e ≠ .reopen → u.host.ui = t.host.ui) := by
  refine ⟨?_, ?_⟩
  · intro e u user he htext hne
    obtain ⟨x, y, rfl, hyes, ha, hgen⟩ := (happen_effect he).drawn htext hne
    obtain ⟨pre, req, mid, s, entry, f, rfl, hpre, hask⟩ := play_asking rfl hplay ha
    have hsame : t.host.db.generation = s.host.db.generation := hgen.trans hask.generation
    refine ⟨pre, req, mid, s, entry, f, x, y, rfl, hpre, hask, rfl, button_yes hyes, hsame, ?_⟩
    exact dvd_of_add_eq (hask.changed.symm.trans hsame)
  · intro a ha
    refine ⟨play_prompt rfl hplay (by simp [ha]), ?_⟩
    intro e u he htap hstay
    exact (happen_effect he).waiting ha htap hstay

/-- The host asks for the password of the account, and the user agrees. -/
def askedEvents : List PageEvent := [.transfer [5, 97, 5], .tick 0, .transfer [], .tick 0]

def accountHost : Host := (openedSession (account [115, 101, 99])).host

theorem reveal_permitted_account :
    ∃ t u : Session,
      (Session.mk (rmtDbInit (.boot false)) (uiRmtOpen accountHost)).play [] askedEvents =
        some t ∧ t.happen [] (.tap 175 245) = some u ∧
      ∃ pre req mid s entry f x y, askedEvents = pre ++ req :: mid ∧
        (Session.mk (rmtDbInit (.boot false)) (uiRmtOpen accountHost)).play [] pre = some s ∧
        Asking [] s req mid t ⟨false, [115, 101, 99]⟩ entry f ∧ PageEvent.tap 175 245 = .tap x y ∧
        gfxInRect (yesnoRect true) (Gfx.signed x.toNat) (Gfx.signed y.toNat) = true ∧
        t.host.db.generation = s.host.db.generation ∧ 2 ^ 32 ∣ changes (req :: mid) := by
  have hrun : (((Session.mk (rmtDbInit (.boot false)) (uiRmtOpen accountHost)).play []
      askedEvents).bind fun t => (t.happen [] (.tap 175 245)).map fun u =>
        (decide (t.host.ui.display = .text ⟨false, [115, 101, 99]⟩), u.host.ui.display)) =
      some (false, .text ⟨false, [115, 101, 99]⟩) := by
    decide +kernel
  obtain ⟨t, ht, hu⟩ := Option.bind_eq_some_iff.mp hrun
  obtain ⟨u, hu, hshown⟩ := Option.map_eq_some_iff.mp hu
  obtain ⟨hbefore, hafter⟩ := Prod.mk.inj hshown
  exact ⟨t, u, ht, hu, (reveal_permitted ht).1 _ u _ hu hafter (of_decide_eq_false hbefore)⟩

end Sunela.Remote
