import Sunela.Verification.Remote.Transport

/-! # Faithful transport

The host and the responder of a transaction receive what the other one has sent, however their
accesses to the shared memory are interleaved. -/

namespace Sunela.Remote

open Program

variable {α β : Type} {exact : Prop} {fl : Bool → Prop} {ph : Phase} {w v : Wire}

/-! ## The application -/

/-- Every call of the program is permitted when it is made, and one that it may make, and `R`
holds at the end. -/
def AppOk (exact : Prop) (rule : Rule) (may : Call → Prop) (R : α → Wire → Prop) : App α → Wire → Prop
  | .ret a, w => R a w
  | .call c next, w => may c ∧
      wp (course exact rule c) c.prog (fun r v => AppOk exact rule may R (next r) (v.returned c r)) w
  | .halt _, _ => False
  | .undef, _ => False

/-- A program that keeps to the protocol meets permitted calls only. -/
theorem appOk_of_wp {R : α → Wire → Prop} {p : App α}
    (h : wp (protocol exact) p
      (fun a ph' => ∀ v, Between exact .any (fun _ => True) ph' v → R a v) ph)
    (hw : Between exact .any (fun _ => True) ph w) : AppOk exact .any (fun _ => True) R p w := by
  induction p generalizing ph w with
  | ret a => exact h w hw
  | call c next ih =>
      refine ⟨trivial, wp_mono (between_takes h.1 hw) fun r v hv => ?_⟩
      obtain ⟨ph', hturn, hbetween⟩ := hv
      exact ih r (h.2 r ph' hturn) (hbetween.weaken fun s flag rc dp hs => ⟨hs.1, trivial⟩)
  | halt => exact h
  | undef => exact h

/-! ## The system -/

/-- What is left of the call under way, and of the program that made it, meets the protocol. -/
def Sys.Ok (exact : Prop) (rule : Rule) (may : Call → Prop) (R : Option β → Wire → Prop)
    (s : Sys β) : Prop :=
  match s.main with
  | .resting b => R (some b) s.wire
  | .aborted => R none s.wire
  | .calling c (.call a rest) next => may c ∧
      wp (course exact rule c) (.call a rest)
        (fun r v => AppOk exact rule may R (next r) (v.returned c r)) s.wire
  | .calling _ _ _ => False
  | .failed => Held exact rule s.wire ∧ ¬ exact
  | .undefined => False

variable {rule : Rule} {may : Call → Prop} {R : Option β → Wire → Prop} {s t : Sys β}

theorem Sys.ok_proceed {p : App (Option β)} (h : AppOk exact rule may R p w) :
    Sys.Ok exact rule may R ⟨w, .proceed p⟩ := by
  cases p with
  | ret a => cases a <;> exact h
  | call c next => cases c <;> exact h
  | halt => exact h.elim
  | undef => exact h.elim

theorem Sys.Ok.access (h : s.Ok exact rule may R) (hs : s.access = some t) : t.Ok exact rule may R := by
  obtain ⟨w, main⟩ := s
  cases main with
  | calling c rest next =>
      cases rest with
      | call a rest =>
          have hwp := wp_proceed h.2
          simp only [Sys.access] at hs
          cases hr : rest (w.access c a).1 with
          | ret r =>
              rw [hr] at hs hwp
              obtain rfl := (Option.some.inj hs).symm
              exact ok_proceed hwp
          | call a' rest' =>
              rw [hr] at hs hwp
              obtain rfl := (Option.some.inj hs).symm
              exact ⟨h.1, hwp⟩
          | halt =>
              rw [hr] at hs hwp
              obtain rfl := (Option.some.inj hs).symm
              exact hwp
          | undef =>
              rw [hr] at hwp
              exact hwp.elim
      | ret r => exact h.elim
      | halt => exact h.elim
      | undef => exact h.elim
  | resting b => simp [Sys.access] at hs
  | aborted => simp [Sys.access] at hs
  | failed => simp [Sys.access] at hs
  | undefined => simp [Sys.access] at hs

theorem Sys.Ok.host (h : s.Ok exact rule may R) (hR : ∀ a, R a s.wire → R a v)
    (hv : Handles s.wire v) : Sys.Ok exact rule may R ⟨v, s.main⟩ := by
  obtain ⟨w, main⟩ := s
  cases main with
  | calling c rest next =>
      cases rest with
      | call a rest => exact ⟨h.1, wp_interrupt stable_held h.2 hv⟩
      | ret r => exact h.elim
      | halt => exact h.elim
      | undef => exact h.elim
  | resting b => exact hR _ h
  | aborted => exact hR _ h
  | failed => exact ⟨stable_held w v h.1 hv, h.2⟩
  | undefined => exact h.elim

theorem Sys.Ok.held (h : s.Ok exact rule may R) (hR : ∀ a w, R a w → Held exact rule w) :
    Held exact rule s.wire := by
  obtain ⟨w, main⟩ := s
  cases main with
  | calling c rest next =>
      cases rest with
      | call a rest => exact h.2.1
      | ret r => exact h.elim
      | halt => exact h.elim
      | undef => exact h.elim
  | resting b => exact hR _ _ h
  | aborted => exact hR _ _ h
  | failed => exact h.1
  | undefined => exact h.elim

/-! ## What is received -/

/-- What has been received and delivered is what has been sent and deposited, up to what is
still on its way. Responses are deposited for complete requests only. -/
structure InTransit (b : Book) : Prop where
  received : b.received <+: b.sent
  delivered : b.delivered <+: b.deposited
  answered : b.deposited ≠ [] → b.received = b.sent ∧ Complete b.sent

theorem Held.inTransit (h : Held exact rule w) : InTransit w.book := by
  obtain ⟨ph, more, hmore, hat⟩ := h
  cases hat.flow with
  | quiet phase host inbox sent deposited finished ready =>
      obtain rfl := hmore (hat.phase.symm.trans phase)
      rw [List.append_nil] at sent
      refine ⟨sent ▸ List.prefix_refl _, deposited ▸ List.prefix_append _ _, fun hne => ?_⟩
      rcases finished with ⟨-, hnil⟩ | ⟨hcomplete, -⟩
      · exact absurd hnil hne
      · exact ⟨sent.symm, hcomplete⟩
  | arrived phase host outbox state b block inbox sent received deposited delivered =>
      have hnil : w.book.received = [] := (List.append_eq_nil_iff.mp received).1
      exact ⟨hnil ▸ List.nil_prefix, delivered ▸ List.nil_prefix,
        fun hne => absurd deposited hne⟩
  | receiving phase outbox state some blocks sent deposited delivered host =>
      refine ⟨?_, delivered ▸ List.nil_prefix, fun hne => absurd deposited hne⟩
      rw [sent, List.append_assoc]
      exact List.prefix_append _ _
  | responding phase host inbox sent complete deposited waits =>
      refine ⟨sent ▸ List.prefix_append _ _, deposited ▸ List.prefix_append _ _, fun hne => ?_⟩
      by_cases hnil : more = []
      · rw [hnil, List.append_nil] at sent complete
        exact ⟨sent.symm, sent ▸ complete⟩
      · exact absurd (hat.news hnil) hne

/-- Both sides have received everything once the host has seen the end of the response. -/
structure Faithful (w : Wire) : Prop extends InTransit w.book where
  ends : [] ∈ w.book.deposited → Ended w.book.deposited
  finished : w.host = .ready → w.book.sent ≠ [] →
    w.book.received = w.book.sent ∧ Complete w.book.sent ∧
      w.book.delivered = w.book.deposited ∧ Ended w.book.deposited

theorem Held.faithful (h : Held True rule w) : Faithful w := by
  refine ⟨h.inTransit, ?_, ?_⟩
  · obtain ⟨ph, more, -, hat⟩ := h
    intro hmem
    cases hat.flow with
    | quiet phase host inbox sent deposited finished ready =>
        rcases finished with ⟨-, hnil⟩ | ⟨-, hended⟩
        · simp [hnil] at hmem
        · exact hended trivial
    | arrived phase host outbox state b block inbox sent received deposited =>
        simp [deposited] at hmem
    | receiving phase outbox state some blocks sent deposited => simp [deposited] at hmem
    | responding phase host inbox sent complete deposited waits =>
        exact absurd hmem (waits trivial).2
  · obtain ⟨ph, more, hmore, hat⟩ := h
    intro hready hsent
    cases hat.flow with
    | quiet phase host inbox sent deposited finished ready =>
        obtain rfl := hmore (hat.phase.symm.trans phase)
        have hempty : w.rmt.held .outbox = [] := held_none (m := .outbox) (ready trivial hready)
        rw [List.append_nil] at sent
        rw [hempty, List.append_nil] at deposited
        rcases finished with ⟨hnil, -⟩ | ⟨hcomplete, hended⟩
        · exact absurd hnil hsent
        · exact ⟨sent.symm, hcomplete, deposited.symm, hended trivial⟩
    | arrived phase host => simp [hready] at host
    | receiving phase outbox state some blocks sent deposited delivered host =>
        simp [hready] at host
    | responding phase host inbox sent complete deposited waits =>
        have hquery := (waits trivial).1
        simp [hready] at hquery

/-! ## Conforming runs -/

/-- A responder that follows `rmt.h`. -/
def Responder (w : Wire) (_ : β) (p : App (Option β)) : Prop :=
  wp (protocol True) p (fun _ _ => True) w.book.phase

/-- A host that follows the protocol, and waits for the end of a response. -/
def Complies (s : Sys β) (e : HostEvent) : Prop :=
  s.wire.Offers e ∧ ∀ data, e = .transfer data → s.wire.host ≠ .querying

/-- If a transfer comes while the state is `RS_RES`, the protocol is reset. -/
def Admitted (s : Sys β) (e : HostEvent) : Prop :=
  Complies s e ∧ ∀ data, e = .transfer data → s.wire.rmt.Admits

theorem Held.free {e : HostEvent} (h : Held True rule w) (hr : w.host = .ready)
    (ha : ∀ data, e = .transfer data → w.rmt.Admits) : w.Free e := by
  cases e with
  | query => trivial
  | transfer data =>
      obtain ⟨ph, more, -, hat⟩ := h
      cases hat.flow with
      | quiet phase host inbox sent deposited finished ready =>
          exact .inr (.inr ⟨phase, ready trivial hr, ha data rfl⟩)
      | arrived phase host => exact .inl host
      | receiving phase outbox state some blocks sent deposited delivered host =>
          simp [hr] at host
      | responding phase host inbox sent complete deposited waits =>
          have hquery := (waits trivial).1
          simp [hr] at hquery

theorem Admitted.handles {e : HostEvent} (h : Held True rule s.wire) (he : Admitted s e)
    (hv : s.wire.event e = some v) : Handles s.wire v := by
  refine ⟨e, he.1.1, ?_, hv⟩
  cases hhost : s.wire.host with
  | ready => exact h.free hhost he.2
  | sending =>
      cases e with
      | transfer data => exact .inl hhost
      | query => trivial
  | querying =>
      cases e with
      | transfer data => exact absurd hhost (he.1.2 data rfl)
      | query => trivial

/-- No assertion fails in the handler. -/
theorem Admitted.event {e : HostEvent} (h : Held exact rule s.wire) (he : Admitted s e) :
    s.wire.event e ≠ none := by
  obtain ⟨ph, more, -, hat⟩ := h
  cases e with
  | transfer data => simp [event_transfer hat.steady (he.2 data rfl) he.1.1.1]
  | query => simp [event_query hat.steady]

/-- Between two programs of the responder. -/
def Rests (_ : Option β) (w : Wire) : Prop := ∃ ph, Between True .any (fun _ => True) ph w

theorem opened_between {fl : Bool → Prop} {o r : Rmt} (hbuf : r.mboxBuf.length = rmtMaxLen)
    (ho : o = rmtOpen r ∨ o = rmtSetReset (rmtOpen r)) (hfl : fl o.asyncReset) :
    Between exact rule fl .waiting (Wire.opened o) := by
  have hsteady : Steady o := by
    rcases ho with rfl | rfl <;>
      exact ⟨rfl, rfl, hbuf, by simp [rmtOpen, rmtSetReset], by simp [rmtOpen, rmtSetReset]⟩
  have hstate : o.state = .idle ∧ o.inbox.length = none ∧ o.outbox.length = none := by
    rcases ho with rfl | rfl <;> exact ⟨rfl, rfl, rfl⟩
  obtain ⟨hidle, hin, hout⟩ := hstate
  have hheld : o.held .outbox = [] := held_none (m := .outbox) hout
  refine ⟨hsteady, ?_, by simp, rule.nothing _, rfl, hidle, hfl⟩
  exact .quiet rfl (by simp [Wire.opened]) hin rfl (by simp [Wire.opened, hheld])
    (.inl ⟨rfl, rfl⟩) fun _ _ => hout

theorem reached_ok {o : Rmt} {b : β} (hw : Between True .any (fun _ => True) .waiting (Wire.opened o))
    (hr : Sys.Reached Responder Admitted ⟨Wire.opened o, .resting b⟩ t) :
    t.Ok True .any (fun _ => True) Rests := by
  have hheld : ∀ a w, Rests (β := β) a w → Held True .any w := by
    rintro a w ⟨ph, h⟩
    exact h.held fun _ => rfl
  induction hr with
  | start => exact ⟨.waiting, hw⟩
  | begins run rests h ih =>
      rw [Sys.Ok, rests] at ih
      obtain ⟨ph, hph⟩ := ih
      rw [Responder, hph.phase] at h
      exact Sys.ok_proceed (appOk_of_wp (wp_mono h fun a ph' _ v hv => ⟨ph', hv⟩) hph)
  | access run h ih => exact ih.access h
  | host run h event ih =>
      have hv := h.handles (ih.held hheld) event
      refine ih.host ?_ hv
      rintro a ⟨ph, h⟩
      exact ⟨ph, stable_at between_first _ _ h hv⟩

/-! ## A short transaction -/

variable {u : Sys β} {begins : Wire → β → App (Option β) → Prop}
  {host : Sys β → HostEvent → Prop}

def Sys.accesses : ℕ → Sys β → Option (Sys β)
  | 0, s => some s
  | n + 1, s => s.access.bind (Sys.accesses n)

theorem Sys.Reached.accesses {n : ℕ} (hr : Sys.Reached begins host s t)
    (h : t.accesses n = some u) : Sys.Reached begins host s u := by
  induction n generalizing t with
  | zero =>
      obtain rfl := Option.some.inj h
      exact hr
  | succ n ih =>
      obtain ⟨v, hv, hu⟩ := Option.bind_eq_some_iff.mp h
      exact ih (hr.access hv) hu

theorem request_responder (h : w.book.phase ≠ .responding) :
    Responder w () (request rmtMaxLen >>= fun _ => .ret (some ())) :=
  ⟨⟨h, Nat.le_refl _⟩, fun _ _ _ => trivial⟩

theorem finish_responder (h : w.book.phase = .responding) :
    Responder w () (finish >>= fun _ => .ret (some ())) :=
  ⟨h, fun _ _ _ => trivial⟩

/-- The host may have seen the end of the response before the state is idle again. -/
theorem transaction_reached {host : Sys Unit → HostEvent → Prop}
    (hhost : ∀ s e, Complies s e →
      (∀ data, e = .transfer data → s.wire.rmt.state ≠ .res) → host s e) :
    ∃ t : Sys Unit,
      Sys.Reached Responder host ⟨Wire.opened (rmtOpen (.boot false)), .resting ()⟩ t ∧
        t.wire.host = .ready ∧ t.wire.rmt.state = .res ∧ t.wire.rmt.reset = false ∧
        t.wire.book = ⟨.waiting, [[1], []], [[1], []], [[]], [[]]⟩ := by
  have r₀ : Sys.Reached Responder host ⟨Wire.opened (rmtOpen (.boot false)), .resting ()⟩
    ⟨Wire.opened (rmtOpen (.boot false)), .resting ()⟩ := .start
  have r₁ := r₀.host (e := .transfer [1])
    (hhost _ _ ⟨⟨by decide, by simp⟩, fun _ _ => by decide⟩ fun _ _ => by decide) rfl
  have r₂ := (r₁.begins rfl (request_responder (by decide))).accesses (n := 7) rfl
  have r₃ := r₂.host (e := .transfer [])
    (hhost _ _ ⟨⟨by decide, fun _ => rfl⟩, fun _ _ => by decide⟩ fun _ _ => by decide) rfl
  have r₄ := (r₃.begins rfl (request_responder (by decide))).accesses (n := 7) rfl
  have r₅ := (r₄.begins rfl (finish_responder rfl)).accesses (n := 5) rfl
  have r₆ := r₅.host (e := .query) (hhost _ _ ⟨rfl, by simp⟩ (by simp)) rfl
  exact ⟨_, r₆, rfl, rfl, rfl, rfl⟩

/-- In every run, the host and the responder receive what the other side has sent, and no
assertion fails. -/
theorem transport_faithful {o r : Rmt} {b : β} (hbuf : r.mboxBuf.length = rmtMaxLen)
    (ho : o = rmtOpen r ∨ o = rmtSetReset (rmtOpen r))
    (hr : Sys.Reached Responder Admitted ⟨Wire.opened o, .resting b⟩ t) :
    Faithful t.wire ∧ t.main ≠ .failed ∧ t.main ≠ .undefined ∧
      ∀ e, Admitted t e → t.wire.event e ≠ none := by
  have hok := reached_ok (opened_between hbuf ho trivial) hr
  have hheld : Held True .any t.wire := by
    refine hok.held ?_
    rintro a w ⟨ph, h⟩
    exact h.held fun _ => rfl
  refine ⟨hheld.faithful, ?_, ?_, fun e he => he.event hheld⟩
  · intro hmain
    rw [Sys.Ok, hmain] at hok
    exact hok.2 trivial
  · intro hmain
    rw [Sys.Ok, hmain] at hok
    exact hok

theorem transport_faithful_transaction :
    ∃ t : Sys Unit, t.wire.book.sent = [[1], []] ∧ Faithful t.wire ∧
      ∀ e, Admitted t e → t.wire.event e ≠ none := by
  obtain ⟨t, hr, -, -, -, hbook⟩ := @transaction_reached Admitted fun s e he hs =>
    ⟨he, fun data hdata hres => absurd hres (hs data hdata)⟩
  obtain ⟨hfaithful, -, -, hevent⟩ :=
    transport_faithful (r := .boot false) List.length_replicate (.inl rfl) hr
  exact ⟨t, by rw [hbook], hfaithful, hevent⟩

/-- Without a protocol reset, the next request comes too early for the assertion. -/
theorem transport_fails :
    ∃ t : Sys Unit,
      Sys.Reached Responder Complies ⟨Wire.opened (rmtOpen (.boot false)), .resting ()⟩ t ∧
        Complies t (.transfer [1]) ∧ t.wire.event (.transfer [1]) = none := by
  obtain ⟨t, hr, hready, hres, hreset, -⟩ := transaction_reached fun s e he _ => he
  have harriving : t.wire.rmt.arriving.state = .res := by simp [Rmt.arriving, hres, hreset]
  refine ⟨t, hr, ⟨⟨by decide, by simp⟩, by simp [hready]⟩, ?_⟩
  simp [Wire.event, run_arrival_res harriving]

end Sunela.Remote
