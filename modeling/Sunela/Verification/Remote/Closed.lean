import Sunela.Model.RmtSession
import Sunela.Verification.Remote.Abandoned

/-! # The interface after it has been closed

`rmt_close` disables the mailbox of one direction only, and a mailbox that is disabled gives the
host an empty message. -/

namespace Sunela.Remote

open Program

/-- What a host learns for whom there is nobody. -/
def HostEvent.refusal : HostEvent → Output
  | .transfer _ => .accepted false
  | .query => .handed none

/-- Whatever the host does, its transfers are refused, its queries find nothing, and nothing
changes. -/
def Closed (s : Rmt) : Prop :=
  ∀ events, handleAll events s = some (events.map HostEvent.refusal, s)

variable {s t u : Rmt} {o : Output} {os : List Output} {e : HostEvent} {events : List HostEvent}
  {m : Side}

/-! ## The handlers -/

theorem handle_transfer (hs : s.state ≠ .res) (data : Bytes) :
    handle s (.transfer data) =
      if s.inbox.enabled = false ∨ s.inbox.length.isSome then some (.accepted false, s)
      else if rmtMaxLen < data.length then none
      else some (.accepted true, s.deposited .inbox data) := by
  have harrive : s.arriving = s := if_neg hs
  rw [handle, run_arrival (by rwa [harrive]), harrive]
  by_cases he : s.inbox.enabled = false
  · simp [mboxVdepositv, getEnabled, Prog.exec, run, answer, Rmt.mbox, he]
  cases hl : s.inbox.length with
  | some n =>
      have he : (s.mbox .inbox).enabled = true := by simpa [Rmt.mbox] using he
      have hl' : (s.mbox .inbox).length = some n := hl
      simp [run_vdepositv_full he hl']
  | none =>
      have he : s.inbox.enabled = true := by simpa using he
      by_cases hmax : rmtMaxLen < data.length
      · have hl' : (s.mbox .inbox).length = none := hl
        have hmax' : rmtMaxLen < [data].flatten.length := by simpa using hmax
        rw [run_vdepositv_big (m := .inbox) he hl' hmax']
        simp [he, hmax]
      · simp [mboxVdepositv, getEnabled, getLength, setLength, store, storeParts, Prog.exec, run,
          answer, Rmt.mbox, Rmt.deposited, Rmt.withLength, he, hl, hmax]

theorem handle_query (s : Rmt) :
    handle s .query =
      if s.outbox.enabled = false then some (.handed (some []), s)
      else match s.outbox.length with
        | none => some (.handed none, s)
        | some n =>
            if rmtMaxLen < n then none
            else some (.handed (some (s.mboxBuf.take n)), s.withLength .outbox none) := by
  rw [handle]
  by_cases he : s.outbox.enabled = false
  · simp [rmtQuery, mboxRetrieve, getEnabled, getLength, Prog.exec, run, answer, Rmt.mbox, he]
  have he' : (s.mbox .outbox).enabled = true := by simpa [Rmt.mbox] using he
  rw [if_neg he]
  cases hl : s.outbox.length with
  | none =>
      have hl' : (s.mbox .outbox).length = none := hl
      simp only [rmtQuery, run_retrieve_none he' hl']
  | some n =>
      have hl' : (s.mbox .outbox).length = some n := hl
      by_cases hn : rmtMaxLen < n
      · simp only [rmtQuery, run_retrieve_big he' hl' hn, if_pos hn]
      · simp only [rmtQuery, run_retrieve_some he' hl' (Nat.le_of_not_lt hn), if_neg hn]

/-! ## What stays as it is -/

theorem answer_enabled (s : Rmt) (a : Access) (m : Side) :
    ((answer s a).2.mbox m).enabled = (s.mbox m).enabled := by
  cases a with
  | callReset =>
      rw [answer, rmtDbReset]
      split
      · cases m <;> rfl
      · rfl
  | setLength m' n => cases m' <;> cases m <;> rfl
  | _ => cases m <;> rfl

/-- No access of a program enables or disables a mailbox. -/
theorem run_enabled {α : Type} (p : Shared α) (s : Rmt) (m : Side) :
    ((run answer p s).2.mbox m).enabled = (s.mbox m).enabled := by
  induction p generalizing s with
  | call a next ih => exact (ih _ _).trans (answer_enabled s a m)
  | _ => rfl

theorem handle_enabled (h : handle s e = some (o, t)) (m : Side) :
    (t.mbox m).enabled = (s.mbox m).enabled := by
  cases e with
  | transfer data =>
      have hkept := run_enabled (rmtArrival data) s m
      rw [handle] at h
      rcases hrun : run answer (rmtArrival data) s with ⟨p, u⟩
      rw [hrun] at h hkept
      cases p with
      | ret ok =>
          obtain ⟨-, rfl⟩ := Prod.mk.inj (Option.some.inj h)
          exact hkept
      | _ => cases h
  | query =>
      have hkept := run_enabled rmtQuery s m
      rw [handle] at h
      rcases hrun : run answer rmtQuery s with ⟨p, u⟩
      rw [hrun] at h hkept
      cases p with
      | ret b =>
          obtain ⟨-, rfl⟩ := Prod.mk.inj (Option.some.inj h)
          exact hkept
      | _ => cases h

theorem handleAll_cons (h : handleAll (e :: events) s = some (os, u)) :
    ∃ o t os', handle s e = some (o, t) ∧ handleAll events t = some (os', u) ∧ os = o :: os' := by
  rw [handleAll] at h
  obtain ⟨⟨o, t⟩, ho, h⟩ := Option.bind_eq_some_iff.mp h
  obtain ⟨⟨os', u'⟩, hos, h⟩ := Option.bind_eq_some_iff.mp h
  obtain ⟨rfl, rfl⟩ := Prod.mk.inj (Option.some.inj h)
  exact ⟨o, t, os', ho, hos, rfl⟩

theorem handleAll_enabled (h : handleAll events s = some (os, u)) (m : Side) :
    (u.mbox m).enabled = (s.mbox m).enabled := by
  induction events generalizing s os with
  | nil =>
      obtain ⟨-, rfl⟩ := Prod.mk.inj (Option.some.inj h)
      rfl
  | cons e events ih =>
      obtain ⟨o, t, os', ho, hos, -⟩ := handleAll_cons h
      rw [ih hos, handle_enabled ho m]

/-- A message for the host waits until a query takes it. -/
theorem handle_outbox (hs : s.state ≠ .res) (he : s.outbox.enabled = true)
    (h : handle s e = some (o, t)) :
    t.state = s.state ∧ (t.outbox.length = none ↔ s.outbox.length = none ∨ .query = e) := by
  cases e with
  | transfer data =>
      rw [handle_transfer hs] at h
      split_ifs at h
      · obtain ⟨-, rfl⟩ := Prod.mk.inj (Option.some.inj h)
        simp
      · obtain ⟨-, rfl⟩ := Prod.mk.inj (Option.some.inj h)
        simp [Rmt.deposited, Rmt.withLength]
  | query =>
      rw [handle_query, if_neg (by simp [he])] at h
      cases hl : s.outbox.length with
      | none =>
          rw [hl] at h
          obtain ⟨-, rfl⟩ := Prod.mk.inj (Option.some.inj h)
          simp [hl]
      | some n =>
          rw [hl] at h
          dsimp only at h
          split_ifs at h
          obtain ⟨-, rfl⟩ := Prod.mk.inj (Option.some.inj h)
          simp [Rmt.withLength]

theorem handleAll_outbox (hs : s.state ≠ .res) (he : s.outbox.enabled = true)
    (h : handleAll events s = some (os, u)) :
    u.state = s.state ∧ (u.outbox.length = none ↔ s.outbox.length = none ∨ .query ∈ events) := by
  induction events generalizing s os with
  | nil =>
      obtain ⟨-, rfl⟩ := Prod.mk.inj (Option.some.inj h)
      simp
  | cons e events ih =>
      obtain ⟨o, t, os', ho, hos, -⟩ := handleAll_cons h
      obtain ⟨hstate, hlen⟩ := handle_outbox hs he ho
      have he' : t.outbox.enabled = true := (handle_enabled ho .outbox).trans he
      obtain ⟨hstate', hlen'⟩ := ih (by rwa [hstate]) he' hos
      refine ⟨hstate'.trans hstate, ?_⟩
      rw [hlen', hlen, List.mem_cons, or_assoc]

/-! ## Closed interfaces -/

theorem Closed.handle (h : Closed s) (e : HostEvent) : handle s e = some (e.refusal, s) := by
  obtain ⟨o, t, os', ho, hos, hout⟩ := handleAll_cons (h [e])
  obtain ⟨-, rfl⟩ := Prod.mk.inj (Option.some.inj hos)
  rw [ho, (List.cons.inj hout).1]

theorem closed_of_handle (h : ∀ e, handle s e = some (e.refusal, s)) : Closed s := by
  intro events
  induction events with
  | nil => rfl
  | cons e events ih =>
      rw [handleAll, h e]
      simp [ih]

/-- A query must find the mailbox enabled and empty. -/
theorem Closed.outbox (h : Closed s) : s.outbox.enabled = true ∧ s.outbox.length = none := by
  have hquery := h.handle .query
  rw [handle_query] at hquery
  by_cases he : s.outbox.enabled = false
  · rw [if_pos he] at hquery
    cases hquery
  · rw [if_neg he] at hquery
    refine ⟨by simpa using he, ?_⟩
    cases hl : s.outbox.length with
    | none => rfl
    | some n =>
        rw [hl] at hquery
        dsimp only at hquery
        split_ifs at hquery
        cases hquery

theorem closed_of_disabled (hs : s.state ≠ .res) (hin : s.inbox.enabled = false)
    (hout : s.outbox.enabled = true) (hl : s.outbox.length = none) : Closed s := by
  apply closed_of_handle
  intro e
  cases e with
  | transfer data => rw [handle_transfer hs, if_pos (.inl hin)]; rfl
  | query => rw [handle_query, if_neg (by simp [hout]), hl]; rfl

/-! ## Closing -/

theorem mboxDisableAmid_eq (h : mboxDisableAmid m events s = some u) :
    ∃ os t, handleAll events (s.withEnabled m false) = some (os, t) ∧
      u = t.withLength m none := by
  unfold mboxDisableAmid at h
  split at h
  · obtain ⟨⟨os, t⟩, ht, h⟩ := Option.bind_eq_some_iff.mp h
    exact ⟨os, t, ht, (Option.some.inj h).symm⟩
  · cases h

theorem rmtCloseAmid_eq {before inside behind : List HostEvent}
    (h : rmtCloseAmid before inside behind s = some u) :
    ∃ m t t' v v' os os' os'', m = (if s.state = .res then Side.outbox else .inbox) ∧
      handleAll before s = some (os, t) ∧
      handleAll inside (t.withEnabled m false) = some (os', t') ∧ v = t'.withLength m none ∧
      handleAll behind v = some (os'', v') ∧ u = { v' with state := .idle } := by
  obtain ⟨⟨os, t⟩, ht, hdisable⟩ := Option.bind_eq_some_iff.mp h
  obtain ⟨v, hv, hend⟩ := Option.bind_eq_some_iff.mp hdisable
  obtain ⟨⟨os'', v'⟩, hv', hidle⟩ := Option.bind_eq_some_iff.mp hend
  obtain ⟨os', t', ht', hcut⟩ := mboxDisableAmid_eq hv
  exact ⟨_, t, t', v, v', os, os', os'', rfl, ht, ht', hcut, hv', (Option.some.inj hidle).symm⟩

/-- If a response is under way, only the mailbox for responses is disabled. -/
theorem rmtCloseAmid_responding {before inside behind : List HostEvent} (hs : s.state = .res)
    (h : rmtCloseAmid before inside behind s = some u) : u.outbox.enabled = false := by
  obtain ⟨m, t, t', v, v', os, os', os'', rfl, -, ht', rfl, hv', rfl⟩ := rmtCloseAmid_eq h
  rw [if_pos hs] at ht' hv'
  have hoff : (t'.mbox .outbox).enabled = false := handleAll_enabled ht' .outbox
  exact (handleAll_enabled hv' .outbox).trans hoff

/-- Otherwise, it is the mailbox for requests. -/
theorem rmtCloseAmid_requesting {before inside behind : List HostEvent} (hs : s.state ≠ .res)
    (hout : s.outbox.enabled = true) (h : rmtCloseAmid before inside behind s = some u) :
    u.state = .idle ∧ u.inbox.enabled = false ∧ u.outbox.enabled = true ∧
      (u.outbox.length = none ↔
        s.outbox.length = none ∨ .query ∈ before ++ inside ++ behind) := by
  obtain ⟨m, t, t', v, v', os, os', os'', rfl, ht, ht', rfl, hv', rfl⟩ := rmtCloseAmid_eq h
  rw [if_neg hs] at ht' hv'
  have hon : t.outbox.enabled = true := (handleAll_enabled ht .outbox).trans hout
  have hon' : t'.outbox.enabled = true := (handleAll_enabled ht' .outbox).trans hon
  have hoff : (t'.mbox .inbox).enabled = false := handleAll_enabled ht' .inbox
  obtain ⟨hstate, hlen⟩ := handleAll_outbox hs hout ht
  have hs' : t.state ≠ .res := by rwa [hstate]
  have hcut : (t.withEnabled .inbox false).outbox = t.outbox := rfl
  have hclear : (t'.withLength .inbox none).outbox = t'.outbox := rfl
  obtain ⟨hstate', hlen'⟩ := handleAll_outbox (by exact hs') (by rw [hcut, hon]) ht'
  have hs'' : t'.state ≠ .res := by rw [hstate']; exact hs'
  obtain ⟨-, hlen''⟩ := handleAll_outbox (by exact hs'') (by rw [hclear, hon']) hv'
  refine ⟨rfl, (handleAll_enabled hv' .inbox).trans hoff,
    (handleAll_enabled hv' .outbox).trans hon', ?_⟩
  rw [List.mem_append, List.mem_append, ← or_assoc, ← or_assoc, ← hlen, ← hcut, ← hlen', ← hclear]
  exact hlen''

variable {β : Type} {begins : Wire → β → App (Option β) → Prop} {host : Sys β → HostEvent → Prop}

theorem returned_rmt (w : Wire) (c : Call) (v : c.Reply) : (w.returned c v).rmt = w.rmt := by
  cases c with
  | request size =>
      cases v with
      | negative =>
          rw [Wire.returned]
          split <;> rfl
      | _ => rfl
  | _ => rfl

/-- While the interface is open, both mailboxes are enabled. -/
theorem reached_enabled {a b : Sys β} (ha : ∀ m, (a.wire.rmt.mbox m).enabled = true)
    (hr : Sys.Reached begins host a b) (m : Side) : (b.wire.rmt.mbox m).enabled = true := by
  induction hr with
  | start => exact ha m
  | begins _ _ _ ih => exact ih
  | @access t v _ h ih =>
      obtain ⟨w, main⟩ := t
      cases main with
      | calling c rest next =>
          cases rest with
          | call a rest =>
              have hkept := (answer_enabled w.rmt a m).trans ih
              simp only [Sys.access] at h
              split at h
              · obtain rfl := Option.some.inj h
                rwa [returned_rmt]
              all_goals
                obtain rfl := Option.some.inj h
                exact hkept
          | _ => cases h
      | _ => cases h
  | @host t e w _ _ event ih =>
      have hrmt := event_handle t.wire e
      rw [event] at hrmt
      cases hh : handle t.wire.rmt e with
      | none =>
          rw [hh] at hrmt
          cases hrmt
      | some r =>
          rw [hh] at hrmt
          have heq : w.rmt = r.2 := Option.some.inj hrmt
          exact (heq ▸ handle_enabled hh m).trans ih

/-- After `rmt_close` the interface is closed, exactly if no response was under way, and no
message was left for the host. -/
theorem rmtCloseAmid_closed {r : Rmt} {main : Main β} {t : Sys β}
    (hr : Sys.Reached begins host ⟨Wire.opened (rmtDbInit r), main⟩ t)
    {before inside behind : List HostEvent}
    (h : rmtCloseAmid before inside behind t.wire.rmt = some u) :
    Closed u ↔ t.wire.rmt.state ≠ .res ∧
      (t.wire.rmt.outbox.length = none ∨ .query ∈ before ++ inside ++ behind) := by
  have hopen : ∀ m, ((rmtDbInit r).mbox m).enabled = true := by
    intro m
    cases m <;> rfl
  have hout : t.wire.rmt.outbox.enabled = true := reached_enabled hopen hr .outbox
  by_cases hs : t.wire.rmt.state = .res
  · have hoff := rmtCloseAmid_responding hs h
    constructor
    · intro hclosed
      rw [hclosed.outbox.1] at hoff
      cases hoff
    · exact fun hboth => absurd hs hboth.1
  · obtain ⟨hidle, hin, hon, hlen⟩ := rmtCloseAmid_requesting hs hout h
    rw [← hlen]
    constructor
    · exact fun hclosed => ⟨hs, hclosed.outbox.2⟩
    · intro hboth
      have hidle : u.state ≠ .res := by simp [hidle]
      exact closed_of_disabled hidle hin hon hboth.2

theorem rmtCloseAmid_closed_idle :
    ∃ u, rmtCloseAmid [] [] [] (rmtDbInit (.boot false)) = some u ∧
      (Closed u ↔ (rmtDbInit (.boot false)).state ≠ .res ∧
        ((rmtDbInit (.boot false)).outbox.length = none ∨ HostEvent.query ∈ [] ++ [] ++ [])) :=
  ⟨_, rfl, @rmtCloseAmid_closed _ Host Polls Vacant (.boot false) openedPage.main openedPage
    .start [] [] [] rfl⟩

/-- The page is left when a request has been received. The host is handed a block that nobody has
sent, and can still put one into the mailbox. -/
theorem rmtClose_open :
    ∃ t u v, Sys.Reached Polls (fun s e => s.wire.Offers e) openedPage t ∧
      rmtClose t.wire.rmt = some u ∧
      handleAll [.query, .transfer [2]] u = some ([.handed (some []), .accepted true], v) ∧
      ¬ Closed u := by
  have r₀ : Sys.Reached Polls (fun s e => s.wire.Offers e) openedPage openedPage := .start
  have r₁ := r₀.host (e := .transfer [2]) ⟨by decide, by simp⟩ rfl
  have r₂ := (r₁.begins rfl (.inl ⟨[], 0, rfl⟩)).accesses (n := 8) rfl
  have r₃ := r₂.host (e := .transfer []) ⟨by decide, fun _ => rfl⟩ rfl
  have r₄ := (r₃.begins rfl (.inl ⟨[], 0, rfl⟩)).accesses (n := 8) rfl
  refine ⟨_, _, _, r₄, rfl, rfl, fun h => ?_⟩
  have hon := h.outbox.1
  cases hon

end Sunela.Remote
