import Sunela.Verification.Remote.Polls
import Sunela.Verification.Support.RemoteAccount

/-! # Abandoned transactions

A host may give up while it waits for a response, and begin a new request. The protocol is reset,
and the new transaction goes on as if there had been no other, provided that nothing of the old
response is left in the mailbox and no poll is under way. -/

namespace Sunela.Remote

open Program

variable {exact : Prop} {rule : Rule} {db : Database.Db} {h : Host} {w v : Wire} {s t : Sys Host}
  {fl : Bool → Prop} {log : Log}

/-- The protocol reset: the request is the only message of its transaction. -/
theorem At.abandoned {data : Bytes} (hw : Logged exact rule fl .responding log w)
    (ho : w.Offers (.transfer data)) (hhost : w.host ≠ .sending)
    (hout : w.rmt.outbox.length = none) (he : w.event (.transfer data) = some v) :
    Between exact rule (· = true) .waiting v := by
  obtain ⟨hd, hnil⟩ := ho
  obtain ⟨-, hin, -⟩ := At.responding hw
  have hres : w.rmt.state = .res := hw.state.1
  have hne : data ≠ [] := fun hdata => hhost (hnil hdata)
  have hadmits := event_admits he
  obtain ⟨hnres, hreset⟩ := hadmits.arriving
  have hidle : w.rmt.arriving.state = .idle ∧ w.rmt.arriving.asyncReset = true := by
    rcases hreset with ⟨-, hidle⟩ | hsame
    · exact hidle
    · rw [hsame] at hnres
      exact absurd hres hnres
  rw [event_transfer hw.steady hadmits hd, if_pos hin] at he
  obtain rfl := (Option.some.inj he).symm
  refine ⟨hw.steady.arriving.deposited .inbox hd, ?_, by simp, ?_, ?_, hidle.1, hidle.2⟩
  · refine .arrived ?_ ?_ ?_ hnres data hne (held_deposited _ .inbox data) ?_ ?_ ?_ ?_
    all_goals simp [Wire.transferred, hhost, hne]
    exact (congrArg Mbox.length (arriving_mboxes w.rmt).2.1).trans hout
  · simpa [Wire.transferred, hhost] using rule.nothing []
  · simp [Wire.transferred, hhost]

/-- The first block of a request is accepted only if nothing is left in the mailbox for responses,
and either the last transaction is over or no poll is under way. -/
def Vacant (s : Sys Host) (e : HostEvent) : Prop :=
  s.wire.Offers e ∧
    ∀ data, e = .transfer data → s.wire.host ≠ .sending → s.wire.rmt.inbox.length = none →
      s.wire.rmt.outbox.length = none ∧ (s.wire.book.phase = .waiting ∨ s.Quiet)

theorem Vacant.free {e : HostEvent} (he : Vacant s e) (hv : s.wire.event e = some v)
    (hq : s.wire.book.phase = .waiting ∨ ¬ s.Quiet) : s.wire.Free e := by
  cases e with
  | query => trivial
  | transfer data =>
      by_cases hhost : s.wire.host = .sending
      · exact .inl hhost
      by_cases hin : s.wire.rmt.inbox.length = none
      · obtain ⟨hout, hphase⟩ := he.2 data rfl hhost hin
        exact .inr (.inr ⟨hphase.elim id fun hquiet => hq.elim id fun hnot => absurd hquiet hnot,
          hout, event_admits hv⟩)
      · exact .inr (.inl hin)

/-- Between two polls, a transaction can be abandoned. -/
theorem AtRest.offered {e : HostEvent} (hr : AtRest exact db h s.wire) (he : Vacant s e)
    (hv : s.wire.event e = some v) : AtRest exact db h v := by
  by_cases hfree : s.wire.Free e
  · exact hr.handles ⟨e, he.1, hfree, hv⟩
  have hnot : s.wire.book.phase ≠ .waiting := fun hw => hfree (he.free hv (.inl hw))
  cases e with
  | query => exact absurd trivial hfree
  | transfer data =>
      have hhost : s.wire.host ≠ .sending := fun hs => hfree (.inl hs)
      have hin : s.wire.rmt.inbox.length = none := by
        by_contra hin
        exact hfree (.inr (.inl hin))
      obtain ⟨hout, -⟩ := he.2 data rfl hhost hin
      obtain ⟨hdb, ⟨ph, log, hw, hp⟩ | hw⟩ := hr
      · cases ph with
        | waiting => exact absurd hw.phase hnot
        | receiving =>
            cases hw.flow with
            | receiving _ _ _ _ _ _ _ _ host =>
                rcases host with ⟨hs, -⟩ | ⟨-, hheld⟩
                · exact absurd hs hhost
                · rw [held_none (m := .inbox) hin] at hheld
                  simp at hheld
            | quiet phase => exact absurd phase hnot
            | arrived phase => exact absurd phase hnot
            | responding phase => simp [hw.phase] at phase
        | responding => exact ⟨hdb, .inr (At.abandoned hw he.1 hhost hout hv)⟩
      · exact absurd hw.phase hnot

theorem Sound.offered {e : HostEvent} (hs : Sound exact db s) (he : Vacant s e)
    (hv : s.wire.event e = some v) : Sound exact db ⟨v, s.main⟩ := by
  by_cases hq : s.Quiet
  · cases hs with
    | begun after timeUs h main rest => exact .begun after timeUs h main (rest.offered he hv)
    | busy ok =>
        obtain ⟨w, main⟩ := s
        cases main with
        | resting h => exact .busy (AtRest.offered (s := ⟨w, .resting h⟩) ok he hv)
        | calling c rest next =>
            cases c with
            | asyncReset =>
                cases rest with
                | call a rest => exact absurd rfl ok.1
                | ret r => exact ok.elim
                | halt => exact ok.elim
                | undef => exact ok.elim
            | _ => exact hq.elim
        | aborted => exact hq.elim
        | failed => exact hq.elim
        | undefined => exact hq.elim
  · exact hs.handles ⟨e, he.1, he.free hv (.inr hq), hv⟩

/-- Whenever the host begins a new request, what it is handed until the next one has been
deposited for this request, after it was received completely. -/
theorem abandoned_inTransit {r : Rmt} (hbuf : r.mboxBuf.length = rmtMaxLen)
    (hidle : h.rdb.state = .idle)
    (hr : Sys.Reached Polls Vacant ⟨Wire.opened (rmtDbInit r), .resting h⟩ t) :
    InTransit t.wire.book ∧ t.main ≠ .undefined := by
  have hsound : Sound False h.db t := by
    induction hr with
    | start => exact Sound.opened hbuf hidle
    | begins run rests hp ih => exact ih.begins rests hp
    | access run ht ih => exact ih.access (fun hx => hx.elim) ht
    | host run he hv ih => exact ih.offered he hv
  exact ⟨hsound.held.inTransit, hsound.proper.1⟩

/-! ## A listing that is abandoned -/

/-- The page with an empty database. -/
def openedPage : Sys Host :=
  ⟨Wire.opened (rmtDbInit (.boot false)), .resting (openedSession .nil).host⟩

theorem vacant_first {data : Bytes} (hd : data.length ≤ rmtMaxLen) (hne : data ≠ [])
    (hout : s.wire.rmt.outbox.length = none) (hq : s.Quiet) : Vacant s (.transfer data) :=
  ⟨⟨hd, fun hnil => absurd hnil hne⟩, fun _ _ _ _ => ⟨hout, .inr hq⟩⟩

theorem vacant_last (hs : s.wire.host = .sending) : Vacant s (.transfer []) :=
  ⟨⟨Nat.zero_le _, fun _ => hs⟩, fun _ _ hhost => absurd hs hhost⟩

/-- The host gives up before the end marker has been deposited. -/
theorem abandoned_inTransit_listing :
    ∃ t : Sys Host, t.wire.rmt.asyncReset = true ∧ InTransit t.wire.book ∧
      t.main ≠ .undefined := by
  have r₀ : Sys.Reached Polls Vacant openedPage openedPage := .start
  have r₁ := r₀.host (e := .transfer [2]) (vacant_first (by decide) (by simp) rfl trivial) rfl
  have r₂ := (r₁.begins rfl (.inl ⟨[], 0, rfl⟩)).accesses (n := 8) rfl
  have r₃ := r₂.host (vacant_last rfl) rfl
  have r₄ := (r₃.begins rfl (.inl ⟨[], 0, rfl⟩)).accesses (n := 8) rfl
  have r₅ := r₄.host (e := .transfer [2]) (vacant_first (by decide) (by simp) rfl trivial) rfl
  exact ⟨_, rfl, abandoned_inTransit (r := .boot false) List.length_replicate rfl r₅⟩

/-- If the end marker is left in the mailbox, it is taken for that of the next response. -/
theorem abandoned_fails :
    ∃ t, Sys.Reached Polls (fun s e => s.wire.Offers e) openedPage t ∧
      ¬ InTransit t.wire.book := by
  have r₀ : Sys.Reached Polls (fun s e => s.wire.Offers e) openedPage openedPage := .start
  have r₁ := r₀.host (e := .transfer [2]) ⟨by decide, by simp⟩ rfl
  have r₂ := (r₁.begins rfl (.inl ⟨[], 0, rfl⟩)).accesses (n := 8) rfl
  have r₃ := r₂.host (e := .transfer []) ⟨by decide, fun _ => rfl⟩ rfl
  have r₄ := (r₃.begins rfl (.inl ⟨[], 0, rfl⟩)).accesses (n := 8) rfl
  have r₅ := (r₄.begins rfl (.inl ⟨[], 0, rfl⟩)).accesses (n := 7) rfl
  have r₆ := r₅.host (e := .transfer [2]) ⟨by decide, by simp⟩ rfl
  have r₇ := (r₆.begins rfl (.inl ⟨[], 0, rfl⟩)).accesses (n := 8) rfl
  have r₈ := r₇.host (e := .transfer []) ⟨by decide, fun _ => rfl⟩ rfl
  have r₉ := r₈.host (e := .query) rfl rfl
  refine ⟨_, r₉, fun h => ?_⟩
  have hd : ([[]] : List Bytes) <+: [] := h.delivered
  simp at hd

end Sunela.Remote
