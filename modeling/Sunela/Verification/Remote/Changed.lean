import Sunela.Verification.Remote.Listing

/-! # Databases that change while they are listed

The error goes to the host, but then the response goes on where it was, with a pointer into the
database as it has been. -/

namespace Sunela.Remote

open Program Fields Entry

/-- The page polls or handles a tap, or the database changes. -/
def Acts (w : Wire) (h : Host) (p : App (Option Host)) : Prop :=
  Polls w h p ∨ ∃ db, p = .ret (some { h with db })

/-! ## Programs

A program that has deposited the error does nothing else any more that is defined. -/

/-- The call has deposited the error. -/
def reports : (c : Call) → c.Reply → Bool
  | .responsev parts, ok => ok && decide (parts.flatten = dbChanged)
  | _, _ => false

/-- The state is whether the error has been deposited. -/
def stops : Contract Call Call.Reply Bool where
  step s c r t := t = (s || reports c r)
  call s _ := s = false
  halt _ s := s = false
  undef _ := True

/-- There are fields left. -/
def FieldsLeft (h : Host) : Prop := h.rdb.state = .res → h.rdb.op = rdopShow → h.rdb.f ≠ []

def Unreported (k : Option Host) (s : Bool) : Prop := s = false ∧ ∀ k', k = some k' → FieldsLeft k'

variable {h : Host} {α : Type} {Q : α → Bool → Prop} {after : Bytes} {timeUs : UInt64}

theorem unreported_some (hl : FieldsLeft h) : Unreported (some h) false := by
  refine ⟨rfl, fun k' hk => ?_⟩
  obtain rfl := Option.some.inj hk
  exact hl

theorem unreported_none : Unreported none false := by
  refine ⟨rfl, fun k' hk => ?_⟩
  cases hk

theorem fieldsLeft_state (hs : h.rdb.state ≠ .res) : FieldsLeft h := fun hres => absurd hres hs

theorem fieldsLeft_op (hop : h.rdb.op ≠ rdopShow) : FieldsLeft h := fun _ hshow => absurd hshow hop

theorem FieldsLeft.same {k : Host} (hl : FieldsLeft h) (hr : k.rdb = h.rdb) : FieldsLeft k := by
  rw [FieldsLeft, hr]
  exact hl

theorem stops_call {c : Call} {f : c.Reply → App α} (hc : ∀ r, reports c r = false)
    (hf : ∀ r, wp stops (f r) Q false) : wp stops (.call c f) Q false := by
  refine ⟨rfl, fun r t ht => ?_⟩
  obtain rfl : t = false := by rw [ht, hc r, Bool.or_self]
  exact hf r

theorem responsev_stops {parts : List Bytes} {f : Bool → App α} (hp : parts.flatten ≠ dbChanged)
    (hf : ∀ ok, wp stops (f ok) Q false) : wp stops (responsev parts >>= f) Q false :=
  stops_call (fun ok => by simp [reports, hp]) hf

/-- The error has to be the end. -/
theorem changed_stops {f : Bool → App α} (hfull : wp stops (f false) Q false)
    (hundef : f true = .undef) : wp stops (responsev [dbChanged] >>= f) Q false := by
  refine ⟨rfl, fun ok t ht => ?_⟩
  cases ok with
  | false =>
      obtain rfl : t = false := ht
      exact hfull
  | true =>
      show wp stops (f true) Q t
      rw [hundef]
      trivial

/-- Once the error has been deposited, the program is undefined. -/
theorem undef_of_stops {p : App (Option Host)} (hp : wp stops p Unreported true) :
    p = .undef := by
  cases p with
  | ret a => cases hp.1
  | call c next => cases hp.1
  | halt i => cases hp
  | undef => rfl

/-! ## Blocks -/

theorem bytes_ne_changed (s : CString) : [s.bytes].flatten ≠ dbChanged := by
  rw [List.flatten_singleton]
  intro hs
  exact s.nulFree (hs ▸ List.mem_cons_self)

theorem fieldParts_ne_changed {f : DbField} {parts : List Bytes}
    (hf : fieldParts f = some (some parts)) : parts.flatten ≠ dbChanged := by
  have hend : f.type ≠ ftEnd := by
    intro he
    simp [fieldParts, he] at hf
  have hhead : parts.flatten.head? = some f.type := by
    rw [fieldParts] at hf
    split_ifs at hf
    · cases Option.some.inj hf
    · obtain rfl := Option.some.inj (Option.some.inj hf)
      rfl
    · obtain rfl := Option.some.inj (Option.some.inj hf)
      rfl
  intro hp
  rw [hp] at hhead
  exact hend (Option.some.inj hhead).symm

/-! ## Polls -/

theorem respond_stops {b : Bytes} (hb : b ≠ dbChanged) (hl : FieldsLeft h) :
    wp stops (respond h b) Unreported false := by
  apply responsev_stops (by simpa using hb)
  intro ok
  cases ok with
  | false => exact unreported_some hl
  | true => exact unreported_some (fieldsLeft_state (by simp [Host.withState]))

theorem pollLs_stops (hop : h.rdb.op = rdopLs) : wp stops (pollLs h) Unreported false := by
  have hl : ∀ k : Host, k.rdb.op = h.rdb.op → FieldsLeft k := by
    intro k hk
    apply fieldsLeft_op
    rw [hk, hop]
    decide
  rw [pollLs]
  split
  · exact changed_stops (unreported_some (hl h rfl)) rfl
  · cases h.rdb.de with
    | nil => trivial
    | cons e rest =>
        apply responsev_stops (bytes_ne_changed e.name)
        intro ok
        cases ok with
        | false => exact unreported_some (hl h rfl)
        | true =>
            apply unreported_some
            split
            · exact hl _ rfl
            · exact hl _ rfl

theorem showLoop_stops (l : List DbField) : wp stops (showLoop h l) Unreported false := by
  induction l with
  | nil => exact unreported_some (fieldsLeft_state (by simp))
  | cons f rest ih =>
      rw [showLoop]
      cases hparts : fieldParts f with
      | none => exact unreported_none
      | some parts =>
          cases parts with
          | none => exact ih
          | some parts =>
              apply responsev_stops (fieldParts_ne_changed hparts)
              intro ok
              cases ok with
              | true => exact ih
              | false => exact unreported_some fun _ _ => List.cons_ne_nil f rest

theorem pollShow_stops (hf : h.rdb.f ≠ []) : wp stops (pollShow h) Unreported false := by
  rw [pollShow]
  by_cases hgen : h.rdb.generation ≠ h.db.generation
  · rw [if_pos hgen]
    refine changed_stops (unreported_some fun _ _ => hf) ?_
    simp only [if_true, hf, if_false]
  · rw [if_neg hgen]
    exact showLoop_stops _

theorem pollRes_stops (hl : h.rdb.op = rdopShow → h.rdb.f ≠ []) :
    wp stops (pollRes after timeUs h) Unreported false := by
  have hleft : FieldsLeft h := fun _ hshow => hl hshow
  rw [pollRes]
  split_ifs with hls hshow
  · exact pollLs_stops hls
  · exact pollShow_stops (hl hshow)
  · exact respond_stops (by simp [dbChanged]) hleft
  · exact respond_stops (by decide) hleft
  · exact respond_stops (by decide) hleft
  · exact respond_stops (by simp [busy, dbChanged, ascii]) hleft
  · exact unreported_some (fieldsLeft_state (by simp [Host.withState]))
  · exact unreported_none

theorem pollReq_stops (hs : h.rdb.state = .req) :
    wp stops (pollReq after timeUs h) Unreported false := by
  have hreq : FieldsLeft h := fieldsLeft_state (by simp [hs])
  apply stops_call fun _ => rfl
  intro r
  cases r with
  | zero => exact unreported_some hreq
  | block b => exact unreported_some (fieldsLeft_state (by simp [Host.withOp, hs]))
  | negative =>
      show wp stops (if _ then _ else _) Unreported false
      split
      · exact unreported_some (fieldsLeft_state (by simp [Host.withState]))
      · next hcond =>
          apply pollRes_stops
          intro hshow hf
          exact hcond (.inr (.inl ⟨hshow, hf⟩))

theorem pollIdle_stops (hs : h.rdb.state = .idle) :
    wp stops (pollIdle timeUs h) Unreported false := by
  apply stops_call fun _ => rfl
  intro r
  cases r with
  | negative => exact unreported_some (fieldsLeft_state (by simp [hs]))
  | zero => exact unreported_some (fieldsLeft_state (by simp [Host.withState, Host.withOp]))
  | block b =>
      apply unreported_some
      apply fieldsLeft_state
      simp [(startRequest_entered h timeUs b).1]

theorem pollEnd_stops (hl : FieldsLeft h) : wp stops (pollEnd h) Unreported false := by
  apply stops_call fun _ => rfl
  intro ok
  cases ok with
  | false => exact unreported_some hl
  | true => exact unreported_some (fieldsLeft_state (by simp [Host.withState]))

theorem pollState_stops (hl : FieldsLeft h) :
    wp stops (pollState after timeUs h) Unreported false := by
  rw [pollState]
  cases hs : h.rdb.state with
  | idle => exact pollIdle_stops hs
  | req => exact pollReq_stops hs
  | res => exact pollRes_stops (hl hs)
  | done => exact pollEnd_stops hl

theorem rmtDbPoll_stops (hl : FieldsLeft h) :
    wp stops (rmtDbPoll after timeUs h) Unreported false := by
  apply stops_call fun _ => rfl
  intro reset
  cases reset with
  | false => exact pollState_stops hl
  | true =>
      apply stops_call fun _ => rfl
      intro _
      show wp stops (pollState after timeUs (h.withState .idle)) Unreported false
      exact pollState_stops (fieldsLeft_state (by simp [Host.withState]))

theorem acts_stops {w : Wire} {p : App (Option Host)} (hl : FieldsLeft h) (hp : Acts w h p) :
    wp stops p Unreported false := by
  rcases hp with (⟨after, timeUs, rfl⟩ | ⟨yes, rfl⟩) | ⟨db, rfl⟩
  · exact rmtDbPoll_stops hl
  · exact unreported_some (hl.same (uiRmtTap_same h yes).1)
  · exact unreported_some (hl.same rfl)

/-! ## Calls -/

/-- A message is left in the mailbox for responses by the last access only. -/
def LeavesLast : Shared Bool → Prop
  | .call (.setLength .outbox (some _)) next => next () = .ret true
  | .call _ next => ∀ r, LeavesLast (next r)
  | _ => True

theorem storeParts_leavesLast {f : Unit → Shared Bool} (hf : LeavesLast (f ())) (pos : ℕ)
    (parts : List Bytes) : LeavesLast (storeParts pos parts >>= f) := by
  induction parts generalizing pos with
  | nil => exact hf
  | cons data parts ih => exact fun _ => ih (pos + data.length)

theorem mboxVdepositv_leavesLast (parts : List Bytes) :
    LeavesLast (mboxVdepositv .outbox parts) := by
  intro on
  cases on with
  | false => trivial
  | true =>
      intro n
      show LeavesLast (if _ then _ else _)
      split
      · trivial
      · split
        · trivial
        · apply storeParts_leavesLast
          intro n'
          show LeavesLast (if _ then _ else _)
          split
          · trivial
          · rfl

theorem rmtResponsev_leavesLast (parts : List Bytes) : LeavesLast (rmtResponsev parts) := by
  intro st
  show LeavesLast (if _ then _ else _)
  split
  · trivial
  · exact mboxVdepositv_leavesLast parts

def Leaves : (c : Call) → Shared c.Reply → Prop
  | .responsev _, p => LeavesLast p
  | _, _ => True

theorem prog_leaves (c : Call) : Leaves c c.prog := by
  cases c with
  | responsev parts => exact rmtResponsev_leavesLast parts
  | _ => trivial

/-! ## Systems -/

/-- The error has not been deposited, or the program is undefined. -/
def Sys.Stops (s : Sys Host) : Prop :=
  match s.main with
  | .resting h => dbChanged ∉ s.wire.book.deposited ∧ FieldsLeft h
  | .calling c p next => dbChanged ∉ s.wire.book.deposited ∧ Leaves c p ∧
      ∀ r, wp stops (next r) Unreported (reports c r)
  | .undefined => True
  | _ => dbChanged ∉ s.wire.book.deposited

variable {s t : Sys Host} {w : Wire}

theorem Sys.stops_proceed {p : App (Option Host)} (hd : dbChanged ∉ w.book.deposited)
    (hp : wp stops p Unreported false) : Sys.Stops ⟨w, .proceed p⟩ := by
  cases p with
  | ret a =>
      cases a with
      | none => exact hd
      | some h => exact ⟨hd, hp.2 h rfl⟩
  | call c next => exact ⟨hd, prog_leaves c, fun r => hp.2 r _ (Bool.false_or _).symm⟩
  | halt i => exact hd
  | undef => trivial

theorem returned_deposited (w : Wire) (c : Call) (r : c.Reply) :
    (w.returned c r).book.deposited = w.book.deposited := by
  cases c with
  | request size =>
      cases r with
      | zero => rfl
      | block b => rfl
      | negative =>
          rw [Wire.returned]
          split <;> rfl
  | _ => rfl

/-- The call has returned, after blocks that are not the error. -/
theorem Sys.stops_returned {c : Call} {r : c.Reply} {next : c.Reply → App (Option Host)}
    (hd : dbChanged ∉ w.book.deposited) (hnext : wp stops (next r) Unreported (reports c r)) :
    Sys.Stops ⟨w.returned c r, .proceed (next r)⟩ := by
  have hsame : dbChanged ∉ (w.returned c r).book.deposited := by rwa [returned_deposited]
  cases hr : reports c r with
  | false =>
      rw [hr] at hnext
      exact stops_proceed hsame hnext
  | true =>
      rw [hr] at hnext
      rw [undef_of_stops hnext]
      trivial

/-- The access leaves a block of a response in the mailbox. -/
def LeavesBlock (c : Call) (a : Access) : Prop :=
  ∃ parts n, c = .responsev parts ∧ a = .setLength .outbox (some n)

theorem access_deposited {c : Call} {a : Access} (hc : ¬ LeavesBlock c a)
    (hd : dbChanged ∉ w.book.deposited) : dbChanged ∉ (w.access c a).2.book.deposited := by
  unfold Wire.access Book.access
  split
  · exact hd
  · next n parts => exact absurd ⟨parts, n, rfl, rfl⟩ hc
  · have hend : dbChanged ≠ [] := by decide
    simpa [hend] using hd
  · exact hd

theorem leaves_rest {c : Call} {a : Access} {rest : a.Reply → Shared c.Reply}
    (hc : ¬ LeavesBlock c a) (hl : Leaves c (.call a rest)) (r : a.Reply) :
    Leaves c (rest r) := by
  cases c with
  | responsev parts =>
      rw [Leaves, LeavesLast] at hl
      · exact hl r
      · intro n next ha _
        exact hc ⟨parts, n, rfl, ha⟩
  | _ => trivial

/-- A block has been deposited. -/
theorem Sys.stops_deposited {parts : List Bytes} {next : Bool → App (Option Host)}
    (hd : dbChanged ∉ w.book.deposited)
    (hnext : wp stops (next true) Unreported (reports (.responsev parts) true)) {n : ℕ} :
    Sys.Stops ⟨(w.access (.responsev parts) (.setLength .outbox (some n))).2.returned
      (.responsev parts) true, .proceed (next true)⟩ := by
  have hdep : (w.access (.responsev parts) (.setLength .outbox (some n))).2.book.deposited =
    w.book.deposited ++ [parts.flatten] := rfl
  by_cases hp : parts.flatten = dbChanged
  · simp only [reports, hp, decide_true, Bool.and_self] at hnext
    rw [undef_of_stops hnext]
    trivial
  · apply stops_returned
    · rw [hdep]
      simp [hd, Ne.symm hp]
    · exact hnext

theorem Sys.Stops.access (hs : s.Stops) (ht : s.access = some t) : t.Stops := by
  obtain ⟨w, main⟩ := s
  cases main with
  | calling c p next =>
      cases p with
      | call a rest =>
          obtain ⟨hd, hl, hnext⟩ := hs
          by_cases hc : LeavesBlock c a
          · obtain ⟨parts, n, rfl, rfl⟩ := hc
            have hrest : rest () = .ret true := hl
            simp only [Sys.access, Wire.access, answer, hrest] at ht
            obtain rfl := Option.some.inj ht
            exact stops_deposited hd (hnext true)
          · have hd' := access_deposited hc hd
            have hl' := leaves_rest hc hl
            rw [Sys.access] at ht
            dsimp only at ht
            split at ht
            · obtain rfl := Option.some.inj ht
              exact stops_returned hd' (hnext _)
            · next hr =>
                obtain rfl := Option.some.inj ht
                exact ⟨hd', hr ▸ hl' _, hnext⟩
            · obtain rfl := Option.some.inj ht
              exact hd'
            · obtain rfl := Option.some.inj ht
              trivial
      | _ => cases ht
  | _ => cases ht

theorem event_deposited {e : HostEvent} {v : Wire} (hv : w.event e = some v) :
    v.book.deposited = w.book.deposited ∨ v.book.deposited = [] := by
  cases e with
  | transfer data =>
      rw [Wire.event] at hv
      split at hv
      · obtain rfl := Option.some.inj hv
        unfold Wire.transferred
        split
        · by_cases hs : w.host = .sending
          · simp [hs]
          · simp [hs]
        · exact .inl rfl
      · cases hv
  | query =>
      rw [Wire.event] at hv
      split at hv
      · next b r _ =>
          obtain rfl := Option.some.inj hv
          cases b with
          | none => exact .inl rfl
          | some b => exact .inl rfl
      · cases hv

theorem Sys.Stops.host {e : HostEvent} {v : Wire} (hs : s.Stops)
    (hv : s.wire.event e = some v) : Sys.Stops ⟨v, s.main⟩ := by
  have hkept : dbChanged ∉ s.wire.book.deposited → dbChanged ∉ v.book.deposited := by
    intro hd
    rcases event_deposited hv with h | h
    · rwa [h]
    · simp [h]
  obtain ⟨w, main⟩ := s
  cases main with
  | resting h => exact ⟨hkept hs.1, hs.2⟩
  | calling c p next => exact ⟨hkept hs.1, hs.2⟩
  | aborted => exact hkept hs
  | failed => exact hkept hs
  | undefined => trivial

theorem reached_stops {s₀ : Sys Host} (h₀ : s₀.Stops)
    (hr : Sys.Reached Acts (fun _ _ => True) s₀ t) : t.Stops := by
  induction hr with
  | start => exact h₀
  | @begins t b p _ rests hp ih =>
      rw [Sys.Stops, rests] at ih
      exact Sys.stops_proceed ih.1 (acts_stops ih.2 hp)
  | access _ ht ih => exact ih.access ht
  | host _ _ hv ih => exact ih.host hv

/-- Once a change has been reported, a pointer from before the change has been dereferenced,
whatever the host does and whenever the database changes. -/
theorem changed_undefined {r : Rmt} (hidle : h.rdb.state = .idle)
    (hr : Sys.Reached Acts (fun _ _ => True) ⟨Wire.opened (rmtDbInit r), .resting h⟩ t)
    (hmem : dbChanged ∈ t.wire.book.deposited) : t.main = .undefined := by
  have hopened : Sys.Stops ⟨Wire.opened (rmtDbInit r), .resting h⟩ :=
    ⟨by simp [Wire.opened], fieldsLeft_state (by simp [hidle])⟩
  have hs := reached_stops hopened hr
  rw [Sys.Stops] at hs
  split at hs
  · exact absurd hmem hs.1
  · exact absurd hmem hs.1
  · assumption
  · exact absurd hmem hs

/-! ## A listing

The entry that is listed is deleted before the first response. -/

theorem exists_changed : ∃ t : Sys Host,
    Sys.Reached Acts (fun _ _ => True) (pageOf (recordedDb namedA)) t ∧
      t.wire.book = ⟨.responding, [[2], []], [[2], []], [dbChanged], []⟩ ∧
      t.main = .undefined := by
  have r₀ : Sys.Reached Acts (fun _ _ => True) (pageOf (recordedDb namedA))
    (pageOf (recordedDb namedA)) := .start
  have r₁ := r₀.host (e := .transfer [2]) trivial rfl
  have r₂ := (r₁.begins rfl (.inl (.inl ⟨[], 0, rfl⟩))).accesses (n := 8) rfl
  have r₃ := r₂.begins rfl (.inr ⟨{ Database.dbOpenEmpty with generation := 1 }, rfl⟩)
  have r₄ := r₃.host (e := .transfer []) trivial rfl
  have r₅ := (r₄.begins rfl (.inl (.inl ⟨[], 0, rfl⟩))).accesses (n := 14) rfl
  exact ⟨_, r₅, rfl, rfl⟩

theorem changed_undefined_listed :
    ∃ t : Sys Host, t.wire.book.deposited = [dbChanged] ∧ t.main = .undefined := by
  obtain ⟨t, hr, hbook, -⟩ := exists_changed
  have hdep : t.wire.book.deposited = [dbChanged] := by rw [hbook]
  exact ⟨t, hdep, changed_undefined rfl hr (by simp [hdep])⟩

/-- The error is deposited, and then the name of the entry is read. -/
theorem changed_dereferences : ∃ t : Sys Host,
    Sys.Reached Acts (fun _ _ => True) (pageOf (recordedDb namedA)) t ∧
      t.wire.book.sent = [[2], []] ∧ dbChanged ∈ t.wire.book.deposited ∧ t.main = .undefined := by
  obtain ⟨t, hr, hbook, hmain⟩ := exists_changed
  exact ⟨t, hr, by rw [hbook], by simp [hbook], hmain⟩

end Sunela.Remote
