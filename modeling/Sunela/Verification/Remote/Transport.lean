import Sunela.Lib.Interrupt
import Sunela.Model.RmtTransport
import Sunela.Verification.Remote.Session

/-! # Messages in transit

At any time, what has been sent is what has been received and what is in the mailbox for
requests, and what has been deposited is what has been delivered and what is in the mailbox for
responses. The two mailboxes are never full at the same time, so they can share a buffer. -/

namespace Sunela.Remote

open Program

/-- The message in a mailbox. -/
def Rmt.held (s : Rmt) (m : Side) : List Bytes :=
  match (s.mbox m).length with
  | none => []
  | some n => [s.mboxBuf.take n]

theorem held_none {s : Rmt} {m : Side} (h : (s.mbox m).length = none) : s.held m = [] := by
  simp [Rmt.held, h]

theorem held_some {s : Rmt} {m : Side} {n : ℕ} (h : (s.mbox m).length = some n) :
    s.held m = [s.mboxBuf.take n] := by
  simp [Rmt.held, h]

theorem held_deposited (s : Rmt) (m : Side) (data : Bytes) :
    (s.deposited m data).held m = [data] := by
  cases m <;> simp [Rmt.held, Rmt.deposited, Rmt.withLength, Rmt.mbox, overwrite_take]

/-- All blocks of a response and its end. -/
def Ended (l : List Bytes) : Prop := ∃ blocks, [] ∉ blocks ∧ l = blocks ++ [[]]

/-- All blocks of a request, of which there is at least one, and its end. -/
def Complete (l : List Bytes) : Prop := ∃ blocks, blocks ≠ [] ∧ [] ∉ blocks ∧ l = blocks ++ [[]]

/-- Where the messages of a transaction are, if those in `got` have been received. With `exact`,
no block of a response is empty. -/
inductive Flow (exact : Prop) (w : Wire) (got : List Bytes) : Prop where
  | quiet (phase : w.book.phase = .waiting) (host : w.host ≠ .sending)
      (inbox : w.rmt.inbox.length = none) (sent : w.book.sent = got)
      (deposited : w.book.deposited = w.book.delivered ++ w.rmt.held .outbox)
      (finished : w.book.sent = [] ∧ w.book.deposited = [] ∨
        Complete w.book.sent ∧ (exact → Ended w.book.deposited))
      (ready : exact → w.host = .ready → w.rmt.outbox.length = none)
  | arrived (phase : w.book.phase = .waiting) (host : w.host = .sending)
      (outbox : w.rmt.outbox.length = none) (state : w.rmt.state ≠ .res) (b : Bytes)
      (block : b ≠ []) (inbox : w.rmt.held .inbox = [b]) (sent : w.book.sent = [b])
      (received : got = []) (deposited : w.book.deposited = []) (delivered : w.book.delivered = [])
  | receiving (phase : w.book.phase = .receiving) (outbox : w.rmt.outbox.length = none)
      (state : w.rmt.state ≠ .res) (some : got ≠ []) (blocks : [] ∉ got)
      (sent : w.book.sent = got ++ w.rmt.held .inbox) (deposited : w.book.deposited = [])
      (delivered : w.book.delivered = [])
      (host : w.host = .sending ∧ [] ∉ w.rmt.held .inbox ∨
        w.host = .querying ∧ w.rmt.held .inbox = [[]])
  | responding (phase : w.book.phase = .responding) (host : w.host ≠ .sending)
      (inbox : w.rmt.inbox.length = none) (sent : w.book.sent = got) (complete : Complete got)
      (deposited : w.book.deposited = w.book.delivered ++ w.rmt.held .outbox)
      (waits : exact → w.host = .querying ∧ [] ∉ w.book.deposited)

/-- What is known of the state, the flag `async_reset`, and what has been received and deposited. -/
abbrev Known := RmtState → Bool → List Bytes → List Bytes → Prop

/-- What is known still holds when a new request begins. -/
def Known.Renews (st : Known) : Prop :=
  ∀ s flag rc dp, st s flag rc dp → st s flag [] [] ∧ (s = .res → st .idle true [] [])

/-- What may be deposited for what has been received. -/
structure Rule where
  holds : List Bytes → List Bytes → Prop
  nothing : ∀ rc, holds rc []

def Rule.any : Rule := ⟨fun _ _ => True, fun _ => trivial⟩

/-- What holds while a call is made: `more` has been taken from the mailbox already, but not
been returned. -/
structure At (exact : Prop) (rule : Rule) (ph : Phase) (more : List Bytes) (st : Known)
    (w : Wire) : Prop where
  steady : Steady w.rmt
  flow : Flow exact w (w.book.received ++ more)
  news : more ≠ [] → w.book.deposited = []
  ruled : rule.holds w.book.received w.book.deposited
  phase : w.book.phase = ph
  state : st w.rmt.state w.rmt.asyncReset w.book.received w.book.deposited

/-! ## The host -/

/-- If a response is under way, the protocol reset takes place. -/
def Rmt.Admits (s : Rmt) : Prop := s.state = .res → s.reset = true ∧ s.strictRmt = false

/-- A request begins when no other one is being handled, or its first block is refused. -/
def Wire.Free (w : Wire) : HostEvent → Prop
  | .transfer _ => w.host = .sending ∨ w.rmt.inbox.length ≠ none ∨
      (w.book.phase = .waiting ∧ w.rmt.outbox.length = none ∧ w.rmt.Admits)
  | .query => True

/-- What the host can do in the middle of a call. -/
def Handles (w v : Wire) : Prop := ∃ e, w.Offers e ∧ w.Free e ∧ w.event e = some v

variable {exact : Prop} {rule : Rule} {fl : Bool → Prop} {w v : Wire} {ph : Phase}
  {more : List Bytes} {st : Known} {log : Log}

theorem Rmt.Admits.arriving {s : Rmt} (h : s.Admits) : s.arriving.state ≠ .res ∧
    ((s.state = .res ∧ s.arriving.state = .idle ∧ s.arriving.asyncReset = true) ∨
      s.arriving = s) := by
  by_cases hs : s.state = .res
  · simp [Rmt.arriving, hs, h hs]
  · simp [Rmt.arriving, hs]

theorem arriving_of_ne {s : Rmt} (h : s.state ≠ .res) : s.arriving = s := by
  simp [Rmt.arriving, h]

theorem arriving_mboxes (s : Rmt) : s.arriving.inbox = s.inbox ∧ s.arriving.outbox = s.outbox ∧
    s.arriving.mboxBuf = s.mboxBuf := by
  unfold Rmt.arriving
  split_ifs <;> exact ⟨rfl, rfl, rfl⟩

theorem Steady.arriving {s : Rmt} (h : Steady s) : Steady s.arriving := by
  obtain ⟨hin, hout, hbuf⟩ := arriving_mboxes s
  exact h.same hin hout hbuf

/-- A transfer is put into the mailbox if that is empty, and refused if it is full. -/
theorem event_transfer (hs : Steady w.rmt) (ha : w.rmt.Admits) {data : Bytes}
    (hd : data.length ≤ rmtMaxLen) :
    w.event (.transfer data) = some (if w.rmt.inbox.length = none
      then w.transferred data true (w.rmt.arriving.deposited .inbox data)
      else w.transferred data false w.rmt.arriving) := by
  obtain ⟨hin, -, -⟩ := arriving_mboxes w.rmt
  have hsteady := hs.arriving
  simp only [Wire.event, run_arrival ha.arriving.1]
  cases hl : w.rmt.inbox.length with
  | none =>
      have hfree : (w.rmt.arriving.mbox .inbox).length = none := by
        rw [Rmt.mbox, hin, hl]
      rw [run_vdepositv_free (m := .inbox) hsteady.inOn hfree (by simpa using hd)
        hsteady.buffer]
      simp
  | some n =>
      have hfull : (w.rmt.arriving.mbox .inbox).length = some n := by
        rw [Rmt.mbox, hin, hl]
      rw [run_vdepositv_full (m := .inbox) hsteady.inOn hfull]
      simp

theorem event_query (hs : Steady w.rmt) :
    w.event .query = some (match w.rmt.outbox.length with
      | none => w
      | some n => w.handed (some (w.rmt.mboxBuf.take n)) (w.rmt.withLength .outbox none)) := by
  simp only [Wire.event]
  cases hl : w.rmt.outbox.length with
  | none =>
      rw [run_query_none hs.outOn hl]
      rfl
  | some n => rw [run_query_some hs.outOn hl (hs.outFits n hl)]

/-- Where the protocol reset is refused, the handler fails. -/
theorem event_admits {data : Bytes} (he : w.event (.transfer data) = some v) : w.rmt.Admits := by
  intro hres
  by_contra hno
  have ha : w.rmt.arriving.state = .res := by simp [Rmt.arriving, hres, hno]
  simp [Wire.event, run_arrival_res ha] at he

/-- A query takes the message out of the mailbox, wherever the transaction is. -/
theorem At.queried (h : At exact rule ph more st w) (hq : w.host = .querying)
    (he : w.event .query = some v) : At exact rule ph more st v := by
  rw [event_query h.steady] at he
  cases hl : w.rmt.outbox.length with
  | none =>
      rw [hl] at he
      obtain rfl := Option.some.inj he
      exact h
  | some n =>
      rw [hl] at he
      obtain rfl := (Option.some.inj he).symm
      have hheld : w.rmt.held .outbox = [w.rmt.mboxBuf.take n] := held_some (m := .outbox) hl
      have hempty : (w.rmt.withLength .outbox none).held .outbox = [] := rfl
      refine ⟨h.steady.emptied .outbox, ?_, h.news, h.ruled, h.phase, h.state⟩
      cases h.flow with
      | quiet phase host inbox sent deposited finished ready =>
          refine .quiet phase ?_ inbox sent ?_ finished fun _ _ => rfl
          · simp only [Wire.handed]
            split <;> simp
          · rw [hheld] at deposited
            simpa [Wire.handed, hempty] using deposited
      | arrived _ host => simp [host] at hq
      | receiving _ outbox => simp [outbox] at hl
      | responding phase host inbox sent complete deposited waits =>
          rw [hheld] at deposited
          refine .responding phase ?_ inbox sent complete ?_ fun hx => ?_
          · simp only [Wire.handed]
            split <;> simp
          · simpa [Wire.handed, hempty] using deposited
          · have hne : w.rmt.mboxBuf.take n ≠ [] := by
              intro hnil
              apply (waits hx).2
              rw [deposited, hnil]
              simp
            exact ⟨by simp [Wire.handed, hne], (waits hx).2⟩

/-- A transfer continues a request, or begins one when none is being handled. -/
theorem At.transferred (h : At exact rule ph more st w) {data : Bytes}
    (hfirst : ph = .waiting → more = [] ∧ st.Renews)
    (ho : w.Offers (.transfer data)) (hf : w.Free (.transfer data))
    (he : w.event (.transfer data) = some v) : At exact rule ph more st v := by
  obtain ⟨hd, hnil⟩ := ho
  cases h.flow with
  | quiet phase host inbox sent deposited finished ready =>
      obtain ⟨-, hout, ha⟩ := (hf.resolve_left host).resolve_left (not_not.mpr inbox)
      obtain ⟨rfl, hst⟩ := hfirst (h.phase.symm.trans phase)
      have hne : data ≠ [] := fun hdata => host (hnil hdata)
      rw [event_transfer h.steady ha hd, if_pos inbox] at he
      obtain rfl := (Option.some.inj he).symm
      obtain ⟨hres, hstate⟩ := ha.arriving
      refine ⟨h.steady.arriving.deposited .inbox hd, ?_, by simp, ?_, ?_, ?_⟩
      · refine .arrived ?_ ?_ ?_ hres data hne (held_deposited _ .inbox data) ?_ ?_ ?_ ?_
        all_goals simp [Wire.transferred, host, hne]
        exact ((congrArg Mbox.length (arriving_mboxes w.rmt).2.1).trans hout)
      · simpa [Wire.transferred, host] using rule.nothing []
      · simp [Wire.transferred, host, ← h.phase, phase]
      · have hst' : st w.rmt.arriving.state w.rmt.arriving.asyncReset [] [] := by
          obtain ⟨hsame, hreset⟩ := hst _ _ _ _ h.state
          rcases hstate with ⟨hs, hidle, hflag⟩ | heq
          · rw [hidle, hflag]
            exact hreset hs
          · rw [heq]
            exact hsame
        simpa [Wire.transferred, host, Rmt.deposited, Rmt.withLength] using hst'
  | arrived phase host outbox state b block inbox =>
      have hfull : w.rmt.inbox.length ≠ none := by
        intro hl
        rw [held_none (m := .inbox) hl] at inbox
        simp at inbox
      rw [event_transfer h.steady (fun hs => absurd hs state) hd, if_neg hfull,
        arriving_of_ne state] at he
      obtain rfl := Option.some.inj he
      exact h
  | receiving phase outbox state some blocks sent deposited delivered host =>
      rw [event_transfer h.steady (fun hs => absurd hs state) hd, arriving_of_ne state] at he
      split at he
      · next hl =>
          obtain rfl := (Option.some.inj he).symm
          have hempty : w.rmt.held .inbox = [] := held_none (m := .inbox) hl
          have hsending : w.host = .sending := by
            rcases host with ⟨hhost, -⟩ | ⟨-, hheld⟩
            · exact hhost
            · simp [hempty] at hheld
          rw [hempty, List.append_nil] at sent
          refine ⟨h.steady.deposited .inbox hd, ?_, ?_, ?_, ?_, ?_⟩
          · have hbook : (w.transferred data true (w.rmt.deposited .inbox data)).book.received =
                w.book.received := by simp [Wire.transferred, hsending]
            rw [hbook]
            refine .receiving ?_ outbox state some blocks ?_ ?_ ?_ ?_
            · simp [Wire.transferred, hsending, phase]
            · simp [Wire.transferred, hsending, sent, held_deposited]
            · simp [Wire.transferred, hsending, deposited]
            · simp [Wire.transferred, hsending, delivered]
            · by_cases hdata : data = []
              · exact .inr ⟨by simp [Wire.transferred, hdata],
                  by simp [Wire.transferred, held_deposited, hdata]⟩
              · exact .inl ⟨by simp [Wire.transferred, hdata],
                  by simpa [Wire.transferred, held_deposited] using hdata⟩
          · simpa [Wire.transferred, hsending] using h.news
          · simpa [Wire.transferred, hsending] using h.ruled
          · simp [Wire.transferred, hsending, h.phase]
          · simpa [Wire.transferred, hsending, Rmt.deposited, Rmt.withLength] using h.state
      · obtain rfl := Option.some.inj he
        exact h
  | responding phase host inbox =>
      rcases hf with hf | hf | ⟨hf, -⟩
      · exact absurd hf host
      · exact absurd inbox hf
      · simp [phase] at hf

/-- While nothing is taken from or put into the mailboxes, the transaction goes on. -/
theorem stable_at (hfirst : ph = .waiting → more = [] ∧ st.Renews) :
    Stable Handles (At exact rule ph more st) := by
  rintro w v h ⟨e, ho, hf, he⟩
  cases e with
  | transfer data => exact h.transferred hfirst ho hf he
  | query => exact h.queried ho he

/-! ## Calls -/

/-- A transaction is under way, and the mailboxes are in order. -/
def Held (exact : Prop) (rule : Rule) (w : Wire) : Prop :=
  ∃ ph more, (ph = .waiting → more = []) ∧ At exact rule ph more (fun _ _ _ _ => True) w

theorem stable_held : Stable Handles (Held exact rule) := by
  rintro w v ⟨ph, more, hmore, h⟩ hv
  refine ⟨ph, more, hmore, stable_at (fun hph => ⟨hmore hph, ?_⟩) w v h hv⟩
  exact fun _ _ _ _ _ => ⟨trivial, fun _ => trivial⟩

/-- The course of a call. With `exact`, no assertion fails. -/
abbrev course (exact : Prop) (rule : Rule) (c : Call) : Contract Access Access.Reply Wire :=
  interrupted Handles (Wire.access c) (Held exact rule) (¬ exact)

def Phase.state : Phase → RmtState
  | .waiting => .idle
  | .receiving => .req
  | .responding => .res

/-- What holds between two calls, if `fl` is known of the flag `async_reset`. -/
abbrev Between (exact : Prop) (rule : Rule) (fl : Bool → Prop) (ph : Phase) (w : Wire) : Prop :=
  At exact rule ph [] (fun s flag _ _ => s = ph.state ∧ fl flag) w

/-- What has been received and deposited in a transaction. -/
structure Log where
  received : List Bytes
  deposited : List Bytes

/-- Besides, the messages of the transaction under way are known. -/
abbrev Logged (exact : Prop) (rule : Rule) (fl : Bool → Prop) (ph : Phase) (log : Log)
    (w : Wire) : Prop :=
  At exact rule ph [] (fun s flag rc dp => s = ph.state ∧ fl flag ∧
    (ph ≠ .waiting → rc = log.received ∧ dp = log.deposited)) w

theorem phase_state_ne {ph : Phase} (h : ph ≠ .responding) : ph.state ≠ .res := by
  cases ph <;> simp_all [Phase.state]

theorem At.weaken {st' : Known} (h : At exact rule ph more st w)
    (hst : ∀ s flag rc dp, st s flag rc dp → st' s flag rc dp) : At exact rule ph more st' w :=
  ⟨h.steady, h.flow, h.news, h.ruled, h.phase, hst _ _ _ _ h.state⟩

theorem At.held (h : At exact rule ph more st w) (hmore : ph = .waiting → more = []) :
    Held exact rule w :=
  ⟨ph, more, hmore, h.steady, h.flow, h.news, h.ruled, h.phase, trivial⟩

/-- An access that is made when `E` is known besides. -/
theorem wp_access {α : Type} {c : Call} {a : Access} {next : a.Reply → Shared α}
    {Q : α → Wire → Prop} (E : Wire → Prop)
    (hfirst : ph = .waiting → more = [] ∧ st.Renews)
    (hE : ∀ u v, At exact rule ph more st u → E u → Handles u v → E v)
    (h : At exact rule ph more st w) (he : E w)
    (hnext : ∀ u, At exact rule ph more st u → E u →
      wp (course exact rule c) (next (u.access c a).1) Q (u.access c a).2) :
    wp (course exact rule c) (.call a next) Q w := by
  refine wp_stable (P := fun u => At exact rule ph more st u ∧ E u) ?_ ?_ ⟨h, he⟩
    fun u hu => hnext u hu.1 hu.2
  · rintro u v ⟨hu, heu⟩ hv
    exact ⟨stable_at hfirst u v hu hv, hE u v hu heu hv⟩
  · rintro u ⟨hu, -⟩
    exact hu.held fun hph => (hfirst hph).1

/-- An access that only reads, or changes the state. -/
theorem wp_at {α : Type} {c : Call} {a : Access} {next : a.Reply → Shared α}
    {Q : α → Wire → Prop} (hfirst : ph = .waiting → more = [] ∧ st.Renews)
    (h : At exact rule ph more st w)
    (hnext : ∀ u, At exact rule ph more st u →
      wp (course exact rule c) (next (u.access c a).1) Q (u.access c a).2) :
    wp (course exact rule c) (.call a next) Q w :=
  wp_access (fun _ => True) hfirst (fun _ _ _ _ _ => trivial) h trivial fun u hu _ => hnext u hu

/-- What matters of the wire to a transaction. -/
structure Alike (w v : Wire) : Prop where
  host : v.host = w.host
  phase : v.book.phase = w.book.phase
  sent : v.book.sent = w.book.sent
  deposited : v.book.deposited = w.book.deposited
  delivered : v.book.delivered = w.book.delivered
  inbox : v.rmt.inbox.length = w.rmt.inbox.length ∧ v.rmt.held .inbox = w.rmt.held .inbox
  outbox : v.rmt.outbox.length = w.rmt.outbox.length ∧ v.rmt.held .outbox = w.rmt.held .outbox

theorem Flow.alike {got : List Bytes} (h : Flow exact w got) (ha : Alike w v)
    (hs : w.book.phase ≠ .responding → w.rmt.state ≠ .res → v.rmt.state ≠ .res) :
    Flow exact v got := by
  obtain ⟨hhost, hphase, hsent, hdep, hdel, ⟨hin, hinheld⟩, hout, houtheld⟩ := ha
  cases h with
  | quiet phase host inbox sent deposited finished ready =>
      refine .quiet (hphase.trans phase) (by rwa [hhost]) (hin.trans inbox) (hsent.trans sent)
        ?_ ?_ ?_
      · rw [hdep, hdel, houtheld]
        exact deposited
      · rw [hsent, hdep]
        exact finished
      · rw [hhost, hout]
        exact ready
  | arrived phase host outbox state b block inbox sent received deposited delivered =>
      exact .arrived (hphase.trans phase) (hhost.trans host) (hout.trans outbox)
        (hs (by simp [phase]) state) b block (hinheld.trans inbox) (hsent.trans sent) received
        (hdep.trans deposited) (hdel.trans delivered)
  | receiving phase outbox state some blocks sent deposited delivered host =>
      refine .receiving (hphase.trans phase) (hout.trans outbox) (hs (by simp [phase]) state)
        some blocks ?_ (hdep.trans deposited) (hdel.trans delivered) ?_
      · rw [hsent, hinheld]
        exact sent
      · rw [hhost, hinheld]
        exact host
  | responding phase host inbox sent complete deposited waits =>
      refine .responding (hphase.trans phase) (by rwa [hhost]) (hin.trans inbox)
        (hsent.trans sent) complete ?_ ?_
      · rw [hdep, hdel, houtheld]
        exact deposited
      · rw [hhost, hdep]
        exact waits

theorem At.withState (h : At exact rule ph more st w) {s : RmtState} {st' : Known}
    (hs : st' s w.rmt.asyncReset w.book.received w.book.deposited)
    (hres : s = .res → ph = .responding) :
    At exact rule ph more st' { w with rmt := { w.rmt with state := s } } := by
  refine ⟨h.steady.same rfl rfl rfl, ?_, h.news, h.ruled, h.phase, hs⟩
  exact h.flow.alike ⟨rfl, rfl, rfl, rfl, rfl, ⟨rfl, rfl⟩, rfl, rfl⟩
    fun hp _ he => hp (h.phase.trans (hres he))

/-- What was received has been returned. -/
theorem At.receive {b : Bytes} (h : At exact rule ph [b] st w) {st' : Known}
    (hr : rule.holds (w.book.received ++ [b]) w.book.deposited)
    (hs : st' w.rmt.state w.rmt.asyncReset (w.book.received ++ [b]) w.book.deposited) :
    At exact rule ph [] st' (w.receive b) := by
  have hgot : (w.receive b).book.received ++ [] = w.book.received ++ [b] := List.append_nil _
  refine ⟨h.steady, ?_, fun hne => absurd rfl hne, hr, h.phase, hs⟩
  rw [hgot]
  exact h.flow.alike ⟨rfl, rfl, rfl, rfl, rfl, ⟨rfl, rfl⟩, rfl, rfl⟩ fun _ hs => hs

/-- Nothing is overwritten while both mailboxes are empty. -/
theorem At.store (h : At exact rule .responding more st w) (hout : w.rmt.outbox.length = none)
    {buf : Bytes} (hbuf : buf.length = rmtMaxLen) :
    At exact rule .responding more st { w with rmt := { w.rmt with mboxBuf := buf } } := by
  have hin : w.rmt.inbox.length = none := by
    cases h.flow with
    | responding _ _ inbox => exact inbox
    | quiet phase => simp [h.phase] at phase
    | arrived phase => simp [h.phase] at phase
    | receiving phase => simp [h.phase] at phase
  refine ⟨⟨h.steady.inOn, h.steady.outOn, hbuf, h.steady.inFits, h.steady.outFits⟩, ?_,
    h.news, h.ruled, h.phase, h.state⟩
  refine h.flow.alike ⟨rfl, rfl, rfl, rfl, rfl, ⟨rfl, ?_⟩, rfl, ?_⟩ fun _ hs => hs
  · exact Eq.trans (held_none (m := .inbox) hin) (held_none (m := .inbox) hin).symm
  · exact Eq.trans (held_none (m := .outbox) hout) (held_none (m := .outbox) hout).symm

/-! ### Requests -/

/-- A transfer leaves a message alone that is in the mailbox. -/
theorem handles_inbox (hs : Steady w.rmt) (hv : Handles w v) {n : ℕ}
    (hl : w.rmt.inbox.length = some n) :
    v.rmt.inbox.length = some n ∧ v.rmt.mboxBuf = w.rmt.mboxBuf := by
  obtain ⟨e, ho, -, he⟩ := hv
  cases e with
  | transfer data =>
      rw [event_transfer hs (event_admits he) ho.1, if_neg (by simp [hl])] at he
      obtain rfl := Option.some.inj he
      obtain ⟨hin, -, hbuf⟩ := arriving_mboxes w.rmt
      exact ⟨(congrArg Mbox.length hin).trans hl, hbuf⟩
  | query =>
      rw [event_query hs] at he
      obtain rfl := Option.some.inj he
      split
      · exact ⟨hl, rfl⟩
      · exact ⟨hl, rfl⟩

theorem take_eq_nil {s : Rmt} (hs : Steady s) {n : ℕ} : s.mboxBuf.take n = [] ↔ n = 0 := by
  have hne : s.mboxBuf ≠ [] := by
    intro hnil
    have hlen := hs.buffer
    rw [hnil] at hlen
    simp [rmtMaxLen] at hlen
  simp [List.take_eq_nil_iff, hne]

/-- A block has been taken, but the state has not changed yet. -/
abbrev Taking (exact : Prop) (rule : Rule) (fl : Bool → Prop) (ph : Phase) (before : List Bytes)
    (b : Bytes) (w : Wire) : Prop :=
  At exact rule ph [b] (fun s flag rc dp => s ≠ .res ∧ fl flag ∧ rc = before ∧ dp = []) w

/-- What has been received before a block. -/
def Phase.before (ph : Phase) (log : Log) : List Bytes :=
  match ph with
  | .waiting => []
  | _ => log.received

/-- The message is taken from the mailbox. -/
theorem At.take (h : Logged exact rule fl ph log w) (hph : ph ≠ .responding) {n : ℕ}
    (hl : w.rmt.inbox.length = some n) (c : Call) :
    (w.rmt.mboxBuf.take n = [] ∧ ph = .receiving ∧
        Taking exact rule fl .responding log.received [] (w.access c (.setLength .inbox none)).2) ∨
      (w.rmt.mboxBuf.take n ≠ [] ∧
        Taking exact rule fl .receiving (ph.before log) (w.rmt.mboxBuf.take n)
          (w.access c (.setLength .inbox none)).2) := by
  have hheld : w.rmt.held .inbox = [w.rmt.mboxBuf.take n] := held_some (m := .inbox) hl
  have hempty : (w.rmt.withLength .inbox none).held .inbox = [] := rfl
  have hres : w.rmt.state ≠ .res := h.state.1 ▸ phase_state_ne hph
  have hsteady := h.steady.emptied .inbox
  cases h.flow with
  | quiet _ _ inbox => simp [inbox] at hl
  | arrived phase host outbox state b block inbox sent received deposited delivered =>
      obtain rfl : w.rmt.mboxBuf.take n = b := by simpa [hheld] using inbox
      have hn : n ≠ 0 := fun h0 => block ((take_eq_nil h.steady).mpr h0)
      have hnil : w.book.received = [] := by simpa using received
      have hbefore : ph.before log = [] := by rw [← h.phase, phase, Phase.before]
      refine .inr ⟨block, hsteady, ?_, fun _ => deposited, h.ruled,
        by simp [Wire.access, Book.access, hl, hn], hres, h.state.2.1, ?_, deposited⟩
      rotate_left
      · rw [hbefore]
        exact hnil
      refine .receiving ?_ outbox hres (by simp) ?_ ?_ deposited delivered (.inl ⟨host, ?_⟩)
      · simp [Wire.access, Book.access, hl, hn]
      · simpa [Wire.access, Book.access, hnil] using block
      · simp [Wire.access, Book.access, answer, sent, hnil, hempty]
      · simp [Wire.access, answer, hempty]
  | receiving phase outbox state some blocks sent deposited delivered host =>
      rw [List.append_nil] at some blocks sent
      rw [hheld] at sent host
      have hphase : ph = .receiving := h.phase.symm.trans phase
      have hlog : w.book.received = log.received := (h.state.2.2 (by simp [hphase])).1
      by_cases hb : w.rmt.mboxBuf.take n = []
      · have hn : n = 0 := (take_eq_nil h.steady).mp hb
        refine .inl ⟨hb, hphase, hsteady, ?_, fun _ => deposited, h.ruled,
          by simp [Wire.access, Book.access, hl, hn], hres, h.state.2.1, hlog, deposited⟩
        have hquery : w.host = .querying := by
          rcases host with ⟨-, hne⟩ | ⟨hhost, -⟩
          · simp [hb] at hne
          · exact hhost
        refine .responding ?_ ?_ rfl ?_ ⟨_, some, blocks, rfl⟩ ?_ fun _ => ⟨hquery, ?_⟩
        · simp [Wire.access, Book.access, hl, hn]
        · simp [Wire.access, hquery]
        · simpa [Wire.access, Book.access, hb] using sent
        · have hout : (w.rmt.withLength .inbox none).held .outbox = [] :=
            held_none (m := .outbox) outbox
          simp [Wire.access, Book.access, answer, deposited, delivered, hout]
        · simp [Wire.access, Book.access, deposited]
      · have hn : n ≠ 0 := fun h0 => hb ((take_eq_nil h.steady).mpr h0)
        have hbefore : ph.before log = log.received := by simp [hphase, Phase.before]
        refine .inr ⟨hb, hsteady, ?_, fun _ => deposited, h.ruled,
          by simp [Wire.access, Book.access, hl, hn], hres, h.state.2.1, hbefore ▸ hlog,
          deposited⟩
        have hsending : w.host = .sending := by
          rcases host with ⟨hhost, -⟩ | ⟨-, heq⟩
          · exact hhost
          · simp [hb] at heq
        refine .receiving ?_ outbox hres (by simp) ?_ ?_ deposited delivered
          (.inl ⟨hsending, ?_⟩)
        · simp [Wire.access, Book.access, hl, hn]
        · simp only [List.mem_append, List.mem_singleton, not_or]
          exact ⟨blocks, Ne.symm hb⟩
        · simpa [Wire.access, Book.access, answer, hempty] using sent
        · simp [Wire.access, answer, hempty]
  | responding phase => exact absurd (h.phase.symm.trans phase) hph

theorem logged_first : ph = .waiting → ([] : List Bytes) = [] ∧
    Known.Renews fun s flag rc dp => s = ph.state ∧ fl flag ∧
      (ph ≠ .waiting → rc = log.received ∧ dp = log.deposited) := by
  rintro rfl
  refine ⟨rfl, fun s flag rc dp h => ⟨⟨h.1, h.2.1, by simp⟩, fun hs => ?_⟩⟩
  simp [hs, Phase.state] at h

/-- What a request takes from the mailbox. -/
def Taken (exact : Prop) (rule : Rule) (fl : Bool → Prop) (ph : Phase) (log : Log) :
    Option Bytes → Wire → Prop
  | none, v => Logged exact rule fl ph log v
  | some b, v => (b = [] ∧ ph = .receiving ∧ Taking exact rule fl .responding log.received [] v) ∨
      (b ≠ [] ∧ Taking exact rule fl .receiving (ph.before log) b v)

theorem wp_retrieve (h : Logged exact rule fl ph log w) (hph : ph ≠ .responding) {size : ℕ}
    (hsize : rmtMaxLen ≤ size) (c : Call) :
    wp (course exact rule c) (mboxRetrieve .inbox size) (Taken exact rule fl ph log) w := by
  simp only [mboxRetrieve, getLength, getEnabled, load, setLength, Prog.exec, Prog.call_bind,
    Prog.ret_bind]
  refine wp_at logged_first h fun u hu => ?_
  cases hl : u.rmt.inbox.length with
  | none =>
      simp only [Wire.access, answer, Rmt.mbox, hl]
      refine wp_at logged_first hu fun v hv => ?_
      simp only [Wire.access, answer, Rmt.mbox, hv.steady.inOn, Bool.not_true, Bool.false_eq_true,
        if_false]
      exact hv
  | some n =>
      have hn : n ≤ size := Nat.le_trans (hu.steady.inFits n hl) hsize
      have hfull : ∀ v z, Logged exact rule fl ph log v →
          v.rmt.inbox.length = some n ∧ v.rmt.mboxBuf.take n = u.rmt.mboxBuf.take n →
          Handles v z →
          z.rmt.inbox.length = some n ∧ z.rmt.mboxBuf.take n = u.rmt.mboxBuf.take n := by
        intro v z hv hE hz
        obtain ⟨hlz, hbz⟩ := handles_inbox hv.steady hz hE.1
        exact ⟨hlz, hbz ▸ hE.2⟩
      simp only [Wire.access, answer, Rmt.mbox, hl]
      refine wp_access _ logged_first hfull hu ⟨hl, rfl⟩ fun v hv hvE => ?_
      simp only [Wire.access, answer, Rmt.mbox, hv.steady.inOn, Bool.not_true, Bool.false_eq_true,
        if_false, Nat.not_lt.mpr hn]
      refine wp_access _ logged_first hfull hv hvE fun x hx hxE => ?_
      simp only [Wire.access, answer, hxE.2]
      refine wp_access _ logged_first hfull hx hxE fun y hy hyE => ?_
      simp only [Wire.access, answer, Rmt.mbox, hyE.1, ne_eq, not_true_eq_false, if_false]
      refine wp_access _ logged_first hfull hy hyE fun z hz hzE => ?_
      have htake := hz.take hph hzE.1 c
      rw [hzE.2] at htake
      exact htake

theorem nothing_holds {dp : List Bytes} (h : dp = []) (rc : List Bytes) : rule.holds rc dp := by
  rw [h]
  exact rule.nothing rc

theorem turn_block (hph : ph ≠ .responding) (size : ℕ) (b : Bytes) :
    Turn ph (.request size) (.block b) .receiving := by
  cases ph with
  | waiting => exact .first size b
  | receiving => exact .next size b
  | responding => exact absurd rfl hph

/-- What is known of the flag `async_reset` after a call. The protocol reset sets it when a
request arrives before the state is idle again. -/
def flagAfter (fl : Bool → Prop) : (c : Call) → c.Reply → Bool → Prop
  | .finish, true => fun flag => fl flag ∨ flag = true
  | .asyncReset, b => fun flag => fl flag ∧ flag = b
  | .clearReset, () => fun flag => flag = false
  | _, _ => fl

/-- What has been received and deposited after a call. -/
def Log.after (log : Log) (ph : Phase) : (c : Call) → c.Reply → Log
  | .request _, .block b => ⟨ph.before log ++ [b], []⟩
  | .request _, .negative => ⟨log.received ++ [[]], []⟩
  | .responsev parts, true => ⟨log.received, log.deposited ++ [parts.flatten]⟩
  | _, _ => log

/-- The specification of a call: it takes its turn. -/
def Takes (exact : Prop) (rule : Rule) (fl : Bool → Prop) (ph : Phase) (log : Log) (c : Call)
    (w : Wire) : Prop :=
  wp (course exact rule c) c.prog (fun r v => ∃ ph', Turn ph c r ph' ∧
    Logged exact rule (flagAfter fl c r) ph' (log.after ph c r) (v.returned c r)) w

theorem request_takes (h : Logged exact rule fl ph log w) (hph : ph ≠ .responding) {size : ℕ}
    (hsize : rmtMaxLen ≤ size) : Takes exact rule fl ph log (.request size) w := by
  unfold Takes Call.prog
  simp only [rmtRequest, getState, Prog.exec, Prog.call_bind, Prog.ret_bind]
  refine wp_at logged_first h fun u hu => ?_
  have hres : u.rmt.state ≠ .res := hu.state.1 ▸ phase_state_ne hph
  simp only [Wire.access, answer, hres, if_false]
  rw [wp_bind]
  refine wp_mono (wp_retrieve hu hph hsize _) fun b v hv => ?_
  cases b with
  | none =>
      refine wp_at logged_first hv fun z hz => ?_
      cases ph with
      | waiting =>
          have hidle : z.rmt.state = .idle := hz.state.1
          simp only [Wire.access, answer, hidle, if_true]
          refine ⟨.waiting, .nothing size, ?_⟩
          have hphase : z.book.phase ≠ .responding := by simp [hz.phase]
          simpa [Wire.returned, Book.access, flagAfter, Logged, hphase] using hz
      | receiving =>
          have hreq : z.rmt.state = .req := hz.state.1
          simp only [Wire.access, answer, hreq, reduceCtorEq, if_false]
          exact ⟨.receiving, .pending size, hz⟩
      | responding => exact absurd rfl hph
  | some b =>
      cases b with
      | nil =>
          obtain ⟨-, hreq, hend⟩ := hv.resolve_right fun hne => hne.1 rfl
          refine wp_at (by simp) hend fun z hz => ?_
          obtain ⟨-, hfl, hrc, hdp⟩ := hz.state
          have hset : At _ _ _ _ (fun s _ _ _ => s = .res) _ :=
            hz.withState (s := .res) rfl fun _ => rfl
          refine ⟨.responding, hreq ▸ .complete size, ?_⟩
          have hphase : z.book.phase = .responding := hz.phase
          simp only [Wire.returned, Wire.access, answer, Book.access, hphase, if_true]
          exact hset.receive (nothing_holds hdp _)
            ⟨rfl, hfl, fun _ => ⟨congrArg (· ++ [[]]) hrc, hdp⟩⟩
      | cons x b =>
          obtain ⟨-, hv⟩ := hv.resolve_left fun hnil => by simp at hnil
          refine wp_at (by simp) hv fun z hz => ?_
          obtain ⟨-, hfl, hrc, hdp⟩ := hz.state
          have hset : At _ _ _ _ (fun s _ _ _ => s = .req) _ :=
            hz.withState (s := .req) rfl (by simp)
          exact ⟨.receiving, turn_block hph size _, hset.receive (nothing_holds hdp _)
            ⟨rfl, hfl, fun _ => ⟨congrArg (· ++ [x :: b]) hrc, hdp⟩⟩⟩

/-! ### Responses -/

/-- The host waits, and there is nothing for it yet. -/
theorem handles_responding (h : At exact rule .responding more st w)
    (hout : w.rmt.outbox.length = none) (hv : Handles w v) : v = w := by
  obtain ⟨e, ho, hf, he⟩ := hv
  cases e with
  | transfer data =>
      cases h.flow with
      | responding _ host inbox =>
          rcases hf with hf | hf | ⟨hf, -⟩
          · exact absurd hf host
          · exact absurd inbox hf
          · simp [h.phase] at hf
      | quiet phase => simp [h.phase] at phase
      | arrived phase => simp [h.phase] at phase
      | receiving phase => simp [h.phase] at phase
  | query =>
      rw [event_query h.steady, hout] at he
      exact (Option.some.inj he).symm

/-- An access while nothing else happens. -/
theorem wp_alone {α : Type} {c : Call} {a : Access} {next : a.Reply → Shared α}
    {Q : α → Wire → Prop} (h : Logged exact rule fl .responding log w)
    (hout : w.rmt.outbox.length = none)
    (hnext : wp (course exact rule c) (next (w.access c a).1) Q (w.access c a).2) :
    wp (course exact rule c) (.call a next) Q w := by
  refine wp_access (· = w) (by simp) ?_ h rfl fun u _ hu => hu ▸ hnext
  intro u v hu heq hv
  exact (handles_responding hu (heq ▸ hout) hv).trans heq

/-- The buffer of the wire. -/
def Wire.withBuf (w : Wire) (buf : Bytes) : Wire :=
  { w with rmt := { w.rmt with mboxBuf := buf } }

theorem wp_storeParts {parts : List Bytes} {c : Call} {pos : ℕ}
    (h : Logged exact rule fl .responding log w)
    (hout : w.rmt.outbox.length = none) (hpos : pos + parts.flatten.length ≤ rmtMaxLen) :
    wp (course exact rule c) (storeParts pos parts)
      (fun _ v => v = w.withBuf (overwrite w.rmt.mboxBuf pos parts.flatten)) w := by
  induction parts generalizing pos w with
  | nil =>
      have hnil : overwrite w.rmt.mboxBuf pos [] = w.rmt.mboxBuf := by simp [overwrite]
      simp [storeParts, Wire.withBuf, hnil]
  | cons data parts ih =>
      simp only [List.flatten_cons, List.length_append] at hpos
      have hbuf : pos ≤ w.rmt.mboxBuf.length := by
        rw [h.steady.buffer]
        omega
      have hlen : (overwrite w.rmt.mboxBuf pos data).length = rmtMaxLen := by
        rw [overwrite_length (by rw [h.steady.buffer]; omega), h.steady.buffer]
      refine wp_alone h hout ?_
      have hrest := @ih (w.withBuf (overwrite w.rmt.mboxBuf pos data)) (pos + data.length)
        (h.store hout hlen) hout (by omega)
      refine wp_mono hrest fun _ v hv => ?_
      rw [hv, List.flatten_cons, ← overwrite_append hbuf]
      rfl

theorem wp_vdepositv {c : Call} {parts : List Bytes} {Q : Bool → Wire → Prop}
    (h : Logged exact rule fl .responding log w) (hmax : exact → parts.flatten.length ≤ rmtMaxLen)
    (hfull : ∀ v, Logged exact rule fl .responding log v → Q false v)
    (hfree : ∀ v, Logged exact rule fl .responding log v → v.rmt.outbox.length = none →
      parts.flatten.length ≤ rmtMaxLen →
      Q true { v with
        rmt := v.rmt.deposited .outbox parts.flatten
        book := v.book.access v.rmt c (.setLength .outbox (some parts.flatten.length)) }) :
    wp (course exact rule c) (mboxVdepositv .outbox parts) Q w := by
  simp only [mboxVdepositv, getLength, getEnabled, setLength, Prog.exec, Prog.call_bind,
    Prog.ret_bind]
  refine wp_at logged_first h fun u hu => ?_
  simp only [Wire.access, answer, Rmt.mbox, hu.steady.outOn, Bool.not_true, Bool.false_eq_true,
    if_false]
  refine wp_at logged_first hu fun v hv => ?_
  cases hout : v.rmt.outbox.length with
  | some n =>
      simp only [Wire.access, answer, Rmt.mbox, hout, Option.isSome_some, if_true]
      exact hfull v hv
  | none =>
      simp only [Wire.access, answer, Rmt.mbox, hout, Option.isSome_none, Bool.false_eq_true,
        if_false]
      by_cases hbig : rmtMaxLen < parts.flatten.length
      · simp only [hbig, if_true]
        exact ⟨hv.held fun _ => rfl, fun hx => absurd (hmax hx) (by omega)⟩
      · have hfits : parts.flatten.length ≤ rmtMaxLen := by omega
        simp only [hbig, if_false]
        rw [wp_bind]
        refine wp_mono (wp_storeParts hv hout (by omega)) fun _ z hz => ?_
        have hlen : (overwrite v.rmt.mboxBuf 0 parts.flatten).length = rmtMaxLen := by
          rw [overwrite_length (by rw [hv.steady.buffer]; omega), hv.steady.buffer]
        have hstored : Logged exact rule fl .responding log z := hz ▸ hv.store hout hlen
        have hz' : z.rmt.outbox.length = none := hz ▸ hout
        refine wp_alone hstored hz' ?_
        simp only [Wire.access, answer, Rmt.mbox, hz', Option.isSome_none, Bool.false_eq_true,
          if_false]
        refine wp_alone hstored hz' ?_
        have hQ := hfree v hv hout hfits
        rw [hz]
        exact hQ

theorem At.responding (h : Logged exact rule fl .responding log w) :
    w.host ≠ .sending ∧ w.rmt.inbox.length = none ∧ w.book.sent = w.book.received ∧
      Complete w.book.received ∧
      w.book.deposited = w.book.delivered ++ w.rmt.held .outbox ∧
      (exact → w.host = .querying ∧ [] ∉ w.book.deposited) := by
  have hflow := h.flow
  rw [List.append_nil] at hflow
  cases hflow with
  | responding _ host inbox sent complete deposited waits =>
      exact ⟨host, inbox, sent, complete, deposited, waits⟩
  | quiet phase => simp [h.phase] at phase
  | arrived phase => simp [h.phase] at phase
  | receiving phase => simp [h.phase] at phase

theorem responsev_takes {parts : List Bytes} (h : Logged exact rule fl .responding log w)
    (hexact : exact → parts.flatten ≠ [] ∧ parts.flatten.length ≤ rmtMaxLen)
    (hrule : rule.holds log.received (log.deposited ++ [parts.flatten])) :
    Takes exact rule fl .responding log (.responsev parts) w := by
  unfold Takes Call.prog
  simp only [rmtResponsev, getState, Prog.exec, Prog.call_bind, Prog.ret_bind]
  refine wp_at logged_first h fun u hu => ?_
  have hres : u.rmt.state = .res := hu.state.1
  simp only [Wire.access, answer, hres, ne_eq, not_true_eq_false, if_false]
  refine wp_vdepositv hu (fun hx => (hexact hx).2)
    (fun v hv => ⟨.responding, .responsev parts false, hv⟩) fun v hv hout hfits => ?_
  obtain ⟨hhost, hin, hsent, hcomplete, hdep, hwaits⟩ := hv.responding
  obtain ⟨hrc, hdp⟩ := hv.state.2.2 (by simp)
  rw [← hrc, ← hdp] at hrule
  refine ⟨.responding, .responsev parts true, hv.steady.deposited .outbox hfits, ?_, by simp,
    hrule, hv.phase, hv.state.1, hv.state.2.1,
    fun _ => ⟨hrc, congrArg (· ++ [parts.flatten]) hdp⟩⟩
  rw [List.append_nil]
  refine .responding hv.phase hhost hin hsent hcomplete ?_ fun hx => ⟨(hwaits hx).1, ?_⟩
  · rw [held_none (m := .outbox) hout, List.append_nil] at hdep
    simp [Wire.returned, Book.access, hdep, held_deposited]
  · have hblocks : [] ∉ v.book.deposited ++ [parts.flatten] := by
      rw [List.mem_append, List.mem_singleton, not_or]
      exact ⟨(hwaits hx).2, Ne.symm (hexact hx).1⟩
    exact hblocks

/-- After the end marker the host may begin the next request, even before the state is idle. -/
theorem At.end (h : Logged exact rule fl .responding log w) (hout : w.rmt.outbox.length = none)
    (hrule : rule.holds w.book.received (w.book.deposited ++ [[]])) :
    At exact rule .waiting [] (fun s flag _ _ => (s = .res ∨ s = .idle) ∧ (fl flag ∨ flag = true)) {
      w with
      rmt := w.rmt.deposited .outbox []
      book := { w.book with phase := .waiting, deposited := w.book.deposited ++ [[]] } } := by
  obtain ⟨hhost, hin, hsent, hcomplete, hdep, hwaits⟩ := h.responding
  refine ⟨h.steady.deposited .outbox (Nat.zero_le _), ?_, by simp, hrule, rfl, .inl h.state.1,
    .inl h.state.2.1⟩
  rw [List.append_nil]
  refine .quiet rfl hhost hin hsent ?_ (.inr ⟨?_, fun hx => ?_⟩) fun hx hready => ?_
  · rw [held_none (m := .outbox) hout, List.append_nil] at hdep
    simp [hdep, held_deposited]
  · exact hsent ▸ hcomplete
  · exact ⟨w.book.deposited, (hwaits hx).2, rfl⟩
  · have hquery := (hwaits hx).1
    simp [hquery] at hready

theorem finish_takes (h : Logged exact rule fl .responding log w)
    (hrule : rule.holds log.received (log.deposited ++ [[]])) :
    Takes exact rule fl .responding log .finish w := by
  unfold Takes Call.prog
  simp only [rmtEnd, getState, Prog.exec, Prog.call_bind, Prog.ret_bind]
  refine wp_at logged_first h fun u hu => ?_
  have hres : u.rmt.state = .res := hu.state.1
  simp only [Wire.access, answer, hres, ne_eq, not_true_eq_false, if_false]
  rw [wp_bind]
  refine wp_vdepositv hu (fun _ => Nat.zero_le _)
    (fun v hv => ⟨.responding, .again, hv⟩) fun v hv hout _ => ?_
  obtain ⟨hrc, hdp⟩ := hv.state.2.2 (by simp)
  rw [← hrc, ← hdp] at hrule
  refine wp_at (fun _ => ⟨rfl, ?_⟩) (hv.end hout hrule) fun z hz => ?_
  · exact fun s flag rc dp hs => ⟨hs, fun _ => ⟨.inr rfl, .inr rfl⟩⟩
  · exact ⟨.waiting, .ended, hz.withState ⟨rfl, hz.state.2, by simp⟩ (by simp)⟩

theorem asyncReset_takes (h : Logged exact rule fl ph log w) :
    Takes exact rule fl ph log .asyncReset w :=
  wp_at logged_first h fun u hu =>
    ⟨ph, .asyncReset ph u.rmt.asyncReset, hu.steady, hu.flow, hu.news, hu.ruled, hu.phase,
      hu.state.1, ⟨hu.state.2.1, rfl⟩, hu.state.2.2⟩

theorem clearReset_takes (h : Logged exact rule fl ph log w) :
    Takes exact rule fl ph log .clearReset w := by
  refine wp_at logged_first h fun u hu => ⟨ph, .clearReset ph, ?_⟩
  refine ⟨hu.steady.same rfl rfl rfl, ?_, hu.news, hu.ruled, hu.phase, hu.state.1, rfl,
    hu.state.2.2⟩
  exact hu.flow.alike ⟨rfl, rfl, rfl, rfl, rfl, ⟨rfl, rfl⟩, rfl, rfl⟩ fun _ hs => hs

/-- The rule allows what the call may deposit. -/
def Log.Allows (log : Log) (rule : Rule) : Call → Prop
  | .responsev parts => rule.holds log.received (log.deposited ++ [parts.flatten])
  | .finish => rule.holds log.received (log.deposited ++ [[]])
  | _ => True

/-- Every call that the protocol permits takes its turn. -/
theorem permitted_takes {c : Call} (hp : Permits exact ph c) (hr : log.Allows rule c)
    (h : Logged exact rule fl ph log w) :
    Takes exact rule fl ph log c w := by
  cases c with
  | request size => exact request_takes h hp.1 hp.2
  | responsev parts =>
      obtain ⟨rfl, hexact⟩ := hp
      exact responsev_takes h hexact hr
  | finish =>
      obtain rfl := hp
      exact finish_takes h hr
  | asyncReset => exact asyncReset_takes h
  | clearReset => exact clearReset_takes h

theorem between_logged (h : Between exact rule fl ph w) :
    Logged exact rule fl ph ⟨w.book.received, w.book.deposited⟩ w :=
  ⟨h.steady, h.flow, h.news, h.ruled, h.phase, h.state.1, h.state.2, fun _ => ⟨rfl, rfl⟩⟩

theorem Logged.between (h : Logged exact rule fl ph log w) : Between exact rule fl ph w :=
  h.weaken fun _ _ _ _ hs => ⟨hs.1, hs.2.1⟩

theorem between_first : ph = .waiting → ([] : List Bytes) = [] ∧
    Known.Renews fun s flag _ _ => s = ph.state ∧ fl flag := by
  rintro rfl
  refine ⟨rfl, fun s flag rc dp h => ⟨h, fun hs => ?_⟩⟩
  simp [hs, Phase.state] at h

/-- The messages need not be known. -/
theorem between_takes {c : Call} (hp : Permits exact ph c) (h : Between exact .any fl ph w) :
    wp (course exact .any c) c.prog (fun r v => ∃ ph', Turn ph c r ph' ∧
      Between exact .any (flagAfter fl c r) ph' (v.returned c r)) w := by
  refine wp_mono (permitted_takes hp (by cases c <;> trivial) (between_logged h)) fun r v hv => ?_
  obtain ⟨ph', hturn, hlogged⟩ := hv
  exact ⟨ph', hturn, Logged.between hlogged⟩

end Sunela.Remote
