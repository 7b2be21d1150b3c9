import Sunela.Model.RmtDb

/-! # Calls without interruption

What each function of the remote interface does when nothing interrupts it. -/

namespace Sunela.Remote

open Program

/-! ## The buffer -/

theorem overwrite_length {buf data : Bytes} {pos : ℕ} (h : pos + data.length ≤ buf.length) :
    (overwrite buf pos data).length = buf.length := by
  simp only [overwrite, List.length_append, List.length_take, List.length_drop]
  omega

theorem overwrite_append {buf : Bytes} {pos : ℕ} (h : pos ≤ buf.length) (a b : Bytes) :
    overwrite (overwrite buf pos a) (pos + a.length) b = overwrite buf pos (a ++ b) := by
  have hlen : (buf.take pos ++ a).length = pos + a.length := by simp [h]
  have htake : (overwrite buf pos a).take (pos + a.length) = buf.take pos ++ a := by
    rw [overwrite, ← hlen, List.take_left]
  have hdrop : (overwrite buf pos a).drop (pos + a.length + b.length) =
      buf.drop (pos + (a ++ b).length) := by
    have hd := @List.drop_length_add_append _ (buf.take pos ++ a) (buf.drop (pos + a.length))
      b.length
    rw [hlen] at hd
    rw [overwrite, hd, List.drop_drop, List.length_append, Nat.add_assoc]
  rw [overwrite, htake, hdrop, overwrite, List.append_assoc (buf.take pos)]

theorem overwrite_take {buf data : Bytes} : (overwrite buf 0 data).take data.length = data := by
  simp [overwrite]

theorem run_storeParts {parts : List Bytes} {pos : ℕ} {s : Rmt}
    (h : pos + parts.flatten.length ≤ s.mboxBuf.length) :
    run answer (storeParts pos parts) s =
      (.ret (), { s with mboxBuf := overwrite s.mboxBuf pos parts.flatten }) := by
  induction parts generalizing pos s with
  | nil => simp [storeParts, run, overwrite]
  | cons data parts ih =>
      simp only [List.flatten_cons, List.length_append] at h
      have hlen : (overwrite s.mboxBuf pos data).length = s.mboxBuf.length :=
        overwrite_length (by omega)
      have hrest := @ih (pos + data.length)
        { s with mboxBuf := overwrite s.mboxBuf pos data } (by simp only [hlen]; omega)
      simp only [overwrite_append (show pos ≤ s.mboxBuf.length by omega)] at hrest
      exact hrest

/-! ## Mailboxes -/

/-- A message that has been put into a mailbox. -/
def Rmt.deposited (s : Rmt) (m : Side) (data : Bytes) : Rmt :=
  { s with mboxBuf := overwrite s.mboxBuf 0 data }.withLength m (some data.length)

theorem run_vdepositv_full {s : Rmt} {m : Side} {parts : List Bytes} {n : ℕ}
    (he : (s.mbox m).enabled = true) (hl : (s.mbox m).length = some n) :
    run answer (mboxVdepositv m parts) s = (.ret false, s) := by
  simp [mboxVdepositv, getEnabled, getLength, Prog.exec, run, answer, he, hl]

theorem run_vdepositv_free {s : Rmt} {m : Side} {parts : List Bytes}
    (he : (s.mbox m).enabled = true) (hl : (s.mbox m).length = none)
    (hmax : parts.flatten.length ≤ rmtMaxLen) (hbuf : s.mboxBuf.length = rmtMaxLen) :
    run answer (mboxVdepositv m parts) s = (.ret true, s.deposited m parts.flatten) := by
  have hstore := @run_storeParts parts 0 s (by omega)
  have hlen : ({ s with mboxBuf := overwrite s.mboxBuf 0 parts.flatten }.mbox m).length =
      none := by
    cases m <;> exact hl
  simp only [mboxVdepositv, getEnabled, getLength, Prog.exec, Prog.call_bind, Prog.ret_bind, run,
    answer, he, hl, Bool.not_true, Bool.false_eq_true, Option.isSome_none, if_false,
    Nat.not_lt.mpr hmax]
  rw [run_bind hstore]
  simp [run, answer, hlen, setLength, Prog.exec, Rmt.deposited]

theorem run_vdepositv_big {s : Rmt} {m : Side} {parts : List Bytes}
    (he : (s.mbox m).enabled = true) (hl : (s.mbox m).length = none)
    (hmax : rmtMaxLen < parts.flatten.length) :
    run answer (mboxVdepositv m parts) s = (.halt, s) := by
  simp only [mboxVdepositv, getEnabled, getLength, Prog.exec, Prog.call_bind, Prog.ret_bind, run,
    answer, he, hl, Bool.not_true, Bool.false_eq_true, Option.isSome_none, if_false, hmax, if_true]

theorem run_retrieve_none {s : Rmt} {m : Side} {size : ℕ} (he : (s.mbox m).enabled = true)
    (hl : (s.mbox m).length = none) : run answer (mboxRetrieve m size) s = (.ret none, s) := by
  simp [mboxRetrieve, getEnabled, getLength, Prog.exec, run, answer, he, hl]

theorem run_retrieve_some {s : Rmt} {m : Side} {size n : ℕ} (he : (s.mbox m).enabled = true)
    (hl : (s.mbox m).length = some n) (hn : n ≤ size) :
    run answer (mboxRetrieve m size) s =
      (.ret (some (s.mboxBuf.take n)), s.withLength m none) := by
  simp [mboxRetrieve, getEnabled, getLength, setLength, load, Prog.exec, run, answer, he, hl,
    Nat.not_lt.mpr hn]

theorem run_retrieve_big {s : Rmt} {m : Side} {size n : ℕ} (he : (s.mbox m).enabled = true)
    (hl : (s.mbox m).length = some n) (hn : size < n) :
    run answer (mboxRetrieve m size) s = (.halt, s) := by
  simp [mboxRetrieve, getEnabled, getLength, Prog.exec, run, answer, he, hl, hn]

/-! ## Requests and responses -/

theorem run_request_none {s : Rmt} {size : ℕ} (hs : s.state ≠ .res)
    (he : s.inbox.enabled = true) (hl : s.inbox.length = none) :
    run answer (rmtRequest size) s =
      (.ret (if s.state = .idle then .negative else .zero), s) := by
  have hr := @run_retrieve_none s .inbox size he hl
  simp only [rmtRequest, getState, Prog.exec, Prog.call_bind, Prog.ret_bind, run, answer, hs,
    if_false]
  rw [run_bind hr]
  rfl

theorem run_request_end {s : Rmt} {size : ℕ} (hs : s.state ≠ .res)
    (he : s.inbox.enabled = true) (hl : s.inbox.length = some 0) :
    run answer (rmtRequest size) s =
      (.ret .negative, { s.withLength .inbox none with state := .res }) := by
  have hr := @run_retrieve_some s .inbox size 0 he hl (Nat.zero_le _)
  simp only [rmtRequest, getState, Prog.exec, Prog.call_bind, Prog.ret_bind, run, answer, hs,
    if_false]
  rw [run_bind hr]
  rfl

theorem run_request_block {s : Rmt} {size n : ℕ} (hs : s.state ≠ .res)
    (he : s.inbox.enabled = true) (hl : s.inbox.length = some n) (hn : n ≤ size) (h0 : 0 < n)
    (hbuf : n ≤ s.mboxBuf.length) :
    run answer (rmtRequest size) s =
      (.ret (.block (s.mboxBuf.take n)), { s.withLength .inbox none with state := .req }) := by
  have hr := @run_retrieve_some s .inbox size n he hl hn
  have hne : s.mboxBuf.take n ≠ [] := by
    intro h
    have hlen := congrArg List.length h
    simp only [List.length_take, List.length_nil] at hlen
    omega
  simp only [rmtRequest, getState, Prog.exec, Prog.call_bind, Prog.ret_bind, run, answer, hs,
    if_false]
  rw [run_bind hr]
  cases hb : s.mboxBuf.take n with
  | nil => exact absurd hb hne
  | cons x b => rfl

theorem run_responsev_full {s : Rmt} {parts : List Bytes} {n : ℕ} (hs : s.state = .res)
    (he : s.outbox.enabled = true) (hl : s.outbox.length = some n) :
    run answer (rmtResponsev parts) s = (.ret false, s) := by
  simp only [rmtResponsev, getState, Prog.exec, Prog.call_bind, Prog.ret_bind, run, answer, hs,
    ne_eq, not_true_eq_false, if_false]
  exact run_vdepositv_full he hl

theorem run_responsev_free {s : Rmt} {parts : List Bytes} (hs : s.state = .res)
    (he : s.outbox.enabled = true) (hl : s.outbox.length = none)
    (hmax : parts.flatten.length ≤ rmtMaxLen) (hbuf : s.mboxBuf.length = rmtMaxLen) :
    run answer (rmtResponsev parts) s = (.ret true, s.deposited .outbox parts.flatten) := by
  simp only [rmtResponsev, getState, Prog.exec, Prog.call_bind, Prog.ret_bind, run, answer, hs,
    ne_eq, not_true_eq_false, if_false]
  exact run_vdepositv_free he hl hmax hbuf

theorem run_end_full {s : Rmt} {n : ℕ} (hs : s.state = .res) (he : s.outbox.enabled = true)
    (hl : s.outbox.length = some n) : run answer rmtEnd s = (.ret false, s) := by
  have hv := @run_vdepositv_full s .outbox [] n he hl
  simp only [rmtEnd, getState, Prog.exec, Prog.call_bind, Prog.ret_bind, run, answer, hs,
    ne_eq, not_true_eq_false, if_false]
  rw [run_bind hv]
  rfl

theorem run_end_free {s : Rmt} (hs : s.state = .res) (he : s.outbox.enabled = true)
    (hl : s.outbox.length = none) (hbuf : s.mboxBuf.length = rmtMaxLen) :
    run answer rmtEnd s = (.ret true, { s.deposited .outbox [] with state := .idle }) := by
  have hv := @run_vdepositv_free s .outbox [] he hl (Nat.zero_le _) hbuf
  simp only [rmtEnd, getState, Prog.exec, Prog.call_bind, Prog.ret_bind, run, answer, hs,
    ne_eq, not_true_eq_false, if_false]
  rw [run_bind hv]
  rfl

/-! ## The side of the host -/

theorem run_query_none {s : Rmt} (he : s.outbox.enabled = true) (hl : s.outbox.length = none) :
    run answer rmtQuery s = (.ret none, s) := run_retrieve_none he hl

theorem run_query_some {s : Rmt} {n : ℕ} (he : s.outbox.enabled = true)
    (hl : s.outbox.length = some n) (hn : n ≤ rmtMaxLen) :
    run answer rmtQuery s = (.ret (some (s.mboxBuf.take n)), s.withLength .outbox none) :=
  run_retrieve_some he hl hn

/-- The state in which a transfer is put into the mailbox, after the protocol reset. -/
def Rmt.arriving (s : Rmt) : Rmt :=
  if s.state = .res then
    if s.reset = true ∧ s.strictRmt = false then { s with state := .idle, asyncReset := true }
    else s
  else s

theorem run_arrivalReset (s : Rmt) : run answer arrivalReset s = (.ret (), s.arriving) := by
  by_cases hs : s.state = .res
  · by_cases hr : s.reset = true ∧ s.strictRmt = false <;>
      simp [arrivalReset, getState, callReset, setState, Prog.exec, run, answer, rmtDbReset,
        Rmt.arriving, hs, hr]
  · simp [arrivalReset, getState, Prog.exec, run, answer, Rmt.arriving, hs]

/-- Where the reset is refused, the assertion fails. -/
theorem run_arrival_res {s : Rmt} (h : s.arriving.state = .res) (data : Bytes) :
    run answer (rmtArrival data) s = (.halt, s.arriving) := by
  rw [rmtArrival, run_bind (run_arrivalReset s)]
  simp [getState, Prog.exec, run, answer, h]

theorem run_arrival {s : Rmt} (h : s.arriving.state ≠ .res) (data : Bytes) :
    run answer (rmtArrival data) s = run answer (mboxVdepositv .inbox [data]) s.arriving := by
  rw [rmtArrival, run_bind (run_arrivalReset s)]
  simp [getState, Prog.exec, run, answer, h]

end Sunela.Remote
