import Sunela.Verification.Support.RemoteAccount

/-! # Secrets do not leave over the remote interface

The data of secrets is left out of everything the main program works with. The program makes
the same calls, and its results are the same up to the secrets. -/

namespace Sunela.Remote

open Program Fields Entry

/-! ## Leaving out secrets -/

theorem nil_fits : ([] : Bytes).length < 256 := by decide

def redactField (f : DbField) : DbField :=
  if (revealed f.type).isSome then ⟨f.type, [], nil_fits⟩ else f

def redactEntry (e : DbEntry) : DbEntry := { e with fields := e.fields.map redactField }

def redactDb (db : Database.Db) : Database.Db := { db with entries := db.entries.map redactEntry }

def redactSecret (s : Secret) : Secret := { s with data := [] }

def redactAction : Action → Action
  | .reveal user => .reveal (redactSecret user)
  | .setTime deltaS => .setTime deltaS

def redactScreen : Screen → Screen
  | .remote => .remote
  | .prompt p => .prompt p
  | .text s => .text (redactSecret s)

def redactHost (h : Host) : Host :=
  { h with
    rdb := { h.rdb with de := h.rdb.de.map redactEntry, f := h.rdb.f.map redactField }
    ui := { h.ui with
      action := h.ui.action.map redactAction, display := redactScreen h.ui.display }
    db := redactDb h.db }

def Session.redact (s : Session) : Session := ⟨s.rmt, redactHost s.host⟩

@[simp] theorem redactField_type (f : DbField) : (redactField f).type = f.type := by
  unfold redactField
  split <;> rfl

theorem redactField_data {f : DbField} (h : (revealed f.type).isSome) :
    (redactField f).data = [] := by
  simp [redactField, h]

@[simp] theorem fieldParts_redact (f : DbField) : fieldParts (redactField f) = fieldParts f := by
  by_cases h : (revealed f.type).isSome
  · have hopen : ¬ (f.type = ftUser ∨ f.type = ftEmail ∨ f.type = ftHotpCounter ∨
        f.type = ftComment) := by
      rintro (ht | ht | ht | ht) <;> rw [ht] at h <;> exact absurd h (by decide)
    simp [fieldParts, hopen]
  · simp [redactField, h]

theorem tops_map {α β : Type} (g : α → β) (F : Forest α) : (F.map g).tops = F.tops.map g := by
  induction F with
  | nil => rfl
  | node e ch nx _ ih => simp [Forest.map, Forest.tops, ih]

/-! ## Requests -/

theorem fromEntry_redact (h : Host) (name : Bytes) :
    fromEntry (redactHost h) name = (fromEntry h name).map redactEntry := by
  simp only [fromEntry, redactHost, redactDb, tops_map, List.dropWhile_map]
  rfl

theorem showRemote_redact (h : Host) : showRemote (redactHost h) = redactHost (showRemote h) := rfl

theorem doActionReveal_redact (h : Host) (user : Secret) :
    doActionReveal (redactHost h) (redactSecret user) = redactHost (doActionReveal h user) := by
  have hdb : (redactHost h).db.generation = h.db.generation := rfl
  have hui : (redactHost h).ui.generation = h.ui.generation := rfl
  unfold doActionReveal
  rw [hdb, hui]
  by_cases hg : h.db.generation = h.ui.generation
  · rw [if_neg (not_not.mpr hg), if_neg (not_not.mpr hg)]
    rfl
  · rw [if_pos hg, if_pos hg]
    rfl

theorem uiRmtTap_redact (h : Host) (yes : Option Bool) :
    uiRmtTap (redactHost h) yes = redactHost (uiRmtTap h yes) := by
  obtain ⟨rdb, ⟨revealing, action, generation, display⟩, db, timeOffset⟩ := h
  cases action with
  | none => cases revealing <;> rfl
  | some action =>
      rcases yes with _ | _ | _
      · rfl
      · rfl
      · cases action with
        | setTime deltaS => rfl
        | reveal user =>
            exact doActionReveal_redact
              ⟨rdb, ⟨revealing, none, generation, display⟩, db, timeOffset⟩ user

theorem startShow_redact (h : Host) (b : Bytes) :
    startShow (redactHost h) b = redactHost (startShow h b) := by
  simp only [startShow, fromEntry_redact]
  cases fromEntry h (b.drop 1) <;> rfl

theorem uiRmtReveal_redact (h : Host) (e : DbEntry) {f : DbField} (binary : Bool)
    (hf : (revealed f.type).isSome) :
    uiRmtReveal (redactHost h) ⟨redactEntry e, redactField f, binary⟩ =
      ((uiRmtReveal h ⟨e, f, binary⟩).1, redactHost (uiRmtReveal h ⟨e, f, binary⟩).2) := by
  obtain ⟨rdb, ⟨revealing, action, generation, display⟩, db, timeOffset⟩ := h
  cases action with
  | some action => rfl
  | none =>
      simp only [uiRmtReveal, redactHost, Option.map_none, redactField_type,
        redactField_data hf]
      cases fieldName f.type <;> rfl

/-- The fields from the first of a type on. -/
theorem dropWhile_redact (fields : List DbField) (type : UInt8) :
    (fields.map redactField).dropWhile (fun f => f.type ≠ type) =
      (fields.dropWhile fun f => f.type ≠ type).map redactField := by
  rw [List.dropWhile_map]
  congr 1
  congr 1
  funext f
  simp

theorem type_of_dropWhile {fields rest : List DbField} {f : DbField} {type : UInt8}
    (h : (fields.dropWhile fun f => f.type ≠ type) = f :: rest) : f.type = type := by
  have hne : (fields.dropWhile fun f => f.type ≠ type) ≠ [] := by
    rw [h]
    simp
  have hhead := List.head_dropWhile_not (fun f : DbField => decide (f.type ≠ type)) hne
  simp only [h, List.head_cons] at hhead
  simpa using hhead

theorem startReveal_redact (h : Host) (b : Bytes) :
    startReveal (redactHost h) b = redactHost (startReveal h b) := by
  by_cases hlen : b.length < 2
  · simp only [startReveal, hlen, if_true]
    rfl
  · simp only [startReveal, hlen, if_false, fromEntry_redact]
    cases hde : fromEntry h ((b.drop 1).take (b.length - 2)) with
    | nil => rfl
    | cons e de =>
        simp only [List.map_cons, redactEntry, dropWhile_redact]
        cases hf : e.fields.dropWhile fun f => f.type ≠ b.getLastD 0 with
        | nil => rfl
        | cons f rest =>
            cases hr : revealed (b.getLastD 0) with
            | none => rfl
            | some binary =>
                have hs : (revealed f.type).isSome := by rw [type_of_dropWhile hf, hr]; rfl
                have hu := uiRmtReveal_redact
                  { h with rdb := { h.rdb with de := e :: de, f := f :: rest } } e binary hs
                refine Eq.trans (congrArg (fun r : Bool × Host =>
                  if r.1 then r.2 else r.2.withOp rdopBusy) hu) ?_
                dsimp only
                split <;> rfl

theorem uiRmtSetTime_redact (h : Host) (timeUs : UInt64) (newTime : Int64) :
    uiRmtSetTime (redactHost h) timeUs newTime =
      ((uiRmtSetTime h timeUs newTime).1, redactHost (uiRmtSetTime h timeUs newTime).2) := by
  obtain ⟨rdb, ⟨revealing, action, generation, display⟩, db, timeOffset⟩ := h
  cases action with
  | some action => rfl
  | none =>
      cases hd : Time.setTimeDelta ⟨timeUs, timeOffset⟩ newTime <;>
        simp [uiRmtSetTime, askPermission, redactHost, hd, redactAction, redactScreen]

theorem startSetTime_redact (h : Host) (timeUs : UInt64) (b : Bytes) :
    startSetTime (redactHost h) timeUs b = redactHost (startSetTime h timeUs b) := by
  by_cases hlen : b.length = 9
  · rw [startSetTime, startSetTime, if_neg (not_not.mpr hlen), if_neg (not_not.mpr hlen),
      uiRmtSetTime_redact]
    dsimp only
    split <;> rfl
  · rw [startSetTime, startSetTime, if_pos hlen, if_pos hlen]
    rfl

theorem startLs_redact (h : Host) : startLs (redactHost h) = redactHost (startLs h) := by
  simp only [startLs, redactHost, redactDb, tops_map]

theorem startRequest_redact (h : Host) (timeUs : UInt64) (b : Bytes) :
    startRequest (redactHost h) timeUs b = redactHost (startRequest h timeUs b) := by
  have hreq : (redactHost h).requested (b.headD 0) = redactHost (h.requested (b.headD 0)) := rfl
  simp only [startRequest, hreq]
  split_ifs
  · exact startLs_redact _
  · exact startShow_redact _ b
  · exact startReveal_redact _ b
  · rfl
  · exact startSetTime_redact _ timeUs b
  · rfl

/-! ## Responses -/

/-- A result of a poll without the secrets. -/
def redactPoll (p : App (Option Host)) : App (Option Host) := Option.map redactHost <$> p

theorem respond_redact (h : Host) (b : Bytes) :
    respond (redactHost h) b = redactPoll (respond h b) := by
  simp only [redactPoll, respond, Prog.map_bind]
  congr 1
  funext ok
  cases ok <;> rfl

theorem pollLs_redact (h : Host) : pollLs (redactHost h) = redactPoll (pollLs h) := by
  obtain ⟨⟨state, op, generation, de, f⟩, ui, db, timeOffset⟩ := h
  by_cases hg : generation = db.generation
  · cases de with
    | nil => simp [pollLs, redactHost, redactDb, hg, redactPoll]
    | cons e rest =>
        simp only [pollLs, redactHost, redactDb, hg, redactPoll, List.map_cons, redactEntry,
          ne_eq, not_true_eq_false, if_false, Prog.map_bind]
        congr 1
        funext ok
        cases ok with
        | false => rfl
        | true => cases rest <;> rfl
  · simp only [pollLs, redactHost, redactDb, ne_eq, hg, not_false_eq_true, if_true, redactPoll,
      Prog.map_bind]
    congr 1
    funext ok
    cases ok <;> rfl

theorem showLoop_redact (h : Host) (fields : List DbField) :
    showLoop (redactHost h) (fields.map redactField) = redactPoll (showLoop h fields) := by
  induction fields with
  | nil => rfl
  | cons f rest ih =>
      simp only [List.map_cons, showLoop, fieldParts_redact]
      rcases fieldParts f with _ | _ | parts
      · rfl
      · exact ih
      · simp only [redactPoll, Prog.map_bind]
        congr 1
        funext ok
        cases ok with
        | false => rfl
        | true => exact ih

theorem pollShow_redact (h : Host) : pollShow (redactHost h) = redactPoll (pollShow h) := by
  by_cases hg : h.rdb.generation = h.db.generation
  · have hg' : (redactHost h).rdb.generation = (redactHost h).db.generation := hg
    rw [pollShow, pollShow, if_neg (not_not.mpr hg), if_neg (not_not.mpr hg')]
    exact showLoop_redact h h.rdb.f
  · have hg' : (redactHost h).rdb.generation ≠ (redactHost h).db.generation := hg
    rw [pollShow, pollShow, if_pos hg, if_pos hg']
    simp only [redactPoll, Prog.map_bind]
    congr 1
    funext ok
    cases ok with
    | false => rfl
    | true => cases hf : h.rdb.f <;> simp [redactHost, hf, Host.withState]

theorem pollRes_redact (after : Bytes) (timeUs : UInt64) (h : Host) :
    pollRes after timeUs (redactHost h) = redactPoll (pollRes after timeUs h) := by
  have hop : (redactHost h).rdb.op = h.rdb.op := rfl
  simp only [pollRes, hop]
  split_ifs
  · exact pollLs_redact h
  · exact pollShow_redact h
  · exact respond_redact h _
  · exact respond_redact h _
  · exact respond_redact h _
  · exact respond_redact h _
  · rfl
  · rfl

theorem pollReq_redact (after : Bytes) (timeUs : UInt64) (h : Host) :
    pollReq after timeUs (redactHost h) = redactPoll (pollReq after timeUs h) := by
  simp only [redactPoll, pollReq, Prog.map_bind]
  congr 1
  funext r
  cases r with
  | zero => rfl
  | block b => rfl
  | negative =>
      have hop : (redactHost h).rdb.op = h.rdb.op := rfl
      have hde : (redactHost h).rdb.de = [] ↔ h.rdb.de = [] := by simp [redactHost]
      have hf : (redactHost h).rdb.f = [] ↔ h.rdb.f = [] := by simp [redactHost]
      simp only [hop, hde, hf]
      split_ifs
      · rfl
      · exact pollRes_redact after timeUs (h.withState .res)

theorem pollIdle_redact (timeUs : UInt64) (h : Host) :
    pollIdle timeUs (redactHost h) = redactPoll (pollIdle timeUs h) := by
  simp only [redactPoll, pollIdle, Prog.map_bind]
  congr 1
  funext r
  cases r with
  | negative => rfl
  | zero => rfl
  | block b => simp [startRequest_redact]

theorem pollEnd_redact (h : Host) : pollEnd (redactHost h) = redactPoll (pollEnd h) := by
  simp only [redactPoll, pollEnd, Prog.map_bind]
  congr 1
  funext ok
  cases ok <;> rfl

theorem pollState_redact (after : Bytes) (timeUs : UInt64) (h : Host) :
    pollState after timeUs (redactHost h) = redactPoll (pollState after timeUs h) := by
  have hstate : (redactHost h).rdb.state = h.rdb.state := rfl
  simp only [pollState, hstate]
  cases h.rdb.state with
  | idle => exact pollIdle_redact timeUs h
  | req => exact pollReq_redact after timeUs h
  | res => exact pollRes_redact after timeUs h
  | done => exact pollEnd_redact h

/-- A poll makes the same calls whatever the secrets are. -/
theorem rmtDbPoll_redact (after : Bytes) (timeUs : UInt64) (h : Host) :
    rmtDbPoll after timeUs (redactHost h) = redactPoll (rmtDbPoll after timeUs h) := by
  simp only [redactPoll, rmtDbPoll, Prog.map_bind]
  congr 1
  funext reset
  cases reset with
  | false => exact pollState_redact after timeUs h
  | true =>
      simp only [if_true, Prog.map_bind]
      congr 1
      funext _
      exact pollState_redact after timeUs (h.withState .idle)

/-! ## Runs -/

def redactResult (r : Output × Option Host) : Output × Option Host := (r.1, r.2.map redactHost)

def redactOutcome : Outcome → Outcome
  | .next o s => .next o s.redact
  | .failed => .failed
  | .aborted => .aborted
  | .undefined => .undefined

theorem prog_redact (after : Bytes) (h : Host) (e : Event) :
    e.prog after (redactHost h) = redactResult <$> e.prog after h := by
  cases e with
  | transfer data => simp only [Event.prog, Prog.map_bind]; rfl
  | query => simp only [Event.prog, Prog.map_bind]; rfl
  | poll timeUs =>
      simp only [Event.prog, rmtDbPoll_redact, redactPoll, Prog.expand_map, Prog.map_bind,
        Prog.bind_map]
      rfl
  | tap yes => simp [Event.prog, redactResult, uiRmtTap_redact]

theorem step_redact (after : Bytes) (s : Session) (e : Event) :
    s.redact.step after e = redactOutcome (s.step after e) := by
  obtain ⟨rmt, host⟩ := s
  simp only [Session.step, Session.redact, prog_redact, run_map]
  rcases run answer (e.prog after host) rmt with ⟨p, r⟩
  cases p with
  | ret a =>
      obtain ⟨o, h⟩ := a
      cases h <;> rfl
  | call c next => rfl
  | halt => rfl
  | undef => rfl

theorem outputs_redact (after : Bytes) (events : List Event) (s : Session) :
    outputs after events s.redact = outputs after events s := by
  induction events generalizing s with
  | nil => rfl
  | cons e events ih =>
      simp only [outputs, step_redact]
      cases s.step after e with
      | next o t => simp [redactOutcome, ih]
      | failed => rfl
      | aborted => rfl
      | undefined => rfl

end Sunela.Remote
