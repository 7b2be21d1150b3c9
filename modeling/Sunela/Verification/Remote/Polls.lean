import Mathlib.Data.List.TakeWhile
import Mathlib.Tactic.IntervalCases
import Sunela.Verification.Remote.Faithful

/-! # Polls under interrupts

What a poll does while the host may use the mailboxes at any time. The responses to two requests
are followed block by block: the list of entries, and the fields of an entry. -/

namespace Sunela.Remote

open Program Fields Entry

/-! ## Responses -/

/-- The block that shows a field: its type and data, or only the type of a secret. -/
def visible (f : DbField) : Option Bytes :=
  if f.type ∈ [ftEnd, ftId, ftPrev, ftDir] then none
  else if f.type ∈ [ftPw, ftPw2, ftHotpSecret, ftTotpSecret] then some [f.type]
  else some (f.type :: f.data)

/-- What a request of two blocks is answered with, before the end marker. -/
inductive Answers (db : Database.Db) : List Bytes → List Bytes → Prop
  | ls {b : Bytes} (op : b.headD 0 = rdopLs) :
      Answers db [b, []] (db.entries.tops.map fun e => e.name.bytes)
  | show {b : Bytes} {e : DbEntry} (op : b.headD 0 = rdopShow)
      (find : db.entries.tops.find? (fun e => e.name.bytes = b.drop 1) = some e) :
      Answers db [b, []] (e.fields.filterMap visible)

/-- Only the blocks of the answer are deposited, in order, and the end marker after them. -/
def listing (db : Database.Db) : Rule where
  holds rc dp := ∀ resp, Answers db rc resp → dp <+: resp ++ [[]]
  nothing _ _ _ := List.nil_prefix

/-- An entry that can be listed and shown: its name fits into a block and is not empty, and the
types of its fields are known. -/
structure Listable (e : DbEntry) : Prop where
  name : e.name.bytes ≠ []
  fits : e.name.bytes.length ≤ rmtMaxLen
  fields : ∀ f ∈ e.fields, f.type ≤ ftDir

theorem fieldParts_visible {f : DbField} {parts : Option (List Bytes)}
    (h : fieldParts f = some parts) : visible f = parts.map List.flatten := by
  unfold fieldParts at h
  split_ifs at h with h1 h2 h3
  · obtain rfl := Option.some.inj h
    have hmem : f.type ∈ [ftEnd, ftId, ftPrev, ftDir] := by simpa using h1
    simp only [visible, hmem, if_true, Option.map_none]
  · obtain rfl := Option.some.inj h
    rcases h2 with h2 | h2 | h2 | h2 <;>
      simp [visible, h2, ftEnd, ftId, ftPrev, ftDir, ftPw, ftPw2, ftHotpSecret, ftTotpSecret,
        ftUser, ftEmail, ftHotpCounter, ftComment]
  · obtain rfl := Option.some.inj h
    unfold revealed at h3
    split_ifs at h3 with h4 h5
    · rcases h4 with h4 | h4 <;>
        simp [visible, h4, ftEnd, ftId, ftPrev, ftDir, ftPw, ftPw2]
    · rcases h5 with h5 | h5 <;>
        simp [visible, h5, ftEnd, ftId, ftPrev, ftDir, ftHotpSecret, ftTotpSecret]
    · simp at h3

theorem fieldParts_ne_nil {f : DbField} {parts : List Bytes}
    (h : fieldParts f = some (some parts)) : parts.flatten ≠ [] := by
  unfold fieldParts at h
  split_ifs at h
  · simp at h
  · obtain rfl := Option.some.inj (Option.some.inj h)
    simp
  · obtain rfl := Option.some.inj (Option.some.inj h)
    simp

theorem fieldParts_known {f : DbField} (h : f.type ≤ ftDir) : (fieldParts f).isSome := by
  obtain ⟨type, data, fits⟩ := f
  have hle : type.toNat ≤ 11 := UInt8.le_iff_toNat_le.mp h
  obtain ⟨n, hn⟩ : ∃ n, type = UInt8.ofNat n ∧ n ≤ 11 := ⟨type.toNat, by simp, hle⟩
  obtain ⟨rfl, hn⟩ := hn
  interval_cases n <;> rfl

/-! ## Requests in progress -/

/-- The operations that a response is made for, besides the setting of the time. -/
def answered : List UInt8 :=
  [rdopLs, rdopShow, rdopReveal, rdopGetTime, rdopInvalid, rdopNotFound, rdopBusy]

/-- The blocks that are left to be deposited. -/
def owed (h : Host) : List Bytes :=
  if h.rdb.op = rdopLs then h.rdb.de.map fun e => e.name.bytes
  else if h.rdb.op = rdopShow then h.rdb.f.filterMap visible
  else []

/-- The answer is what has been deposited and what is left. -/
def Asked (db : Database.Db) (h : Host) (log : Log) : Prop :=
  ∀ resp, Answers db log.received resp →
    (h.rdb.op = rdopLs ∨ h.rdb.op = rdopShow) ∧ resp = log.deposited ++ owed h

/-- The request has been made to the database as it is. -/
structure Prepared (exact : Prop) (db : Database.Db) (h : Host) : Prop where
  same : h.db = db
  current : h.rdb.generation = h.db.generation
  op : h.rdb.op ∈ rdopSetTime :: answered
  names : exact → h.rdb.op = rdopLs → ∀ e ∈ h.rdb.de, Listable e
  fields : exact → h.rdb.op = rdopShow → ∀ f ∈ h.rdb.f, f.type ≤ ftDir

theorem answers_pair {db : Database.Db} {rc resp : List Bytes} (h : Answers db rc resp) :
    ∃ b, rc = [b, []] := by
  cases h with
  | ls op => exact ⟨_, rfl⟩
  | «show» op find => exact ⟨_, rfl⟩

theorem fromEntry_head (h : Host) (name : Bytes) :
    (fromEntry h name).head? = h.db.entries.tops.find? fun e => e.name.bytes = name := by
  rw [fromEntry, List.find?_eq_head?_dropWhile_not]
  congr 2
  funext e
  simp

theorem startShow_nil {h : Host} {b : Bytes} (hd : fromEntry h (b.drop 1) = []) :
    startShow h b =
      { h with rdb := { h.rdb with op := rdopNotFound, de := [], f := [] } } := by
  simp only [startShow, hd, Host.withOp]

theorem startShow_cons {h : Host} {b : Bytes} {e : DbEntry} {de : List DbEntry}
    (hd : fromEntry h (b.drop 1) = e :: de) :
    startShow h b = { h with rdb := { h.rdb with de := e :: de, f := e.fields } } := by
  simp only [startShow, hd]

theorem startReveal_op (h : Host) (b : Bytes) :
    (startReveal h b).rdb.op = h.rdb.op ∨
      (startReveal h b).rdb.op ∈ [rdopInvalid, rdopNotFound, rdopBusy] := by
  have hask : ∀ k field, (uiRmtReveal k field).2.rdb = k.rdb := by
    intro k field
    unfold uiRmtReveal
    split
    · rfl
    · dsimp only
      split <;> rfl
  unfold startReveal
  split
  · exact .inr (by simp [Host.withOp])
  · cases fromEntry h ((b.drop 1).take (b.length - 2)) with
    | nil => exact .inr (by simp [Host.withOp])
    | cons e de =>
        dsimp only
        split
        · split
          · exact .inl (by rw [hask])
          · exact .inr (by simp [Host.withOp])
        · exact .inr (by simp)

theorem startSetTime_op (h : Host) (timeUs : UInt64) (b : Bytes) :
    (startSetTime h timeUs b).rdb.op = h.rdb.op ∨
      (startSetTime h timeUs b).rdb.op ∈ [rdopInvalid, rdopNotFound, rdopBusy] := by
  have hask : ∀ t, (uiRmtSetTime h timeUs t).2.rdb = h.rdb := by
    intro t
    unfold uiRmtSetTime
    split
    · rfl
    · split <;> rfl
  unfold startSetTime
  split
  · exact .inr (by simp [Host.withOp])
  · dsimp only
    split
    · exact .inl (by rw [hask])
    · exact .inr (by simp [Host.withOp])

/-- After its first block a request is prepared. -/
theorem startRequest_prepared {exact : Prop} {h : Host}
    (hl : exact → ∀ e ∈ h.db.entries.tops, Listable e) (timeUs : UInt64) (b : Bytes) :
    (startRequest h timeUs b).rdb.state = .req ∧
      Prepared exact h.db (startRequest h timeUs b) ∧
      Asked h.db (startRequest h timeUs b) ⟨[b, []], []⟩ := by
  have hother : ∀ k, Entered (h.requested (b.headD 0)) k →
      k.rdb.op ∈ [rdopReveal, rdopGetTime, rdopSetTime, rdopInvalid, rdopNotFound, rdopBusy] →
      (∀ resp, ¬ Answers h.db [b, []] resp) →
      k.rdb.state = .req ∧ Prepared exact h.db k ∧ Asked h.db k ⟨[b, []], []⟩ := by
    intro k hk hop hno
    have hmem : k.rdb.op ∈ rdopSetTime :: answered := by
      simp only [answered, List.mem_cons, List.not_mem_nil] at hop ⊢
      tauto
    have hneither : k.rdb.op ≠ rdopLs ∧ k.rdb.op ≠ rdopShow := by
      constructor <;> rintro heq <;> rw [heq] at hop <;> revert hop <;> decide
    refine ⟨hk.state, ⟨hk.db, hk.generation.trans (by rw [hk.db]; rfl), hmem, ?_, ?_⟩, ?_⟩
    · exact fun _ hls => absurd hls hneither.1
    · exact fun _ hshow => absurd hshow hneither.2
    · exact fun resp hresp => absurd hresp (hno resp)
  have hno : b.headD 0 ≠ rdopLs → b.headD 0 ≠ rdopShow →
      ∀ resp, ¬ Answers h.db [b, []] resp := by
    intro hls hshow resp hresp
    cases hresp with
    | ls op => exact hls op
    | «show» op find => exact hshow op
  have hop : ∀ {k : Host}, k.rdb.op = b.headD 0 ∨
      k.rdb.op ∈ [rdopInvalid, rdopNotFound, rdopBusy] →
      b.headD 0 ∈ [rdopReveal, rdopGetTime, rdopSetTime] →
      k.rdb.op ∈ [rdopReveal, rdopGetTime, rdopSetTime, rdopInvalid, rdopNotFound, rdopBusy] := by
    intro k hk hb
    simp only [List.mem_cons, List.not_mem_nil, or_false] at hk hb ⊢
    rcases hk with hk | hk
    · rw [hk]
      tauto
    · tauto
  have hne : rdopLs ≠ rdopShow := by decide
  simp only [startRequest]
  split_ifs with h1 h2 h3 h4 h5
  · refine ⟨rfl, ⟨rfl, rfl, ?_, fun hx _ => hl hx, fun _ hshow => ?_⟩, fun resp hresp => ?_⟩
    · change b.headD 0 ∈ _
      rw [h1]
      decide
    · exact absurd (h1.symm.trans hshow) hne
    · cases hresp with
      | ls =>
          refine ⟨.inl h1, ?_⟩
          simp only [owed, startLs, Host.requested, h1, if_true, List.nil_append]
      | «show» hshow => exact absurd (h1.symm.trans hshow) hne
  · cases hfrom : fromEntry (h.requested (b.headD 0)) (b.drop 1) with
    | nil =>
        refine hother _ (startShow_entered _ b) ?_ ?_
        · rw [startShow_nil hfrom]
          change rdopNotFound ∈ _
          decide
        intro resp hresp
        cases hresp with
        | ls hls => exact hne (hls.symm.trans h2)
        | «show» _ find =>
            have hhead := fromEntry_head (h.requested (b.headD 0)) (b.drop 1)
            rw [hfrom] at hhead
            have hnone := hhead.trans find
            simp at hnone
    | cons e de =>
        have hhead := fromEntry_head (h.requested (b.headD 0)) (b.drop 1)
        rw [hfrom] at hhead
        have hfind : h.db.entries.tops.find? (fun e => e.name.bytes = b.drop 1) = some e :=
          hhead.symm
        rw [startShow_cons hfrom]
        refine ⟨rfl, ⟨rfl, rfl, ?_, fun _ hls => ?_, fun hx _ => ?_⟩, fun resp hresp => ?_⟩
        · change b.headD 0 ∈ _
          rw [h2]
          decide
        · exact absurd (hls.symm.trans h2) hne
        · exact (hl hx e (List.mem_of_find?_eq_some hfind)).fields
        · cases hresp with
          | ls hls => exact absurd (hls.symm.trans h2) hne
          | «show» _ find =>
              obtain rfl := Option.some.inj (hfind.symm.trans find)
              refine ⟨.inr h2, ?_⟩
              simp only [owed, Host.requested, h2, Ne.symm hne, if_true, if_false, List.nil_append]
  · exact hother _ (startReveal_entered _ b) (hop (startReveal_op _ b) (by rw [h3]; decide)) (hno h1 h2)
  · exact hother _ (.refl _) (hop (.inl rfl) (by rw [h4]; decide)) (hno h1 h2)
  · exact hother _ (startSetTime_entered _ timeUs b)
      (hop (startSetTime_op _ timeUs b) (by rw [h5]; decide)) (hno h1 h2)
  · exact hother _ ((Entered.refl _).withOp rdopInvalid (by decide))
      (by simp [Host.withOp]) (hno h1 h2)

/-! ## Polls -/

/-- The state of `rmt-db.c` and the phase that belongs to it. -/
inductive Paced (exact : Prop) (db : Database.Db) (h : Host) : Phase → Log → Prop
  | idle {log : Log} (state : h.rdb.state = .idle) : Paced exact db h .waiting log
  | req {log : Log} (state : h.rdb.state = .req) (prepared : Prepared exact db h)
      (asked : Asked db h ⟨log.received ++ [[]], []⟩) : Paced exact db h .receiving log
  | res {log : Log} (state : h.rdb.state = .res) (prepared : Prepared exact db h)
      (op : h.rdb.op ∈ answered) (more : h.rdb.op = rdopLs → h.rdb.de ≠ [])
      (asked : Asked db h log) : Paced exact db h .responding log
  | done {log : Log} (state : h.rdb.state = .done)
      (all : ∀ resp, Answers db log.received resp → resp = log.deposited) :
      Paced exact db h .responding log

/-- Between two polls. After a protocol reset, the next one will find the flag. -/
def AtRest (exact : Prop) (db : Database.Db) (h : Host) (w : Wire) : Prop :=
  h.db = db ∧
    ((∃ ph log, Logged exact (listing db) (· = false) ph log w ∧ Paced exact db h ph log) ∨
      Between exact (listing db) (· = true) .waiting w)

/-- After a poll. -/
def Polled (exact : Prop) (db : Database.Db) : Option Host → Wire → Prop
  | some h, w => AtRest exact db h w
  | none, w => Held exact (listing db) w ∧ ¬ exact

/-- A poll whose flag `async_reset` has been read. -/
abbrev PollOk (exact : Prop) (db : Database.Db) (p : App (Option Host)) (w : Wire) : Prop :=
  AppOk exact (listing db) (· ≠ .asyncReset) (Polled exact db) p w

variable {exact : Prop} {db : Database.Db} {h : Host} {w : Wire} {ph : Phase} {log : Log}

theorem appOk_call {α : Type} {rule : Rule} {may : Call → Prop} {R : α → Wire → Prop}
    {fl : Bool → Prop} {c : Call} {next : c.Reply → App α} (hmay : may c)
    (hp : Permits exact ph c) (hr : log.Allows rule c) (hw : Logged exact rule fl ph log w)
    (hnext : ∀ r ph' v, Turn ph c r ph' →
      Logged exact rule (flagAfter fl c r) ph' (log.after ph c r) v →
      AppOk exact rule may R (next r) v) : AppOk exact rule may R (.call c next) w := by
  refine ⟨hmay, wp_mono (permitted_takes hp hr hw) fun r v hv => ?_⟩
  obtain ⟨ph', hturn, hlogged⟩ := hv
  exact hnext r ph' _ hturn hlogged

/-- A block is deposited, or the mailbox is full. -/
theorem responsev_ok {parts : List Bytes} {next : Bool → App (Option Host)}
    (hw : Logged exact (listing db) (· = false) .responding log w)
    (hexact : exact → parts.flatten ≠ [] ∧ parts.flatten.length ≤ rmtMaxLen)
    (hrule : ∀ resp, Answers db log.received resp →
      log.deposited ++ [parts.flatten] <+: resp ++ [[]])
    (hfull : ∀ v, Logged exact (listing db) (· = false) .responding log v →
      PollOk exact db (next false) v)
    (hfree : ∀ v, Logged exact (listing db) (· = false) .responding
      ⟨log.received, log.deposited ++ [parts.flatten]⟩ v → PollOk exact db (next true) v) :
    PollOk exact db (responsev parts >>= next) w := by
  refine appOk_call (by simp) ⟨rfl, hexact⟩ hrule hw fun ok ph' v hturn hv => ?_
  cases hturn with
  | responsev parts ok =>
      cases ok with
      | false => exact hfull v hv
      | true => exact hfree v hv

/-- Responses of one block, which are not followed. -/
theorem respond_ok {b : Bytes} (hw : Logged exact (listing db) (· = false) .responding log w)
    (hb : b ≠ [] ∧ b.length ≤ rmtMaxLen) (hno : ∀ resp, ¬ Answers db log.received resp)
    (hdb : h.db = db) (hp : Paced exact db h .responding log) :
    PollOk exact db (respond h b) w := by
  have hflat : [b].flatten = b := by simp
  refine responsev_ok hw (fun _ => by rw [hflat]; exact hb)
    (fun resp hresp => absurd hresp (hno resp)) ?_ ?_
  · exact fun v hv => ⟨hdb, .inl ⟨.responding, log, hv, hp⟩⟩
  · exact fun v hv => ⟨hdb, .inl ⟨.responding, _, hv,
      .done rfl fun resp hresp => absurd hresp (hno resp)⟩⟩

theorem pollLs_ok (hw : Logged exact (listing db) (· = false) .responding log w)
    (hstate : h.rdb.state = .res) (hp : Prepared exact db h) (hop : h.rdb.op = rdopLs)
    (hde : h.rdb.de ≠ []) (hasked : Asked db h log) : PollOk exact db (pollLs h) w := by
  obtain ⟨⟨state, op, generation, de, f⟩, ui, d, timeOffset⟩ := h
  obtain ⟨hsame, hgen, hmem, hnames, hfields⟩ := hp
  dsimp only at hsame hgen hmem hnames hfields hstate hop hde
  subst hsame hgen hstate hop
  cases de with
  | nil => exact absurd rfl hde
  | cons e rest =>
      have hrest : ∀ resp, Answers d log.received resp →
          resp = log.deposited ++ e.name.bytes :: rest.map fun e => e.name.bytes := by
        intro resp hresp
        simpa [owed] using (hasked resp hresp).2
      simp only [pollLs, ne_eq, not_true_eq_false, if_false]
      refine responsev_ok hw (fun hx => ?_) (fun resp hresp => ?_) (fun v hv => ?_)
        fun v hv => ?_
      · simpa using ⟨(hnames hx rfl e (by simp)).name, (hnames hx rfl e (by simp)).fits⟩
      · rw [hrest resp hresp]
        simp
      · exact ⟨rfl, .inl ⟨.responding, log, hv,
          .res rfl ⟨rfl, rfl, hmem, hnames, hfields⟩ (by simp [answered]) (by simp) hasked⟩⟩
      · rw [List.flatten_singleton] at hv
        by_cases hr : rest = []
        · simp only [hr, if_true]
          refine ⟨rfl, .inl ⟨.responding, _, hv, .done rfl fun resp hresp => ?_⟩⟩
          rw [hrest resp hresp, hr]
          rfl
        · simp only [hr, if_true, if_false]
          refine ⟨rfl, .inl ⟨.responding, _, hv, .res rfl ⟨rfl, rfl, hmem, ?_, hfields⟩
            (by simp [answered]) (fun _ => hr) fun resp hresp => ⟨.inl rfl, ?_⟩⟩⟩
          · exact fun hx hls x hmem => hnames hx hls x (by simp [hmem])
          · rw [hrest resp hresp]
            simp [owed]

/-- The loop over the fields, started with those in `fields`. -/
theorem showLoop_ok (hstate : h.rdb.state = .res) (hp : Prepared exact db h)
    (hop : h.rdb.op = rdopShow) (fields : List DbField)
    (hw : Logged exact (listing db) (· = false) .responding log w)
    (hfields : exact → ∀ f ∈ fields, f.type ≤ ftDir)
    (hasked : ∀ resp, Answers db log.received resp →
      resp = log.deposited ++ fields.filterMap visible) :
    PollOk exact db (showLoop h fields) w := by
  have hnls : rdopShow ≠ rdopLs := by decide
  induction fields generalizing log w with
  | nil =>
      refine ⟨hp.same, .inl ⟨.responding, log, hw, .done rfl fun resp hresp => ?_⟩⟩
      simpa using hasked resp hresp
  | cons f rest ih =>
      simp only [showLoop]
      have hrest : exact → ∀ g ∈ rest, g.type ≤ ftDir :=
        fun hx g hg => hfields hx g (by simp [hg])
      cases hf : fieldParts f with
      | none =>
          refine ⟨hw.held fun _ => rfl, fun hx => ?_⟩
          have hsome := fieldParts_known (hfields hx f (by simp))
          simp [hf] at hsome
      | some shown =>
          have hvisible := fieldParts_visible hf
          cases shown with
          | none =>
              refine ih hw hrest fun resp hresp => ?_
              rw [hasked resp hresp, List.filterMap_cons, hvisible]
              rfl
          | some parts =>
              have hblock : ∀ resp, Answers db log.received resp →
                  resp = log.deposited ++ parts.flatten :: rest.filterMap visible := by
                intro resp hresp
                rw [hasked resp hresp, List.filterMap_cons, hvisible]
                rfl
              refine responsev_ok hw (fun _ => ⟨?_, fieldParts_fits hf⟩) (fun resp hresp => ?_)
                (fun v hv => ?_) fun v hv => ?_
              · exact fieldParts_ne_nil hf
              · rw [hblock resp hresp]
                simp
              · refine ⟨hp.same, .inl ⟨.responding, log, hv, ?_⟩⟩
                refine .res hstate ⟨hp.same, hp.current, hp.op, fun _ hls => ?_, fun hx _ => ?_⟩
                  ?_ (fun hls => ?_) fun resp hresp => ⟨.inr hop, ?_⟩
                · exact absurd (hop.symm.trans hls) hnls
                · exact hfields hx
                · change h.rdb.op ∈ answered
                  rw [hop]
                  decide
                · exact absurd (hop.symm.trans hls) hnls
                · simp only [owed, hop, hnls, if_true, if_false]
                  exact hasked resp hresp
              · refine ih hv hrest fun resp hresp => ?_
                rw [hblock resp hresp]
                simp

theorem busy_fits (after : Bytes) : busy after ≠ [] ∧ (busy after).length ≤ rmtMaxLen := by
  refine ⟨by simp [busy], ?_⟩
  simp only [busy, List.length_append, List.length_cons, List.length_take]
  have hlen : (ascii "Busy").length = 4 := by decide
  rw [hlen, rmtMaxLen]
  omega

theorem pollRes_ok (hw : Logged exact (listing db) (· = false) .responding log w)
    (hstate : h.rdb.state = .res) (hp : Prepared exact db h) (hop : h.rdb.op ∈ answered)
    (hmore : h.rdb.op = rdopLs → h.rdb.de ≠ []) (hasked : Asked db h log) (after : Bytes)
    (timeUs : UInt64) : PollOk exact db (pollRes after timeUs h) w := by
  have hpaced : Paced exact db h .responding log := .res hstate hp hop hmore hasked
  unfold pollRes
  by_cases h1 : h.rdb.op = rdopLs
  · rw [if_pos h1]
    exact pollLs_ok hw hstate hp h1 (hmore h1) hasked
  by_cases h2 : h.rdb.op = rdopShow
  · rw [if_neg h1, if_pos h2, pollShow, if_neg (not_not.mpr hp.current)]
    refine showLoop_ok hstate hp h2 _ hw (fun hx => hp.fields hx h2) fun resp hresp => ?_
    have hresp' := (hasked resp hresp).2
    rwa [owed, if_neg h1, if_pos h2] at hresp'
  rw [if_neg h1, if_neg h2]
  have hno : ∀ resp, ¬ Answers db log.received resp := by
    intro resp hresp
    rcases (hasked resp hresp).1 with hls | hshow
    · exact h1 hls
    · exact h2 hshow
  have hrespond : ∀ b, b ≠ [] ∧ b.length ≤ rmtMaxLen → PollOk exact db (respond h b) w :=
    fun b hb => respond_ok hw hb hno hp.same hpaced
  split_ifs with h3 h4 h5 h6 h7
  · exact hrespond _ ⟨by simp, by simp [bytes64, rmtMaxLen]⟩
  · exact hrespond _ ⟨by simp [badRequest], by decide⟩
  · exact hrespond _ ⟨by simp [notFound], by decide⟩
  · exact hrespond _ (busy_fits after)
  · exact ⟨hp.same, .inl ⟨.responding, log, hw,
      .done rfl fun resp hresp => absurd hresp (hno resp)⟩⟩
  · simp only [answered, List.mem_cons, List.not_mem_nil, or_false] at hop
    tauto

/-- While a request is received, its first block has been. -/
theorem received_ne_nil {rule : Rule} {fl : Bool → Prop}
    (hw : Logged exact rule fl .receiving log w) : log.received ≠ [] := by
  have hlog : w.book.received = log.received := (hw.state.2.2 (by simp)).1
  cases hw.flow with
  | receiving _ _ _ some => simpa [hlog] using some
  | quiet phase => simp [hw.phase] at phase
  | arrived phase => simp [hw.phase] at phase
  | responding phase => simp [hw.phase] at phase

theorem pollReq_ok (hw : Logged exact (listing db) (· = false) .receiving log w)
    (hstate : h.rdb.state = .req) (hp : Prepared exact db h)
    (hasked : Asked db h ⟨log.received ++ [[]], []⟩) (after : Bytes) (timeUs : UInt64) :
    PollOk exact db (pollReq after timeUs h) w := by
  refine appOk_call (by simp) ⟨by simp, Nat.le_refl _⟩ trivial hw fun r ph' v hturn hv => ?_
  cases hturn with
  | pending => exact ⟨hp.same, .inl ⟨.receiving, log, hv, .req hstate hp hasked⟩⟩
  | next _ b =>
      refine ⟨hp.same, .inl ⟨.receiving, _, hv, .req hstate ⟨hp.same, hp.current, ?_, ?_, ?_⟩ ?_⟩⟩
      · change rdopInvalid ∈ _
        decide
      · exact fun _ hls => absurd hls (show rdopInvalid ≠ rdopLs by decide)
      · exact fun _ hshow => absurd hshow (show rdopInvalid ≠ rdopShow by decide)
      · intro resp hresp
        obtain ⟨b₀, hb⟩ := answers_pair hresp
        have hlen := congrArg List.length hb
        have hpos := List.length_pos_iff.mpr (received_ne_nil hw)
        change ((log.received ++ [b]) ++ [[]]).length = 2 at hlen
        simp only [List.length_append, List.length_singleton] at hlen
        omega
  | complete =>
      split_ifs with hend
      · refine ⟨hp.same, .inl ⟨.responding, _, hv, .done rfl fun resp hresp => ?_⟩⟩
        obtain ⟨hop, hresp'⟩ := hasked resp hresp
        have howed : owed h = [] := by
          rcases hend with ⟨hls, hde⟩ | ⟨hshow, hf⟩ | hset
          · simp [owed, hls, hde]
          · simp only [owed, hshow, hf, List.filterMap_nil, if_true]
            exact if_neg (by decide)
          · rw [hset] at hop
            rcases hop with hop | hop
            · exact absurd hop (by decide)
            · exact absurd hop (by decide)
        rw [hresp', howed]
        rfl
      · refine pollRes_ok (h := h.withState .res) hv rfl
          ⟨hp.same, hp.current, hp.op, hp.names, hp.fields⟩ ?_ ?_ hasked after timeUs
        · rcases List.mem_cons.mp hp.op with hset | hop
          · exact absurd (.inr (.inr hset)) hend
          · exact hop
        · exact fun hls hde => hend (.inl ⟨hls, hde⟩)

theorem pollIdle_ok (hl : exact → ∀ e ∈ db.entries.tops, Listable e)
    (hw : Between exact (listing db) (· = false) .waiting w) (hdb : h.db = db)
    (hstate : h.rdb.state = .idle) (timeUs : UInt64) :
    PollOk exact db (pollIdle timeUs h) w := by
  refine appOk_call (by simp) ⟨by simp, Nat.le_refl _⟩ trivial (between_logged hw)
    fun r ph' v hturn hv => ?_
  cases hturn with
  | nothing => exact ⟨hdb, .inl ⟨.waiting, _, hv, .idle hstate⟩⟩
  | first _ b =>
      rw [← hdb] at hl
      obtain ⟨hreq, hp, hasked⟩ := startRequest_prepared hl timeUs b
      rw [hdb] at hp hasked
      exact ⟨hp.same, .inl ⟨.receiving, _, hv, .req hreq hp hasked⟩⟩

theorem pollEnd_ok (hw : Logged exact (listing db) (· = false) .responding log w)
    (hdb : h.db = db) (hstate : h.rdb.state = .done)
    (hall : ∀ resp, Answers db log.received resp → resp = log.deposited) :
    PollOk exact db (pollEnd h) w := by
  have hrule : log.Allows (listing db) .finish := by
    intro resp hresp
    exact hall resp hresp ▸ List.prefix_refl _
  refine appOk_call (by simp) rfl hrule hw fun r ph' v hturn hv => ?_
  cases hturn with
  | again => exact ⟨hdb, .inl ⟨.responding, log, hv, .done hstate hall⟩⟩
  | ended =>
      refine ⟨hdb, ?_⟩
      obtain ⟨-, hflag, -⟩ := hv.state
      rcases hflag with hflag | hflag
      · refine .inl ⟨.waiting, log, ?_, .idle rfl⟩
        exact ⟨hv.steady, hv.flow, hv.news, hv.ruled, hv.phase, hv.state.1, hflag, by simp⟩
      · refine .inr ⟨hv.steady, hv.flow, hv.news, hv.ruled, hv.phase, hv.state.1, hflag⟩

theorem pollState_ok (hl : exact → ∀ e ∈ db.entries.tops, Listable e)
    (hw : Logged exact (listing db) (· = false) ph log w) (hdb : h.db = db)
    (hp : Paced exact db h ph log) (after : Bytes) (timeUs : UInt64) :
    PollOk exact db (pollState after timeUs h) w := by
  cases hp with
  | idle state =>
      simp only [pollState, state]
      exact pollIdle_ok hl (Logged.between hw) hdb state timeUs
  | req state prepared asked =>
      simp only [pollState, state]
      exact pollReq_ok hw state prepared asked after timeUs
  | res state prepared op more asked =>
      simp only [pollState, state]
      exact pollRes_ok hw state prepared op more asked after timeUs
  | done state all =>
      simp only [pollState, state]
      exact pollEnd_ok hw hdb state all

/-! ## The system -/

variable {s t : Sys Host} {v : Wire}

/-- The page polls, or handles a tap. -/
def Polls (_ : Wire) (h : Host) (p : App (Option Host)) : Prop :=
  (∃ after timeUs, p = rmtDbPoll after timeUs h) ∨ ∃ yes, p = .ret (some (uiRmtTap h yes))

/-- No poll is in progress, or it has not read the flag `async_reset` yet. -/
def Sys.Quiet (s : Sys Host) : Prop :=
  match s.main with
  | .resting _ => True
  | .calling .asyncReset _ _ => True
  | _ => False

/-- At any time, a poll is about to read the flag, or goes on as it should. -/
inductive Sound (exact : Prop) (db : Database.Db) (s : Sys Host) : Prop
  | begun (after : Bytes) (timeUs : UInt64) (h : Host)
      (main : s.main = .proceed (rmtDbPoll after timeUs h)) (rest : AtRest exact db h s.wire)
  | busy (ok : s.Ok exact (listing db) (· ≠ .asyncReset) (Polled exact db))

theorem AtRest.same {k : Host} (hr : AtRest exact db h w) (hrdb : k.rdb = h.rdb)
    (hdb : k.db = h.db) : AtRest exact db k w := by
  have hprepared : Prepared exact db h → Prepared exact db k := by
    rintro ⟨hsame, hcurrent, hop, hnames, hfields⟩
    refine ⟨hdb.trans hsame, ?_, ?_, ?_, ?_⟩
    · rw [hrdb, hdb]
      exact hcurrent
    · exact hrdb ▸ hop
    · exact hrdb ▸ hnames
    · exact hrdb ▸ hfields
  have howed : owed k = owed h := by simp only [owed, hrdb]
  have hasked : ∀ log, Asked db h log → Asked db k log := by
    intro log hasked resp hresp
    rw [howed, hrdb]
    exact hasked resp hresp
  refine ⟨hdb.trans hr.1, hr.2.imp_left ?_⟩
  rintro ⟨ph, log, hw, hp⟩
  refine ⟨ph, log, hw, ?_⟩
  cases hp with
  | idle state => exact .idle (hrdb ▸ state)
  | req state prepared asked => exact .req (hrdb ▸ state) (hprepared prepared) (hasked _ asked)
  | res state prepared op more asked =>
      exact .res (hrdb ▸ state) (hprepared prepared) (hrdb ▸ op) (hrdb ▸ more) (hasked _ asked)
  | done state all => exact .done (hrdb ▸ state) all

theorem AtRest.held (hr : AtRest exact db h w) : Held exact (listing db) w := by
  obtain ⟨-, ⟨ph, log, hw, -⟩ | hw⟩ := hr
  · exact hw.held fun _ => rfl
  · exact hw.held fun _ => rfl

theorem AtRest.handles (hr : AtRest exact db h w) (hv : Handles w v) : AtRest exact db h v := by
  obtain ⟨hdb, ⟨ph, log, hw, hp⟩ | hw⟩ := hr
  · exact ⟨hdb, .inl ⟨ph, log, stable_at logged_first w v hw hv, hp⟩⟩
  · exact ⟨hdb, .inr (stable_at between_first w v hw hv)⟩

theorem Polled.held {a : Option Host} (hr : Polled exact db a w) : Held exact (listing db) w := by
  cases a with
  | none => exact hr.1
  | some h => exact AtRest.held hr

theorem Polled.handles {a : Option Host} (hr : Polled exact db a w) (hv : Handles w v) :
    Polled exact db a v := by
  cases a with
  | none => exact ⟨stable_held w v hr.1 hv, hr.2⟩
  | some h => exact AtRest.handles hr hv

/-- The flag has been read. -/
def afterFlag (after : Bytes) (timeUs : UInt64) (h : Host) (flag : Bool) : App (Option Host) :=
  if flag then clearReset >>= fun _ => pollState after timeUs (h.withState .idle)
  else pollState after timeUs h

theorem afterFlag_ok (hl : exact → ∀ e ∈ db.entries.tops, Listable e) (hr : AtRest exact db h w)
    (after : Bytes) (timeUs : UInt64) :
    wp (course exact (listing db) .asyncReset) Call.asyncReset.prog
      (fun flag v => PollOk exact db (afterFlag after timeUs h flag) v) w := by
  obtain ⟨hdb, ⟨ph, log, hw, hp⟩ | hw⟩ := hr
  · refine wp_mono (permitted_takes trivial trivial hw) fun flag v hv => ?_
    obtain ⟨ph', hturn, hlogged⟩ := hv
    cases hturn with
    | asyncReset =>
        obtain ⟨hst, ⟨hfalse, hflag⟩, hlog⟩ := hlogged.state
        have hnot : flag = false := hflag.symm.trans hfalse
        rw [hnot]
        refine pollState_ok hl ?_ hdb hp after timeUs
        exact hlogged.weaken fun s flag rc dp hs => ⟨hs.1, hs.2.1.1, hs.2.2⟩
  · refine wp_mono (permitted_takes trivial trivial (between_logged hw)) fun flag v hv => ?_
    obtain ⟨ph', hturn, hlogged⟩ := hv
    cases hturn with
    | asyncReset =>
        obtain ⟨hst, ⟨htrue, hflag⟩, hlog⟩ := hlogged.state
        have hset : flag = true := hflag.symm.trans htrue
        rw [hset]
        refine appOk_call (by simp) trivial trivial hlogged fun r ph' v hturn hv => ?_
        cases hturn with
        | clearReset => exact pollState_ok (h := h.withState .idle) hl hv hdb (.idle rfl) after timeUs

theorem Sound.held (hs : Sound exact db s) : Held exact (listing db) s.wire := by
  cases hs with
  | begun after timeUs h main rest => exact rest.held
  | busy ok => exact ok.held fun a w => Polled.held

theorem Sound.begins {p : App (Option Host)} (hs : Sound exact db s)
    (hrests : s.main = .resting h) (hp : Polls s.wire h p) :
    Sound exact db ⟨s.wire, .proceed p⟩ := by
  have hr : AtRest exact db h s.wire := by
    cases hs with
    | begun after timeUs k main rest =>
        have hne : Main.resting h = .calling .asyncReset Call.asyncReset.prog
          (afterFlag after timeUs k) := hrests.symm.trans main
        cases hne
    | busy ok =>
        rw [Sys.Ok, hrests] at ok
        exact ok
  rcases hp with ⟨after, timeUs, rfl⟩ | ⟨yes, rfl⟩
  · exact .begun after timeUs h rfl hr
  · obtain ⟨hrdb, hdb⟩ := uiRmtTap_same h yes
    exact .busy (hr.same hrdb hdb)

theorem Sound.access (hl : exact → ∀ e ∈ db.entries.tops, Listable e) (hs : Sound exact db s)
    (ht : s.access = some t) : Sound exact db t := by
  cases hs with
  | begun after timeUs h main rest =>
      obtain ⟨w, m⟩ := s
      dsimp only at main rest
      subst main
      obtain rfl := (Option.some.inj ht).symm
      have hok := afterFlag_ok hl rest after timeUs
      exact .busy (Sys.ok_proceed (wp_proceed hok))
  | busy ok => exact .busy (ok.access ht)

/-- Whatever the host does in the middle of a call keeps the system sound. -/
theorem Sound.handles (hs : Sound exact db s) (hv : Handles s.wire v) :
    Sound exact db ⟨v, s.main⟩ := by
  cases hs with
  | begun after timeUs h main rest => exact .begun after timeUs h main (rest.handles hv)
  | busy ok => exact .busy (ok.host (fun a ha => Polled.handles ha hv) hv)

/-- A poll is never undefined, and with `exact` it neither aborts nor fails. -/
theorem Sound.proper (hs : Sound exact db s) :
    s.main ≠ .undefined ∧ (exact → s.main ≠ .aborted ∧ s.main ≠ .failed) := by
  obtain ⟨w, main⟩ := s
  cases hs with
  | begun after timeUs h hmain rest =>
      have hcall : main = .calling .asyncReset Call.asyncReset.prog (afterFlag after timeUs h) :=
        hmain
      simp [hcall]
  | busy ok =>
      refine ⟨?_, fun hx => ⟨?_, ?_⟩⟩
      · rintro rfl
        exact ok
      · rintro rfl
        exact ok.2 hx
      · rintro rfl
        exact ok.2 hx

/-- The page has just been opened. -/
theorem Sound.opened {r : Rmt} (hbuf : r.mboxBuf.length = rmtMaxLen)
    (hidle : h.rdb.state = .idle) :
    Sound exact h.db ⟨Wire.opened (rmtDbInit r), .resting h⟩ := by
  have hw : Between exact (listing h.db) (· = false) .waiting (Wire.opened (rmtDbInit r)) :=
    opened_between (r := { r with asyncReset := false }) hbuf (.inr rfl) rfl
  exact .busy ⟨rfl, .inl ⟨.waiting, _, between_logged hw, .idle hidle⟩⟩

end Sunela.Remote
