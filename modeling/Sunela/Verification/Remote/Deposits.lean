import Sunela.Model.RmtDeposit
import Sunela.Verification.Remote.Rejected
import Sunela.Verification.Support.RemoteAccount

/-! # Responses stay inside their objects

The lengths of the responses are those of the objects, except for one string that is shorter. -/

namespace Sunela.Remote

open Program Fields Entry

variable {after : Bytes} {timeUs : UInt64} {h k : Host} {α β : Type}

/-! ## The bytes that are read -/

theorem reading_bind (p : Poller α) (f : α → Poller β) :
    Poller.reading after (p >>= f) = p.reading after >>= fun a => (f a).reading after :=
  Prog.expand_bind _ p f

@[simp] theorem reading_onWire (p : App α) : (onWire p).reading after = p := by
  induction p with
  | ret a => rfl
  | call c next ih => exact congrArg (Prog.call c) (funext ih)
  | halt => rfl
  | undef => rfl

@[simp] theorem reading_response (parts : List Part) :
    (response parts).reading after = responsev (parts.map (Part.read after)) := Prog.bind_ret _

@[simp] theorem reading_ret (a : α) : Poller.reading after (.ret a) = .ret a := rfl

theorem stringPart_read (s : CString) : (stringPart s).read after = s.bytes := by
  simp [stringPart, Part.read]

theorem respondPart_reading (h : Host) (p : Part) :
    (respondPart h p).reading after = respond h (p.read after) := by
  rw [respondPart, respond, reading_bind, reading_response]
  congr 1
  funext ok
  cases ok <;> rfl

theorem pollLsParts_reading (h : Host) : (pollLsParts h).reading after = pollLs h := by
  rw [pollLsParts, pollLs]
  split
  · rw [reading_bind, reading_response]
    congr 1
    funext ok
    cases ok <;> rfl
  · cases h.rdb.de with
    | nil => rfl
    | cons e rest =>
        dsimp only
        rw [reading_bind, reading_response, List.map_singleton, stringPart_read]
        congr 1
        funext ok
        cases ok <;> rfl

theorem shownParts_read (f : DbField) :
    (shownParts f).map (Option.map (List.map (Part.read after))) = fieldParts f := by
  rw [shownParts, fieldParts]
  have htype : (typePart f).read after = [f.type] := rfl
  have hdata : (dataPart f).read after = f.data := by simp [dataPart, Part.read]
  split_ifs <;> simp [htype, hdata]

theorem showLoopParts_reading (h : Host) (l : List DbField) :
    (showLoopParts h l).reading after = showLoop h l := by
  induction l with
  | nil => rfl
  | cons f rest ih =>
      have hread := @shownParts_read after f
      rw [showLoopParts, showLoop, ← hread]
      cases shownParts f with
      | none => rfl
      | some parts =>
          cases parts with
          | none => exact ih
          | some parts =>
              dsimp only [Option.map_some]
              rw [reading_bind, reading_response]
              congr 1
              funext ok
              cases ok with
              | false => rfl
              | true => exact ih

theorem pollShowParts_reading (h : Host) : (pollShowParts h).reading after = pollShow h := by
  rw [pollShowParts, pollShow]
  split
  · rw [reading_bind, reading_response]
    congr 1
    funext ok
    cases ok with
    | false => rfl
    | true =>
        by_cases hf : h.rdb.f = []
        · simp only [hf, if_true]
          rfl
        · simp only [hf, if_false, if_true]
          rfl
  · exact showLoopParts_reading h _

theorem pollResParts_reading (h : Host) :
    (pollResParts timeUs h).reading after = pollRes after timeUs h := by
  rw [pollResParts, pollRes]
  split_ifs
  · exact pollLsParts_reading h
  · exact pollShowParts_reading h
  · exact respondPart_reading h _
  · exact respondPart_reading h _
  · exact respondPart_reading h _
  · exact respondPart_reading h _
  · rfl
  · rfl

theorem pollReqParts_reading (h : Host) :
    (pollReqParts timeUs h).reading after = pollReq after timeUs h := by
  rw [pollReqParts, pollReq, reading_bind, reading_onWire]
  congr 1
  funext r
  cases r with
  | zero => rfl
  | block b => rfl
  | negative =>
      dsimp only
      split
      · rfl
      · exact pollResParts_reading _

theorem pollStateParts_reading (h : Host) :
    (pollStateParts timeUs h).reading after = pollState after timeUs h := by
  rw [pollStateParts, pollState]
  cases h.rdb.state with
  | idle => exact reading_onWire _
  | req => exact pollReqParts_reading h
  | res => exact pollResParts_reading h
  | done => exact reading_onWire _

/-- With what is read, these are the polls. -/
theorem rmtDbPollParts_reading (h : Host) :
    (rmtDbPollParts timeUs h).reading after = rmtDbPoll after timeUs h := by
  rw [rmtDbPollParts, rmtDbPoll, reading_bind, reading_onWire]
  congr 1
  funext reset
  cases reset with
  | false => exact pollStateParts_reading h
  | true =>
      simp only [if_true]
      rw [reading_bind, reading_onWire]
      congr 1
      funext _
      exact pollStateParts_reading _

/-! ## Lengths -/

/-- Every part is in its object, and there are bytes for one block. -/
structure Fine (parts : List Part) : Prop where
  inside : ∀ p ∈ parts, p.Inside
  pos : 1 ≤ (parts.map Part.len).sum
  fits : (parts.map Part.len).sum ≤ rmtMaxLen

/-- What is read from inside an object does not depend on what follows it. -/
theorem Part.Inside.read {p : Part} (hp : p.Inside) : p.read after = p.object.take p.len := by
  rw [Part.read, List.take_append_of_le_length hp]

theorem fine_singleton {p : Part} (hp : p.Inside) (hpos : 1 ≤ p.len) (hlen : p.len ≤ rmtMaxLen) :
    Fine [p] := ⟨by simpa using hp, by simpa using hpos, by simpa using hlen⟩

theorem shownParts_fine {f : DbField} {parts : List Part}
    (hf : shownParts f = some (some parts)) : Fine parts := by
  have htype : (typePart f).Inside := by simp [typePart, Part.Inside]
  rw [shownParts] at hf
  split_ifs at hf
  · cases Option.some.inj hf
  · obtain rfl := Option.some.inj (Option.some.inj hf)
    have hfits := f.fits
    refine ⟨?_, by simp [typePart], ?_⟩
    · intro p hp
      rcases List.mem_pair.mp hp with rfl | rfl
      · exact htype
      · exact le_rfl
    · simp only [typePart, dataPart, List.map_cons, List.map_nil, List.sum_cons, List.sum_nil,
        rmtMaxLen]
      omega
  · obtain rfl := Option.some.inj (Option.some.inj hf)
    exact fine_singleton htype le_rfl (by simp [typePart, rmtMaxLen])

/-- What is required of polls: responses are fine, and nothing is undefined. Any call can get
any reply. -/
def fine : Contract PollCall PollCall.Reply Unit where
  step _ _ _ _ := True
  call _ c := ∀ parts, c = .response parts → Fine parts
  halt _ _ := True
  undef _ := False

theorem fine_exchanges {p q : Poller α} {l : List ((c : PollCall) × c.Reply)}
    {Q : α → Unit → Prop} (hp : wp fine p Q ()) (he : Exchanges p l q) : wp fine q Q () := by
  induction he with
  | refl p => exact hp
  | call run ih => exact ih (hp.2 _ () trivial)

theorem fine_onWire {c : Call} {f : c.Reply → App α} {Q : α → Unit → Prop}
    (hf : ∀ r, wp fine (onWire (f r)) Q ()) : wp fine (onWire (.call c f)) Q () :=
  ⟨fun _ => nofun, fun r _ _ => hf r⟩

theorem fine_response {parts : List Part} {f : Bool → Poller α} {Q : α → Unit → Prop}
    (hparts : Fine parts) (hf : ∀ ok, wp fine (f ok) Q ()) :
    wp fine (response parts >>= f) Q () := by
  refine wp_bind.mpr (wp_exec.mpr ⟨fun _ hc => ?_, fun ok _ _ => hf ok⟩)
  obtain rfl := PollCall.response.inj hc
  exact hparts

/-! ## Listings -/

/-- The names of the entries that are listed can be blocks of a response. -/
def Deliverable (db : Database.Db) : Prop :=
  ∀ e ∈ db.entries.tops, 1 ≤ e.name.bytes.length ∧ e.name.bytes.length ≤ rmtMaxLen

instance (db : Database.Db) : Decidable (Deliverable db) :=
  inferInstanceAs (Decidable (∀ e ∈ db.entries.tops, _))

/-- A request to list something is being handled. -/
def Lists (h : Host) : Prop :=
  (h.rdb.state = .req ∨ h.rdb.state = .res) ∧ (h.rdb.op = rdopLs ∨ h.rdb.op = rdopShow)

/-- Names stay deliverable, and the generation of a listing does not come back. -/
def changesTo (h : Host) (db : Database.Db) : Prop :=
  Deliverable db ∧ (Lists h → db.generation ≠ h.rdb.generation)

/-- A poll with these replies gets to the response: it is being made, or the request ends. -/
def Responds (h : Host) (l : List ((c : PollCall) × c.Reply)) : Prop :=
  (h.rdb.state = .res ∧ [⟨.other .asyncReset, false⟩] <+: l) ∨
    (h.rdb.state = .req ∧
      [⟨.other .asyncReset, false⟩, ⟨.other (.request maxReqLen), .negative⟩] <+: l)

/-- The request has not been refused as an action is pending, and what is still to be listed has
not changed. -/
structure Answerable (h : Host) : Prop where
  free : h.rdb.op ≠ rdopBusy
  same : (h.rdb.op = rdopLs ∧ h.rdb.de ≠ []) ∨ (h.rdb.op = rdopShow ∧ h.rdb.f ≠ []) →
    h.rdb.generation = h.db.generation

def allowed (h : Host) (l : List ((c : PollCall) × c.Reply)) : Prop :=
  Responds h l → Answerable h

/-- The state between polls. -/
structure Listing (h : Host) : Prop where
  named : Deliverable h.db
  entries : Lists h → h.rdb.op = rdopLs → h.rdb.generation = h.db.generation →
    h.rdb.de <:+ h.db.entries.tops
  more : h.rdb.state = .res → h.rdb.op = rdopLs → h.rdb.de ≠ []

/-- A poll that does not end with `ABORT` leaves such a state. -/
def Keeps (k : Option Host) (_ : Unit) : Prop := ∀ k', k = some k' → Listing k'

@[simp] theorem keeps_some {u : Unit} : Keeps (some h) u ↔ Listing h := by simp [Keeps]

theorem keeps_none {u : Unit} : Keeps none u := by
  intro k' hk
  cases hk

/-- Without a request there is only the database. -/
theorem listing_of_named (hd : Deliverable h.db) (hreq : h.rdb.state ≠ .req)
    (hres : h.rdb.state ≠ .res) : Listing h where
  named := hd
  entries hlists := absurd hlists.1 (not_or.mpr ⟨hreq, hres⟩)
  more hs := absurd hs hres

/-- Other operations list no entries. -/
theorem listing_of_op (hd : Deliverable h.db) (hop : h.rdb.op ≠ rdopLs) : Listing h where
  named := hd
  entries _ hls := absurd hls hop
  more _ hls := absurd hls hop

theorem startRequest_listing (hd : Deliverable h.db) (timeUs : UInt64) (b : Bytes) :
    Listing (startRequest h timeUs b) := by
  obtain ⟨hstate, -, hdb, hls⟩ := startRequest_entered h timeUs b
  refine ⟨hdb ▸ hd, fun _ hop _ => ?_, fun hs => ?_⟩
  · have hde := hls hop
    rw [hdb]
    exact hde ▸ List.suffix_rfl
  · rw [hstate] at hs
    cases hs

theorem pollIdle_fine (hd : Deliverable h.db) (hs : h.rdb.state = .idle) :
    wp fine (onWire (pollIdle timeUs h)) Keeps () := by
  apply fine_onWire
  intro r
  cases r with
  | negative => exact keeps_some.mpr (listing_of_named hd (by simp [hs]) (by simp [hs]))
  | zero =>
      refine keeps_some.mpr (listing_of_op hd ?_)
      show rdopNull ≠ rdopLs
      decide
  | block b => exact keeps_some.mpr (startRequest_listing hd timeUs b)

theorem pollEnd_fine (hl : Listing h) : wp fine (onWire (pollEnd h)) Keeps () := by
  apply fine_onWire
  intro r
  cases r with
  | false => exact keeps_some.mpr hl
  | true => exact keeps_some.mpr (listing_of_named hl.named (by simp [Host.withState])
      (by simp [Host.withState]))

theorem listing_done (hl : Listing h) : Listing (h.withState .done) :=
  listing_of_named hl.named (by simp [Host.withState]) (by simp [Host.withState])

theorem respondPart_fine {p : Part} (hl : Listing h) (hp : Fine [p]) :
    wp fine (respondPart h p) Keeps () := by
  apply fine_response hp
  intro ok
  cases ok with
  | false => exact keeps_some.mpr hl
  | true => exact keeps_some.mpr (listing_done hl)

theorem pollLs_fine (hl : Listing h) (hs : h.rdb.state = .res) (hop : h.rdb.op = rdopLs)
    (ha : Answerable h) : wp fine (pollLsParts h) Keeps () := by
  have hmore := hl.more hs hop
  have hgen := ha.same (.inl ⟨hop, hmore⟩)
  have hsuffix := hl.entries ⟨.inr hs, .inl hop⟩ hop hgen
  rw [pollLsParts, if_neg (not_not.mpr hgen)]
  cases hde : h.rdb.de with
  | nil => exact absurd hde hmore
  | cons e rest =>
      rw [hde] at hsuffix
      obtain ⟨hpos, hfits⟩ := hl.named e (hsuffix.subset List.mem_cons_self)
      have hinside : (stringPart e.name).Inside := by simp [stringPart, Part.Inside]
      apply fine_response (fine_singleton hinside hpos hfits)
      intro ok
      cases ok with
      | false => exact keeps_some.mpr hl
      | true =>
          simp only [if_true]
          by_cases hrest : rest = []
          · simp only [hrest, if_true]
            exact keeps_some.mpr (listing_of_named hl.named nofun nofun)
          · simp only [hrest, if_false]
            refine keeps_some.mpr ⟨hl.named, fun _ _ _ => ?_, fun _ _ => hrest⟩
            exact (List.suffix_cons e rest).trans hsuffix

theorem showLoop_fine (hl : Listing h) (hop : h.rdb.op = rdopShow) (l : List DbField) :
    wp fine (showLoopParts h l) Keeps () := by
  have hne : rdopShow ≠ rdopLs := by decide
  induction l with
  | nil => exact keeps_some.mpr (listing_of_named hl.named nofun nofun)
  | cons f rest ih =>
      rw [showLoopParts]
      cases hparts : shownParts f with
      | none => exact keeps_none
      | some parts =>
          cases parts with
          | none => exact ih
          | some parts =>
              apply fine_response (shownParts_fine hparts)
              intro ok
              cases ok with
              | true => exact ih
              | false =>
                  refine keeps_some.mpr (listing_of_op hl.named ?_)
                  rw [hop]
                  exact hne

theorem pollShow_fine (hl : Listing h) (hop : h.rdb.op = rdopShow) (ha : Answerable h) :
    wp fine (pollShowParts h) Keeps () := by
  rw [pollShowParts]
  split
  · next hgen =>
      have hf : h.rdb.f = [] := by
        by_contra hf
        exact hgen (ha.same (.inr ⟨hop, hf⟩))
      apply fine_response (fine_singleton (by decide) (by decide) (by decide))
      intro ok
      cases ok with
      | false => exact keeps_some.mpr hl
      | true =>
          simp only [hf, if_true]
          exact keeps_some.mpr (listing_done hl)
  · exact showLoop_fine hl hop _

theorem pollRes_fine (hl : Listing h) (hs : h.rdb.state = .res) (ha : Answerable h) :
    wp fine (pollResParts timeUs h) Keeps () := by
  rw [pollResParts]
  split_ifs with hls hshow _ _ _ hbusy
  · exact pollLs_fine hl hs hls ha
  · exact pollShow_fine hl hshow ha
  · apply respondPart_fine hl
    exact fine_singleton (by simp [Part.Inside, bytes64]) (by simp) (by simp [rmtMaxLen])
  · exact respondPart_fine hl (fine_singleton (by decide) (by decide) (by decide))
  · exact respondPart_fine hl (fine_singleton (by decide) (by decide) (by decide))
  · exact absurd hbusy ha.free
  · exact keeps_some.mpr (listing_done hl)
  · exact keeps_none

/-! ## Runs -/

theorem Listing.withRes (hl : Listing h) (hreq : h.rdb.state = .req)
    (hmore : h.rdb.op = rdopLs → h.rdb.de ≠ []) : Listing (h.withState .res) where
  named := hl.named
  entries hlists := hl.entries ⟨.inl hreq, hlists.2⟩
  more _ := hmore

theorem Answerable.withRes (ha : Answerable h) : Answerable (h.withState .res) :=
  ⟨ha.free, ha.same⟩

/-- The end of the request has been seen. -/
theorem reqEnd_fine (hl : Listing h) (hreq : h.rdb.state = .req) (ha : Answerable h) :
    wp fine (if (h.rdb.op = rdopLs ∧ h.rdb.de = []) ∨ (h.rdb.op = rdopShow ∧ h.rdb.f = []) ∨
        h.rdb.op = rdopSetTime then return some (h.withState .done)
      else pollResParts timeUs (h.withState .res)) Keeps () := by
  split
  · exact keeps_some.mpr (listing_done hl)
  · next hcond =>
      have hmore : h.rdb.op = rdopLs → h.rdb.de ≠ [] := fun hop hde => hcond (.inl ⟨hop, hde⟩)
      exact pollRes_fine (hl.withRes hreq hmore) rfl ha.withRes

/-- What is true of the rest of a poll, wherever it is. -/
structure PartsOk (q : Poller (Option Host)) : Prop where
  defined : q ≠ .undef
  fine : ∀ parts next, q = .call (.response parts) next → Fine parts
  keeps : ∀ k, q = .ret (some k) → Listing k

theorem partsOk_of_fine {q : Poller (Option Host)} (h : wp fine q Keeps ()) : PartsOk q where
  defined := by
    intro hq
    rw [hq] at h
    exact h
  fine := by
    intro parts next hq
    rw [hq] at h
    exact h.1 parts rfl
  keeps := by
    intro k hq
    rw [hq] at h
    exact h k rfl

theorem partsOk_other {c : Call} {next : c.Reply → Poller (Option Host)} :
    PartsOk (.call (.other c) next) := by
  constructor
  · intro hq
    cases hq
  · intro parts next' hq
    cases hq
  · intro k hq
    cases hq

theorem pollState_partsOk {l : List ((c : PollCall) × c.Reply)} {q : Poller (Option Host)}
    (hl : Listing h) (ok : allowed h (⟨.other .asyncReset, false⟩ :: l))
    (he : Exchanges (pollStateParts timeUs h) l q) : PartsOk q := by
  rw [pollStateParts] at he
  cases hs : h.rdb.state with
  | idle =>
      rw [hs] at he
      exact partsOk_of_fine (fine_exchanges (pollIdle_fine hl.named hs) he)
  | res =>
      rw [hs] at he
      have ha : Answerable h := ok (.inl ⟨hs, by simp⟩)
      exact partsOk_of_fine (fine_exchanges (pollRes_fine hl hs ha) he)
  | done =>
      rw [hs] at he
      exact partsOk_of_fine (fine_exchanges (pollEnd_fine hl) he)
  | req =>
      rw [hs] at he
      -- the reply to the request tells whether there is a response in this poll
      cases he with
      | refl => exact partsOk_other
      | call run =>
          rename_i l r
          apply partsOk_of_fine
          refine fine_exchanges ?_ run
          cases r with
          | zero => exact keeps_some.mpr hl
          | block b =>
              refine keeps_some.mpr (listing_of_op hl.named ?_)
              show rdopInvalid ≠ rdopLs
              decide
          | negative =>
              have ha : Answerable h := ok (.inr ⟨hs, by simp⟩)
              exact reqEnd_fine hl hs ha

/-- Each point of an allowed poll. -/
theorem poll_partsOk {l : List ((c : PollCall) × c.Reply)} {q : Poller (Option Host)}
    (hl : Listing h) (ok : allowed h l) (he : Exchanges (rmtDbPollParts timeUs h) l q) :
    PartsOk q := by
  cases he with
  | refl => exact partsOk_other
  | call run =>
      rename_i l reset
      cases reset with
      | false => exact pollState_partsOk hl ok run
      | true =>
          refine partsOk_of_fine (fine_exchanges (fine_onWire fun _ => ?_) run)
          exact pollIdle_fine hl.named rfl

theorem Listing.same (hl : Listing h) (hr : k.rdb = h.rdb) (hd : k.db = h.db) : Listing k := by
  obtain ⟨hnamed, hentries, hmore⟩ := hl
  refine ⟨hd ▸ hnamed, ?_, hr ▸ hmore⟩
  rw [hd, hr]
  simpa only [Lists, hr] using hentries

theorem Listing.change (hl : Listing h) {db : Database.Db} (hc : changesTo h db) :
    Listing { h with db } where
  named := hc.1
  entries hlists _ hgen := absurd hgen.symm (hc.2 hlists)
  more := hl.more

/-- Between the polls of a run that all are allowed. -/
theorem visited_listing {h₀ : Host} (h₀idle : h₀.rdb.state = .idle)
    (hd : Deliverable h₀.db) (hv : Visited allowed changesTo h₀ h) : Listing h := by
  induction hv with
  | start => exact listing_of_named hd (by simp [h₀idle]) (by simp [h₀idle])
  | poll _ he ok ih => exact (poll_partsOk ih ok he).keeps _ rfl
  | tap _ yes ih => exact ih.same (uiRmtTap_same _ yes).1 (uiRmtTap_same _ yes).2
  | opened _ ih => exact ih.same rfl rfl
  | change _ hc ih => exact ih.change hc

/-- If names are deliverable, responses to requests that were refused as busy or to listings of a
database that has changed are not made, and every other response is fine. -/
theorem deposits_fine {h₀ : Host} {l : List ((c : PollCall) × c.Reply)}
    {q : Poller (Option Host)} (h₀idle : h₀.rdb.state = .idle) (hd : Deliverable h₀.db)
    (hv : Visited allowed changesTo h₀ h) (he : Exchanges (rmtDbPollParts timeUs h) l q)
    (ok : allowed h l) :
    q ≠ .undef ∧ ∀ parts next, q = .call (.response parts) next → Fine parts :=
  have hok := poll_partsOk (visited_listing h₀idle hd hv) ok he
  ⟨hok.defined, hok.fine⟩

/-- The host lists one account. -/
theorem deposits_fine_account : ∃ s : CString, s.bytes = [97] ∧ Fine [stringPart s] := by
  let h₀ := (openedSession (account [115])).host
  have hrun : Exchanges (rmtDbPollParts 0 h₀)
      [⟨.other .asyncReset, false⟩, ⟨.other (.request maxReqLen), .block [2]⟩]
      (.ret (some (startRequest h₀ 0 [2]))) := .call (.call (.refl _))
  have hv : Visited allowed changesTo h₀ (startRequest h₀ 0 [2]) :=
    .poll .start hrun fun hr => by
      rcases hr with ⟨hs, -⟩ | ⟨hs, -⟩ <;> cases hs
  have he : Exchanges (rmtDbPollParts 0 (startRequest h₀ 0 [2]))
      [⟨.other .asyncReset, false⟩, ⟨.other (.request maxReqLen), .negative⟩]
      (pollLsParts ((startRequest h₀ 0 [2]).withState .res)) := .call (.call (.refl _))
  have hok : allowed (startRequest h₀ 0 [2])
      [⟨.other .asyncReset, false⟩, ⟨.other (.request maxReqLen), .negative⟩] :=
    fun _ => ⟨by decide +kernel, fun _ => by decide +kernel⟩
  exact ⟨.cons 97 (by decide) .empty, rfl,
    (deposits_fine rfl (by decide +kernel) hv he hok).2 _ _ rfl⟩

/-- The host sets the time twice, and the second time is handed four bytes from behind the string
"Busy". -/
theorem busy_leaks :
    outputs [1, 2, 3, 4] [.transfer (7 :: bytes64 100), .poll 0, .transfer [], .poll 0, .poll 0,
      .query, .transfer (7 :: bytes64 100), .poll 0, .transfer [], .poll 0, .query]
      (openedSession .nil) = [.accepted true, .nothing, .accepted true, .nothing, .nothing,
      .handed (some []), .accepted true, .nothing, .accepted true, .nothing,
      .handed (some (literal "Busy" ++ [1, 2, 3, 4]))] ∧
    ∃ h l next, Visited (fun _ _ => True) changesTo (openedSession .nil).host h ∧
      Exchanges (rmtDbPollParts 0 h) l (.call (.response [⟨literal "Busy", 10⟩]) next) ∧
      ¬ Fine [⟨literal "Busy", 10⟩] := by
  refine ⟨by decide +kernel, ?_⟩
  let h₀ := (openedSession .nil).host
  let h₁ := startRequest h₀ 0 (7 :: bytes64 100)
  let h₂ := startRequest (h₁.withState .idle) 0 (7 :: bytes64 100)
  have hfirst : Exchanges (rmtDbPollParts 0 h₀)
      [⟨.other .asyncReset, false⟩, ⟨.other (.request maxReqLen), .block (7 :: bytes64 100)⟩]
      (.ret (some h₁)) := .call (.call (.refl _))
  have hsecond : Exchanges (rmtDbPollParts 0 h₁)
      [⟨.other .asyncReset, true⟩, ⟨.other .clearReset, ()⟩,
        ⟨.other (.request maxReqLen), .block (7 :: bytes64 100)⟩]
      (.ret (some h₂)) := .call (.call (.call (.refl _)))
  have hthird : Exchanges (rmtDbPollParts 0 h₂)
      [⟨.other .asyncReset, false⟩, ⟨.other (.request maxReqLen), .negative⟩]
      (respondPart (h₂.withState .res) ⟨literal "Busy", 10⟩) := by
    have hop : h₂.rdb.op = rdopBusy := by decide +kernel
    have hstate : pollStateParts 0 h₂ = pollReqParts 0 h₂ := by
      rw [pollStateParts, (startRequest_entered _ 0 _).1]
    have hres : pollResParts 0 (h₂.withState .res) =
        respondPart (h₂.withState .res) ⟨literal "Busy", 10⟩ := by
      rw [pollResParts, show (h₂.withState .res).rdb.op = rdopBusy from hop]
      rfl
    refine .call (hstate ▸ .call ?_)
    rw [← hres]
    simp only [hop]
    exact .refl _
  refine ⟨h₂, _, _, .poll (.poll .start hfirst trivial) hsecond trivial, hthird, fun hfine => ?_⟩
  exact absurd (hfine.inside _ List.mem_cons_self) (by decide)

end Sunela.Remote
