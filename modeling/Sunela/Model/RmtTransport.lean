import Sunela.Model.RmtDb

/-! # Transactions under interrupts

The two sides of the remote interface at work at the same time. Events of the host are handled
between any two accesses of the other side to the shared memory. Besides, a book is kept of
what has passed through the mailboxes since the host began its last request. -/

namespace Sunela.Remote

open Program

/-- What the host is about: nothing, sending a request, or waiting for the response. -/
inductive HostState where
  | ready
  | sending
  | querying
  deriving DecidableEq

/-- What the other side is about: waiting for a request, receiving it, or responding. -/
inductive Phase where
  | waiting
  | receiving
  | responding
  deriving DecidableEq

/-- The messages of a transaction. An empty one ends the request, and one the response. -/
structure Book where
  phase : Phase
  sent : List Bytes
  received : List Bytes
  deposited : List Bytes
  delivered : List Bytes
  deriving DecidableEq

structure Wire where
  rmt : Rmt
  host : HostState
  book : Book
  deriving DecidableEq

/-! ## The host -/

inductive HostEvent where
  | transfer (data : Bytes)
  | query

def Wire.transferred (w : Wire) (data : Bytes) (ok : Bool) (rmt : Rmt) : Wire :=
  if ok then
    { rmt
      host := if data = [] then .querying else .sending
      book := if w.host = .sending then { w.book with sent := w.book.sent ++ [data] }
        else ⟨.waiting, [data], [], [], []⟩ }
  else { w with rmt }

def Wire.handed (w : Wire) (b : Option Bytes) (rmt : Rmt) : Wire :=
  match b with
  | none => { w with rmt }
  | some b =>
      { rmt
        host := if b = [] then .ready else .querying
        book := { w.book with delivered := w.book.delivered ++ [b] } }

/-- What the interrupt handler does, unless an assertion fails. -/
def Wire.event (w : Wire) : HostEvent → Option Wire
  | .transfer data =>
      match run answer (rmtArrival data) w.rmt with
      | (.ret ok, r) => some (w.transferred data ok r)
      | _ => none
  | .query =>
      match run answer rmtQuery w.rmt with
      | (.ret b, r) => some (w.handed b r)
      | _ => none

/-- What the protocol lets the host do. It may abandon a transaction while it waits for the
response. -/
def Wire.Offers (w : Wire) : HostEvent → Prop
  | .transfer data => data.length ≤ rmtMaxLen ∧ (data = [] → w.host = .sending)
  | .query => w.host = .querying

/-! ## The other side -/

/-- A message leaves the mailbox for requests, or enters that for responses. -/
def Book.access (b : Book) (s : Rmt) (c : Call) (a : Access) : Book :=
  match a, c with
  | .setLength .inbox none, _ =>
      { b with phase := if s.inbox.length = some 0 then .responding else .receiving }
  | .setLength .outbox (some _), .responsev parts =>
      { b with deposited := b.deposited ++ [parts.flatten] }
  | .setLength .outbox (some _), .finish =>
      { b with deposited := b.deposited ++ [[]], phase := .waiting }
  | _, _ => b

/-- An access in the course of the call `c`. -/
def Wire.access (c : Call) (w : Wire) (a : Access) : a.Reply × Wire :=
  ((answer w.rmt a).1,
    { w with rmt := (answer w.rmt a).2, book := w.book.access w.rmt c a })

def Wire.receive (w : Wire) (b : Bytes) : Wire :=
  { w with book := { w.book with received := w.book.received ++ [b] } }

/-- The result of a call tells what has been received. -/
def Wire.returned (w : Wire) : (c : Call) → c.Reply → Wire
  | .request _, .block b => w.receive b
  | .request _, .negative => if w.book.phase = .responding then w.receive [] else w
  | _, _ => w

/-- What the processor is doing when no interrupt is handled. -/
inductive Main (β : Type) where
  | resting (b : β)
  | calling (c : Call) (rest : Shared c.Reply) (next : c.Reply → App (Option β))
  | aborted
  | failed
  | undefined

def Main.proceed {β : Type} : App (Option β) → Main β
  | .ret (some b) => .resting b
  | .ret none => .aborted
  | .call c next => .calling c c.prog next
  | .halt _ => .failed
  | .undef => .undefined

structure Sys (β : Type) where
  wire : Wire
  main : Main β

/-- The next access, and whatever follows before the one after it. -/
def Sys.access {β : Type} (s : Sys β) : Option (Sys β) :=
  match s.main with
  | .calling c (.call a rest) next =>
      let (r, w) := s.wire.access c a
      match rest r with
      | .ret v => some ⟨w.returned c v, .proceed (next v)⟩
      | .call a' rest' => some ⟨w, .calling c (.call a' rest') next⟩
      | .halt _ => some ⟨w, .failed⟩
      | .undef => some ⟨w, .undefined⟩
  | _ => none

/-- The systems that are reached when `begins` says what the processor may begin when it is at
rest, and `host` which events occur. -/
inductive Sys.Reached {β : Type} (begins : Wire → β → App (Option β) → Prop)
    (host : Sys β → HostEvent → Prop) (s : Sys β) : Sys β → Prop where
  | start : Reached begins host s s
  | begins {t : Sys β} {b : β} {p : App (Option β)} (run : Reached begins host s t)
      (rests : t.main = .resting b) (h : begins t.wire b p) :
      Reached begins host s ⟨t.wire, .proceed p⟩
  | access {t u : Sys β} (run : Reached begins host s t) (h : t.access = some u) :
      Reached begins host s u
  | host {t : Sys β} {e : HostEvent} {w : Wire} (run : Reached begins host s t) (h : host t e)
      (event : t.wire.event e = some w) : Reached begins host s ⟨w, t.main⟩

/-- The interface has just been opened. -/
def Wire.opened (s : Rmt) : Wire := ⟨s, .ready, ⟨.waiting, [], [], [], []⟩⟩

/-! ## The protocol

What `rmt.h` asks of those who call it, and what it tells them. -/

inductive Turn : Phase → (c : Call) → c.Reply → Phase → Prop where
  | nothing (size) : Turn .waiting (.request size) .negative .waiting
  | first (size b) : Turn .waiting (.request size) (.block b) .receiving
  | pending (size) : Turn .receiving (.request size) .zero .receiving
  | next (size b) : Turn .receiving (.request size) (.block b) .receiving
  | complete (size) : Turn .receiving (.request size) .negative .responding
  | responsev (parts ok) : Turn .responding (.responsev parts) ok .responding
  | again : Turn .responding .finish false .responding
  | ended : Turn .responding .finish true .waiting
  | asyncReset (ph b) : Turn ph .asyncReset b ph
  | clearReset (ph) : Turn ph .clearReset () ph

/-- A block of a request is asked for before the response, and responses after it. If `exact`
holds, the blocks of a response have from 1 to `RMT_MAX_LEN` bytes. -/
def Permits (exact : Prop) : Phase → Call → Prop
  | ph, .request size => ph ≠ .responding ∧ rmtMaxLen ≤ size
  | ph, .responsev parts =>
      ph = .responding ∧ (exact → parts.flatten ≠ [] ∧ parts.flatten.length ≤ rmtMaxLen)
  | ph, .finish => ph = .responding
  | _, _ => True

def protocol (exact : Prop) : Contract Call Call.Reply Phase where
  step := Turn
  call := Permits exact
  halt _ _ := False
  undef _ := False

end Sunela.Remote
