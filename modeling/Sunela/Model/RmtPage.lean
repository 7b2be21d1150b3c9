import Sunela.Model.Gfx
import Sunela.Model.RmtSession

/-! # The page for remote access

What happens while the page is open: the host sends and receives, ticks poll for requests,
the user taps, and the database changes. -/

namespace Sunela.Remote

open Gfx

/-! ## Buttons -/

def gfxWidth : ℤ := 240

def yesnoY0 : ℤ := 220

def yesnoH : ℤ := 50

def yesnoW : ℤ := 90

/-- `yesno_rect` -/
def yesnoRect (right : Bool) : GfxRect :=
  let gap := (gfxWidth - 2 * yesnoW) / 3
  ⟨gap + (yesnoW + gap) * right.toNat, yesnoY0, yesnoW, yesnoH⟩

/-- `gfx_in_rect` -/
def gfxInRect (r : GfxRect) (x y : ℤ) : Bool :=
  x ≥ r.x ∧ x < r.x + r.w ∧ y ≥ r.y ∧ y < r.y + r.h

/-- The button at a position, as `ui_rmt_tap` sees it. -/
def button (x y : UInt32) : Option Bool :=
  let yes := gfxInRect (yesnoRect true) (signed x.toNat) (signed y.toNat)
  let no := gfxInRect (yesnoRect false) (signed x.toNat) (signed y.toNat)
  if !yes && !no then none else some yes

/-! ## Events -/

inductive PageEvent where
  | transfer (data : Bytes)
  | query
  | tick (timeUs : UInt64)
  | tap (x y : UInt32)
  /-- `n` changes that end in another database -/
  | change (n : ℕ) (db : Database.Db)
  /-- the page is left and entered again -/
  | reopen

def Outcome.session : Outcome → Option Session
  | .next _ s => some s
  | _ => none

/-- The session after an event, unless the device stops. -/
def Session.happen (after : Bytes) (s : Session) : PageEvent → Option Session
  | .transfer data => (s.step after (.transfer data)).session
  | .query => (s.step after .query).session
  | .tick timeUs => (s.step after (.poll timeUs)).session
  | .tap x y => (s.step after (.tap (button x y))).session
  | .change n db =>
      let generation := s.host.db.generation + UInt32.ofNat n
      some { s with host := { s.host with db := { db with generation } } }
  | .reopen => s.reopen

def Session.play (after : Bytes) (s : Session) (events : List PageEvent) : Option Session :=
  events.foldlM (Session.happen after) s

end Sunela.Remote
