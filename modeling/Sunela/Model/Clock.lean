import Mathlib.Data.Int.Notation

/-! # The clock

The hardware counts microseconds. What the user knows as the time is this counter with an
offset added to it, which a request of the host can change. -/

namespace Sunela.Time

/-- What the time is computed from: `time_us ()` and `time_offset`. -/
structure Clock where
  timeUs : UInt64
  timeOffset : Int64
  deriving DecidableEq

/-- The value sent in reply to `RDOP_GET_TIME`. -/
def rdopGetTime (c : Clock) : UInt64 := c.timeUs / 1000000 + c.timeOffset.toUInt64

/-- The value `show_time` breaks down into date and time, a `time_t`. -/
def showTime (c : Clock) : Int64 := (c.timeUs / 1000000 + c.timeOffset.toUInt64).toInt64

/-- The counter for which `show_totp` computes the code. -/
def showTotp (c : Clock) : UInt64 := (c.timeUs + c.timeOffset.toUInt64) / 1000000 / 30

/-! ## Setting the time -/

/-- The change for which `ui_rmt_set_time` asks permission, if it is worth asking. -/
def setTimeDelta (c : Clock) (newTime : Int64) : Option Int64 :=
  let t := (c.timeUs / 1000000 + c.timeOffset.toUInt64).toInt64
  if t - 1 ≤ newTime ∧ newTime ≤ t + 1 then none else some (newTime - t)

def doActionSetTime (c : Clock) (deltaS : Int64) : Clock :=
  { c with timeOffset := c.timeOffset + deltaS }

/-- The offsets that accepted requests lead to. Each is made at a time of its own. -/
inductive OffsetReached : Int64 → Prop where
  | start : OffsetReached 0
  | accepted {offset delta : Int64} (h : OffsetReached offset) (timeUs : UInt64)
      (newTime : Int64) (hd : setTimeDelta ⟨timeUs, offset⟩ newTime = some delta) :
      OffsetReached (doActionSetTime ⟨timeUs, offset⟩ delta).timeOffset

end Sunela.Time
