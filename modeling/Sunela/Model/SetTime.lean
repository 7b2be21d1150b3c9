import Sunela.Lib.Calendar
import Sunela.Model.Fmt
import Sunela.Model.RmtDb

/-! # The question for a new time

The texts that `ui_rmt_set_time` makes of the current time and of the one the host asks for. -/

namespace Sunela.SetTime

open Remote Fmt Time Calendar

inductive Fault where
  /-- an assertion fails -/
  | failed
  /-- something is written outside of a buffer -/
  | outside
  | undefined
  deriving DecidableEq

/-! ## Formatting -/

/-- What the conversion `%d` prints of a number, if `len` is its width. -/
def formatD (len : ℕ) (n : ℤ) : Bytes :=
  (if n < 0 then asciiBytes "-" else []) ++ printNumber n.natAbs len 10

def dateText (year month day : ℤ) : Bytes :=
  formatD 4 year ++ asciiBytes "-" ++ formatD 2 month ++ asciiBytes "-" ++ formatD 2 day

def timeText (hour minute second : ℤ) : Bytes :=
  formatD 2 hour ++ asciiBytes ":" ++ formatD 2 minute ++ asciiBytes ":" ++ formatD 2 second

/-- `struct tm`, where months are counted from 0, and years from 1900. -/
structure Tm where
  sec : ℤ
  min : ℤ
  hour : ℤ
  mday : ℤ
  mon : ℤ
  year : ℤ
  deriving DecidableEq

/-- `gmtime_r`, which fails if an `int` does not hold the year. -/
def gmtimeR (t : Int64) : Option Tm :=
  let c := Moment.ofSeconds t.toInt
  let year := c.date.year - 1900
  if -2 ^ 31 ≤ year ∧ year < 2 ^ 31 then
    some ⟨c.second, c.minute, c.hour, c.date.day, c.date.month - 1, year⟩
  else none

/-- The text has been written to a buffer, with the terminator. -/
def written (size : ℕ) (text : Bytes) : Except Fault Bytes :=
  if text.length < size then .ok text else .error .outside

/-- `format_time`. If `gmtime_r` fails, the variables that are printed have not been set. -/
def formatTime (t : Int64) (size : ℕ) : Except Fault Bytes :=
  if size < 10 + 1 + 8 + 1 then .error .failed
  else
    match gmtimeR t with
    | none => .error .undefined
    | some tm =>
        if 2 ^ 31 ≤ tm.year + 1900 then .error .undefined
        else do
          let text ← written size (dateText (tm.year + 1900) tm.mon tm.mday ++ asciiBytes " " ++
            timeText tm.hour tm.min tm.sec)
          if text.length = 10 + 1 + 8 then return text else .error .failed

/-- The seconds of ten years, where a year is 365.25 days. -/
def tenYears : UInt64 := 315576000

/-- The years in some seconds, if an `unsigned` holds them. -/
def years (dt : UInt64) : Except Fault ℕ :=
  let n := (dt / 3600 / 24).toNat * 4 / 1461
  if n < 2 ^ 32 then .ok n else .error .undefined

def formatDelta (dt : UInt64) (size : ℕ) : Except Fault Bytes :=
  if tenYears < dt then do
    written size (printNumber (← years dt) 0 10 ++ asciiBytes " years")
  else if 10 * 7 * 24 * 3600 < dt then
    written size (printNumber (dt / 3600 / 24 / 7).toNat 0 10 ++ asciiBytes " weeks")
  else if 10 * 24 * 3600 < dt then
    written size (printNumber (dt / 3600 / 24).toNat 0 10 ++ asciiBytes " days")
  else if 3600 < dt then
    written size (printNumber (dt / 3600).toNat 0 10 ++ asciiBytes "h" ++
      printNumber ((dt / 60) % 60).toNat 2 10)
  else written size (printNumber dt.toNat 0 10 ++ asciiBytes " s")

/-! ## The question -/

/-- What the user is asked. -/
structure Question where
  old : Bytes
  new : Bytes
  delta : Bytes
  earlier : Bool
  deriving DecidableEq

def Question.text (q : Question) : Bytes :=
  asciiBytes "Change time from " ++ q.old ++ asciiBytes " to " ++ q.new ++ asciiBytes " (" ++
    q.delta ++ asciiBytes " " ++ asciiBytes (if q.earlier then "earlier" else "later") ++
    asciiBytes ")"

/-- The question for a change from `t` to `newTime`. -/
def question (t newTime : Int64) : Except Fault Question := do
  let old ← formatTime t 20
  let new ← formatTime newTime 20
  let dt := newTime - t
  let delta ← formatDelta (if 0 ≤ dt then dt else -dt).toUInt64 30
  return ⟨old, if old.take 11 = new.take 11 then new.drop 11 else new, delta, decide (dt < 0)⟩

/-- `ui_rmt_set_time`, while the page is open: the question that is asked, if any. -/
def uiRmtSetTime (h : Host) (timeUs : UInt64) (newTime : Int64) : Except Fault (Option Question) :=
  if h.ui.action.isSome then return none
  else
    let t := showTime ⟨timeUs, h.timeOffset⟩
    if t - 1 ≤ newTime ∧ newTime ≤ t + 1 then return none
    else do return some (← question t newTime)

end Sunela.SetTime
