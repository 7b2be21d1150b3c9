import Sunela.Model.SetTime
import Sunela.Verification.Fmt.Decimal
import Sunela.Verification.Support.RemoteAccount

/-! # What the question for a new time says

The months in the texts are those of `struct tm`, which counts them from 0. -/

namespace Sunela.SetTime

open Remote Fmt Time Calendar

variable {t newTime : Int64} {s : Bytes} {h : Host} {timeUs : UInt64} {q : Question}

theorem bind_ok {α β : Type} {x : Except Fault α} {f : α → Except Fault β} {b : β}
    (h : (x >>= f) = .ok b) : ∃ a, x = .ok a ∧ f a = .ok b := by
  cases x with
  | error e => cases h
  | ok a => exact ⟨a, rfl, h⟩

/-! ## Texts of times -/

theorem formatD_inj {len : ℕ} {x y : ℤ} (heq : formatD len x = formatD len y) : x = y := by
  have hminus : ∀ v r, asciiBytes "-" ++ r ≠ printNumber v len 10 := by
    intro v r hr
    have hmem : 45 ∈ printNumber v len 10 := hr ▸ List.mem_append_left r (by decide)
    exact absurd (isDigit_padded 45 hmem) (by decide)
  rw [formatD, formatD] at heq
  split_ifs at heq with hx hy hy
  · have habs := printNumber_inj (List.append_cancel_left heq)
    omega
  · exact absurd heq (hminus _ _)
  · exact absurd heq.symm (hminus _ _)
  · have habs := printNumber_inj heq
    omega

theorem formatD_length {len : ℕ} (hlen : 0 < len) {x : ℤ} :
    (formatD len x).length = len ↔ 0 ≤ x ∧ x.natAbs < 10 ^ len := by
  rw [formatD]
  split_ifs with hx
  · have hle := le_printNumber_length x.natAbs len
    rw [List.length_append]
    have hone : (asciiBytes "-").length = 1 := rfl
    omega
  · rw [List.nil_append, printNumber_width hlen]
    exact (and_iff_right (Int.not_lt.mp hx)).symm

theorem two_length {n : ℕ} (hn : n < 100) : (formatD 2 n).length = 2 :=
  (formatD_length (by decide)).mpr ⟨by omega, by omega⟩

/-- A text ends with a number of two digits. -/
theorem append_two_inj {a b : Bytes} {x y : ℕ} (hx : x < 100) (hy : y < 100)
    (heq : a ++ formatD 2 x = b ++ formatD 2 y) : a = b ∧ x = y := by
  obtain ⟨hab, hxy⟩ := List.append_inj' heq ((two_length hx).trans (two_length hy).symm)
  exact ⟨hab, Int.ofNat_inj.mp (formatD_inj hxy)⟩

/-- The text for a moment, as it should be. -/
def momentText (c : Moment) : Bytes :=
  dateText c.date.year c.date.month c.date.day ++ asciiBytes " " ++
    timeText c.hour c.minute c.second

theorem timeText_inj {h h' mi mi' s s' : ℕ} (hsmall : h < 100 ∧ mi < 100 ∧ s < 100)
    (hsmall' : h' < 100 ∧ mi' < 100 ∧ s' < 100)
    (heq : timeText h mi s = timeText h' mi' s') : h = h' ∧ mi = mi' ∧ s = s' := by
  obtain ⟨heq, hs⟩ := append_two_inj hsmall.2.2 hsmall'.2.2 heq
  obtain ⟨heq, hmi⟩ := append_two_inj hsmall.2.1 hsmall'.2.1 (List.append_cancel_right heq)
  exact ⟨Int.ofNat_inj.mp (formatD_inj (List.append_cancel_right heq)), hmi, hs⟩

theorem timeText_length {h mi s : ℕ} (hsmall : h < 100 ∧ mi < 100 ∧ s < 100) :
    (timeText h mi s).length = 8 := by
  simp [timeText, two_length hsmall.1, two_length hsmall.2.1, two_length hsmall.2.2, asciiBytes]

theorem dateText_inj {y y' : ℤ} {m m' d d' : ℕ} (hsmall : m < 100 ∧ d < 100)
    (hsmall' : m' < 100 ∧ d' < 100) (heq : dateText y m d = dateText y' m' d') :
    y = y' ∧ m = m' ∧ d = d' := by
  obtain ⟨heq, hd⟩ := append_two_inj hsmall.2 hsmall'.2 heq
  obtain ⟨heq, hm⟩ := append_two_inj hsmall.1 hsmall'.1 (List.append_cancel_right heq)
  exact ⟨formatD_inj (List.append_cancel_right heq), hm, hd⟩

theorem dateText_length {y : ℤ} {m d : ℕ} (hsmall : m < 100 ∧ d < 100) :
    (dateText y m d).length = (formatD 4 y).length + 6 := by
  simp [dateText, two_length hsmall.1, two_length hsmall.2, asciiBytes]

/-- The text is that of a moment of this time. -/
def Denotes (text : Bytes) (t : ℤ) : Prop :=
  ∃ c : Moment, c.Valid ∧ c.seconds = t ∧ momentText c = text

/-! ## The texts that are made -/

/-- What is shown for a moment. -/
def shownText (c : Moment) : Bytes :=
  dateText c.date.year (c.date.month - 1) c.date.day ++ asciiBytes " " ++
    timeText c.hour c.minute c.second

/-- An `int` holds the year of the time. -/
def YearFits (c : Moment) : Prop := -2 ^ 31 ≤ c.date.year - 1900 ∧ c.date.year < 2 ^ 31

theorem formatTime_of_fits (hy : YearFits (Moment.ofSeconds t.toInt)) :
    formatTime t 20 = written 20 (shownText (Moment.ofSeconds t.toInt)) >>= fun text =>
      if text.length = 10 + 1 + 8 then return text else .error .failed := by
  obtain ⟨hlow, hhigh⟩ := hy
  have htm : gmtimeR t = some ⟨(Moment.ofSeconds t.toInt).second,
      (Moment.ofSeconds t.toInt).minute, (Moment.ofSeconds t.toInt).hour,
      (Moment.ofSeconds t.toInt).date.day, (Moment.ofSeconds t.toInt).date.month - 1,
      (Moment.ofSeconds t.toInt).date.year - 1900⟩ := if_pos ⟨hlow, by omega⟩
  rw [formatTime, if_neg (by decide), htm]
  dsimp only
  rw [if_neg (by omega), Int.sub_add_cancel]
  rfl

theorem formatTime_of_not_fits (hy : ¬ YearFits (Moment.ofSeconds t.toInt)) :
    formatTime t 20 = .error .undefined := by
  rw [formatTime, if_neg (by decide), gmtimeR]
  split
  · rfl
  · next tm htm =>
      split at htm
      · next hc =>
          obtain rfl := Option.some.inj htm
          apply if_pos
          rw [YearFits] at hy
          dsimp only
          omega
      · cases htm

theorem written_ok {size : ℕ} {text : Bytes} (h : written size text = .ok s) :
    s = text ∧ text.length < size := by
  rw [written] at h
  split at h
  · next hlt => exact ⟨(Except.ok.inj h).symm, hlt⟩
  · cases h

/-- The text is that of the broken-down time, and as long as it should be. -/
theorem formatTime_ok (hs : formatTime t 20 = .ok s) :
    s = shownText (Moment.ofSeconds t.toInt) ∧ s.length = 19 := by
  by_cases hy : YearFits (Moment.ofSeconds t.toInt)
  · rw [formatTime_of_fits hy] at hs
    obtain ⟨text, hw, hs⟩ := bind_ok hs
    obtain ⟨rfl, -⟩ := written_ok hw
    split at hs
    · next hlen =>
        obtain rfl := Except.ok.inj hs
        exact ⟨rfl, hlen⟩
    · cases hs
  · rw [formatTime_of_not_fits hy] at hs
    cases hs

theorem shownText_length {c : Moment} (hc : c.Valid) :
    (shownText c).length = (formatD 4 c.date.year).length + 15 := by
  have hday := hc.date.day_le
  have hmonth := hc.date.month
  have hhour := hc.hour
  have hminute := hc.minute
  have hsecond := hc.second
  have hone : (asciiBytes " ").length = 1 := rfl
  have heq : ((c.date.month : ℤ) - 1) = (c.date.month - 1 : ℕ) := by omega
  rw [shownText, heq, List.length_append, List.length_append, dateText_length (by omega),
    timeText_length (by omega), hone]

/-- No assertion fails, and nothing is written outside of the buffer, for the years from 0 to 9999
only. -/
theorem formatTime_isOk (t : Int64) : (∃ s, formatTime t 20 = .ok s) ↔
    0 ≤ (Moment.ofSeconds t.toInt).date.year ∧ (Moment.ofSeconds t.toInt).date.year ≤ 9999 := by
  have hlength := shownText_length (Moment.ofSeconds_valid t.toInt)
  have hyear := @formatD_length 4 (by decide) (Moment.ofSeconds t.toInt).date.year
  constructor
  · rintro ⟨s, hs⟩
    obtain ⟨rfl, hlen⟩ := formatTime_ok hs
    have hfour := hyear.mp (by omega)
    omega
  · rintro ⟨hlow, hhigh⟩
    have hfour := hyear.mpr ⟨hlow, by omega⟩
    have hfits : YearFits (Moment.ofSeconds t.toInt) := ⟨by omega, by omega⟩
    refine ⟨shownText (Moment.ofSeconds t.toInt), ?_⟩
    rw [formatTime_of_fits hfits, written, if_pos (by omega)]
    exact if_pos (by omega)

theorem number_month_lt {d e : Date} (hy : d.year = e.year) (hday : d.day = e.day)
    (hmonth : d.month + 1 = e.month) (hpos : 1 ≤ d.month) (hlast : d.month ≤ 11) :
    d.number < e.number := by
  have hlt := @daysBefore_lt (isLeap e.year) d.month hpos hlast
  rw [Date.number, Date.number, hy, hday, ← hmonth]
  omega

/-- A month that is counted from 0 is none, or the one before. -/
theorem shownText_ne {c d : Moment} (hc : c.Valid) (hd : d.Valid)
    (heq : momentText d = shownText c) : d.seconds < c.seconds := by
  have hmonth := hc.date.month
  have hday := hc.date.day_le
  have hmonth' := hd.date.month
  have hday' := hd.date.day_le
  have hcount : ((c.date.month : ℤ) - 1) = (c.date.month - 1 : ℕ) := by omega
  have hclock : c.hour < 100 ∧ c.minute < 100 ∧ c.second < 100 :=
    ⟨hc.hour.trans (by decide), hc.minute.trans (by decide), hc.second.trans (by decide)⟩
  have hclock' : d.hour < 100 ∧ d.minute < 100 ∧ d.second < 100 :=
    ⟨hd.hour.trans (by decide), hd.minute.trans (by decide), hd.second.trans (by decide)⟩
  rw [momentText, shownText, hcount] at heq
  obtain ⟨heq, htime⟩ :=
    List.append_inj' heq ((timeText_length hclock').trans (timeText_length hclock).symm)
  obtain ⟨hyear, hm, hdd⟩ :=
    dateText_inj (by omega) (by omega) (List.append_cancel_right heq)
  obtain ⟨hh, hmi, hs⟩ := timeText_inj hclock' hclock htime
  have hnumber := number_month_lt hyear hdd (by omega) hmonth'.1 (by omega)
  rw [Moment.seconds, Moment.seconds, hh, hmi, hs]
  omega

theorem formatTime_not_denotes (hs : formatTime t 20 = .ok s) : ¬ Denotes s t.toInt := by
  rintro ⟨d, hd, hseconds, htext⟩
  obtain ⟨rfl, -⟩ := formatTime_ok hs
  have hlt := shownText_ne (Moment.ofSeconds_valid t.toInt) hd htext
  rw [Moment.seconds_ofSeconds] at hlt
  omega

/-! ## The question -/

/-- Nothing goes wrong, and if there is a question, its texts denote the current time and the new
one, which may be without the date if the day is the same. -/
def Truthful (h : Host) (timeUs : UInt64) (newTime : Int64) : Prop :=
  ∃ o, uiRmtSetTime h timeUs newTime = .ok o ∧ ∀ q, o = some q →
    Denotes q.old (showTime ⟨timeUs, h.timeOffset⟩).toInt ∧
      ∃ full, Denotes full newTime.toInt ∧ (q.new = full ∨
        (showTime ⟨timeUs, h.timeOffset⟩).toInt / 86400 = newTime.toInt / 86400 ∧
          q.new = full.drop 11)

theorem question_old (hq : question t newTime = .ok q) : formatTime t 20 = .ok q.old := by
  rw [question] at hq
  obtain ⟨old, hold, hq⟩ := bind_ok hq
  obtain ⟨new, -, hq⟩ := bind_ok hq
  obtain ⟨delta, -, hq⟩ := bind_ok hq
  obtain rfl := Except.ok.inj hq
  exact hold

theorem setTimeDelta_eq (c : Clock) (newTime : Int64) : setTimeDelta c newTime =
    if showTime c - 1 ≤ newTime ∧ newTime ≤ showTime c + 1 then none
    else some (newTime - showTime c) := rfl

/-- Nothing is asked if an action is pending, or the change is not worth it. -/
def Quiet (h : Host) (timeUs : UInt64) (newTime : Int64) : Prop :=
  h.ui.action.isSome = true ∨ setTimeDelta ⟨timeUs, h.timeOffset⟩ newTime = none

theorem uiRmtSetTime_quiet (hquiet : Quiet h timeUs newTime) :
    uiRmtSetTime h timeUs newTime = .ok none := by
  rw [uiRmtSetTime]
  by_cases haction : h.ui.action.isSome = true
  · exact if_pos haction
  · rw [if_neg haction]
    apply if_pos
    by_contra hfar
    have hnone := hquiet.resolve_left haction
    rw [setTimeDelta_eq, if_neg hfar] at hnone
    cases hnone

theorem uiRmtSetTime_asks (hasks : ¬ Quiet h timeUs newTime) :
    uiRmtSetTime h timeUs newTime =
      question (showTime ⟨timeUs, h.timeOffset⟩) newTime >>= fun q => return some q := by
  obtain ⟨haction, hdelta⟩ := not_or.mp hasks
  rw [uiRmtSetTime, if_neg haction]
  apply if_neg
  intro hnear
  exact hdelta (if_pos hnear)

/-- Where there is a question, its first text is of another time. -/
theorem truthful_iff (h : Host) (timeUs : UInt64) (newTime : Int64) :
    Truthful h timeUs newTime ↔
      h.ui.action.isSome = true ∨ setTimeDelta ⟨timeUs, h.timeOffset⟩ newTime = none := by
  constructor
  · intro ⟨o, ho, htexts⟩
    by_contra hasks
    rw [uiRmtSetTime_asks hasks] at ho
    obtain ⟨q, hq, ho⟩ := bind_ok ho
    obtain rfl := Except.ok.inj ho
    exact formatTime_not_denotes (question_old hq) (htexts q rfl).1
  · intro hquiet
    exact ⟨none, uiRmtSetTime_quiet hquiet, nofun⟩

theorem question_earlier (hq : question t newTime = .ok q) :
    q.earlier = decide (newTime - t < 0) := by
  rw [question] at hq
  obtain ⟨old, -, hq⟩ := bind_ok hq
  obtain ⟨new, -, hq⟩ := bind_ok hq
  obtain ⟨delta, -, hq⟩ := bind_ok hq
  obtain rfl := Except.ok.inj hq
  rfl

/-- The page asks for permission with this question, and does nothing if there is none. -/
theorem uiRmtSetTime_asked {o : Option Question} (ho : uiRmtSetTime h timeUs newTime = .ok o) :
    match o with
    | none => (Remote.uiRmtSetTime h timeUs newTime).2 = h
    | some q => ∃ delta, setTimeDelta ⟨timeUs, h.timeOffset⟩ newTime = some delta ∧
        q.earlier = decide (delta < 0) ∧ Remote.uiRmtSetTime h timeUs newTime =
          (true, askPermission h (.setTime delta) (.setTime delta)) := by
  rw [Remote.uiRmtSetTime]
  by_cases hquiet : Quiet h timeUs newTime
  · rw [uiRmtSetTime_quiet hquiet] at ho
    obtain rfl := Except.ok.inj ho
    by_cases haction : h.ui.action.isSome = true
    · simp only [haction, if_true]
    · simp only [haction, hquiet.resolve_left haction]
      rfl
  · rw [uiRmtSetTime_asks hquiet] at ho
    obtain ⟨q, hq, ho⟩ := bind_ok ho
    obtain rfl := Except.ok.inj ho
    obtain ⟨haction, hsome⟩ := not_or.mp hquiet
    obtain ⟨delta, hdelta⟩ := Option.ne_none_iff_exists'.mp hsome
    have heq : newTime - showTime ⟨timeUs, h.timeOffset⟩ = delta := by
      rw [setTimeDelta_eq] at hdelta
      split at hdelta
      · cases hdelta
      · exact Option.some.inj hdelta
    refine ⟨delta, hdelta, heq ▸ question_earlier hq, ?_⟩
    rw [if_neg haction, hdelta]

/-- At the beginning of 1970 the host asks for a time that is 100 seconds later, and for one in the
year 10000. -/
theorem truthful_fails :
    ¬ Truthful (openedSession .nil).host 0 100 ∧
      (uiRmtSetTime (openedSession .nil).host 0 100).map (Option.map Question.text) =
        .ok (some (asciiBytes "Change time from 1970-00-01 00:00:00 to 00:01:40 (100 s later)")) ∧
      uiRmtSetTime (openedSession .nil).host 0 253402300800 = .error .outside := by
  refine ⟨?_, by decide +kernel, by decide +kernel⟩
  intro ⟨o, ho, htexts⟩
  have hold : formatTime 0 20 = .ok (asciiBytes "1970-00-01 00:00:00") := by decide +kernel
  have hask : uiRmtSetTime (openedSession .nil).host 0 100 =
      .ok (some ⟨asciiBytes "1970-00-01 00:00:00", asciiBytes "00:01:40", asciiBytes "100 s",
        false⟩) := by decide +kernel
  obtain rfl := Except.ok.inj (hask.symm.trans ho)
  exact formatTime_not_denotes hold (htexts _ rfl).1

end Sunela.SetTime
