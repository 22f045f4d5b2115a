import Crontab.Language

/-! # English

The English wording of descriptions, with hours on the clock of twelve.
-/

namespace Crontab

namespace English

/-- The number of a day: `1st`, `2nd`, `3rd`, `4th`, and `th` from eleven to thirteen. -/
def ordinal (day : Nat) : String :=
  let ending :=
    if 11 ≤ day % 100 ∧ day % 100 ≤ 13 then "th"
    else
      match day % 10 with
      | 1 => "st"
      | 2 => "nd"
      | 3 => "rd"
      | _ => "th"
  toString day ++ ending

/-- An hour of the day. -/
def hour (h : Nat) : String :=
  if h = 0 then "12 AM"
  else if h = 12 then "12 PM"
  else if h < 12 then toString h ++ " AM"
  else toString (h - 12) ++ " PM"

/-- A number with at least two digits. -/
def twoDigits (n : Nat) : String :=
  if n < 10 then "0" ++ toString n else toString n

/-- A time of the day.  Numbers past the last hour stay as they are. -/
def time (h minute : Nat) : String :=
  let half := if h < 12 then "AM" else "PM"
  let onDial := if h = 0 then 12 else if 13 ≤ h ∧ h ≤ 23 then h - 12 else h
  toString onDial ++ ":" ++ twoDigits minute ++ " " ++ half

end English

/-- The English language. -/
def english : Language where
  everyMinute := "Every minute"
  everyHour := "Every hour"
  everyMinutes step := "Every " ++ toString step ++ " minutes"
  everyHours step := "every " ++ toString step ++ " hours"
  everyDays step := "every " ++ toString step ++ " days"
  everyMonths step := "every " ++ toString step ++ " months"
  atTimes times := "At " ++ times
  atMinute minute := "At minute " ++ toString minute
  atMinutes minutes := "At minutes " ++ minutes
  minuteSpan first last := "At minutes " ++ toString first ++ "-" ++ toString last
  atHours hours := "at " ++ hours
  hourSpan first last := "between " ++ first ++ " and " ++ last
  onDays days := "on the " ++ days
  daySpan first last := "on the " ++ first ++ " through " ++ last
  onWeekdays weekdays := "on " ++ weekdays
  weekdaySpan first last := "on " ++ first ++ " through " ++ last
  workingDays := "on weekdays"
  weekend := "on weekends"
  inMonths months := "in " ++ months
  monthSpan first last := "in " ++ first ++ "-" ++ last
  dayOrWeekday day weekday := day ++ " or " ++ weekday
  orWord := "or"
  ordinal := English.ordinal
  hour := English.hour
  time := English.time
  weekdayNames :=
    #v["Sunday", "Monday", "Tuesday", "Wednesday", "Thursday", "Friday", "Saturday"]
  weekdayPlurals :=
    #v["Sundays", "Mondays", "Tuesdays", "Wednesdays", "Thursdays", "Fridays", "Saturdays"]
  monthNames :=
    #v["January", "February", "March", "April", "May", "June", "July", "August", "September",
      "October", "November", "December"]

end Crontab
