import Lox.Text.Bytes

/-!
Points in time as texts, by the Gregorian calendar.
-/

namespace Lox.Timestamp

/-- A day of the calendar. -/
structure Date where
  year : Int
  month : Nat
  day : Nat
  deriving DecidableEq, Repr

/-- The date that many days after the first of January 1970. Years are counted from March, so that a leap
day comes last; 400 of them have 146097 days. -/
def Date.ofDays (days : Int) : Date :=
  let shifted := days + 719468
  let era := shifted / 146097
  let dayOfEra := (shifted % 146097).toNat
  let yearOfEra := (dayOfEra - dayOfEra / 1460 + dayOfEra / 36524 - dayOfEra / 146096) / 365
  let dayOfYear := dayOfEra - (365 * yearOfEra + yearOfEra / 4 - yearOfEra / 100)
  let march := (5 * dayOfYear + 2) / 153
  let month := if march < 10 then march + 3 else march - 9
  { year := era * 400 + yearOfEra + (if month ≤ 2 then 1 else 0)
    month := month
    day := dayOfYear - (153 * march + 2) / 5 + 1 }

/-- Two digits. -/
def pair (n : Nat) : Bytes :=
  [Bytes.digit (n / 10 % 10), Bytes.digit (n % 10)]

/-- Date and time of day, given in seconds since 1970. -/
def text (seconds : Int) : Bytes :=
  let date := Date.ofDays (seconds / 86400)
  let time := (seconds % 86400).toNat
  Bytes.ofInt date.year ++ 45 :: pair date.month ++ 45 :: pair date.day ++ 84 :: pair (time / 3600) ++
    58 :: pair (time / 60 % 60) ++ 58 :: pair (time % 60) ++ [90]

end Lox.Timestamp
