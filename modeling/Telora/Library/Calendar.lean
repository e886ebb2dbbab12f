import Mathlib.Data.Nat.Notation
import Mathlib.Order.Basic

/-!
# Calendar dates and times of day

Dates of the Gregorian calendar, times of day with a decimal fraction of a second, and
offsets from universal time. Only valid ones can be built.
-/

namespace Telora.Library

/-- Leap years by the Gregorian rule. -/
def Leap (year : Nat) : Prop := 4 ∣ year ∧ (100 ∣ year → 400 ∣ year)

instance (year : Nat) : Decidable (Leap year) := by
  unfold Leap
  infer_instance

/-- The days of a month. -/
def daysIn (year month : Nat) : Nat :=
  if month = 2 then if Leap year then 29 else 28
  else if month ∈ [4, 6, 9, 11] then 30
  else 31

@[ext] structure Date where
  year : Nat
  month : Nat
  day : Nat
  month_mem : 1 ≤ month ∧ month ≤ 12
  day_mem : 1 ≤ day ∧ day ≤ daysIn year month

/-- A time of day; the fraction of the second is kept as its decimal digits. The leap second
60 is left out, as the readers of the source refuse it. -/
@[ext] structure TimeOfDay where
  hour : Nat
  minute : Nat
  second : Nat
  fraction : List Nat
  hour_lt : hour < 24
  minute_lt : minute < 60
  second_lt : second < 60
  fraction_lt : ∀ digit ∈ fraction, digit < 10

/-- The minutes by which local time is ahead of universal time. -/
@[ext] structure Offset where
  minutes : Int
  minutes_lt : -1440 < minutes ∧ minutes < 1440

def Offset.utc : Offset := ⟨0, by decide, by decide⟩

/-- A date, a time of day, both, or both with an offset. -/
inductive Temporal
  | localDate (date : Date)
  | localTime (time : TimeOfDay)
  | localDateTime (date : Date) (time : TimeOfDay)
  | offsetDateTime (date : Date) (time : TimeOfDay) (offset : Offset)

end Telora.Library
