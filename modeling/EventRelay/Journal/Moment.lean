import EventRelay.Text.Decimal

/-!
# Moments

A moment of universal time, to the microsecond, as lines of the journal show it. The name of a
journal file takes its date only.
-/

namespace EventRelay.Journal

/-- A moment of universal time. -/
structure Moment where
  year : Nat
  month : Nat
  day : Nat
  hour : Nat
  minute : Nat
  second : Nat
  microsecond : Nat

/-- A numeral with zeros in front up to a width. -/
def padded (width n : Nat) : String :=
  let numeral := Text.Decimal.ofNat n
  String.ofList (List.replicate (width - numeral.length) '0') ++ numeral

/-- The date of a moment: year, month and day. -/
def Moment.date (m : Moment) : String :=
  padded 4 m.year ++ "-" ++ padded 2 m.month ++ "-" ++ padded 2 m.day

/-- The text of a moment: its date and its time. -/
def Moment.text (m : Moment) : String :=
  m.date ++ "T" ++ padded 2 m.hour ++ ":" ++ padded 2 m.minute ++ ":" ++ padded 2 m.second ++ "." ++
    padded 6 m.microsecond ++ "Z"

end EventRelay.Journal
