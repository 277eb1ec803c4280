import EventRelay.Text.Decimal

/-!
# JSON numbers

A number is kept as it is written. `Number.numeral?` says what it stands for: a natural number
below 2^64 or a negative integer of 64 bits if it is written without a point and an exponent and
fits, a double otherwise, and nothing when the double would be infinite.
-/

namespace EventRelay.Json

/-- A number as written. -/
structure Number where
  negative : Bool
  /-- The digits before the point. -/
  whole : List Char
  /-- The digits after the point, empty without one. -/
  fraction : List Char
  exponent : Int
  /-- Whether there is neither a point nor an exponent. -/
  isPlain : Bool
  deriving DecidableEq

/-- What a number stands for. -/
inductive Numeral
  | natural (n : UInt64)
  | negative (i : Int64)
  | float (f : Float)

namespace Number

/-- The number that a natural number is written as. -/
def ofNat (n : Nat) : Number := ⟨false, Nat.toDigits 10 n, [], 0, true⟩

/-- The number that an integer is written as. -/
def ofInt : Int → Number
  | .ofNat n => ofNat n
  | .negSucc n => { ofNat (n + 1) with negative := true }

/-- The value of a plain number without a sign. -/
def natural? (n : Number) : Option Nat :=
  if n.isPlain && !n.negative then some (Text.Decimal.value n.whole) else none

/-- The leading digits that fit 64 bits, and how many digits were left out. -/
def leading : (acc : Nat) → List Char → Nat × Nat
  | acc, [] => (acc, 0)
  | acc, c :: cs =>
    let next := acc * 10 + (c.toNat - '0'.toNat)
    if next < UInt64.size then leading next cs else (acc, cs.length + 1)

/-- A double times a power of ten, by at most one multiplication or by divisions. -/
def scale (f : Float) (exponent : Int) : Float :=
  match exponent with
  | .ofNat e => if e ≤ 308 then f * Float.ofScientific 1 false e else if f == 0 then f else 1 / 0
  | .negSucc e =>
    let rec down (f : Float) (steps : Nat) : Float :=
      match steps with
      | 0 => f / Float.ofScientific 1 false ((e + 1) % 308)
      | steps + 1 => down (f / Float.ofScientific 1 false 308) steps
    if e + 1 ≤ 308 then f / Float.ofScientific 1 false (e + 1)
    else if e + 1 > 10000 then 0 else down f ((e + 1) / 308)

/-- The double near a number, from its leading digits. -/
def toFloat (n : Number) : Float :=
  let (digits, dropped) := leading 0 (n.whole ++ n.fraction)
  let f := scale (Float.ofNat digits) (n.exponent + dropped - n.fraction.length)
  if n.negative then -f else f

/-- What the number stands for; `none` when it is too large for a double. -/
def numeral? (n : Number) : Option Numeral :=
  let v := Text.Decimal.value n.whole
  if n.isPlain && !n.negative && v < UInt64.size then some (.natural (UInt64.ofNat v))
  else if n.isPlain && n.negative && 0 < v && 2 * v ≤ UInt64.size then
    some (.negative (Int64.ofInt (-v)))
  else
    let f := n.toFloat
    if f.isInf then none else some (.float f)

end Number

end EventRelay.Json
