import EventRelay.Json.Basic
import EventRelay.Text.Hex

/-!
# Quantities of nodes

A node writes a natural number as a JSON number or as a text: digits to base sixteen, eight or two
after their mark, or decimal digits without one. Underscores among the digits say nothing, and no
digits at all are zero. A number that needs more bits than its place has is refused.
-/

namespace EventRelay.Rpc.Quantity

/-- The base that the first two characters of a text mark, and the characters after the mark. -/
def base : List Char → Nat × List Char
  | '0' :: 'x' :: rest => (16, rest)
  | '0' :: 'X' :: rest => (16, rest)
  | '0' :: 'o' :: rest => (8, rest)
  | '0' :: 'O' :: rest => (8, rest)
  | '0' :: 'b' :: rest => (2, rest)
  | '0' :: 'B' :: rest => (2, rest)
  | cs => (10, cs)

/-- The number that digits to a base stand for after those that gave `n`. -/
def value? (base : Nat) : (n : Nat) → List Char → Option Nat
  | n, [] => some n
  | n, c :: cs =>
    if c = '_' then value? base n cs
    else
      match Text.Hex.value? c with
      | some d => if d < base then value? base (n * base + d) cs else none
      | none => none

/-- The number of a text. -/
def ofText? (s : String) : Option Nat :=
  let (base, digits) := base s.toList
  value? base 0 digits

/-- The number of a JSON value, if it fits the bits of its place. -/
def ofJson? (bits : Nat) (j : Json) : Option Nat := do
  let n ← match j with
    | .num n =>
      match n.numeral? with
      | some (.natural v) => some v.toNat
      | _ => none
    | .str s => ofText? s
    | _ => none
  if n < Nat.pow 2 bits then some n else none

/-- A number of 64 bits. -/
def word64? (j : Json) : Option UInt64 := (ofJson? 64 j).map UInt64.ofNat

end EventRelay.Rpc.Quantity
