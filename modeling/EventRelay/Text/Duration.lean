import EventRelay.Text.Decimal

/-!
# Durations as text

A duration is written in the largest of seconds and milliseconds that it fills, with the decimals
that are not zero; no time at all is `0ns`.
-/

namespace EventRelay.Text.Duration

/-- The three decimals of a number below a thousand without the zeros at the end. -/
def decimals (n : Nat) : List Char :=
  ([n / 100, n / 10 % 10, n % 10].map Nat.digitChar).reverse.dropWhile (· = '0') |>.reverse

/-- A duration in milliseconds. -/
def ofMilliseconds (ms : Nat) : String :=
  if ms = 0 then "0ns"
  else if ms < 1000 then Decimal.ofNat ms ++ "ms"
  else
    match decimals (ms % 1000) with
    | [] => Decimal.ofNat (ms / 1000) ++ "s"
    | ds => Decimal.ofNat (ms / 1000) ++ "." ++ String.ofList ds ++ "s"

end EventRelay.Text.Duration
