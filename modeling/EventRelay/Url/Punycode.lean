import EventRelay.Text.Decimal

/-!
# Punycode

The encoding of a label of any characters in ASCII. A label is the plain characters, a hyphen, and
numbers of variable length that say which character goes in next and where. Only reading is needed:
it tells whether a label that claims to be encoded is.
-/

namespace EventRelay.Url.Punycode

/-- The value of a digit: the letters, then the figures. -/
def digit? (c : Char) : Option Nat :=
  if 'a' ≤ c ∧ c ≤ 'z' then some (c.toNat - 'a'.toNat)
  else if 'A' ≤ c ∧ c ≤ 'Z' then some (c.toNat - 'A'.toNat)
  else if '0' ≤ c ∧ c ≤ '9' then some (c.toNat - '0'.toNat + 26)
  else none

/-- The bias halves a step while it is large. -/
def halve : (fuel : Nat) → (delta k : Nat) → Nat × Nat
  | 0, delta, k => (delta, k)
  | fuel + 1, delta, k => if delta > 455 then halve fuel (delta / 35) (k + 36) else (delta, k)

/-- The bias after a number `delta` that was read as one of `count` characters. -/
def adapt (delta count : Nat) (first : Bool) : Nat :=
  let delta := if first then delta / 700 else delta / 2
  let (delta, k) := halve 64 (delta + delta / count) 0
  k + 36 * delta / (delta + 38)

/-- The number that begins here, added to `i`. -/
def number? (bias : Nat) : (i weight k : Nat) → List Char → Option (Nat × List Char)
  | _, _, _, [] => none
  | i, weight, k, c :: cs => do
    let d ← digit? c
    let i := i + d * weight
    let t := if k ≤ bias then 1 else if bias + 26 ≤ k then 26 else k - bias
    if UInt32.size ≤ i then none
    else if d < t then some (i, cs)
    else number? bias i (weight * (36 - t)) (k + 36) cs

/-- Puts characters into `out`; `n` is the last one put in and `i` its place. -/
def insertions? : (fuel : Nat) → (n i bias : Nat) → (first : Bool) → (out : List Char) →
    List Char → Option (List Char)
  | _, _, _, _, _, out, [] => some out
  | 0, _, _, _, _, _, _ => none
  | fuel + 1, n, i, bias, first, out, cs => do
    let (j, rest) ← number? bias i 1 36 cs
    let count := out.length + 1
    let n := n + j / count
    if 0x110000 ≤ n || (0xD800 ≤ n && n < 0xE000) then none
    else
      let place := j % count
      insertions? fuel n (place + 1) (adapt (j - i) count first) false
        (out.take place ++ Char.ofNat n :: out.drop place) rest

/-- The characters of an encoded label. -/
def decode? (label : List Char) : Option (List Char) :=
  let tail := (label.reverse.takeWhile (· ≠ '-')).reverse
  let plain := label.take (label.length - tail.length - 1)
  insertions? (label.length + 1) 128 0 72 true plain tail

end EventRelay.Url.Punycode
