import EventRelay.Text.Decimal

/-!
# The shortest decimal that reads back as a double

A finite double is `m * 2 ^ q`. The reals that round to it form an interval around it, whose ends
belong to it exactly when `m` is even. `shortest` looks at the decimal grids of 1, 2, … 17 digits
and takes the first grid that has a point in the interval; of two such neighbours it takes the one
nearer to the double. All arithmetic is on natural numbers.

`Float.decimalText` writes the digits: positional from 0.0001 up to below 10^16, with a point in
every case, else one digit, the rest after a point, and a signed exponent of at least two digits.
-/

namespace EventRelay.Decimal

/-- A positive double taken apart: `m * 2 ^ q`, and whether the gap below it is half the one
above. -/
structure Parts where
  m : Nat
  q : Int
  narrowBelow : Bool

/-- The parts of the bits of a double without its sign; `none` for infinity and not-a-number. -/
def parts? (bits : Nat) : Option Parts :=
  let unit := Nat.pow 2 52
  let e : Nat := bits / unit % 2048
  let f : Nat := bits % unit
  if e = 2047 then none
  else if e = 0 then some ⟨f, -1074, false⟩
  else some ⟨f + unit, (e : Int) - 1075, f = 0 && 1 < e⟩

/-- Four times the double, and four times the ends of its interval, over one denominator with
`10 ^ k`: numerators and denominator of `value / 10 ^ k`. -/
def scaled (p : Parts) (k : Int) : Nat × Nat × Nat × Nat :=
  let up := Nat.pow 2 p.q.toNat * Nat.pow 10 (-k).toNat
  let down := 4 * (Nat.pow 2 (-p.q).toNat * Nat.pow 10 k.toNat)
  let below := if p.narrowBelow then 4 * p.m - 1 else 4 * p.m - 2
  (4 * p.m * up, below * up, (4 * p.m + 2) * up, down)

/-- The point of the grid of multiples of `10 ^ k` that is in the interval and nearest. -/
def onGrid? (p : Parts) (k : Int) : Option Nat :=
  let (v, lo, hi, den) := scaled p k
  let inside (n : Nat) : Bool :=
    if p.m % 2 = 0 then lo ≤ n * den && n * den ≤ hi else lo < n * den && n * den < hi
  let a := v / den
  let b := a + 1
  match inside a && 0 < a, inside b with
  | true, true => if v - a * den ≤ b * den - v then some a else some b
  | true, false => some a
  | false, true => some b
  | false, false => none

/-- The number of decimal digits of a positive rational's integer part, or minus the number of
zeros after its point: the exponent `e` with `10 ^ (e - 1) ≤ value < 10 ^ e`. -/
def magnitude (p : Parts) : Int :=
  let num := p.m * Nat.pow 2 p.q.toNat
  let den := Nat.pow 2 (-p.q).toNat
  if den ≤ num then (Nat.toDigits 10 (num / den)).length
  else
    let rec zeros (steps : Nat) (num : Nat) (e : Int) : Int :=
      match steps with
      | 0 => e
      | steps + 1 => if den ≤ num * 10 then e else zeros steps (num * 10) (e - 1)
    zeros 400 num 0

/-- The shortest digits `d` and exponent `k` with `d * 10 ^ k` in the interval, trying up to `left`
further grids. -/
def search (p : Parts) (e : Int) : (left : Nat) → (digits : Nat) → Nat × Int
  | 0, digits => (((onGrid? p (e - digits)).getD 0), e - digits)
  | left + 1, digits =>
    match onGrid? p (e - digits) with
    | some d => (d, e - digits)
    | none => search p e left (digits + 1)

/-- Drops the zeros at the end of the digits. -/
def dropZeros : (fuel : Nat) → Nat × Int → Nat × Int
  | 0, r => r
  | fuel + 1, (d, k) => if d ≠ 0 ∧ d % 10 = 0 then dropZeros fuel (d / 10, k + 1) else (d, k)

/-- The shortest digits and exponent of a positive double. -/
def shortest (p : Parts) : Nat × Int := dropZeros 20 (search p (magnitude p) 16 1)

/-- How digits and an exponent of ten are written. -/
def render (digits : List Char) (k : Int) : String :=
  let e := k + digits.length - 1
  let body : List Char :=
    if -5 < e ∧ e < 16 then
      if 0 ≤ k then digits ++ List.replicate k.toNat '0' ++ ['.', '0']
      else if 0 ≤ e then
        digits.take (e + 1).toNat ++ '.' :: digits.drop (e + 1).toNat
      else '0' :: '.' :: (List.replicate (-e - 1).toNat '0' ++ digits)
    else
      let mantissa := match digits with
        | c :: d :: ds => c :: '.' :: d :: ds
        | ds => ds
      let size := Nat.toDigits 10 e.natAbs
      mantissa ++ 'e' :: (if e < 0 then '-' else '+') ::
        (if size.length < 2 then '0' :: size else size)
  String.ofList body

/-- The text of a finite double: the shortest digits that read back, a minus sign for a negative
one and for negative zero. -/
def textOfFloat (f : Float) : String :=
  let bits := f.toBits.toNat
  let signBit := Nat.pow 2 63
  let sign := if bits / signBit = 1 then "-" else ""
  match parts? (bits % signBit) with
  | none => "null"
  | some p =>
    if p.m = 0 then sign ++ "0.0"
    else
      let (d, k) := shortest p
      sign ++ render (Nat.toDigits 10 d) k

end EventRelay.Decimal
