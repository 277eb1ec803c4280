/-!
# How alike two words are

`likeness` counts the letters that two words share at nearly the same place and how many of those
are out of order (the measure of Jaro). It is between 0 and 1, and 1 for equal words.
-/

namespace EventRelay.CommandLine

/-- Marks the first free place from `low` up to `high` (not included) that holds a letter. -/
def claim? (letter : Char) (low high : Nat) : (place : Nat) → List (Char × Bool) →
    Option (List (Char × Bool))
  | _, [] => none
  | place, (c, taken) :: rest =>
    if high ≤ place then none
    else if low ≤ place && c = letter && !taken then some ((c, true) :: rest)
    else (claim? letter low high (place + 1) rest).map ((c, taken) :: ·)

/-- The letters of a word from a place on that find a partner, and the other word with the partners
marked. -/
def partners (reach : Nat) : (place : Nat) → List Char → List (Char × Bool) →
    List Char × List (Char × Bool)
  | _, [], other => ([], other)
  | place, c :: rest, other =>
    match claim? c (place - reach) (place + reach + 1) 0 other with
    | some other =>
      let (found, other) := partners reach (place + 1) rest other
      (c :: found, other)
    | none => partners reach (place + 1) rest other

/-- How alike two words are. -/
def likeness (a b : String) : Float :=
  let as := a.toList
  let bs := b.toList
  if as.isEmpty && bs.isEmpty then 1
  else
    let reach := max as.length bs.length / 2 - 1
    let (found, marked) := partners reach 0 as (bs.map (·, false))
    let taken := (marked.filter (·.2)).map (·.1)
    let crossed := ((found.zip taken).filter fun (x, y) => x ≠ y).length / 2
    let m := found.length
    if m = 0 then 0
    else
      (Float.ofNat m / Float.ofNat as.length + Float.ofNat m / Float.ofNat bs.length +
        Float.ofNat (m - crossed) / Float.ofNat m) / 3

end EventRelay.CommandLine
