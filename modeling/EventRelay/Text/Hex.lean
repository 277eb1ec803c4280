import EventRelay.Bytes

/-!
# Hexadecimal text

Bytes are written as two lower-case digits each, after `0x` where a value is shown on its own.
Reading takes digits of either case; `ofDigits?` refuses an odd count.
-/

namespace EventRelay.Text.Hex

/-- The digit of a number below sixteen. -/
def digit (n : Nat) : Char :=
  if n < 10 then Char.ofNat ('0'.toNat + n) else Char.ofNat ('a'.toNat + (n - 10))

/-- The value of a digit of either case. -/
def value? (c : Char) : Option Nat :=
  if '0' ≤ c ∧ c ≤ '9' then some (c.toNat - '0'.toNat)
  else if 'a' ≤ c ∧ c ≤ 'f' then some (c.toNat - 'a'.toNat + 10)
  else if 'A' ≤ c ∧ c ≤ 'F' then some (c.toNat - 'A'.toNat + 10)
  else none

/-- Whether a character is a digit of either case. -/
def isDigit (c : Char) : Bool := (value? c).isSome

/-- The digits of a byte string. -/
def digits (bs : Bytes) : List Char :=
  bs.flatMap fun b => [digit (b.toNat / 16), digit (b.toNat % 16)]

/-- A byte string as `0x` and its digits. -/
def encode (bs : Bytes) : String := "0x" ++ String.ofList (digits bs)

/-- The byte string of an even number of digits. -/
def ofDigits? : List Char → Option Bytes
  | [] => some []
  | [_] => none
  | hi :: lo :: rest => do
    let h ← value? hi
    let l ← value? lo
    let bs ← ofDigits? rest
    pure (UInt8.ofNat (h * 16 + l) :: bs)

/-- The characters after a leading `0x` or `0X`, or all of them. -/
def dropMark : List Char → List Char
  | '0' :: 'x' :: rest => rest
  | '0' :: 'X' :: rest => rest
  | cs => cs

/-- The byte string of a text with or without a mark in front. -/
def decode? (s : String) : Option Bytes := ofDigits? (dropMark s.toList)

/-- A number to base sixteen without leading zeros. -/
def ofNat (n : Nat) : String := String.ofList (Nat.toDigits 16 n)

end EventRelay.Text.Hex
