import EventRelay.Bytes

/-!
# Lists of byte strings as one byte string (RLP)

`ofBytes` writes a byte string and `ofList` a list of what is already written. A head says how many
bytes follow: in itself up to 55, in bytes of its own from 56 on. A single byte below 128 stands for
itself. Numbers are written without leading zero bytes.
-/

namespace EventRelay.Rlp

/-- The head for a count of bytes; `base` tells byte strings from lists. -/
def head (base : UInt8) (count : Nat) : Bytes :=
  if count < 56 then [base + UInt8.ofNat count]
  else
    let digits := Bytes.minimal count
    (base + 55 + UInt8.ofNat digits.length) :: digits

/-- A byte string. -/
def ofBytes (bs : Bytes) : Bytes :=
  match bs with
  | [b] => if b < 0x80 then [b] else head 0x80 1 ++ [b]
  | bs => head 0x80 bs.length ++ bs

/-- A number. -/
def ofNat (n : Nat) : Bytes := ofBytes (Bytes.minimal n)

/-- A list whose items are written already. -/
def ofList (items : List Bytes) : Bytes :=
  let body := items.flatten
  head 0xC0 body.length ++ body

end EventRelay.Rlp
