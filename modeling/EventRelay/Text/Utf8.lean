import EventRelay.Bytes

/-!
# UTF-8

`encode` writes a text as UTF-8. `decodeLossy` reads any bytes: each maximal part that begins a
character but does not finish one, and each byte that can begin none, becomes U+FFFD.
-/

namespace EventRelay.Text.Utf8

/-- The UTF-8 bytes of a text. -/
def encode (s : String) : Bytes := s.toUTF8.toList

/-- The mark that stands for bytes that form no character. -/
def replacement : Char := Char.ofNat 0xFFFD

/-- How many bytes follow a first byte, and the range of the first of them. -/
def lead? (b : UInt8) : Option (Nat × UInt8 × UInt8) :=
  if b < 0x80 then some (0, 0, 0)
  else if b < 0xC2 then none
  else if b < 0xE0 then some (1, 0x80, 0xBF)
  else if b = 0xE0 then some (2, 0xA0, 0xBF)
  else if b = 0xED then some (2, 0x80, 0x9F)
  else if b < 0xF0 then some (2, 0x80, 0xBF)
  else if b = 0xF0 then some (3, 0x90, 0xBF)
  else if b < 0xF4 then some (3, 0x80, 0xBF)
  else if b = 0xF4 then some (3, 0x80, 0x8F)
  else none

/-- The payload bits of a first byte that `n` bytes follow. -/
def leadBits (b : UInt8) (n : Nat) : Nat :=
  match n with
  | 0 => b.toNat
  | 1 => b.toNat % 32
  | 2 => b.toNat % 16
  | _ => b.toNat % 8

/-- Reads up to `n` continuation bytes, the first between `lo` and `hi`, onto `acc`: the character
if all are there, and what follows the last byte taken. -/
def tails : (n : Nat) → (lo hi : UInt8) → (acc : Nat) → Bytes → Option Char × Bytes
  | 0, _, _, acc, bs => (some (Char.ofNat acc), bs)
  | _ + 1, _, _, _, [] => (none, [])
  | n + 1, lo, hi, acc, b :: bs =>
    if lo ≤ b && b ≤ hi then tails n 0x80 0xBF (acc * 64 + b.toNat % 64) bs else (none, b :: bs)

/-- Reading the continuation bytes of a character never makes the rest longer. -/
theorem length_tails_le (n : Nat) (lo hi : UInt8) (acc : Nat) (bs : Bytes) :
    (tails n lo hi acc bs).2.length ≤ bs.length := by
  induction n generalizing lo hi acc bs with
  | zero => simp [tails]
  | succ n ih =>
    cases bs with
    | nil => simp [tails]
    | cons b bs =>
      simp only [tails]
      split
      · exact Nat.le_trans (ih ..) (by simp)
      · simp

/-- The characters of a byte string, with U+FFFD for what is not UTF-8. -/
def decodeChars : Bytes → List Char
  | [] => []
  | b :: bs =>
    match lead? b with
    | none => replacement :: decodeChars bs
    | some (n, lo, hi) =>
      let r := tails n lo hi (leadBits b n) bs
      r.1.getD replacement :: decodeChars r.2
  termination_by bs => bs.length
  decreasing_by
    · simp
    · have := length_tails_le n lo hi (leadBits b n) bs
      simp only [List.length_cons]
      omega

/-- The text of a byte string, with U+FFFD for what is not UTF-8. -/
def decodeLossy (bs : Bytes) : String := String.ofList (decodeChars bs)

end EventRelay.Text.Utf8
