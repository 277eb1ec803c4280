import EventRelay.Bytes
import EventRelay.Text.Hex
import EventRelay.Hash.Keccak

/-!
# Words and addresses

A word is 32 bytes: a topic, a hash, or one slot of an ABI encoding. An address is 20 bytes. Both
are bit vectors; `toBytes` and `ofBytes` go between them and big-endian byte strings.
-/

namespace EventRelay

/-- 32 bytes. -/
abbrev Word := BitVec 256

namespace Word

/-- The 32 bytes of a word, most significant first. -/
def toBytes (w : Word) : Bytes := Bytes.ofNat 32 w.toNat

/-- The word whose big-endian bytes are the last 32 given ones. -/
def ofBytes (bs : Bytes) : Word := BitVec.ofNat 256 (Bytes.toNat bs)

/-- `0x` and 64 digits. -/
def hex (w : Word) : String := Text.Hex.encode w.toBytes

/-- The word of exactly 64 digits, `0x` or not in front. -/
def ofHex? (s : String) : Option Word := do
  let bs ← Text.Hex.decode? s
  if bs.length = 32 then some (ofBytes bs) else none

/-- The Keccak-256 digest of a message. -/
def keccak (message : Bytes) : Word := ofBytes (Hash.Keccak.digest message)

@[simp] theorem length_toBytes (w : Word) : w.toBytes.length = 32 := by
  simp [toBytes]

/-- A word is read back from its bytes. -/
@[simp] theorem ofBytes_toBytes (w : Word) : ofBytes w.toBytes = w := by
  apply BitVec.eq_of_toNat_eq
  have h := w.isLt
  have hc : Bytes.capacity 32 = 2 ^ 256 := rfl
  simp only [ofBytes, toBytes, Bytes.toNat_ofNat, BitVec.toNat_ofNat, hc]
  omega

end Word

/-- The 20 bytes that name an account or a contract. -/
structure Address where
  bits : BitVec 160
  deriving DecidableEq

namespace Address

/-- The address of 20 zero bytes. -/
def zero : Address := ⟨0⟩

/-- The 20 bytes of an address. -/
def toBytes (a : Address) : Bytes := Bytes.ofNat 20 a.bits.toNat

/-- The address whose bytes are the last 20 given ones. -/
def ofBytes (bs : Bytes) : Address := ⟨BitVec.ofNat 160 (Bytes.toNat bs)⟩

/-- The word that holds an address in its low 20 bytes. -/
def toWord (a : Address) : Word := a.bits.setWidth 256

/-- The low 20 bytes of a word. -/
def ofWord (w : Word) : Address := ⟨w.setWidth 160⟩

/-- `0x` and 40 lower-case digits. -/
def hex (a : Address) : String := Text.Hex.encode a.toBytes

/-- The address of exactly 40 digits, `0x` or not in front. -/
def ofHex? (s : String) : Option Address := do
  let bs ← Text.Hex.decode? s
  if bs.length = 20 then some (ofBytes bs) else none

/-- A digit in upper case where the nibble of the digest beside it is 8 or more. -/
def checksumDigit (c : Char) (nibble : Nat) : Char :=
  if 8 ≤ nibble then c.toUpper else c

/-- The checksummed text (EIP-55): a letter is upper case where the digest of the 40 lower-case
digits has a nibble of 8 or more. -/
def checksummed (a : Address) : String :=
  let digits := Text.Hex.digits a.toBytes
  let digest := Hash.Keccak.digest (digits.map fun c => UInt8.ofNat c.toNat)
  let nibbles := digest.flatMap fun b => [b.toNat / 16, b.toNat % 16]
  "0x" ++ String.ofList (List.zipWith checksumDigit digits nibbles)

/-- A word keeps the address put into it. -/
@[simp] theorem ofWord_toWord (a : Address) : ofWord a.toWord = a := by
  cases a with
  | mk bits =>
    simp only [ofWord, toWord, mk.injEq]
    apply BitVec.eq_of_toNat_eq
    have h := bits.isLt
    simp only [BitVec.toNat_setWidth]
    omega

end Address

end EventRelay
