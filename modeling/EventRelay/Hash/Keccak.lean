import EventRelay.Bytes

/-!
# Keccak-256

The sponge over the permutation of 25 lanes of 64 bits with the padding that Ethereum uses
(`0x01 … 0x80`), rate 136 bytes and a digest of 32 bytes. The lane at column `x` and row `y` is
entry `x + 5 * y` of the state.
-/

namespace EventRelay.Hash.Keccak

/-- The 25 lanes of a state. -/
abbrev State := Vector UInt64 25

/-- The round constants of the step that breaks symmetry. -/
def roundConstants : List UInt64 :=
  [0x0000000000000001, 0x0000000000008082, 0x800000000000808A, 0x8000000080008000,
   0x000000000000808B, 0x0000000080000001, 0x8000000080008081, 0x8000000000008009,
   0x000000000000008A, 0x0000000000000088, 0x0000000080008009, 0x000000008000000A,
   0x000000008000808B, 0x800000000000008B, 0x8000000000008089, 0x8000000000008003,
   0x8000000000008002, 0x8000000000000080, 0x000000000000800A, 0x800000008000000A,
   0x8000000080008081, 0x8000000000008080, 0x0000000080000001, 0x8000000080008008]

/-- How far each lane is rotated. -/
def rotations : Vector UInt64 25 :=
  #v[0, 1, 62, 28, 27, 36, 44, 6, 55, 20, 3, 10, 43, 25, 39, 41, 45, 15, 21, 8, 18, 2, 61, 56, 14]

/-- Rotation to the left by `n` bits, `n` below 64. -/
def rotateLeft (w n : UInt64) : UInt64 :=
  if n = 0 then w else (w <<< n) ||| (w >>> (64 - n))

/-- The column parities, spread to their neighbours. -/
def mixColumns (s : State) : State :=
  let parity : Vector UInt64 5 := Vector.ofFn fun x =>
    s[x.val] ^^^ s[x.val + 5] ^^^ s[x.val + 10] ^^^ s[x.val + 15] ^^^ s[x.val + 20]
  let d : Vector UInt64 5 := Vector.ofFn fun x =>
    parity[(x + 4).val] ^^^ rotateLeft parity[(x + 1).val] 1
  Vector.ofFn fun i =>
    have h : i.val % 5 < 5 := Nat.mod_lt _ (by decide)
    s[i] ^^^ d[i.val % 5]

/-- The rotation of every lane, and its move from column `x`, row `y` to column `y`, row
`2 * x + 3 * y`. -/
def rotateAndMove (s : State) : State :=
  Vector.ofFn fun i =>
    let x := i.val % 5
    let y := i.val / 5
    let source := (x + 3 * y) % 5 + 5 * x
    have h : source < 25 := by omega
    rotateLeft s[source] rotations[source]

/-- The only step that is not linear: each lane takes in the next two lanes of its row. -/
def mixRows (s : State) : State :=
  Vector.ofFn fun i =>
    let row := i.val / 5 * 5
    have h1 : row + (i.val + 1) % 5 < 25 := by omega
    have h2 : row + (i.val + 2) % 5 < 25 := by omega
    s[i] ^^^ (~~~ s[row + (i.val + 1) % 5] &&& s[row + (i.val + 2) % 5])

/-- One round. -/
def round (s : State) (constant : UInt64) : State :=
  let s := mixRows (rotateAndMove (mixColumns s))
  s.set 0 (s[0] ^^^ constant)

/-- The permutation of 24 rounds. -/
def permute (s : State) : State := roundConstants.foldl round s

/-- How many bytes one block takes. -/
def rate : Nat := 136

/-- The message and its padding: a one bit, zeros, and a one bit at the end of the last block. -/
def pad (message : Bytes) : Bytes :=
  let missing := rate - message.length % rate
  if missing = 1 then message ++ [0x81]
  else message ++ 0x01 :: (Bytes.zeros (missing - 2) ++ [0x80])

/-- The little-endian lane at the front of a byte string. -/
def lane (bs : Bytes) : UInt64 :=
  (bs.take 8).foldr (fun b w => (w <<< 8) ||| b.toUInt64) 0

/-- Takes one block into the state. -/
def absorbBlock (s : State) (block : Bytes) : State :=
  permute (Vector.ofFn fun i =>
    if i.val < rate / 8 then s[i] ^^^ lane (block.drop (8 * i.val)) else s[i])

/-- Takes `n` blocks into the state. -/
def absorb : (n : Nat) → State → Bytes → State
  | 0, s, _ => s
  | n + 1, s, bs => absorb n (absorbBlock s (bs.take rate)) (bs.drop rate)

/-- The bytes of a lane, least significant first. -/
def laneBytes (w : UInt64) : Bytes := Bytes.ofNatLittle 8 w.toNat

/-- The 32 bytes of the digest of a message. -/
def digest (message : Bytes) : Bytes :=
  let padded := pad message
  let s := absorb (padded.length / rate) (Vector.replicate 25 0) padded
  laneBytes s[0] ++ laneBytes s[1] ++ laneBytes s[2] ++ laneBytes s[3]

/-- A digest is 32 bytes long. -/
theorem length_digest (message : Bytes) : (digest message).length = 32 := by
  simp [digest, laneBytes, Bytes.ofNatLittle]

end EventRelay.Hash.Keccak
