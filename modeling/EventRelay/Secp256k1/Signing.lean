import EventRelay.Secp256k1.Curve
import EventRelay.Hash.Sha256
import EventRelay.Word

/-!
# Private keys and signatures

A private key is a number between 0 and the order of the curve. It signs a digest with a number
that is drawn from the key and the digest alone, so that a digest always has the same signature. Of
the two valid values of `s` the lower one is taken.
-/

namespace EventRelay.Secp256k1

/-- A private key. -/
structure PrivateKey where
  scalar : Nat
  pos : 0 < scalar
  lt : scalar < order

/-- A signature: the parity of the point it comes from, and two numbers. -/
structure Signature where
  parity : Bool
  r : Nat
  s : Nat
  deriving DecidableEq

namespace PrivateKey

/-- The key of a word, unless the word is zero or too large. -/
def ofWord? (w : Word) : Option PrivateKey :=
  if h : 0 < w.toNat ∧ w.toNat < order then some ⟨w.toNat, h.1, h.2⟩ else none

/-- The account that the key signs for. -/
def address (k : PrivateKey) : Address :=
  let (x, y) := (Point.multiple k.scalar .generator).affine
  .ofBytes ((Hash.Keccak.digest (Bytes.ofNat 32 x ++ Bytes.ofNat 32 y)).drop 12)

/-- The generator that candidates are drawn from: a key of the hash and a value. -/
structure Generator where
  key : Bytes
  value : Bytes

/-- Takes data into the generator. -/
def Generator.update (g : Generator) (data : Bytes) : Generator :=
  let key := Hash.Sha256.keyed g.key (g.value ++ data)
  ⟨key, Hash.Sha256.keyed key g.value⟩

/-- The generator for a key and a digest that is already reduced by the order. -/
def Generator.start (scalar digest : Nat) : Generator :=
  let seed := Bytes.ofNat 32 scalar ++ Bytes.ofNat 32 digest
  let g : Generator := ⟨Bytes.zeros 32, List.replicate 32 1⟩
  (g.update (0 :: seed)).update (1 :: seed)

/-- The first candidate between 0 and the order, of up to `tries` many. -/
def Generator.candidate : (tries : Nat) → Generator → Nat
  | 0, _ => 1
  | tries + 1, g =>
    let value := Hash.Sha256.keyed g.key g.value
    let n := Bytes.toNat value
    if 0 < n ∧ n < order then n
    else Generator.candidate tries (Generator.update ⟨g.key, value⟩ [0])

/-- The signature of a digest. -/
def sign (k : PrivateKey) (digest : Word) : Signature :=
  let z := digest.toNat % order
  let nonce := (Generator.start k.scalar z).candidate 64
  let (x, y) := (Point.multiple nonce .generator).affine
  let r := x % order
  let s := inverse order nonce * ((z + r * k.scalar) % order) % order
  if order / 2 < s then ⟨y % 2 = 0, r, order - s⟩ else ⟨y % 2 = 1, r, s⟩

end PrivateKey

end EventRelay.Secp256k1
