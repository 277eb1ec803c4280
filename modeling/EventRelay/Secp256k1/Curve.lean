/-!
# The curve secp256k1

Points of `y ^ 2 = x ^ 3 + 7` over the integers modulo a prime of 256 bits. A point is kept as
`(x, y, z)`, which stands for `(x / z ^ 2, y / z ^ 3)`; `z = 0` is the point at infinity. Division
is multiplication by a power, so it happens only when a point is brought back to two coordinates.
-/

namespace EventRelay.Secp256k1

/-- The prime that coordinates are reduced by. -/
def prime : Nat := 0xFFFFFFFFFFFFFFFFFFFFFFFFFFFFFFFFFFFFFFFFFFFFFFFFFFFFFFFEFFFFFC2F

/-- The number of points, a prime. -/
def order : Nat := 0xFFFFFFFFFFFFFFFFFFFFFFFFFFFFFFFEBAAEDCE6AF48A03BBFD25E8CD0364141

/-- The bits of a number, the highest first. -/
def bits (n : Nat) : List Bool := (Nat.toDigits 2 n).map (· = '1')

/-- A power modulo `m`. -/
def powMod (m base exponent : Nat) : Nat :=
  (bits exponent).foldl (fun acc b => let sq := acc * acc % m; if b then sq * base % m else sq) 1

/-- The inverse modulo a prime `m`. -/
def inverse (m n : Nat) : Nat := powMod m (n % m) (m - 2)

/-- A point. -/
structure Point where
  x : Nat
  y : Nat
  z : Nat

namespace Point

/-- The point at infinity. -/
def infinity : Point := ⟨1, 1, 0⟩

/-- The point whose multiples are all points. -/
def generator : Point :=
  ⟨0x79BE667EF9DCBBAC55A06295CE870B07029BFCDB2DCE28D959F2815B16F81798,
   0x483ADA7726A3C4655DA4FBFC0E1108A8FD17B448A68554199C47D08FFB10D4B8, 1⟩

/-- The difference modulo the prime. -/
def sub (a b : Nat) : Nat := (a + prime - b % prime) % prime

/-- Twice a point. -/
def double (p : Point) : Point :=
  if p.z = 0 || p.y = 0 then infinity
  else
    let yy := p.y * p.y % prime
    let s := 4 * p.x * yy % prime
    let m := 3 * p.x * p.x % prime
    let x := sub (m * m) (2 * s)
    ⟨x, sub (m * sub s x) (8 * yy * yy), 2 * p.y * p.z % prime⟩

/-- The sum of two points. -/
def add (p q : Point) : Point :=
  if p.z = 0 then q
  else if q.z = 0 then p
  else
    let pzz := p.z * p.z % prime
    let qzz := q.z * q.z % prime
    let u1 := p.x * qzz % prime
    let u2 := q.x * pzz % prime
    let s1 := p.y * qzz * q.z % prime
    let s2 := q.y * pzz * p.z % prime
    if u1 = u2 then if s1 = s2 then double p else infinity
    else
      let h := sub u2 u1
      let r := sub s2 s1
      let hh := h * h % prime
      let hhh := h * hh % prime
      let v := u1 * hh % prime
      let x := sub (r * r) (hhh + 2 * v)
      ⟨x, sub (r * sub v x) (s1 * hhh), p.z * q.z * h % prime⟩

/-- A multiple of a point, by doubling and adding. -/
def multiple (n : Nat) (p : Point) : Point :=
  (bits n).foldl (fun acc b => let d := double acc; if b then add d p else d) infinity

/-- The two coordinates of a point other than infinity. -/
def affine (p : Point) : Nat × Nat :=
  let i := inverse prime p.z
  let ii := i * i % prime
  (p.x * ii % prime, p.y * ii * i % prime)

end Point

end EventRelay.Secp256k1
