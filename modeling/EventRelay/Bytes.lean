/-!
# Byte strings and big-endian numbers

A byte string is a list of bytes. `Bytes.toNat` reads it as a big-endian number and `Bytes.ofNat`
writes a number with a fixed count of bytes; `toNat_ofNat` says that reading gives back what was
written, modulo the `capacity` of that count. `Bytes.minimal` writes a number with no leading
zero byte.
-/

namespace EventRelay

/-- A byte string. -/
abbrev Bytes := List UInt8

namespace Bytes

/-- The number whose big-endian digits to base 256 are the given bytes. -/
def toNat (bs : Bytes) : Nat :=
  bs.foldl (fun n b => n * 256 + b.toNat) 0

/-- How many numbers a count of bytes can write. -/
def capacity (len : Nat) : Nat := Nat.pow 256 len

/-- The last `len` digits of `n` to base 256, most significant first. -/
def ofNat : (len : Nat) → (n : Nat) → Bytes
  | 0, _ => []
  | len + 1, n => ofNat len (n / 256) ++ [UInt8.ofNat (n % 256)]

/-- The digits of `n` to base 256 without leading zeros; zero has no digits. -/
def minimal (n : Nat) : Bytes :=
  if n = 0 then [] else minimal (n / 256) ++ [UInt8.ofNat (n % 256)]
  termination_by n
  decreasing_by omega

/-- A run of zero bytes. -/
def zeros (n : Nat) : Bytes := List.replicate n 0

/-- The bytes followed by as many zeros as a multiple of 32 needs. -/
def padRight32 (bs : Bytes) : Bytes :=
  bs ++ zeros ((32 - bs.length % 32) % 32)

/-- The bytes of a little-endian number of `len` bytes. -/
def ofNatLittle (len n : Nat) : Bytes := (ofNat len n).reverse

/-- A number written in `len` bytes takes `len` bytes, whether it fits or not. -/
@[simp] theorem length_ofNat (len n : Nat) : (ofNat len n).length = len := by
  induction len generalizing n with
  | zero => rfl
  | succ len ih => simp [ofNat, ih]

@[simp] theorem toNat_nil : toNat [] = 0 := rfl

@[simp] theorem toNat_append_singleton (bs : Bytes) (b : UInt8) :
    toNat (bs ++ [b]) = toNat bs * 256 + b.toNat := by
  simp [toNat, List.foldl_append]

/-- One byte more holds 256 times as many numbers. -/
theorem capacity_succ (len : Nat) : capacity (len + 1) = 256 * capacity len :=
  Nat.mul_comm (Nat.pow 256 len) 256

/-- Writing with `len` bytes keeps a number modulo their capacity. -/
theorem toNat_ofNat (len n : Nat) : toNat (ofNat len n) = n % capacity len := by
  induction len generalizing n with
  | zero => simp [ofNat, capacity, Nat.mod_one]
  | succ len ih =>
    have hb : (UInt8.ofNat (n % 256)).toNat = n % 256 := by
      simp [UInt8.toNat_ofNat']
    rw [ofNat, toNat_append_singleton, ih, hb, capacity_succ, Nat.mod_mul, Nat.mul_comm,
      Nat.add_comm]

end Bytes

end EventRelay
