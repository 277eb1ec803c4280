import EventRelay.Word
import Mathlib.Data.List.Induction

/-!
# Bytes and the numbers that they are

A byte string is a number, and with its length it is written again from that number. A number has
one byte string without leading zero bytes.

Main statements:

* `Bytes.ofNat_toNat`: a byte string is what its number is written as in as many bytes;
* `Bytes.minimal_toNat`: and without leading zero bytes, if it has none.
-/

namespace EventRelay

namespace Bytes

/-- The number of some bytes is below their capacity. -/
theorem toNat_lt (bs : Bytes) : toNat bs < capacity bs.length := by
  induction bs using List.reverseRecOn with
  | nil => exact Nat.one_pos
  | append_singleton bs b ih =>
    have hb : b.toNat < 256 := b.toNat_lt
    rw [toNat_append_singleton, List.length_append, List.length_singleton, capacity_succ]
    omega

/-- A byte string is written again from the number that it is. -/
theorem ofNat_toNat (bs : Bytes) : ofNat bs.length (toNat bs) = bs := by
  induction bs using List.reverseRecOn with
  | nil => rfl
  | append_singleton bs b ih =>
    have hb : b.toNat < 256 := b.toNat_lt
    have hdiv : (toNat bs * 256 + b.toNat) / 256 = toNat bs := by omega
    have hmod : (toNat bs * 256 + b.toNat) % 256 = b.toNat := by omega
    rw [List.length_append, List.length_singleton, toNat_append_singleton, ofNat, hdiv, hmod, ih,
      UInt8.ofNat_toNat]

/-! ## Without leading zero bytes -/

/-- The shortest bytes of a number stand for it. -/
theorem toNat_minimal (n : Nat) : toNat (minimal n) = n := by
  fun_induction minimal n with
  | case1 => rfl
  | case2 n hn ih =>
    have hb : (UInt8.ofNat (n % 256)).toNat = n % 256 := by simp [UInt8.toNat_ofNat']
    rw [toNat_append_singleton, ih, hb]
    omega

theorem minimal_of_ne_zero {n : Nat} (hn : n ≠ 0) :
    minimal n = minimal (n / 256) ++ [UInt8.ofNat (n % 256)] := by
  rw [minimal, if_neg hn]

/-- The shortest bytes of a number do not begin with zero. -/
theorem head?_minimal (n : Nat) : (minimal n).head? ≠ some 0 := by
  fun_induction minimal n with
  | case1 => nofun
  | case2 n hn ih =>
    rw [List.head?_append]
    cases hfirst : minimal (n / 256) with
    | cons b bs => rwa [hfirst] at ih
    | nil =>
      -- The number is a single byte.
      have hdiv := toNat_minimal (n / 256)
      rw [hfirst, toNat_nil] at hdiv
      intro hzero
      have hb := congrArg UInt8.toNat (Option.some.inj hzero)
      rw [UInt8.toNat_ofNat'] at hb
      have h0 : (0 : UInt8).toNat = 0 := rfl
      omega

/-- **A byte string without leading zero bytes is written again from the number that it is.** -/
theorem minimal_toNat {bs : Bytes} (h : bs.head? ≠ some 0) : minimal (toNat bs) = bs := by
  induction bs using List.reverseRecOn with
  | nil => rw [toNat_nil, minimal, if_pos rfl]
  | append_singleton bs b ih =>
    have hb : b.toNat < 256 := b.toNat_lt
    have hbs : minimal (toNat bs) = bs := ih fun hzero => h (by rw [List.head?_append, hzero]; rfl)
    have hne : toNat bs * 256 + b.toNat ≠ 0 := by
      intro hzero
      have hbs0 : toNat bs = 0 := by omega
      have hb0 : b = 0 := UInt8.toNat_inj.mp (Nat.eq_zero_of_add_eq_zero_left hzero)
      rw [hbs0, minimal, if_pos rfl] at hbs
      exact h (by rw [← hbs, hb0]; rfl)
    have hdiv : (toNat bs * 256 + b.toNat) / 256 = toNat bs := by omega
    have hmod : (toNat bs * 256 + b.toNat) % 256 = b.toNat := by omega
    rw [toNat_append_singleton, minimal_of_ne_zero hne, hdiv, hmod, hbs, UInt8.ofNat_toNat]

/-- A number takes no more bytes than one of its size fits into. -/
theorem length_minimal_le {n len : Nat} (h : n < capacity len) : (minimal n).length ≤ len := by
  induction len generalizing n with
  | zero =>
    obtain rfl : n = 0 := Nat.lt_one_iff.mp h
    rw [minimal, if_pos rfl]
    exact Nat.le_refl 0
  | succ len ih =>
    by_cases hn : n = 0
    · rw [hn, minimal, if_pos rfl]
      exact Nat.zero_le _
    · rw [capacity_succ] at h
      have hlength := ih (n := n / 256) (by omega)
      rw [minimal_of_ne_zero hn, List.length_append, List.length_singleton]
      omega

end Bytes

/-- A word keeps the 32 bytes it is made of. -/
theorem Word.toBytes_ofBytes {bs : Bytes} (h : bs.length = 32) :
    (Word.ofBytes bs).toBytes = bs := by
  have hlt := Bytes.toNat_lt bs
  rw [h] at hlt
  have hvalue : (Word.ofBytes bs).toNat = Bytes.toNat bs := Nat.mod_eq_of_lt hlt
  rw [Word.toBytes, hvalue, ← h, Bytes.ofNat_toNat]

/-- An address keeps the 20 bytes it is made of. -/
theorem Address.toBytes_ofBytes {bs : Bytes} (h : bs.length = 20) :
    (Address.ofBytes bs).toBytes = bs := by
  have hlt := Bytes.toNat_lt bs
  rw [h] at hlt
  have hvalue : (Address.ofBytes bs).bits.toNat = Bytes.toNat bs := Nat.mod_eq_of_lt hlt
  rw [Address.toBytes, hvalue, ← h, Bytes.ofNat_toNat]

/-- An address is read back from its bytes. -/
theorem Address.ofBytes_toBytes (a : Address) : ofBytes a.toBytes = a := by
  have hvalue : Bytes.toNat a.toBytes = a.bits.toNat := by
    rw [toBytes, Bytes.toNat_ofNat]
    exact Nat.mod_eq_of_lt a.bits.isLt
  rw [ofBytes, hvalue, BitVec.ofNat_toNat, BitVec.setWidth_eq]

end EventRelay
