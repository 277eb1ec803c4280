import EventRelay.Text.Utf8

/-!
# Text that is written as UTF-8 is read back

`decodeLossy_encode`: nothing of a text is lost when its UTF-8 bytes are read. `reads_char` is that
for one character, by the number of bytes that it takes.
-/

namespace EventRelay.Text.Utf8

/-- The bytes of a character as numbers. -/
theorem toNat_ofNat_lt {n : Nat} (h : n < 256) : (UInt8.ofNat n).toNat = n := by
  rw [UInt8.toNat_ofNat']
  exact Nat.mod_eq_of_lt h

/-- A continuation byte in its range is taken. -/
theorem tails_cons {n acc low : Nat} {lo hi : UInt8} (bs : Bytes) (hn : low < 64)
    (hlo : lo.toNat ≤ low + 0x80) (hhi : low + 0x80 ≤ hi.toNat) :
    tails (n + 1) lo hi acc (UInt8.ofNat (low + 0x80) :: bs) =
      tails n 0x80 0xBF (acc * 64 + low) bs := by
  have hb : (UInt8.ofNat (low + 0x80)).toNat = low + 0x80 := toNat_ofNat_lt (by omega)
  have hrange : (lo ≤ UInt8.ofNat (low + 0x80) && UInt8.ofNat (low + 0x80) ≤ hi) = true := by
    simp only [Bool.and_eq_true, decide_eq_true_eq, UInt8.le_iff_toNat_le, hb]
    exact ⟨hlo, hhi⟩
  have hlow : (low + 0x80) % 64 = low := by omega
  rw [tails, if_pos hrange, hb, hlow]

/-- What is read of a first byte and of the continuation bytes after it. -/
theorem decodeChars_cons {b : UInt8} {n : Nat} {lo hi : UInt8} {bs rest : Bytes} {c : Char}
    (hlead : lead? b = some (n, lo, hi))
    (htails : tails n lo hi (leadBits b n) bs = (some c, rest)) :
    decodeChars (b :: bs) = c :: decodeChars rest := by
  rw [decodeChars, hlead]
  dsimp only
  rw [htails]
  rfl

/-- What a first byte says, by the number that it is. -/
theorem lead?_ofNat {n : Nat} (h : n < 256) : lead? (UInt8.ofNat n) =
    if n < 0x80 then some (0, 0, 0)
    else if n < 0xC2 then none
    else if n < 0xE0 then some (1, 0x80, 0xBF)
    else if n = 0xE0 then some (2, 0xA0, 0xBF)
    else if n = 0xED then some (2, 0x80, 0x9F)
    else if n < 0xF0 then some (2, 0x80, 0xBF)
    else if n = 0xF0 then some (3, 0x90, 0xBF)
    else if n < 0xF4 then some (3, 0x80, 0xBF)
    else if n = 0xF4 then some (3, 0x80, 0x8F)
    else none := by
  have hlt : ∀ b : UInt8, UInt8.ofNat n < b ↔ n < b.toNat := by
    intro b
    rw [UInt8.lt_iff_toNat_lt, toNat_ofNat_lt h]
  have heq : ∀ b : UInt8, UInt8.ofNat n = b ↔ n = b.toNat := by
    intro b
    rw [← UInt8.toNat_inj, toNat_ofNat_lt h]
  simp only [lead?, hlt, heq, UInt8.reduceToNat]

/-- One byte below 128 is a character. -/
theorem decodeChars_one {a : Nat} (bs : Bytes) (ha : a < 0x80) :
    decodeChars (UInt8.ofNat a :: bs) = Char.ofNat a :: decodeChars bs := by
  have hlead : lead? (UInt8.ofNat a) = some (0, 0, 0) := by
    rw [lead?_ofNat (by omega), if_pos ha]
  have hbits : leadBits (UInt8.ofNat a) 0 = a := toNat_ofNat_lt (by omega)
  exact decodeChars_cons hlead (by rw [hbits]; rfl)

/-- A character of two bytes: five bits and six. -/
theorem decodeChars_two {a b : Nat} (bs : Bytes) (ha : 2 ≤ a) (ha' : a < 32) (hb : b < 64) :
    decodeChars (UInt8.ofNat (a + 0xC0) :: UInt8.ofNat (b + 0x80) :: bs) =
      Char.ofNat (a * 64 + b) :: decodeChars bs := by
  have hlead : lead? (UInt8.ofNat (a + 0xC0)) = some (1, 0x80, 0xBF) := by
    rw [lead?_ofNat (by omega), if_neg (by omega), if_neg (by omega), if_pos (by omega)]
  have hbits : leadBits (UInt8.ofNat (a + 0xC0)) 1 = a := by
    show (UInt8.ofNat (a + 0xC0)).toNat % 32 = a
    rw [toNat_ofNat_lt (by omega)]
    omega
  refine decodeChars_cons hlead ?_
  rw [hbits, tails_cons bs hb (by simp) (by simp; omega)]
  rfl

/-- A character of three bytes, by the range that its first byte allows. -/
theorem decodeChars_three {a b d : Nat} {lo hi : UInt8} (bs : Bytes)
    (hlead : lead? (UInt8.ofNat (a + 0xE0)) = some (2, lo, hi)) (ha : a < 16) (hb : b < 64)
    (hd : d < 64) (hlo : lo.toNat ≤ b + 0x80) (hhi : b + 0x80 ≤ hi.toNat) :
    decodeChars (UInt8.ofNat (a + 0xE0) :: UInt8.ofNat (b + 0x80) :: UInt8.ofNat (d + 0x80) :: bs) =
      Char.ofNat ((a * 64 + b) * 64 + d) :: decodeChars bs := by
  have hbits : leadBits (UInt8.ofNat (a + 0xE0)) 2 = a := by
    show (UInt8.ofNat (a + 0xE0)).toNat % 16 = a
    rw [toNat_ofNat_lt (by omega)]
    omega
  refine decodeChars_cons hlead ?_
  rw [hbits, tails_cons _ hb hlo hhi, tails_cons bs hd (by simp) (by simp; omega)]
  rfl

/-- A character of four bytes, by the range that its first byte allows. -/
theorem decodeChars_four {a b d e : Nat} {lo hi : UInt8} (bs : Bytes)
    (hlead : lead? (UInt8.ofNat (a + 0xF0)) = some (3, lo, hi)) (ha : a < 8) (hb : b < 64)
    (hd : d < 64) (he : e < 64) (hlo : lo.toNat ≤ b + 0x80) (hhi : b + 0x80 ≤ hi.toNat) :
    decodeChars (UInt8.ofNat (a + 0xF0) :: UInt8.ofNat (b + 0x80) :: UInt8.ofNat (d + 0x80) ::
        UInt8.ofNat (e + 0x80) :: bs) =
      Char.ofNat (((a * 64 + b) * 64 + d) * 64 + e) :: decodeChars bs := by
  have hbits : leadBits (UInt8.ofNat (a + 0xF0)) 3 = a := by
    show (UInt8.ofNat (a + 0xF0)).toNat % 8 = a
    rw [toNat_ofNat_lt (by omega)]
    omega
  refine decodeChars_cons hlead ?_
  rw [hbits, tails_cons _ hb hlo hhi, tails_cons _ hd (by simp) (by simp; omega),
    tails_cons bs he (by simp) (by simp; omega)]
  rfl

/-- The first of three bytes of a character, and what may follow it: no character is written with
more bytes than it needs, and none is a surrogate. -/
theorem lead?_three {v : Nat} (h : ¬ v ≤ 0x7FF) (h' : v ≤ 0xFFFF)
    (hv : v < 0xD800 ∨ 0xDFFF < v ∧ v < 0x110000) :
    ∃ lo hi, lead? (UInt8.ofNat (v / 4096 % 0x10 + 0xE0)) = some (2, lo, hi) ∧
      lo.toNat ≤ v / 64 % 0x40 + 0x80 ∧ v / 64 % 0x40 + 0x80 ≤ hi.toNat := by
  rw [lead?_ofNat (by omega), if_neg (by omega), if_neg (by omega), if_neg (by omega)]
  split
  next heq => exact ⟨0xA0, 0xBF, rfl, by simp; omega, by simp; omega⟩
  next =>
    split
    next heq => exact ⟨0x80, 0x9F, rfl, by simp, by simp; omega⟩
    next => exact ⟨0x80, 0xBF, if_pos (by omega), by simp, by simp; omega⟩

/-- The first of four bytes of a character, and what may follow it. -/
theorem lead?_four {v : Nat} (h : ¬ v ≤ 0xFFFF) (hv : v < 0xD800 ∨ 0xDFFF < v ∧ v < 0x110000) :
    ∃ lo hi, lead? (UInt8.ofNat (v / 262144 % 0x08 + 0xF0)) = some (3, lo, hi) ∧
      lo.toNat ≤ v / 4096 % 0x40 + 0x80 ∧ v / 4096 % 0x40 + 0x80 ≤ hi.toNat := by
  rw [lead?_ofNat (by omega), if_neg (by omega), if_neg (by omega), if_neg (by omega),
    if_neg (by omega), if_neg (by omega), if_neg (by omega)]
  split
  next heq => exact ⟨0x90, 0xBF, rfl, by simp; omega, by simp; omega⟩
  next =>
    split
    next => exact ⟨0x80, 0xBF, rfl, by simp, by simp; omega⟩
    next => exact ⟨0x80, 0x8F, if_pos (by omega), by simp, by simp; omega⟩

/-- **A character is read back from its bytes**, whatever follows them. -/
theorem reads_char (c : Char) (bs : Bytes) :
    decodeChars (String.utf8EncodeChar c ++ bs) = c :: decodeChars bs := by
  have hv : c.val.toNat < 0xD800 ∨ 0xDFFF < c.val.toNat ∧ c.val.toNat < 0x110000 := c.valid
  have hc : Char.ofNat c.val.toNat = c := Char.ofNat_toNat c
  unfold String.utf8EncodeChar
  dsimp only
  generalize c.val.toNat = v at hv hc
  split
  next h =>
    have hread := decodeChars_one bs (a := v) (by omega)
    rw [hc] at hread
    exact hread
  next h₁ =>
    split
    next h₂ =>
      have hread := decodeChars_two bs (a := v / 64 % 0x20) (b := v % 0x40) (by omega) (by omega)
        (by omega)
      have hval : v / 64 % 0x20 * 64 + v % 0x40 = v := by omega
      rw [hval, hc] at hread
      exact hread
    next h₂ =>
      split
      next h₃ =>
        have hval : (v / 4096 % 0x10 * 64 + v / 64 % 0x40) * 64 + v % 0x40 = v := by omega
        obtain ⟨lo, hi, hlead, hlo, hhi⟩ := lead?_three h₂ h₃ hv
        have hread := decodeChars_three bs hlead (by omega) (by omega) (d := v % 0x40) (by omega)
          hlo hhi
        rw [hval, hc] at hread
        exact hread
      next h₃ =>
        have hval : ((v / 262144 % 0x08 * 64 + v / 4096 % 0x40) * 64 + v / 64 % 0x40) * 64 +
            v % 0x40 = v := by omega
        obtain ⟨lo, hi, hlead, hlo, hhi⟩ := lead?_four h₃ hv
        have hread := decodeChars_four bs hlead (by omega) (by omega) (d := v / 64 % 0x40)
          (by omega) (e := v % 0x40) (by omega) hlo hhi
        rw [hval, hc] at hread
        exact hread

/-- The bytes of an array as a list are collected from the front. -/
theorem toList_loop (bs : ByteArray) (i : Nat) (acc : List UInt8) :
    ByteArray.toList.loop bs i acc = acc.reverse ++ bs.data.toList.drop i := by
  -- Along the recursion of the loop: what is left becomes shorter.
  induction hn : bs.size - i generalizing i acc with
  | zero =>
    have hle : bs.data.toList.length ≤ i := by
      rw [Array.length_toList]
      exact Nat.le_of_sub_eq_zero hn
    rw [ByteArray.toList.loop, if_neg (by omega), List.drop_eq_nil_of_le hle, List.append_nil]
  | succ n ih =>
    have hi : i < bs.data.toList.length := by
      rw [Array.length_toList]
      have : bs.size = bs.data.size := rfl
      omega
    have hget : bs.get! i = bs.data.toList[i] := by
      rw [Array.getElem_toList]
      exact getElem!_pos bs.data i _
    rw [ByteArray.toList.loop, if_pos (by omega), ih _ _ (by omega), List.drop_eq_getElem_cons hi,
      List.reverse_cons, hget, List.append_assoc, List.singleton_append]

/-- The UTF-8 bytes of a text are those of its characters. -/
theorem encode_eq (s : String) : encode s = s.toList.flatMap String.utf8EncodeChar := by
  have hbytes : s.toUTF8 = (s.toList.flatMap String.utf8EncodeChar).toByteArray :=
    String.utf8Encode_toList.symm
  rw [encode, ByteArray.toList, toList_loop, hbytes, List.data_toByteArray]
  rfl

/-- **Text is read back from its UTF-8 bytes.** -/
theorem decodeLossy_encode (s : String) : decodeLossy (encode s) = s := by
  have hchars : ∀ cs : List Char, decodeChars (cs.flatMap String.utf8EncodeChar) = cs := by
    intro cs
    induction cs with
    | nil => rw [List.flatMap_nil, decodeChars]
    | cons c cs ih => rw [List.flatMap_cons, reads_char, ih]
  rw [decodeLossy, encode_eq, hchars, String.ofList_toList]

end EventRelay.Text.Utf8
