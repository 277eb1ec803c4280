import EventRelay.Abi.Coerce
import EventRelay.Proofs.Digits
import Mathlib.Data.Nat.Digits.Defs

/-!
# The texts of elementary values are read back

A number is written with decimal digits and bytes with hexadecimal ones. Whatever may follow a
value in a list, a tuple or at the end (`Delimited`) belongs to none of these texts, so that each of
them is read to its end and no further.

Main statements:

* `Numeral.natural?_toDigits`: a number below 2^256 is read back from its decimal digits;
* `Kind.readBytes?_digits`: bytes are read back from hexadecimal digits of either case, so from
  `Hex.encode` and from the checksummed text of an address.
-/

namespace EventRelay

/-- A run of characters ends before one that does not belong to it. -/
theorem span_append {p : Char → Bool} {xs rest : List Char} (hxs : ∀ c ∈ xs, p c = true)
    (hrest : ∀ c ∈ rest.head?, p c = false) :
    (xs ++ rest).takeWhile p = xs ∧ (xs ++ rest).dropWhile p = rest := by
  rw [List.takeWhile_append_of_pos hxs, List.dropWhile_append_of_pos hxs]
  cases rest with
  | nil => exact ⟨List.append_nil _, rfl⟩
  | cons c cs =>
    rw [List.takeWhile_cons, List.dropWhile_cons, hrest c rfl]
    exact ⟨List.append_nil _, rfl⟩

end EventRelay

namespace EventRelay.Abi

/-! ## What follows a value -/

/-- Whether a character may stand after a value. -/
def isDelimiter (c : Char) : Bool := c = ',' || c = ']' || c = ')'

/-- A text that may stand after a value: an empty one, or one that goes on with a comma or with the
end of a list. -/
def Delimited (rest : List Char) : Prop := ∀ c ∈ rest.head?, isDelimiter c = true

/-- The characters that end an item. -/
theorem isDelimiter_iff {c : Char} : isDelimiter c = true ↔ c = ',' ∨ c = ']' ∨ c = ')' := by
  simp [isDelimiter, or_assoc]

theorem delimited_nil : Delimited [] := nofun

theorem delimited_cons {c : Char} {cs : List Char} (h : isDelimiter c = true) :
    Delimited (c :: cs) := by
  intro d hd
  rwa [← Option.some.inj hd]

/-- A run of characters that no delimiter belongs to ends before what may follow a value. -/
theorem Delimited.span {p : Char → Bool} {rest : List Char} (h : Delimited rest) (xs : List Char)
    (hp : ∀ c, isDelimiter c = true → p c = false) (hxs : ∀ c ∈ xs, p c = true) :
    (xs ++ rest).takeWhile p = xs ∧ (xs ++ rest).dropWhile p = rest :=
  span_append hxs fun c hc => hp c (h c hc)

theorem not_isDigit_of_isDelimiter (c : Char) (h : isDelimiter c = true) :
    Text.Decimal.isDigit c = false := by
  rcases isDelimiter_iff.mp h with rfl | rfl | rfl <;> decide

theorem not_isHexDigit_of_isDelimiter (c : Char) (h : isDelimiter c = true) :
    Text.Hex.isDigit c = false := by
  rcases isDelimiter_iff.mp h with rfl | rfl | rfl <;> decide

theorem not_isAlpha_of_isDelimiter (c : Char) (h : isDelimiter c = true) : c.isAlpha = false := by
  rcases isDelimiter_iff.mp h with rfl | rfl | rfl <;> decide

theorem Delimited.skipBlank {rest : List Char} (h : Delimited rest) : skipBlank rest = rest := by
  refine (h.span [] (fun c hc => ?_) nofun).2
  rcases isDelimiter_iff.mp hc with rfl | rfl | rfl <;> decide

/-! ## Numbers -/

namespace Numeral

theorem isDigit_of_mem_toDigits {n : Nat} {c : Char} (h : c ∈ Nat.toDigits 10 n) :
    Text.Decimal.isDigit c = true := by
  have hdigit := Nat.isDigit_of_mem_toDigits (by decide) (by decide) h
  simpa [Char.isDigit, Text.Decimal.isDigit, Char.le_def] using hdigit

/-- The digits of a number have its value, after any digits before them. -/
theorem foldlM_digits {ds : List Char} (hds : ∀ c ∈ ds, Text.Decimal.isDigit c = true) (m : Nat) :
    ds.foldlM (fun n c => do
      let d ← Text.Hex.value? c
      if d < 10 then some (n * 10 + d) else none) m = some (Nat.ofDigitChars 10 ds m) := by
  induction ds generalizing m with
  | nil => rfl
  | cons c ds ih =>
    have hc := hds c List.mem_cons_self
    simp only [Text.Decimal.isDigit, Bool.and_eq_true, decide_eq_true_eq] at hc
    have hlt : c.toNat - '0'.toNat < 10 := by
      have hle : c.toNat ≤ '9'.toNat := hc.2
      have hnine : '9'.toNat = '0'.toNat + 9 := rfl
      omega
    rw [List.foldlM_cons, Text.Hex.value?, if_pos hc, Nat.ofDigitChars_cons, Nat.mul_comm 10 m,
      ← ih fun d hd => hds d (List.mem_cons_of_mem _ hd)]
    simp only [Option.bind_eq_bind, Option.bind_some, if_pos hlt]

/-- The digits of a number have its value, as long as it fits into a word. -/
theorem value?_toDigits {n : Nat} (h : n < Bytes.capacity 32) :
    value? 10 (Nat.toDigits 10 n) = some n := by
  rw [value?, foldlM_digits fun c hc => isDigit_of_mem_toDigits hc,
    Nat.ofDigitChars_toDigits (by decide) (by decide)]
  exact if_pos h

/-- The digits of a number are all of it that is read: no base mark is among them. -/
theorem digits?_toDigits (n : Nat) {rest : List Char} (h : Delimited rest) :
    digits? (Nat.toDigits 10 n ++ rest) = some (Nat.toDigits 10 n, 10, rest) := by
  obtain ⟨htake, hdrop⟩ := h.span _ not_isDigit_of_isDelimiter
    fun c hc => isDigit_of_mem_toDigits (n := n) hc
  have hrun : (if ((Nat.toDigits 10 n ++ rest).takeWhile Text.Decimal.isDigit).isEmpty then none
      else some ((Nat.toDigits 10 n ++ rest).takeWhile Text.Decimal.isDigit, 10,
        (Nat.toDigits 10 n ++ rest).dropWhile Text.Decimal.isDigit)) =
      some (Nat.toDigits 10 n, 10, rest) := by
    rw [htake, hdrop, if_neg (by simp [Nat.toDigits_ne_nil])]
  -- What follows a leading zero is a digit or follows the number.
  have hmark : ∀ m tail, Nat.toDigits 10 n ++ rest = '0' :: m :: tail →
      Text.Decimal.isDigit m = true ∨ isDelimiter m = true := by
    intro m tail heq
    cases hds : Nat.toDigits 10 n with
    | nil => exact absurd hds Nat.toDigits_ne_nil
    | cons d ds =>
      rw [hds, List.cons_append] at heq
      obtain ⟨-, heq⟩ := List.cons.inj heq
      cases ds with
      | nil =>
        rw [List.nil_append] at heq
        exact .inr (h m (by rw [heq]; rfl))
      | cons e es =>
        obtain ⟨rfl, -⟩ := List.cons.inj heq
        exact .inl (isDigit_of_mem_toDigits (n := n) (by rw [hds]; simp))
  unfold digits?
  split
  next m tail heq =>
    have hne : ∀ c, Text.Decimal.isDigit c = false → isDelimiter c = false → m ≠ c := by
      rintro c hdigit hdelimiter rfl
      rcases hmark m tail heq with h | h
      · rw [hdigit] at h
        cases h
      · rw [hdelimiter] at h
        cases h
    rw [if_neg (by simp [hne 'x' (by decide) (by decide), hne 'X' (by decide) (by decide)]),
      if_neg (by simp [hne 'o' (by decide) (by decide), hne 'O' (by decide) (by decide)]),
      if_neg (by simp [hne 'b' (by decide) (by decide), hne 'B' (by decide) (by decide)])]
    exact hrun
  next => exact hrun

/-- A number that has ended has no fraction. -/
theorem fraction?_delimited {rest : List Char} (h : Delimited rest) :
    fraction? rest = some (none, rest) := by
  unfold fraction?
  split
  next cs => exact absurd (h '.' rfl) (by decide)
  next => rfl

/-- Nor has it an exponent. -/
theorem exponent_delimited {rest : List Char} (h : Delimited rest) : exponent rest = (0, rest) := by
  cases rest with
  | nil => rfl
  | cons c cs =>
    have hc : ¬ (c = 'e' || c = 'E') = true := by
      rcases isDelimiter_iff.mp (h c rfl) with rfl | rfl | rfl <;> decide
    simp only [exponent, if_neg hc]

/-- Nor has it a unit. -/
theorem unit?_delimited {rest : List Char} (h : Delimited rest) : unit? rest = some (0, rest) := by
  obtain ⟨htake, hdrop⟩ := h.span [] not_isAlpha_of_isDelimiter nofun
  rw [List.nil_append] at htake hdrop
  rw [unit?, htake, hdrop]
  rfl

/-- **A number is read back from its decimal digits**, whatever follows it. -/
theorem natural?_toDigits {n : Nat} (h : n < Bytes.capacity 32) {rest : List Char}
    (hrest : Delimited rest) : natural? (Nat.toDigits 10 n ++ rest) = some (n, rest) := by
  have hnone : value? 10 [] = some 0 := rfl
  have hone : powerOfTen? 0 = some 1 := rfl
  simp only [natural?, digits?_toDigits n hrest, fraction?_delimited hrest, value?_toDigits h,
    exponent_delimited hrest, hrest.skipBlank, unit?_delimited hrest, Option.bind_eq_bind,
    Option.bind_some, Option.getD_none, hnone, hone, List.length_nil]
  simp [below, h, hone]

end Numeral

namespace Kind

/-- A number is read back from its digits when it fits into the unsigned type. -/
theorem readUint?_toDigits (bits : Nat) {n : Nat} (h : n < Bytes.capacity 32) {rest : List Char}
    (hrest : Delimited rest) : readUint? bits (Nat.toDigits 10 n ++ rest) =
      if n < 2 ^ bits then some (n, rest) else none := by
  rw [readUint?, Numeral.natural?_toDigits h hrest]
  rfl

/-- A negative number is not read as an unsigned one. -/
theorem readUint?_minus (bits : Nat) (cs : List Char) : readUint? bits ('-' :: cs) = none := rfl

/-- A negative number is read back when it lies within the bounds of the type. -/
theorem readInt?_minus (bits : Nat) {n : Nat} (h : n < Bytes.capacity 32) {rest : List Char}
    (hrest : Delimited rest) : readInt? bits ('-' :: (Nat.toDigits 10 n ++ rest)) =
      if -((2 ^ (bits - 1) : Nat) : Int) ≤ -(n : Int) ∧ -(n : Int) < (2 ^ (bits - 1) : Nat) then
        some (-(n : Int), rest) else none := by
  simp only [readInt?, Numeral.natural?_toDigits h hrest]
  rfl

/-- Where no sign stands in front the number is read as it is. -/
theorem readInt?_unsigned (bits : Nat) {cs : List Char} (hplus : cs.head? ≠ some '+')
    (hminus : cs.head? ≠ some '-') : readInt? bits cs =
      (Numeral.natural? cs).bind fun (n, rest) =>
        if -((2 ^ (bits - 1) : Nat) : Int) ≤ (n : Int) ∧ (n : Int) < (2 ^ (bits - 1) : Nat) then
          some ((n : Int), rest) else none := by
  unfold readInt?
  split
  next minus after heq =>
    split at heq
    next => exact absurd rfl hminus
    next => exact absurd rfl hplus
    next =>
      obtain ⟨rfl, rfl⟩ := Prod.mk.inj heq
      rfl

/-- A number without a sign is read back when it lies within the bounds of the type. -/
theorem readInt?_toDigits (bits : Nat) {n : Nat} (h : n < Bytes.capacity 32) {rest : List Char}
    (hrest : Delimited rest) : readInt? bits (Nat.toDigits 10 n ++ rest) =
      if -((2 ^ (bits - 1) : Nat) : Int) ≤ (n : Int) ∧ (n : Int) < (2 ^ (bits - 1) : Nat) then
        some ((n : Int), rest) else none := by
  have hhead : ∀ c, Text.Decimal.isDigit c = false →
      (Nat.toDigits 10 n ++ rest).head? ≠ some c := by
    intro c hc heq
    rw [List.head?_append, List.head?_eq_some_head Nat.toDigits_ne_nil, Option.some_or] at heq
    rw [← Option.some.inj heq, Numeral.isDigit_of_mem_toDigits (List.head_mem _)] at hc
    cases hc
  rw [readInt?_unsigned bits (hhead '+' (by decide)) (hhead '-' (by decide)),
    Numeral.natural?_toDigits h hrest]
  rfl

/-- A number is its digits, with a minus in front when it is negative. -/
theorem toList_ofInt (i : Int) : (Text.Decimal.ofInt i).toList =
    if i < 0 then '-' :: Nat.toDigits 10 i.natAbs else Nat.toDigits 10 i.natAbs := by
  cases i with
  | ofNat n =>
    rw [if_neg (Int.not_lt.mpr (Int.natCast_nonneg n) : ¬ Int.ofNat n < 0)]
    exact String.toList_ofList
  | negSucc n =>
    rw [if_pos (Int.negSucc_lt_zero n), Text.Decimal.ofInt, String.toList_append,
      Text.Decimal.ofNat, String.toList_ofList, String.toList_ofList]
    rfl

/-- **An integer is read back from its text** where it is in the range of the type. -/
theorem readInt?_ofInt (bits : Nat) {i : Int} (h : i.natAbs < Bytes.capacity 32)
    {rest : List Char} (hrest : Delimited rest) :
    readInt? bits ((Text.Decimal.ofInt i).toList ++ rest) =
      if -((2 ^ (bits - 1) : Nat) : Int) ≤ i ∧ i < (2 ^ (bits - 1) : Nat) then some (i, rest)
      else none := by
  rw [toList_ofInt]
  split
  next hneg =>
    rw [List.cons_append, readInt?_minus bits h hrest,
      Int.ofNat_natAbs_of_nonpos (Int.le_of_lt hneg), Int.neg_neg]
  next hpos =>
    rw [readInt?_toDigits bits h hrest, Int.natAbs_of_nonneg (Int.not_lt.mp hpos)]

/-- **A natural number is read back from its text** where it is in the range of the type; a negative
number is in no such range. -/
theorem readUint?_ofInt (bits : Nat) {i : Int} (h : i.natAbs < Bytes.capacity 32)
    {rest : List Char} (hrest : Delimited rest) :
    readUint? bits ((Text.Decimal.ofInt i).toList ++ rest) =
      if 0 ≤ i ∧ i < (2 ^ bits : Nat) then some (i.toNat, rest) else none := by
  rw [toList_ofInt]
  split
  next hneg => rw [List.cons_append, readUint?_minus, if_neg (by omega)]
  next hpos =>
    have hnat : i.natAbs = i.toNat := by omega
    have hiff : i.toNat < 2 ^ bits ↔ 0 ≤ i ∧ i < (2 ^ bits : Nat) := by omega
    rw [readUint?_toDigits bits h hrest, hnat]
    simp only [hiff]

end Kind

/-! ## Bytes -/

end EventRelay.Abi

namespace EventRelay.Text.Hex

theorem value?_digit : ∀ n < 16, value? (digit n) = some n := by decide

theorem value?_toUpper_digit : ∀ n < 16, value? (digit n).toUpper = some n := by decide

/-- Only the values of the digits count. -/
theorem ofDigits?_congr {ds es : List Char} (h : ds.map value? = es.map value?) :
    ofDigits? ds = ofDigits? es := by
  fun_induction ofDigits? ds generalizing es with
  | case1 =>
    obtain rfl := List.map_eq_nil_iff.mp h.symm
    rfl
  | case2 a =>
    obtain ⟨c, rfl⟩ :=
      List.length_eq_one_iff.mp (List.length_map value? ▸ congrArg List.length h.symm)
    rfl
  | case3 a b ds ih =>
    obtain ⟨c, es, rfl, hc, h⟩ := List.map_eq_cons_iff.mp h.symm
    obtain ⟨d, es, rfl, hd, h⟩ := List.map_eq_cons_iff.mp h
    rw [ofDigits?, hc, hd, ih h.symm]

/-- Bytes are read back from their digits. -/
theorem ofDigits?_digits (bs : Bytes) : ofDigits? (digits bs) = some bs := by
  induction bs with
  | nil => rfl
  | cons b bs ih =>
    have hlt : b.toNat < 256 := b.toNat_lt
    have hsplit : b.toNat / 16 * 16 + b.toNat % 16 = b.toNat := by omega
    have hcons : digits (b :: bs) = digit (b.toNat / 16) :: digit (b.toNat % 16) :: digits bs := rfl
    simp only [hcons, ofDigits?, value?_digit _ (show b.toNat / 16 < 16 by omega),
      value?_digit _ (show b.toNat % 16 < 16 by omega), ih, hsplit, UInt8.ofNat_toNat,
      Option.bind_eq_bind, Option.bind_some, Option.pure_def]

theorem toList_marked (ds : List Char) : ("0x" ++ String.ofList ds).toList = '0' :: 'x' :: ds := by
  rw [String.toList_append, String.toList_ofList, String.toList_ofList]
  rfl

/-- A byte takes two hexadecimal digits. -/
theorem length_digits (bs : Bytes) : (digits bs).length = 2 * bs.length := by
  induction bs with
  | nil => rfl
  | cons b bs ih =>
    have hcons : digits (b :: bs) = digit (b.toNat / 16) :: digit (b.toNat % 16) :: digits bs := rfl
    rw [hcons, List.length_cons, List.length_cons, ih, List.length_cons]
    omega

/-- Bytes are written in hexadecimal digits. -/
theorem exists_digit_of_mem_digits {bs : Bytes} {c : Char} (h : c ∈ digits bs) :
    ∃ n < 16, c = digit n := by
  obtain ⟨b, -, hc⟩ := List.mem_flatMap.mp h
  have hlt : b.toNat < 256 := b.toNat_lt
  simp only [List.mem_cons, List.not_mem_nil, or_false] at hc
  rcases hc with rfl | rfl
  · exact ⟨b.toNat / 16, by omega, rfl⟩
  · exact ⟨b.toNat % 16, by omega, rfl⟩

/-- Characters with the values of digits are digits. -/
theorem isDigit_of_map_value? {ds : List Char} {bs : Bytes}
    (h : ds.map value? = (digits bs).map value?) : ∀ c ∈ ds, isDigit c = true := by
  intro c hc
  have hmem : value? c ∈ (digits bs).map value? := h ▸ List.mem_map_of_mem hc
  obtain ⟨d, hd, heq⟩ := List.mem_map.mp hmem
  obtain ⟨n, hn, rfl⟩ := exists_digit_of_mem_digits hd
  rw [isDigit, ← heq, value?_digit n hn]
  rfl

end EventRelay.Text.Hex

namespace EventRelay.Address

/-- The case of a digit does not change its value. -/
theorem value?_checksumDigit {c : Char} (h : ∃ n < 16, c = Text.Hex.digit n) (nibble : Nat) :
    Text.Hex.value? (checksumDigit c nibble) = Text.Hex.value? c := by
  obtain ⟨n, hn, rfl⟩ := h
  unfold checksumDigit
  split
  · rw [Text.Hex.value?_toUpper_digit n hn, Text.Hex.value?_digit n hn]
  · rfl

/-- The case of the letters in a checksum changes no value. -/
theorem map_value?_checksum {ds : List Char} (nibbles : List Nat)
    (hlength : ds.length ≤ nibbles.length) (h : ∀ c ∈ ds, ∃ n < 16, c = Text.Hex.digit n) :
    (List.zipWith checksumDigit ds nibbles).map Text.Hex.value? = ds.map Text.Hex.value? := by
  induction ds generalizing nibbles with
  | nil => rfl
  | cons c ds ih =>
    cases nibbles with
    | nil => cases hlength
    | cons n nibbles =>
      rw [List.zipWith_cons_cons, List.map_cons, List.map_cons,
        value?_checksumDigit (h c List.mem_cons_self),
        ih nibbles (Nat.le_of_succ_le_succ hlength) fun c hc => h c (List.mem_cons_of_mem _ hc)]

/-- The checksummed text of an address has digits of the values of its bytes. -/
theorem checksummed_eq (a : Address) : ∃ ds, a.checksummed.toList = '0' :: 'x' :: ds ∧
    ds.map Text.Hex.value? = (Text.Hex.digits a.toBytes).map Text.Hex.value? := by
  obtain ⟨digest, hdigest⟩ : ∃ digest, digest =
      Hash.Keccak.digest ((Text.Hex.digits a.toBytes).map fun c => UInt8.ofNat c.toNat) := ⟨_, rfl⟩
  have hlength : digest.length = 32 := by rw [hdigest, Hash.Keccak.length_digest]
  refine ⟨List.zipWith checksumDigit (Text.Hex.digits a.toBytes)
    (digest.flatMap fun b => [b.toNat / 16, b.toNat % 16]), ?_, ?_⟩
  · rw [hdigest]
    exact Text.Hex.toList_marked _
  · refine map_value?_checksum _ ?_ fun c hc => Text.Hex.exists_digit_of_mem_digits hc
    -- A digest of 32 bytes has a nibble for each of the 40 digits.
    simp only [Text.Hex.length_digits, toBytes, Bytes.length_ofNat, List.length_flatMap,
      List.length_cons, List.length_nil, List.map_const', List.sum_replicate_nat, hlength]
    decide

end EventRelay.Address

namespace EventRelay.Abi.Kind

/-- **Bytes are read back from their digits**, of either case, whatever follows them. -/
theorem readBytes?_digits {bs : Bytes} {ds rest : List Char}
    (hds : ds.map Text.Hex.value? = (Text.Hex.digits bs).map Text.Hex.value?)
    (hrest : Delimited rest) : readBytes? ('0' :: 'x' :: (ds ++ rest)) = some (bs, rest) := by
  obtain ⟨htake, hdrop⟩ := hrest.span _ not_isHexDigit_of_isDelimiter
    (Text.Hex.isDigit_of_map_value? hds)
  simp only [readBytes?, hexDigits?, htake, hdrop, Text.Hex.ofDigits?_congr hds,
    Text.Hex.ofDigits?_digits, Option.bind_eq_bind, Option.bind_some, Option.pure_def]

/-- Bytes are read back from their digits. -/
theorem readBytes?_encode (bs : Bytes) {rest : List Char} (hrest : Delimited rest) :
    readBytes? ((Text.Hex.encode bs).toList ++ rest) = some (bs, rest) := by
  rw [Text.Hex.encode, Text.Hex.toList_marked]
  exact readBytes?_digits rfl hrest

/-- So are bytes of a known length. -/
theorem readExactly?_encode {n : Nat} {bs : Bytes} (h : bs.length = n) {rest : List Char}
    (hrest : Delimited rest) :
    readExactly? n ((Text.Hex.encode bs).toList ++ rest) = some (bs, rest) := by
  simp only [readExactly?, readBytes?_encode bs hrest, Option.bind_eq_bind, Option.bind_some,
    if_pos h]

/-- An address is read back from its spelling with a checksum. -/
theorem readExactly?_checksummed (a : Address) {rest : List Char} (hrest : Delimited rest) :
    readExactly? 20 (a.checksummed.toList ++ rest) = some (a.toBytes, rest) := by
  obtain ⟨ds, htext, hds⟩ := a.checksummed_eq
  have hlength : a.toBytes.length = 20 := Bytes.length_ofNat 20 _
  simp only [readExactly?, htext, List.cons_append, readBytes?_digits hds hrest,
    Option.bind_eq_bind, Option.bind_some, if_pos hlength]

/-- A truth value is read back from its word. -/
theorem readBool?_text (b : Bool) {rest : List Char} (hrest : Delimited rest) :
    readBool? ((if b then "true" else "false").toList ++ rest) = some (b, rest) := by
  have hword : (if b then "true" else "false").toList.all Char.isAlpha = true := by
    cases b <;> decide
  obtain ⟨htake, hdrop⟩ :=
    hrest.span _ not_isAlpha_of_isDelimiter (List.all_eq_true.mp hword)
  rw [readBool?, htake, hdrop, String.ofList_toList]
  cases b <;> rfl

end EventRelay.Abi.Kind
