import EventRelay.Proofs.Coercion
import EventRelay.Proofs.Digits
import EventRelay.Proofs.Forwarding

/-!
# Integers where bytes are asked for

An integer is converted by way of its decimal digits, and the types of bytes read hexadecimal ones.
Decimal digits are hexadecimal digits too: an integer with as many digits as the type asks for is
taken for bytes, and these are another number, `Numeral.misread`.

Main statements:

* `Numeral.lt_misread`: two or more decimal digits are a greater number to base sixteen;
* `bytes_of_integer`: which integers are converted to bytes and to which, on their own and
  as arguments of a call;
* `ten_becomes_sixteen`: one that is.
-/

namespace EventRelay

namespace Text.Hex

/-- Two digits are a byte. -/
theorem length_of_ofDigits? {ds : List Char} {bs : Bytes} (h : ofDigits? ds = some bs) :
    ds.length = 2 * bs.length := by
  fun_induction ofDigits? ds generalizing bs with
  | case1 =>
    obtain rfl := Option.some.inj h
    rfl
  | case2 _ => cases h
  | case3 hi lo rest ih =>
    simp only [Option.bind_eq_bind, Option.bind_eq_some_iff, Option.pure_def] at h
    obtain ⟨_, -, _, -, bs', hrest, h⟩ := h
    obtain rfl := Option.some.inj h
    rw [List.length_cons, List.length_cons, List.length_cons, ih hrest]
    omega

/-- An even number of digits is read. -/
theorem exists_ofDigits? {ds : List Char} {len : Nat} (hds : ∀ c ∈ ds, isDigit c = true)
    (h : ds.length = 2 * len) : ∃ bs, ofDigits? ds = some bs := by
  induction len generalizing ds with
  | zero =>
    obtain rfl := List.length_eq_zero_iff.mp h
    exact ⟨[], rfl⟩
  | succ len ih =>
    obtain ⟨a, b, rest, rfl⟩ : ∃ a b rest, ds = a :: b :: rest := by
      match ds, h with
      | a :: b :: rest, _ => exact ⟨a, b, rest, rfl⟩
    obtain ⟨hi, hhi⟩ := Option.isSome_iff_exists.mp (hds a List.mem_cons_self)
    obtain ⟨lo, hlo⟩ := Option.isSome_iff_exists.mp (hds b (by simp))
    have hrest : ∀ c ∈ rest, isDigit c = true := fun c hc => hds c (by simp [hc])
    obtain ⟨bs, hbs⟩ := ih hrest (by simp only [List.length_cons] at h; omega)
    exact ⟨UInt8.ofNat (hi * 16 + lo) :: bs, by rw [ofDigits?, hhi, hlo, hbs]; rfl⟩

/-- A decimal digit is a hexadecimal digit of the same value. -/
theorem value?_of_isDigit {c : Char} (h : Text.Decimal.isDigit c = true) :
    value? c = some (c.toNat - '0'.toNat) ∧ c.toNat - '0'.toNat < 10 := by
  simp only [Text.Decimal.isDigit, Bool.and_eq_true, decide_eq_true_eq] at h
  have hle : c.toNat ≤ '9'.toNat := h.2
  have hnine : '9'.toNat = '0'.toNat + 9 := rfl
  exact ⟨by rw [value?, if_pos h], by omega⟩

theorem isDigit_of_isDigit {c : Char} (h : Text.Decimal.isDigit c = true) : isDigit c = true := by
  rw [isDigit, (value?_of_isDigit h).1]
  rfl

/-- The bytes of decimal digits are the number that the digits are to base sixteen, after any number
before them. -/
theorem foldl_of_ofDigits? {ds : List Char} {bs : Bytes}
    (hds : ∀ c ∈ ds, Text.Decimal.isDigit c = true) (h : ofDigits? ds = some bs) (m : Nat) :
    bs.foldl (fun n b => n * 256 + b.toNat) m = Nat.ofDigitChars 16 ds m := by
  fun_induction ofDigits? ds generalizing bs m with
  | case1 =>
    obtain rfl := Option.some.inj h
    rfl
  | case2 _ => cases h
  | case3 hi lo rest ih =>
    obtain ⟨hhi, hhi10⟩ := value?_of_isDigit (hds hi List.mem_cons_self)
    obtain ⟨hlo, hlo10⟩ := value?_of_isDigit (hds lo (by simp))
    simp only [hhi, hlo, Option.bind_eq_bind, Option.bind_some, Option.bind_eq_some_iff,
      Option.pure_def] at h
    obtain ⟨bs', hrest, h⟩ := h
    obtain rfl := Option.some.inj h
    have hbyte : (UInt8.ofNat ((hi.toNat - '0'.toNat) * 16 + (lo.toNat - '0'.toNat))).toNat =
        (hi.toNat - '0'.toNat) * 16 + (lo.toNat - '0'.toNat) := by
      rw [UInt8.toNat_ofNat', Nat.mod_eq_of_lt]
      omega
    rw [List.foldl_cons, hbyte, ih (fun c hc => hds c (by simp [hc])) hrest,
      Nat.ofDigitChars_cons, Nat.ofDigitChars_cons]
    congr 1
    omega

end Text.Hex

namespace Abi

/-! ## Decimal digits read to base sixteen -/

namespace Numeral

/-- The number that the decimal digits of `n` are to base sixteen. -/
def misread (n : Nat) : Nat := Nat.ofDigitChars 16 (Nat.toDigits 10 n) 0

/-- One decimal digit is the same in both bases. -/
theorem misread_of_lt {n : Nat} (h : n < 10) : misread n = n := by
  rw [misread, Nat.toDigits_of_lt_base h, Nat.ofDigitChars_cons_digitChar_of_lt_ten h]
  exact Nat.zero_add n

/-- The last digit is kept, and those in front weigh sixteen for ten. -/
theorem misread_of_le {n : Nat} (h : 10 ≤ n) : misread n = 16 * misread (n / 10) + n % 10 := by
  rw [misread, Nat.toDigits_of_base_le (by decide) h, Nat.ofDigitChars_append,
    Nat.ofDigitChars_cons_digitChar_of_lt_ten (Nat.mod_lt n (by decide)), Nat.ofDigitChars_nil,
    misread]

/-- Read as hexadecimal a number does not get smaller. -/
theorem le_misread (n : Nat) : n ≤ misread n := by
  induction n using Nat.strongRecOn with
  | ind n ih =>
    by_cases h : n < 10
    · rw [misread_of_lt h]
    · have hrest := ih (n / 10) (by omega)
      rw [misread_of_le (by omega)]
      omega

/-- **Two or more decimal digits are a greater number to base sixteen.** -/
theorem lt_misread {n : Nat} (h : 10 ≤ n) : n < misread n := by
  have hrest := le_misread (n / 10)
  rw [misread_of_le h]
  omega

/-- A number with an even number of digits has at least two. -/
theorem ten_le_of_even_digits {n len : Nat} (h : (Nat.toDigits 10 n).length = 2 * len) :
    10 ≤ n := by
  by_cases hn : n < 10
  · rw [Nat.toDigits_of_lt_base hn, List.length_singleton] at h
    omega
  · omega

end Numeral

/-! ## Types of bytes -/

namespace Kind

/-- The types of bytes, with the sizes that the type system has. -/
inductive IsBytes : Kind → Prop
  | address : IsBytes .address
  | function : IsBytes .function
  | bytes : IsBytes .bytes
  | fixedBytes {size : Nat} (hpos : 0 < size) (hle : size ≤ 32) : IsBytes (.fixedBytes size)

/-- How many bytes a value of a type of bytes is, where the type says it. -/
def byteCount? : Kind → Option Nat
  | .address => some 20
  | .function => some 24
  | .fixedBytes size => some size
  | _ => none

/-- The value of a type of bytes that some bytes are. -/
def ofBytes (k : Kind) (bs : Bytes) : Value :=
  match k with
  | .address => .address (.ofBytes bs)
  | .function => .function (BitVec.ofNat 192 (Bytes.toNat bs))
  | .fixedBytes size => .fixedBytes size (Word.ofBytes (bs ++ Bytes.zeros (32 - size)))
  | _ => .bytes bs

end Kind

/-- The bytes that a value of a type of bytes is. -/
def Value.byteString? : Value → Option Bytes
  | .address a => some a.toBytes
  | .function f => some (functionBytes f)
  | .fixedBytes size w => some (w.toBytes.take size)
  | .bytes bs => some bs
  | _ => none

namespace Kind

variable {k : Kind} {v w : Value} {i : Int} {bs : Bytes}

/-- Bytes that fit a type of bytes are the bytes of its value. -/
theorem byteString?_ofBytes (hk : k.IsBytes) (h : ∀ size ∈ k.byteCount?, bs.length = size) :
    (k.ofBytes bs).byteString? = some bs := by
  cases hk with
  | address => exact congrArg some (Address.toBytes_ofBytes (h 20 rfl))
  | function =>
    have hlength : bs.length = 24 := h 24 rfl
    have hlt := Bytes.toNat_lt bs
    rw [hlength] at hlt
    have hvalue : (BitVec.ofNat 192 (Bytes.toNat bs)).toNat = Bytes.toNat bs := Nat.mod_eq_of_lt hlt
    rw [ofBytes, Value.byteString?, Value.functionBytes, hvalue, ← hlength, Bytes.ofNat_toNat]
  | bytes => rfl
  | @fixedBytes size _ hle =>
    have hlength : bs.length = size := h size rfl
    have hword : (bs ++ Bytes.zeros (32 - size)).length = 32 := by
      rw [List.length_append, Bytes.zeros, List.length_replicate]
      omega
    rw [ofBytes, Value.byteString?, Word.toBytes_ofBytes hword, ← hlength, List.take_left]

/-- Reading a length of bytes is reading bytes that have this length. -/
theorem readExactly?_eq_some {n : Nat} {bs : Bytes} {cs rest : List Char} :
    readExactly? n cs = some (bs, rest) ↔ readBytes? cs = some (bs, rest) ∧ bs.length = n := by
  simp only [readExactly?, Option.bind_eq_bind, Option.bind_eq_some_iff, Prod.exists,
    Option.ite_none_right_eq_some, Option.some.injEq, Prod.mk.injEq]
  constructor
  · rintro ⟨bs', r, hread, hlength, rfl, rfl⟩
    exact ⟨hread, hlength⟩
  · rintro ⟨hread, hlength⟩
    exact ⟨bs, rest, hread, hlength, rfl, rfl⟩

theorem exists_readExactly?_iff {n : Nat} {f : Bytes → Value} {cs rest : List Char} :
    (∃ bs r, readExactly? n cs = some (bs, r) ∧ f bs = w ∧ r = rest) ↔
      ∃ bs, readBytes? cs = some (bs, rest) ∧ (∀ size ∈ some n, bs.length = size) ∧ w = f bs := by
  constructor
  · rintro ⟨bs, r, hexactly, rfl, rfl⟩
    obtain ⟨hread, hlength⟩ := readExactly?_eq_some.mp hexactly
    exact ⟨bs, hread, fun size h => hlength.trans (Option.some.inj h), rfl⟩
  · rintro ⟨bs, hread, hlength, rfl⟩
    exact ⟨bs, rest, readExactly?_eq_some.mpr ⟨hread, hlength n rfl⟩, rfl, rfl⟩

/-- A type of bytes reads bytes, as many as it says. -/
theorem read?_of_isBytes (hk : k.IsBytes) {listEnd : Option Char} {cs rest : List Char} :
    k.read? listEnd cs = some (w, rest) ↔ ∃ bs, readBytes? cs = some (bs, rest) ∧
      (∀ size ∈ k.byteCount?, bs.length = size) ∧ w = k.ofBytes bs := by
  cases hk with
  | address =>
    simp only [read?, Option.map_eq_some_iff, Prod.exists, Prod.mk.injEq]
    exact exists_readExactly?_iff
  | function =>
    simp only [read?, Option.map_eq_some_iff, Prod.exists, Prod.mk.injEq]
    exact exists_readExactly?_iff
  | bytes =>
    simp only [read?, Option.map_eq_some_iff, Prod.exists, Prod.mk.injEq]
    constructor
    · rintro ⟨bs, r, hread, rfl, rfl⟩
      exact ⟨bs, hread, fun size h => absurd h (Option.not_mem_none size), rfl⟩
    · rintro ⟨bs, hread, -, rfl⟩
      exact ⟨bs, rest, hread, rfl, rfl⟩
  | fixedBytes _ _ =>
    simp only [read?, Option.map_eq_some_iff, Prod.exists, Prod.mk.injEq]
    exact exists_readExactly?_iff

/-- The digits of a number are read as bytes just as they are. -/
theorem readBytes?_toDigits (n : Nat) :
    readBytes? (Nat.toDigits 10 n) = (Text.Hex.ofDigits? (Nat.toDigits 10 n)).map (·, []) := by
  have hdecimal : ∀ c ∈ Nat.toDigits 10 n, Text.Decimal.isDigit c = true :=
    fun c hc => Numeral.isDigit_of_mem_toDigits hc
  have hhex : ∀ c ∈ Nat.toDigits 10 n, Text.Hex.isDigit c = true :=
    fun c hc => Text.Hex.isDigit_of_isDigit (hdecimal c hc)
  obtain ⟨htake, hdrop⟩ := delimited_nil.span _ not_isHexDigit_of_isDelimiter hhex
  rw [List.append_nil] at htake hdrop
  have hdigits : hexDigits? (Nat.toDigits 10 n) = some (Nat.toDigits 10 n, []) := by
    unfold hexDigits?
    split
    next rest heq =>
      -- An `x` is no decimal digit.
      have hx := hdecimal 'x' (by rw [heq]; simp)
      exact absurd hx (by decide)
    next => rw [htake, hdrop, if_neg (by simp [Nat.toDigits_ne_nil])]
  simp only [readBytes?, hdigits, Option.bind_eq_bind, Option.bind_some]
  cases Text.Hex.ofDigits? (Nat.toDigits 10 n) <;> rfl

/-- The text of an integer is read as bytes where the integer is not negative. -/
theorem readBytes?_ofInt {rest : List Char} :
    readBytes? (Text.Decimal.ofInt i).toList = some (bs, rest) ↔
      0 ≤ i ∧ Text.Hex.ofDigits? (Nat.toDigits 10 i.toNat) = some bs ∧ rest = [] := by
  rw [toList_ofInt]
  split
  next hneg =>
    -- A minus sign is no digit.
    have hnone : readBytes? ('-' :: Nat.toDigits 10 i.natAbs) = none := rfl
    rw [hnone]
    constructor
    · intro h
      cases h
    · intro h
      omega
  next hpos =>
    have hnat : i.natAbs = i.toNat := by omega
    rw [readBytes?_toDigits, hnat, Option.map_eq_some_iff]
    constructor
    · intro h
      obtain ⟨bs', hread, heq⟩ := h
      obtain ⟨rfl, rfl⟩ := Prod.mk.inj heq
      exact ⟨by omega, hread, rfl⟩
    · intro h
      obtain ⟨-, hread, rfl⟩ := h
      exact ⟨bs, hread, rfl⟩

end Kind

/-! ## The conversion -/

variable {k : Kind} {v w : Value} {i : Int}

/-- An integer that is not negative is converted to the bytes of its decimal digits, if these are as
many as the type asks for. -/
theorem coerce_integer_eq_ok (hk : k.IsBytes) (hv : v.integer? = some i) :
    coerce k v = .ok w ↔ 0 ≤ i ∧ ∃ bs, Text.Hex.ofDigits? (Nat.toDigits 10 i.toNat) = some bs ∧
      (∀ size ∈ k.byteCount?, bs.length = size) ∧ w = k.ofBytes bs := by
  obtain ⟨htext, -, -⟩ := Value.text_of_integer? hv
  have hholds : k.holds v = false := by
    cases v with
    | int _ _ => cases hk <;> rfl
    | uint _ _ => cases hk <;> rfl
    | _ => cases hv
  have hread : k.ofText? v.text = some w ↔ k.read? none v.text.toList = some (w, []) := by
    unfold Kind.ofText?
    split
    next w' heq => rw [heq]; simp
    next hne =>
      constructor
      · intro h
        cases h
      · intro h
        exact absurd h (hne w)
  have hcoerce : coerce k v = .ok w ↔ k.ofText? v.text = some w := by
    rw [coerce, hholds, if_neg Bool.false_ne_true]
    split
    next w' heq => rw [heq]; simp
    next heq => rw [heq]; simp
  rw [hcoerce, hread, Kind.read?_of_isBytes hk, htext]
  simp only [Kind.readBytes?_ofInt]
  constructor
  · intro h
    obtain ⟨bs, ⟨hpos, hdigits, -⟩, hsize, rfl⟩ := h
    exact ⟨hpos, bs, hdigits, hsize, rfl⟩
  · intro h
    obtain ⟨hpos, bs, hdigits, hsize, rfl⟩ := h
    exact ⟨bs, ⟨hpos, hdigits, trivial⟩, hsize, rfl⟩

/-- What an integer is converted to is another number. -/
theorem misread_of_coerce (hk : k.IsBytes) (hv : v.integer? = some i) (h : coerce k v = .ok w) :
    ∃ bs, w.byteString? = some bs ∧ Bytes.toNat bs = Numeral.misread i.toNat ∧
      i < Bytes.toNat bs := by
  obtain ⟨hpos, bs, hdigits, hsize, rfl⟩ := (coerce_integer_eq_ok hk hv).mp h
  have hvalue : Bytes.toNat bs = Numeral.misread i.toNat :=
    Text.Hex.foldl_of_ofDigits? (fun c hc => Numeral.isDigit_of_mem_toDigits hc) hdigits 0
  have hlt := Numeral.lt_misread
    (Numeral.ten_le_of_even_digits (Text.Hex.length_of_ofDigits? hdigits))
  exact ⟨bs, Kind.byteString?_ofBytes hk hsize, hvalue, by omega⟩

namespace Registry

/-- Each argument is converted to the type of the parameter at its place. -/
theorem coerce_of_coerceAll {method : String} {params : List Param} {args values : List Value}
    (h : coerceAll method params args = .ok values) {j : Nat} {p : Param}
    (hp : params[j]? = some p) (hv : args[j]? = some v) (hk : p.resolve = .ok k) :
    ∃ w, coerce k v = .ok w ∧ values[j]? = some w := by
  induction params generalizing args values j with
  | nil => cases hp
  | cons q params ih =>
    cases args with
    | nil => cases hv
    | cons u args =>
      obtain ⟨k', w, ws, hk', hw, hws, rfl⟩ := coerceAll_cons h
      cases j with
      | zero =>
        obtain rfl := Option.some.inj hp
        obtain rfl := Option.some.inj hv
        rw [hk] at hk'
        obtain rfl := Except.ok.inj hk'
        exact ⟨w, hw, rfl⟩
      | succ j => exact ih hws hp hv

/-- A call of a method that is there is the selector of the method and the converted arguments. -/
theorem encodeCall_eq_ok {r : Registry} {method : String} {args : List Value} {data : Bytes}
    {f : Function} (hf : r.method? method args.length = some f) :
    r.encodeCall method args = .ok data ↔ ∃ values,
      coerceAll method f.inputs args = .ok values ∧
        data = f.selector ++ Value.encodeAll values := by
  rw [encodeCall_of_method? hf, map_eq_ok]
  exact exists_congr fun values => and_congr_right fun _ => eq_comm

end Registry

/-- **Which integers are taken for bytes, and for which.** An integer is converted to a type of
bytes just when it is not negative and has twice as many decimal digits as the type has bytes. The
bytes are then those digits read to base sixteen, which is never the integer but a greater number;
and so it is with each integer that a call takes where its method asks for bytes. -/
theorem bytes_of_integer (hk : k.IsBytes) (hv : v.integer? = some i) :
    ((∃ w, coerce k v = .ok w) ↔ 0 ≤ i ∧ ∃ len, (Nat.toDigits 10 i.toNat).length = 2 * len ∧
      ∀ size ∈ k.byteCount?, len = size) ∧
    (∀ w, coerce k v = .ok w → ∃ bs, w.byteString? = some bs ∧
      Bytes.toNat bs = Numeral.misread i.toNat ∧ i < Bytes.toNat bs) ∧
    ∀ (r : Registry) (method : String) (args : List Value) (data : Bytes) (f : Function) (j : Nat)
      (p : Param), r.encodeCall method args = .ok data → r.method? method args.length = some f →
      args[j]? = some v → f.inputs[j]? = some p → p.resolve = .ok k →
      ∃ values w bs, data = f.selector ++ Value.encodeAll values ∧ values[j]? = some w ∧
        w.byteString? = some bs ∧ i < Bytes.toNat bs := by
  refine ⟨⟨fun h => ?_, fun h => ?_⟩, fun w => misread_of_coerce hk hv, ?_⟩
  · obtain ⟨w, h⟩ := h
    obtain ⟨hpos, bs, hdigits, hsize, -⟩ := (coerce_integer_eq_ok hk hv).mp h
    exact ⟨hpos, bs.length, Text.Hex.length_of_ofDigits? hdigits, hsize⟩
  · obtain ⟨hpos, len, hlen, hsize⟩ := h
    have hhex : ∀ c ∈ Nat.toDigits 10 i.toNat, Text.Hex.isDigit c = true :=
      fun c hc => Text.Hex.isDigit_of_isDigit (Numeral.isDigit_of_mem_toDigits hc)
    obtain ⟨bs, hbs⟩ := Text.Hex.exists_ofDigits? hhex hlen
    have hlength : bs.length = len := by
      have := Text.Hex.length_of_ofDigits? hbs
      omega
    exact ⟨_, (coerce_integer_eq_ok hk hv).mpr ⟨hpos, bs, hbs, hlength ▸ hsize, rfl⟩⟩
  · intro r method args data f j p hdata hf hargs hp hresolve
    obtain ⟨values, hvalues, rfl⟩ := (Registry.encodeCall_eq_ok hf).mp hdata
    obtain ⟨w, hw, hj⟩ := Registry.coerce_of_coerceAll hvalues hp hargs hresolve
    obtain ⟨bs, hbs, -, hlt⟩ := misread_of_coerce hk hv hw
    exact ⟨values, w, bs, rfl, hj, hbs, hlt⟩

/-- `pay(address to)` -/
def pay : Function := ⟨"pay", [⟨"to", "address", []⟩]⟩

/-- The number 10^39, the least with 40 digits. -/
def tooLarge : Value := .uint 256 (BitVec.ofNat 256 (10 ^ 39))

/-- A number of 40 digits is taken for an address, and the call goes to another one. -/
theorem bytes_of_integer_pay : Kind.IsBytes .address ∧ tooLarge.integer? = some (10 ^ 39) ∧
    ∃ data values w bs, (Registry.ofMethods [pay]).encodeCall "pay" [tooLarge] = .ok data ∧
      data = pay.selector ++ Value.encodeAll values ∧ values[0]? = some w ∧
      w.byteString? = some bs ∧ 10 ^ 39 < Bytes.toNat bs := by
  have hkind : Param.resolve ⟨"to", "address", []⟩ = .ok .address :=
    Param.resolve_of_rootName? "address" [] [] rfl rfl rfl rfl
  have hinteger : tooLarge.integer? = some (10 ^ 39) := by decide
  obtain ⟨hconverted, -, hcall⟩ := bytes_of_integer .address hinteger
  obtain ⟨w, hw⟩ := hconverted.mpr ⟨by decide, 20, by decide, by decide⟩
  have hdata : (Registry.ofMethods [pay]).encodeCall "pay" [tooLarge] =
      .ok (pay.selector ++ Value.encodeAll [w]) := by
    refine (Registry.encodeCall_eq_ok (f := pay) rfl).mpr ⟨[w], ?_, rfl⟩
    rw [pay, Registry.coerceAll_of_coerce hkind hw]
    rfl
  obtain ⟨values, w', bs, hdata', hw', hbs, hlt⟩ :=
    hcall _ "pay" [tooLarge] _ pay 0 _ hdata rfl rfl rfl hkind
  exact ⟨.address, hinteger, _, values, w', bs, hdata, hdata', hw', hbs, by exact_mod_cast hlt⟩

/-- **An integer need not be kept**: ten becomes the byte of the number sixteen. -/
theorem ten_becomes_sixteen :
    ∃ k v w bs, Kind.IsBytes k ∧ v.integer? = some 10 ∧ coerce k v = .ok w ∧
      w.byteString? = some bs ∧ Bytes.toNat bs = 16 :=
  ⟨.fixedBytes 1, .uint 256 10, .fixedBytes 1 (Word.ofBytes (16 :: Bytes.zeros 31)), [16],
    .fixedBytes (by decide) (by decide), rfl, rfl, by decide, rfl⟩

end Abi

end EventRelay
