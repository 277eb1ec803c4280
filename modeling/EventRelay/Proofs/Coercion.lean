import EventRelay.Proofs.Literals
import EventRelay.Proofs.Shapes

/-!
# Conversion of values without strings

A value whose type differs is converted by way of its text. Where it has the structure of the type
and there is no string in it, the text is read as it was written: the conversion succeeds just when
every integer is in the range of its new type and every fixed array has its length, and then nothing
but the labels of widths and the kinds of lists have changed.

Main statement:

* `coerce_structural`: what is converted, and to what.
-/

namespace EventRelay.Abi

/-! ## Values and types of one structure -/

namespace Value

/-- The items of a list of either kind. -/
def items? : Value → Option (List Value)
  | .array vs | .fixedArray vs => some vs
  | _ => none

/-- The number that a value is. -/
def integer? : Value → Option Int
  | .int _ n => some n.toInt
  | .uint _ n => some n.toNat
  | _ => none

/-- The word that a number is kept in. -/
def word : Value → Word
  | .int _ n | .uint _ n => n
  | _ => 0

mutual

/-- The numbers in a value, in order. -/
def integers : Value → List Int
  | .int _ n => [n.toInt]
  | .uint _ n => [(n.toNat : Int)]
  | .array vs | .fixedArray vs | .tuple vs => integersAll vs
  | _ => []

/-- The numbers in several values. -/
def integersAll : List Value → List Int
  | [] => []
  | v :: vs => integers v ++ integersAll vs

end

end Value

namespace Kind

/-- A type that holds no strings, with the sizes that the type system has. -/
inductive StringFree : Kind → Prop
  | bool : StringFree .bool
  | address : StringFree .address
  | function : StringFree .function
  | bytes : StringFree .bytes
  | fixedBytes {size : Nat} (hpos : 0 < size) (hle : size ≤ 32) : StringFree (.fixedBytes size)
  | int {bits : Nat} (hpos : 0 < bits) (hle : bits ≤ 256) : StringFree (.int bits)
  | uint {bits : Nat} (hpos : 0 < bits) (hle : bits ≤ 256) : StringFree (.uint bits)
  | array {item : Kind} (h : StringFree item) : StringFree (.array item)
  | fixedArray {item : Kind} {size : Nat} (h : StringFree item) : StringFree (.fixedArray item size)
  | tuple {items : List Kind} (hne : items ≠ []) (h : ∀ k ∈ items, StringFree k) :
      StringFree (.tuple items)

mutual

/-- Whether a value has the structure of a type: a list of either kind for a list, a tuple of as
many fields for a tuple, a number of any width and sign for a number, and else a value of the type.
Bytes of a fixed size have nothing behind them in their word. -/
def parallels : Kind → Value → Bool
  | .bool, .bool _ => true
  | .int _, v | .uint _, v => v.integer?.isSome
  | .fixedBytes size, .fixedBytes s w => s == size && (w.toBytes.drop size).all (· == 0)
  | .address, .address _ => true
  | .function, .function _ => true
  | .bytes, .bytes _ => true
  | .array item, v | .fixedArray item _, v =>
    v.items?.any fun vs => vs.all fun v => parallels item v
  | .tuple items, .tuple vs => parallelAll items vs
  | _, _ => false

/-- Whether values have the structure of the types that they stand beside, and are as many. -/
def parallelAll : List Kind → List Value → Bool
  | [], [] => true
  | k :: ks, v :: vs => parallels k v && parallelAll ks vs
  | _, _ => false

end

mutual

/-- Whether every number of a value is in the range of the type at its place, and every list at the
place of a fixed array has its length. -/
def admits : Kind → Value → Bool
  | .int bits, v =>
    v.integer?.any fun i => -((2 ^ (bits - 1) : Nat) : Int) ≤ i ∧ i < (2 ^ (bits - 1) : Nat)
  | .uint bits, v => v.integer?.any fun i : Int => 0 ≤ i ∧ i < (2 ^ bits : Nat)
  | .array item, v => v.items?.any fun vs => vs.all fun v => admits item v
  | .fixedArray item size, v =>
    v.items?.any fun vs => vs.length == size && vs.all fun v => admits item v
  | .tuple items, .tuple vs => admitAll items vs
  | _, _ => true

/-- Whether values are admitted by the types that they stand beside. -/
def admitAll : List Kind → List Value → Bool
  | k :: ks, v :: vs => admits k v && admitAll ks vs
  | _, _ => true

end

mutual

/-- A value with the labels of widths and signs and the kinds of lists that a type has at their
places, and with all else as it is. -/
def relabel : Kind → Value → Value
  | .int bits, v => .int bits v.word
  | .uint bits, v => .uint bits v.word
  | .array item, v => .array ((v.items?.getD []).map fun v => relabel item v)
  | .fixedArray item _, v => .fixedArray ((v.items?.getD []).map fun v => relabel item v)
  | .tuple items, .tuple vs => .tuple (relabelAll items vs)
  | _, v => v

/-- Values with the labels of the types that they stand beside. -/
def relabelAll : List Kind → List Value → List Value
  | k :: ks, v :: vs => relabel k v :: relabelAll ks vs
  | _, vs => vs

end

/-- Nothing but no values is parallel to no kinds. -/
theorem parallelAll_nil {vs : List Value} : parallelAll [] vs = true ↔ vs = [] := by
  cases vs with
  | nil => exact ⟨fun _ => rfl, fun _ => rfl⟩
  | cons _ _ => exact ⟨nofun, nofun⟩

/-- Values are parallel to kinds one by one, with none left over. -/
theorem parallelAll_cons {k : Kind} {ks : List Kind} {vs : List Value} :
    parallelAll (k :: ks) vs = true ↔
      ∃ v vs', vs = v :: vs' ∧ k.parallels v = true ∧ parallelAll ks vs' = true := by
  cases vs with
  | nil => exact ⟨nofun, nofun⟩
  | cons v vs =>
    rw [parallelAll, Bool.and_eq_true]
    constructor
    · exact fun h => ⟨v, vs, rfl, h⟩
    · intro h
      obtain ⟨_, _, heq, h⟩ := h
      obtain ⟨rfl, rfl⟩ := List.cons.inj heq
      exact h

end Kind

/-! ## The text of a value with parts -/

namespace Value

/-- The text of values that follow another one. -/
def tailText (vs : List Value) : List Char := vs.flatMap fun v => ',' :: v.text.toList

/-- The text between the brackets of a list or a tuple. -/
def innerText : List Value → List Char
  | [] => []
  | v :: vs => v.text.toList ++ tailText vs

theorem tailText_cons (v : Value) (vs : List Value) :
    tailText (v :: vs) = ',' :: (v.text.toList ++ tailText vs) := rfl

/-- The text of the later items is no shorter than their number: each has its comma. -/
theorem length_le_tailText (vs : List Value) : vs.length ≤ (tailText vs).length := by
  induction vs with
  | nil => exact Nat.le_refl 0
  | cons v vs ih =>
    rw [tailText_cons, List.length_cons, List.length_cons, List.length_append]
    exact Nat.succ_le_succ (Nat.le_add_left_of_le ih)

/-- The items of a container are written with commas between them. -/
theorem toList_intercalate (vs : List Value) :
    (",".intercalate (texts vs)).toList = innerText vs := by
  have htail : ∀ (cs : List Char) (vs : List Value),
      [','].intercalate (cs :: (texts vs).map (·.toList)) =
      cs ++ tailText vs := by
    intro cs vs
    induction vs generalizing cs with
    | nil => simp [texts, tailText]
    | cons v vs ih =>
      rw [texts, List.map_cons, List.intercalate_cons_cons, ih, tailText_cons]
      simp
  rw [String.toList_intercalate]
  cases vs with
  | nil => rfl
  | cons v vs => exact htail _ vs

/-- The text of a list of either kind. -/
theorem text_of_items? {v : Value} {vs : List Value} (h : v.items? = some vs) :
    v.text.toList = '[' :: (innerText vs ++ [']']) := by
  have htext : ("[" ++ ",".intercalate (texts vs) ++ "]").toList =
      '[' :: (innerText vs ++ [']']) := by
    rw [String.toList_append, String.toList_append, toList_intercalate]
    rfl
  cases v <;> first | (obtain rfl := Option.some.inj h; exact htext) | cases h

theorem text_tuple (vs : List Value) :
    (Value.tuple vs).text.toList = '(' :: (innerText vs ++ [')']) := by
  rw [text, String.toList_append, String.toList_append, toList_intercalate]
  rfl

/-- An integer is written in decimal and stands for the word that it fits into. -/
theorem text_of_integer? {v : Value} {i : Int} (h : v.integer? = some i) :
    v.text = Text.Decimal.ofInt i ∧ i.natAbs < Bytes.capacity 32 ∧
      BitVec.ofInt 256 i = v.word := by
  have hcapacity : Bytes.capacity 32 = 2 ^ 256 := rfl
  cases v with
  | int bits n =>
    obtain rfl := Option.some.inj h
    have hlt := n.toInt_lt
    have hle := n.le_toInt
    exact ⟨rfl, by rw [hcapacity]; omega, BitVec.ofInt_toInt⟩
  | uint bits n =>
    obtain rfl := Option.some.inj h
    refine ⟨rfl, n.isLt, ?_⟩
    rw [BitVec.ofInt_natCast, BitVec.ofNat_toNat, BitVec.setWidth_eq]
    rfl
  | _ => cases h

/-- A text that begins with neither a blank nor a delimiter. -/
def Starts (cs : List Char) : Prop :=
  ∃ c rest, cs = c :: rest ∧ isDelimiter c = false ∧ c ≠ ' ' ∧ c ≠ '\t'

theorem Starts.append {cs : List Char} (h : Starts cs) (rest : List Char) :
    Starts (cs ++ rest) := by
  obtain ⟨c, tail, rfl, hc⟩ := h
  exact ⟨c, tail ++ rest, rfl, hc⟩

theorem Starts.skipBlank {cs : List Char} (h : Starts cs) : skipBlank cs = cs := by
  obtain ⟨c, tail, rfl, -, hspace, htab⟩ := h
  simp [EventRelay.Abi.skipBlank, hspace, htab]

/-- A text that begins with neither a blank nor the given end of a list. -/
def Begins (close : Char) (cs : List Char) : Prop :=
  ∃ c rest, cs = c :: rest ∧ c ≠ close ∧ c ≠ ' ' ∧ c ≠ '\t'

/-- A text that starts like a value does not start like the end of a list. -/
theorem Starts.begins {cs : List Char} (h : Starts cs) {close : Char}
    (hclose : isDelimiter close = true) : Begins close cs := by
  obtain ⟨c, rest, rfl, hc, hblank⟩ := h
  refine ⟨c, rest, rfl, ?_, hblank⟩
  rintro rfl
  rw [hc] at hclose
  cases hclose

theorem Begins.append {close : Char} {cs : List Char} (h : Begins close cs) (rest : List Char) :
    Begins close (cs ++ rest) := by
  obtain ⟨c, tail, rfl, hc⟩ := h
  exact ⟨c, tail ++ rest, rfl, hc⟩

/-- The digits of a number start like a value. -/
theorem starts_toDigits (n : Nat) : Starts (Nat.toDigits 10 n) := by
  cases hds : Nat.toDigits 10 n with
  | nil => exact absurd hds Nat.toDigits_ne_nil
  | cons d ds =>
    have hd : Text.Decimal.isDigit d = true :=
      Numeral.isDigit_of_mem_toDigits (n := n) (by rw [hds]; exact List.mem_cons_self)
    refine ⟨d, ds, rfl, ?_, ?_, ?_⟩
    · cases hdelimiter : isDelimiter d with
      | false => rfl
      | true =>
        rw [not_isDigit_of_isDelimiter d hdelimiter] at hd
        cases hd
    · rintro rfl
      cases hd
    · rintro rfl
      cases hd

/-- So does a number with its sign. -/
theorem starts_ofInt (i : Int) : Starts (Text.Decimal.ofInt i).toList := by
  rw [Kind.toList_ofInt]
  split
  next => exact ⟨'-', _, rfl, by decide, by decide, by decide⟩
  next => exact starts_toDigits _

theorem starts_encode (bs : Bytes) : Starts (Text.Hex.encode bs).toList := by
  rw [Text.Hex.encode, Text.Hex.toList_marked]
  exact ⟨'0', _, rfl, by decide, by decide, by decide⟩

end Value

namespace Kind

/-- The text of a value that has the structure of a type without strings. -/
theorem StringFree.starts {k : Kind} (hk : k.StringFree) {v : Value} (h : k.parallels v = true) :
    Value.Starts v.text.toList := by
  have hnumber : ∀ {v : Value}, v.integer?.isSome = true → Value.Starts v.text.toList := by
    intro v hv
    obtain ⟨i, hi⟩ := Option.isSome_iff_exists.mp hv
    rw [(Value.text_of_integer? hi).1]
    exact Value.starts_ofInt i
  have hlist : ∀ {v : Value} {p : List Value → Bool}, v.items?.any p = true →
      Value.Starts v.text.toList := by
    intro v p hv
    obtain ⟨vs, hvs, -⟩ := (Option.any_eq_true _ _).mp hv
    rw [Value.text_of_items? hvs]
    exact ⟨'[', _, rfl, by decide, by decide, by decide⟩
  cases hk with
  | int | uint => exact hnumber h
  | array | fixedArray => exact hlist h
  | tuple =>
    cases v with
    | tuple vs =>
      rw [Value.text_tuple]
      exact ⟨'(', _, rfl, by decide, by decide, by decide⟩
    | _ => cases h
  | bool =>
    cases v with
    | bool b => cases b <;> exact ⟨_, _, rfl, by decide, by decide, by decide⟩
    | _ => cases h
  | address =>
    cases v with
    | address a =>
      obtain ⟨ds, htext, -⟩ := a.checksummed_eq
      rw [Value.text, htext]
      exact ⟨'0', _, rfl, by decide, by decide, by decide⟩
    | _ => cases h
  | function =>
    cases v with
    | function f => exact Value.starts_encode (Value.functionBytes f)
    | _ => cases h
  | bytes =>
    cases v with
    | bytes bs => exact Value.starts_encode bs
    | _ => cases h
  | fixedBytes =>
    cases v with
    | fixedBytes size w => exact Value.starts_encode (w.toBytes.take size)
    | _ => cases h

/-- The text of a value is read as the value with the labels of the type, if its numbers and lengths
are admitted, and else not at all. -/
def Legible (k : Kind) (v : Value) : Prop :=
  ∀ listEnd rest, Delimited rest → k.read? listEnd (v.text.toList ++ rest) =
    if k.admits v then some (k.relabel v, rest) else none

/-- The text of a truth value is read back. -/
theorem legible_bool (b : Bool) : Legible .bool (.bool b) := by
  intro listEnd rest hrest
  rw [read?_bool, Value.text, readBool?_text b hrest]
  rfl

/-- The text of an integer is read back where its type is signed and wide enough. -/
theorem legible_int {bits : Nat} {v : Value} (h : v.integer?.isSome = true) :
    Legible (.int bits) v := by
  intro listEnd rest hrest
  obtain ⟨i, hi⟩ := Option.isSome_iff_exists.mp h
  obtain ⟨htext, hlt, hword⟩ := Value.text_of_integer? hi
  rw [read?, htext, readInt?_ofInt bits hlt hrest, admits, hi, relabel]
  simp only [Option.any_some, decide_eq_true_eq]
  split
  next => rw [Option.map_some, hword]
  next => rfl

/-- The text of an integer is read back where its type is unsigned and it is in range. -/
theorem legible_uint {bits : Nat} {v : Value} (h : v.integer?.isSome = true) :
    Legible (.uint bits) v := by
  intro listEnd rest hrest
  obtain ⟨i, hi⟩ := Option.isSome_iff_exists.mp h
  obtain ⟨htext, hlt, hword⟩ := Value.text_of_integer? hi
  rw [read?, htext, readUint?_ofInt bits hlt hrest, admits, hi, relabel]
  simp only [Option.any_some, decide_eq_true_eq]
  split
  next hrange =>
    rw [Option.map_some, ← hword, ← BitVec.ofInt_natCast, Int.toNat_of_nonneg hrange.1]
  next => rfl

/-- The text of bytes is read back. -/
theorem legible_bytes (bs : Bytes) : Legible .bytes (.bytes bs) := by
  intro listEnd rest hrest
  rw [read?, Value.text, readBytes?_encode bs hrest]
  rfl

/-- The text of an address is read back, its checksum included. -/
theorem legible_address (a : Address) : Legible .address (.address a) := by
  intro listEnd rest hrest
  rw [read?, Value.text, readExactly?_checksummed a hrest]
  simp only [Option.map_some, Address.ofBytes_toBytes]
  rfl

/-- The text of a function is read back. -/
theorem legible_function (f : BitVec 192) : Legible .function (.function f) := by
  intro listEnd rest hrest
  have hvalue : Bytes.toNat (Value.functionBytes f) = f.toNat := by
    rw [Value.functionBytes, Bytes.toNat_ofNat]
    exact Nat.mod_eq_of_lt f.isLt
  have hlength : (Value.functionBytes f).length = 24 := Bytes.length_ofNat 24 _
  rw [read?, Value.text, readExactly?_encode hlength hrest]
  simp only [Option.map_some, hvalue, BitVec.ofNat_toNat, BitVec.setWidth_eq]
  rfl

/-- A word with nothing behind its first bytes is read back from these. -/
theorem legible_fixedBytes {size : Nat} (hle : size ≤ 32) {w : Word}
    (hpad : (w.toBytes.drop size).all (· == 0) = true) :
    Legible (.fixedBytes size) (.fixedBytes size w) := by
  intro listEnd rest hrest
  have hlength : (w.toBytes.take size).length = size := by
    rw [List.length_take, Word.length_toBytes, Nat.min_eq_left hle]
  have hzeros : Bytes.zeros (32 - size) = w.toBytes.drop size := by
    refine (List.eq_replicate_iff.mpr ⟨?_, fun b hb => ?_⟩).symm
    · rw [List.length_drop, Word.length_toBytes]
    · exact eq_of_beq (List.all_eq_true.mp hpad b hb)
  rw [read?, Value.text, readExactly?_encode hlength hrest]
  simp only [Option.map_some, hzeros, List.take_append_drop, Word.ofBytes_toBytes]
  rfl

/-! ### Lists and tuples -/

theorem listEnd?_close {α : Type} (close : Char) (hspace : close ≠ ' ') (htab : close ≠ '\t')
    (rest : List Char) : listEnd? (α := α) close (close :: rest) = some ([], rest) := by
  simp [listEnd?, skipBlank, hspace, htab]

/-- Where a value begins no list ends. -/
theorem listEnd?_begins {α : Type} {close : Char} {cs : List Char} (h : Value.Begins close cs) :
    listEnd? (α := α) close cs = none := by
  obtain ⟨c, tail, rfl, hne, hspace, htab⟩ := h
  simp [listEnd?, skipBlank, hne, hspace, htab]

/-- What follows an item of a container cannot be part of it. -/
theorem delimited_tailText (vs : List Value) (close : Char) (hclose : isDelimiter close = true)
    (rest : List Char) : Delimited (Value.tailText vs ++ close :: rest) := by
  cases vs with
  | nil => exact delimited_cons hclose
  | cons v vs => exact delimited_cons rfl

variable {item : Kind} {vs : List Value}

/-- The items of a list after its first one are read, as long as they are admitted. -/
theorem moreItems?_tailText (h : ∀ v ∈ vs, item.Legible v ∧ Value.Starts v.text.toList)
    {fuel : Nat} (hfuel : vs.length ≤ fuel) (rest : List Char) :
    moreItems? (fun cs => item.read? (some ']') cs) ']' fuel (Value.tailText vs ++ ']' :: rest) =
      if vs.all item.admits then some (vs.map item.relabel, rest) else none := by
  induction vs generalizing fuel with
  | nil =>
    have hend := listEnd?_close (α := Value) ']' (by decide) (by decide) rest
    cases fuel <;> exact hend
  | cons v vs ih =>
    cases fuel with
    | zero => cases hfuel
    | succ fuel =>
      obtain ⟨hread, hstarts⟩ := h v List.mem_cons_self
      have hrest := delimited_tailText vs ']' rfl rest
      have hmore := ih (fun v hv => h v (List.mem_cons_of_mem _ hv)) (Nat.le_of_succ_le_succ hfuel)
      have hskip := (hstarts.append (Value.tailText vs ++ ']' :: rest)).skipBlank
      rw [Value.tailText_cons, List.cons_append, List.append_assoc, moreItems?, hskip,
        hread _ _ hrest, List.all_cons, List.map_cons]
      cases hadmits : item.admits v with
      | true =>
        simp only [if_true, hmore, Bool.true_and]
        split <;> rfl
      | false =>
        simp only [Bool.false_eq_true, if_false, Bool.false_and]
        exact listEnd?_begins ((hstarts.append _).begins rfl)

/-- A list is read, if all of its items are admitted. -/
theorem bracketed?_innerText (h : ∀ v ∈ vs, item.Legible v ∧ Value.Starts v.text.toList)
    (rest : List Char) :
    bracketed? (fun cs => item.read? (some ']') cs) '[' ']'
        ('[' :: (Value.innerText vs ++ ']' :: rest)) =
      if vs.all item.admits then some (vs.map item.relabel, rest) else none := by
  cases vs with
  | nil => rfl
  | cons v vs =>
    obtain ⟨hread, hstarts⟩ := h v List.mem_cons_self
    have hrest := delimited_tailText vs ']' rfl rest
    have hlength : vs.length ≤ (Value.tailText vs ++ ']' :: rest).length := by
      rw [List.length_append]
      exact Nat.le_add_right_of_le (Value.length_le_tailText vs)
    have hmore := moreItems?_tailText (fun v hv => h v (List.mem_cons_of_mem _ hv)) hlength rest
    have hitem := hread (some ']') _ hrest
    have hskip := (hstarts.append (Value.tailText vs ++ ']' :: rest)).skipBlank
    obtain ⟨c, tail, htext, hc, -⟩ := hstarts
    have hne : c ≠ ']' := by
      rintro rfl
      cases hc
    rw [Value.innerText, List.append_assoc, bracketed?, if_neg (by decide), hskip]
    rw [htext, List.cons_append] at hitem ⊢
    simp only [if_neg hne, hitem, List.all_cons, List.map_cons]
    cases hadmits : item.admits v with
    | true =>
      simp only [if_true, Bool.true_and, Option.bind_eq_bind, Option.bind_some, hmore]
      split <;> rfl
    | false =>
      simp only [Bool.false_eq_true, if_false, Bool.false_and, Option.bind_eq_bind,
        Option.bind_none]

/-- The fields of a tuple after its first one are read, as long as they are admitted. -/
theorem readFields?_tailText {ks : List Kind} {vs : List Value}
    (hk : ∀ k ∈ ks, ∀ v, k.parallels v = true → k.Legible v ∧ Value.Starts v.text.toList)
    (h : parallelAll ks vs = true) (rest : List Char) :
    readFields? ks false (Value.tailText vs ++ ')' :: rest) =
      if admitAll ks vs then some (relabelAll ks vs, rest) else none := by
  induction ks generalizing vs with
  | nil =>
    rw [parallelAll_nil.mp h]
    rfl
  | cons k ks ih =>
    obtain ⟨v, vs, rfl, hv, hvs⟩ := parallelAll_cons.mp h
    obtain ⟨hread, hstarts⟩ := hk k List.mem_cons_self v hv
    have hrest := delimited_tailText vs ')' rfl rest
    have hmore := ih (fun k hmem => hk k (List.mem_cons_of_mem _ hmem)) hvs
    have hskip := (hstarts.append (Value.tailText vs ++ ')' :: rest)).skipBlank
    have hcomma : ∀ cs, skipBlank (',' :: cs) = ',' :: cs := fun cs => rfl
    rw [Value.tailText_cons, List.cons_append, List.append_assoc, readFields?, admitAll, relabelAll]
    simp only [Bool.false_eq_true, if_false, hcomma, Option.bind_eq_bind, Option.bind_some, hskip,
      hread _ _ hrest]
    cases hadmits : k.admits v with
    | true =>
      simp only [if_true, Bool.true_and, Option.bind_some, hmore]
      split <;> rfl
    | false => simp only [Bool.false_eq_true, if_false, Bool.false_and, Option.bind_none]

/-- The fields of a tuple are read, if all of them are admitted. -/
theorem readFields?_innerText {ks : List Kind} {vs : List Value}
    (hk : ∀ k ∈ ks, ∀ v, k.parallels v = true → k.Legible v ∧ Value.Starts v.text.toList)
    (h : parallelAll ks vs = true) (rest : List Char) :
    readFields? ks true (Value.innerText vs ++ ')' :: rest) =
      if admitAll ks vs then some (relabelAll ks vs, rest) else none := by
  cases ks with
  | nil =>
    rw [parallelAll_nil.mp h]
    rfl
  | cons k ks =>
    obtain ⟨v, vs, rfl, hv, hvs⟩ := parallelAll_cons.mp h
    obtain ⟨hread, hstarts⟩ := hk k List.mem_cons_self v hv
    have hrest := delimited_tailText vs ')' rfl rest
    have hmore := readFields?_tailText (fun k hmem => hk k (List.mem_cons_of_mem _ hmem)) hvs rest
    have hskip := (hstarts.append (Value.tailText vs ++ ')' :: rest)).skipBlank
    rw [Value.innerText, List.append_assoc, readFields?, admitAll, relabelAll]
    simp only [if_true, Option.bind_eq_bind, Option.bind_some, hskip, hread _ _ hrest]
    cases hadmits : k.admits v with
    | true =>
      simp only [if_true, Bool.true_and, Option.bind_some, hmore]
      split <;> rfl
    | false => simp only [Bool.false_eq_true, if_false, Bool.false_and, Option.bind_none]

/-- **The text of a value without strings is read as it was written**, under the labels of any type
of its structure that admits it. -/
theorem StringFree.legible {k : Kind} (hk : k.StringFree) {v : Value} (h : k.parallels v = true) :
    k.Legible v := by
  induction hk generalizing v with
  | bool =>
    cases v with
    | bool b => exact legible_bool b
    | _ => cases h
  | address =>
    cases v with
    | address a => exact legible_address a
    | _ => cases h
  | function =>
    cases v with
    | function f => exact legible_function f
    | _ => cases h
  | bytes =>
    cases v with
    | bytes bs => exact legible_bytes bs
    | _ => cases h
  | fixedBytes _ hle =>
    cases v with
    | fixedBytes size w =>
      rw [parallels, Bool.and_eq_true] at h
      obtain rfl := eq_of_beq h.1
      exact legible_fixedBytes hle h.2
    | _ => cases h
  | int => exact legible_int h
  | uint => exact legible_uint h
  | @array item hitem ih =>
    intro listEnd rest hrest
    obtain ⟨vs, hvs, hall⟩ := (Option.any_eq_true _ _).mp h
    rw [List.all_eq_true] at hall
    have hlist := bracketed?_innerText (fun v hv => ⟨ih (hall v hv), hitem.starts (hall v hv)⟩) rest
    rw [read?, Value.text_of_items? hvs, List.cons_append, List.append_assoc, List.singleton_append,
      hlist, admits, relabel, hvs, Option.any_some, Option.getD_some]
    split <;> rfl
  | @fixedArray item size hitem ih =>
    intro listEnd rest hrest
    obtain ⟨vs, hvs, hall⟩ := (Option.any_eq_true _ _).mp h
    rw [List.all_eq_true] at hall
    have hlist := bracketed?_innerText (fun v hv => ⟨ih (hall v hv), hitem.starts (hall v hv)⟩) rest
    rw [read?, Value.text_of_items? hvs, List.cons_append, List.append_assoc, List.singleton_append,
      hlist, admits, relabel, hvs, Option.any_some, Option.getD_some]
    cases vs.all item.admits with
    | true =>
      simp only [if_true, Option.bind_eq_bind, Option.bind_some, List.length_map, Bool.and_true,
        beq_iff_eq]
    | false => simp only [Bool.false_eq_true, if_false, Option.bind_eq_bind, Option.bind_none,
        Bool.and_false]
  | @tuple items _ hitems ih =>
    intro listEnd rest hrest
    cases v with
    | tuple vs =>
      have hfields := readFields?_innerText
        (fun k hmem v hv => ⟨ih k hmem hv, (hitems k hmem).starts hv⟩) h rest
      have hopen : ∀ cs, skipBlank ('(' :: cs) = '(' :: cs := fun cs => rfl
      rw [read?, Value.text_tuple, List.cons_append, List.append_assoc, List.singleton_append,
        hopen, admits, relabel]
      simp only [hfields]
      split <;> rfl
    | _ => cases h

/-! ### What the labels change -/

/-- Parallel values that are admitted hold their kinds once they are relabelled. -/
theorem holdsAll_relabelAll {ks : List Kind} {vs : List Value}
    (hk : ∀ k ∈ ks, ∀ v, k.parallels v = true → k.admits v = true → k.holds (k.relabel v) = true)
    (h : parallelAll ks vs = true) (hadmits : admitAll ks vs = true) :
    holdsAll ks (relabelAll ks vs) = true := by
  induction ks generalizing vs with
  | nil =>
    rw [parallelAll_nil.mp h]
    rfl
  | cons k ks ih =>
    obtain ⟨v, vs, rfl, hv, hvs⟩ := parallelAll_cons.mp h
    rw [admitAll, Bool.and_eq_true] at hadmits
    rw [relabelAll, holdsAll, Bool.and_eq_true]
    exact ⟨hk k List.mem_cons_self v hv hadmits.1,
      ih (fun k hmem => hk k (List.mem_cons_of_mem _ hmem)) hvs hadmits.2⟩

/-- A value that is admitted is of the type under its labels. -/
theorem StringFree.holds_relabel {k : Kind} (hk : k.StringFree) {v : Value}
    (h : k.parallels v = true) (hadmits : k.admits v = true) : k.holds (k.relabel v) = true := by
  induction hk generalizing v with
  | int | uint => exact beq_self_eq_true _
  | @array item _ ih =>
    obtain ⟨vs, hvs, hall⟩ := (Option.any_eq_true _ _).mp h
    rw [admits, hvs, Option.any_some, List.all_eq_true] at hadmits
    rw [List.all_eq_true] at hall
    rw [relabel, hvs, Option.getD_some, holds, List.all_map, List.all_eq_true]
    exact fun v hv => ih (hall v hv) (hadmits v hv)
  | @fixedArray item size _ ih =>
    obtain ⟨vs, hvs, hall⟩ := (Option.any_eq_true _ _).mp h
    rw [admits, hvs, Option.any_some, Bool.and_eq_true, List.all_eq_true] at hadmits
    rw [List.all_eq_true] at hall
    rw [relabel, hvs, Option.getD_some, holds, List.length_map, List.all_map, Bool.and_eq_true,
      List.all_eq_true]
    exact ⟨hadmits.1, fun v hv => ih (hall v hv) (hadmits.2 v hv)⟩
  | tuple _ _ ih =>
    cases v with
    | tuple vs => exact holdsAll_relabelAll (fun k hk v => ih k hk) h hadmits
    | _ => cases h
  | fixedBytes =>
    cases v with
    | fixedBytes s w => exact (Bool.and_eq_true_iff.mp h).1
    | _ => cases h
  | _ => cases v <;> first | rfl | cases h

/-- Relabelling the items of an array keeps their integers. -/
theorem integersAll_map {item : Kind} {vs : List Value}
    (h : ∀ v ∈ vs, (item.relabel v).integers = v.integers) :
    Value.integersAll (vs.map item.relabel) = Value.integersAll vs := by
  induction vs with
  | nil => rfl
  | cons v vs ih =>
    rw [List.map_cons, Value.integersAll, Value.integersAll, h v List.mem_cons_self,
      ih fun v hv => h v (List.mem_cons_of_mem _ hv)]

/-- Relabelling the items of a tuple keeps their integers. -/
theorem integersAll_relabelAll {ks : List Kind} {vs : List Value}
    (hk : ∀ k ∈ ks, ∀ v, k.parallels v = true → k.admits v = true →
      (k.relabel v).integers = v.integers)
    (h : parallelAll ks vs = true) (hadmits : admitAll ks vs = true) :
    Value.integersAll (relabelAll ks vs) = Value.integersAll vs := by
  induction ks generalizing vs with
  | nil =>
    rw [parallelAll_nil.mp h]
    rfl
  | cons k ks ih =>
    obtain ⟨v, vs, rfl, hv, hvs⟩ := parallelAll_cons.mp h
    rw [admitAll, Bool.and_eq_true] at hadmits
    rw [relabelAll, Value.integersAll, Value.integersAll, hk k List.mem_cons_self v hv hadmits.1,
      ih (fun k hmem => hk k (List.mem_cons_of_mem _ hmem)) hvs hadmits.2]

theorem integers_of_integer? {v : Value} {i : Int} (h : v.integer? = some i) :
    v.integers = [i] := by
  cases v with
  | int bits n => rw [← Option.some.inj h]; rfl
  | uint bits n => rw [← Option.some.inj h]; rfl
  | _ => cases h

theorem integers_of_items? {v : Value} {vs : List Value} (h : v.items? = some vs) :
    v.integers = Value.integersAll vs := by
  cases v with
  | array ws => rw [← Option.some.inj h]; rfl
  | fixedArray ws => rw [← Option.some.inj h]; rfl
  | _ => cases h

/-- Numbers that are admitted are the same under their labels. -/
theorem StringFree.integers_relabel {k : Kind} (hk : k.StringFree) {v : Value}
    (h : k.parallels v = true) (hadmits : k.admits v = true) :
    (k.relabel v).integers = v.integers := by
  induction hk generalizing v with
  | @int bits hpos hle =>
    obtain ⟨i, hi, hrange⟩ := (Option.any_eq_true _ _).mp hadmits
    obtain ⟨-, -, hword⟩ := Value.text_of_integer? hi
    have hpow : 2 ^ (bits - 1) ≤ 2 ^ 255 := Nat.pow_le_pow_right (by decide) (by omega)
    rw [decide_eq_true_eq] at hrange
    rw [relabel, integers_of_integer? hi, Value.integers, ← hword,
      BitVec.toInt_ofInt_eq_self (by decide) (by omega) (by omega)]
  | @uint bits hpos hle =>
    obtain ⟨i, hi, hrange⟩ := (Option.any_eq_true _ _).mp hadmits
    obtain ⟨-, -, hword⟩ := Value.text_of_integer? hi
    have hpow : 2 ^ bits ≤ 2 ^ 256 := Nat.pow_le_pow_right (by decide) hle
    rw [decide_eq_true_eq] at hrange
    have hnat : (BitVec.ofInt 256 i).toNat = i.toNat := by
      rw [BitVec.toNat_ofInt]
      omega
    rw [relabel, integers_of_integer? hi, Value.integers, ← hword, hnat,
      Int.toNat_of_nonneg hrange.1]
  | @array item _ ih =>
    obtain ⟨vs, hvs, hall⟩ := (Option.any_eq_true _ _).mp h
    rw [admits, hvs, Option.any_some, List.all_eq_true] at hadmits
    rw [List.all_eq_true] at hall
    rw [relabel, hvs, Option.getD_some, Value.integers, integers_of_items? hvs]
    exact integersAll_map fun v hv => ih (hall v hv) (hadmits v hv)
  | @fixedArray item size _ ih =>
    obtain ⟨vs, hvs, hall⟩ := (Option.any_eq_true _ _).mp h
    rw [admits, hvs, Option.any_some, Bool.and_eq_true, List.all_eq_true] at hadmits
    rw [List.all_eq_true] at hall
    rw [relabel, hvs, Option.getD_some, Value.integers, integers_of_items? hvs]
    exact integersAll_map fun v hv => ih (hall v hv) (hadmits.2 v hv)
  | tuple _ _ ih =>
    cases v with
    | tuple vs => exact integersAll_relabelAll (fun k hk v => ih k hk) h hadmits
    | _ => cases h
  | _ => cases v <;> rfl

end Kind

/-! ## The conversion -/

/-- **A value without strings is converted structurally.** One that fits the type already is taken
as it is. Any other of its structure is converted just when the type admits its numbers and lengths,
and then to the same value under the labels of the type, of which the numbers are the same. -/
theorem coerce_structural {k : Kind} (hk : k.StringFree) {v : Value} (h : k.parallels v = true) :
    (k.holds v = true → coerce k v = .ok v) ∧
    (k.holds v = false →
      coerce k v = if k.admits v then .ok (k.relabel v) else .error ⟨v, k⟩) ∧
    (k.admits v = true →
      k.holds (k.relabel v) = true ∧ (k.relabel v).integers = v.integers) := by
  refine ⟨fun hholds => ?_, fun hholds => ?_, fun hadmits =>
    ⟨hk.holds_relabel h hadmits, hk.integers_relabel h hadmits⟩⟩
  · rw [coerce, if_pos hholds]
  · have hread := hk.legible h none [] delimited_nil
    rw [List.append_nil] at hread
    rw [coerce, if_neg (Bool.eq_false_iff.mp hholds), Kind.ofText?, hread]
    cases k.admits v <;> rfl

/-- A wide number becomes a narrow one, and the least number of eight bits is one of them. A list of
either kind becomes one of the other. -/
theorem coerce_structural_record :
    let k : Kind := .tuple [.uint 64, .int 8, .array (.fixedBytes 2), .fixedArray .bool 1]
    let v : Value := .tuple [.uint 256 7, .int 256 (-128), .fixedArray [.fixedBytes 2 0],
      .array [.bool true]]
    k.StringFree ∧ k.parallels v = true ∧
      coerce k v = .ok (.tuple [.uint 64 7, .int 8 (-128), .array [.fixedBytes 2 0],
        .fixedArray [.bool true]]) := by
  intro k v
  have hk : k.StringFree := by
    refine .tuple (by decide) fun item hitem => ?_
    simp only [List.mem_cons, List.not_mem_nil, or_false] at hitem
    obtain rfl | rfl | rfl | rfl := hitem
    · exact .uint (by decide) (by decide)
    · exact .int (by decide) (by decide)
    · exact .array (.fixedBytes (by decide) (by decide))
    · exact .fixedArray .bool
  have h : k.parallels v = true := by decide
  have hholds : k.holds v = false := by decide
  have hadmits : k.admits v = true := by decide
  refine ⟨hk, h, ?_⟩
  rw [(coerce_structural hk h).2.1 hholds, if_pos hadmits]
  rfl

end EventRelay.Abi
