import EventRelay.Abi.Specifier
import EventRelay.Text.Blank

/-!
# Coercion of a value to a type

A value of the type is taken as it is. Any other value is written as text
(`Value.text`) and the text is read by the grammar of the type. Numbers may have a base mark, a
fraction, an exponent and a unit of ether; bytes are hexadecimal; strings inside a list stop at a
comma or the end of the list unless they are quoted.
-/

namespace EventRelay.Abi

namespace Numeral

/-- The digits of a number and its base: `0b`, `0o` or `0x` in front, else ten. -/
def digits? (cs : List Char) : Option (List Char × Nat × List Char) :=
  let run (base : Nat) (isDigit : Char → Bool) (cs : List Char) :
      Option (List Char × Nat × List Char) :=
    let ds := cs.takeWhile isDigit
    if ds.isEmpty then none else some (ds, base, cs.dropWhile isDigit)
  match cs with
  | '0' :: m :: rest =>
    if m = 'x' || m = 'X' then run 16 Text.Hex.isDigit rest
    else if m = 'o' || m = 'O' then run 8 Text.Hex.isDigit rest
    else if m = 'b' || m = 'B' then run 2 Text.Hex.isDigit rest
    else run 10 Text.Decimal.isDigit cs
  | cs => run 10 Text.Decimal.isDigit cs

/-- The value of digits to a base, if each is below the base and the value below 2^256. -/
def value? (base : Nat) (ds : List Char) : Option Nat := do
  let n ← ds.foldlM (fun n c => do
    let d ← Text.Hex.value? c
    if d < base then some (n * base + d) else none) 0
  if n < Bytes.capacity 32 then some n else none

/-- The digits after a point, if there is a point; a point needs a digit. -/
def fraction? : List Char → Option (Option (List Char) × List Char)
  | '.' :: cs =>
    let ds := cs.takeWhile Text.Decimal.isDigit
    if ds.isEmpty then none else some (some ds, cs.dropWhile Text.Decimal.isDigit)
  | cs => some (none, cs)

/-- The exponent, if one begins here: a lone zero, or a sign and a number without leading zeros. -/
def exponent (cs : List Char) : Int × List Char :=
  match cs with
  | [] => (0, [])
  | c :: rest =>
    if c = 'e' || c = 'E' then
      let (minus, after) := match rest with
        | '-' :: r => (true, r)
        | '+' :: r => (false, r)
        | r => (false, r)
      let run := after.takeWhile Text.Decimal.isDigit
      let n := Text.Decimal.value run
      match rest, run with
      | '0' :: r, _ => (0, r)
      | _, [] | _, '0' :: _ => (0, cs)
      | _, _ =>
        if UInt64.size ≤ 2 * n then (0, cs)
        else (if minus then -n else n, after.dropWhile Text.Decimal.isDigit)
    else (0, cs)

/-- The power of ten of the unit that begins here. -/
def unit? (cs : List Char) : Option (Nat × List Char) :=
  let name := String.ofList (cs.takeWhile Char.isAlpha)
  let rest := cs.dropWhile Char.isAlpha
  if name = "ether" then some (18, rest)
  else if name = "gwei" || name = "nano" || name = "nanoether" then some (9, rest)
  else if name = "" || name = "wei" then some (0, rest)
  else none

/-- A product or a power below 2^256. -/
def below (n : Nat) : Option Nat := if n < Bytes.capacity 32 then some n else none

/-- A power of ten below 2^256. -/
def powerOfTen? (e : Nat) : Option Nat := if e < 78 then some (Nat.pow 10 e) else none

/-- The number that begins here: digits, fraction, exponent, blanks and unit. The fraction may not
be longer than the power of ten it is multiplied by. -/
def natural? (cs : List Char) : Option (Nat × List Char) := do
  let (ds, base, rest) ← digits? cs
  let (fraction, rest) ← fraction? rest
  let whole ← value? base ds
  let (e, rest) := exponent rest
  let (power, rest) ← unit? (skipBlank rest)
  let power := e + power
  if power < 0 then none
  else
    let power := power.toNat
    let ds := fraction.getD []
    let part ← value? 10 ds
    if power < ds.length then none
    else
      let up ← powerOfTen? ds.length
      let n ← below (whole * up)
      let n ← below (n + part)
      let up ← powerOfTen? (power - ds.length)
      let n ← below (n * up)
      pure (n, rest)

end Numeral

namespace Kind

/-- The digits after an optional `0x`; none at all are allowed only after `0x`. -/
def hexDigits? (cs : List Char) : Option (List Char × List Char) :=
  match cs with
  | '0' :: 'x' :: rest => some (rest.takeWhile Text.Hex.isDigit, rest.dropWhile Text.Hex.isDigit)
  | cs =>
    let ds := cs.takeWhile Text.Hex.isDigit
    if ds.isEmpty then none else some (ds, cs.dropWhile Text.Hex.isDigit)

/-- The bytes that begin here. -/
def readBytes? (cs : List Char) : Option (Bytes × List Char) := do
  let (ds, rest) ← hexDigits? cs
  let bs ← Text.Hex.ofDigits? ds
  pure (bs, rest)

/-- The bytes that begin here, exactly `n`. -/
def readExactly? (n : Nat) (cs : List Char) : Option (Bytes × List Char) := do
  let (bs, rest) ← readBytes? cs
  if bs.length = n then some (bs, rest) else none

/-- `true` or `false`, not followed by a letter. -/
def readBool? (cs : List Char) : Option (Bool × List Char) :=
  let name := String.ofList (cs.takeWhile Char.isAlpha)
  let rest := cs.dropWhile Char.isAlpha
  if name = "true" then some (true, rest)
  else if name = "false" then some (false, rest)
  else none

/-- An unsigned number of at most `bits` bits. -/
def readUint? (bits : Nat) (cs : List Char) : Option (Nat × List Char) := do
  let (n, rest) ← Numeral.natural? cs
  if n < Nat.pow 2 bits then some (n, rest) else none

/-- A number with an optional sign in the range of `bits` bits. -/
def readInt? (bits : Nat) (cs : List Char) : Option (Int × List Char) := do
  let (minus, digits) := match cs with
    | '-' :: r => (true, r)
    | '+' :: r => (false, r)
    | r => (false, r)
  let (n, rest) ← Numeral.natural? digits
  let i : Int := if minus then -n else n
  let half := Nat.pow 2 (bits - 1)
  if -(half : Int) ≤ i ∧ i < half then some (i, rest) else none

/-- A string. In quotes it reaches to the same quote; without, it is everything, or in a list all
up to a comma or the list's end, without the blanks at its end and not empty. -/
def readString? (listEnd : Option Char) (cs : List Char) : Option (String × List Char) :=
  match cs with
  | [] => some ("", [])
  | q :: rest =>
    if q = '"' || q = '\'' then
      match rest.dropWhile (· ≠ q) with
      | _ :: after => some (String.ofList (rest.takeWhile (· ≠ q)), after)
      | [] => none
    else
      match listEnd with
      | none => some (String.ofList (Text.trimEnd cs), [])
      | some e =>
        let inside (c : Char) : Bool := c ≠ ',' && c ≠ e
        let run := cs.takeWhile inside
        if run.isEmpty then none
        else some (String.ofList (Text.trimEnd run), cs.dropWhile inside)

mutual

/-- The value of a type that begins here; `listEnd` closes the list around it, if there is one. -/
def read? : Kind → (listEnd : Option Char) → List Char → Option (Value × List Char)
  | .bool, _, cs => (readBool? cs).map fun (b, r) => (.bool b, r)
  | .int bits, _, cs => (readInt? bits cs).map fun (i, r) => (.int bits (BitVec.ofInt 256 i), r)
  | .uint bits, _, cs => (readUint? bits cs).map fun (n, r) => (.uint bits (BitVec.ofNat 256 n), r)
  | .fixedBytes size, _, cs => (readExactly? size cs).map fun (bs, r) =>
      (.fixedBytes size (Word.ofBytes (bs ++ Bytes.zeros (32 - size))), r)
  | .address, _, cs => (readExactly? 20 cs).map fun (bs, r) => (.address (.ofBytes bs), r)
  | .function, _, cs => (readExactly? 24 cs).map fun (bs, r) =>
      (.function (BitVec.ofNat 192 (Bytes.toNat bs)), r)
  | .bytes, _, cs => (readBytes? cs).map fun (bs, r) => (.bytes bs, r)
  | .string, listEnd, cs => (readString? listEnd cs).map fun (s, r) => (.string s, r)
  | .array item, _, cs =>
    (bracketed? (fun cs => read? item (some ']') cs) '[' ']' cs).map fun (vs, r) => (.array vs, r)
  | .fixedArray item size, _, cs => do
    let (vs, r) ← bracketed? (fun cs => read? item (some ']') cs) '[' ']' cs
    if vs.length = size then some (.fixedArray vs, r) else none
  | .tuple items, _, cs =>
    match skipBlank cs with
    | '(' :: cs => (readFields? items true cs).map fun (vs, r) => (.tuple vs, r)
    | _ => none

/-- The fields of a tuple after its parenthesis or, unless `first`, after an earlier field. -/
def readFields? : List Kind → (first : Bool) → List Char → Option (List Value × List Char)
  | [], _, cs =>
    match skipBlank cs with
    | ')' :: rest => some ([], rest)
    | _ => none
  | k :: ks, first, cs => do
    let cs ← if first then some cs else
      match skipBlank cs with
      | ',' :: rest => some rest
      | _ => none
    let (v, cs) ← read? k (some ')') (skipBlank cs)
    let (vs, cs) ← readFields? ks false cs
    pure (v :: vs, cs)

end

/-- A `bool` is read by its own reader, whatever list it stands in. -/
theorem read?_bool (listEnd : Option Char) (cs : List Char) :
    read? .bool listEnd cs = (readBool? cs).map fun (b, r) => (.bool b, r) := by
  rw [read?]

/-- The value of a type that a text is. -/
def ofText? (k : Kind) (s : String) : Option Value :=
  match k.read? none s.toList with
  | some (v, []) => some v
  | _ => none

end Kind

/-- A value that cannot be converted to a type. -/
structure Inconvertible where
  value : Value
  kind : Kind

/-- The text of the error. -/
def Inconvertible.message (e : Inconvertible) : String :=
  "cannot convert " ++ e.value.text ++ " to " ++ e.kind.text

/-- The value as one of the type. -/
def coerce (k : Kind) (v : Value) : Except Inconvertible Value :=
  if k.holds v then .ok v
  else
    match k.ofText? v.text with
    | some w => .ok w
    | none => .error ⟨v, k⟩

end EventRelay.Abi
