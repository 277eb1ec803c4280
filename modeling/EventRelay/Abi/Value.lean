import EventRelay.Word
import EventRelay.Text.Decimal

/-!
# ABI values and their text

A value carries the label of its width where the type system has one (`uint8`, `bytes4`); the
number itself is any word, whatever the label says. `Value.text` is the one-line form of a value
that coercion reads again: lists in brackets, tuples in parentheses, no blanks and no quotes.
-/

namespace EventRelay.Abi

/-- A value of the contract ABI. -/
inductive Value
  | bool (b : Bool)
  | int (bits : Nat) (n : Word)
  | uint (bits : Nat) (n : Word)
  | address (a : Address)
  | function (f : BitVec 192)
  | fixedBytes (size : Nat) (w : Word)
  | bytes (bs : Bytes)
  | string (s : String)
  | array (vs : List Value)
  | fixedArray (vs : List Value)
  | tuple (vs : List Value)

namespace Value

/-- The 24 bytes of a function pointer: an address and a selector. -/
def functionBytes (f : BitVec 192) : Bytes := Bytes.ofNat 24 f.toNat

mutual

/-- The text of a value. -/
def text : Value → String
  | .bool b => if b then "true" else "false"
  | .int _ n => Text.Decimal.ofInt n.toInt
  | .uint _ n => Text.Decimal.ofNat n.toNat
  | .address a => a.checksummed
  | .function f => Text.Hex.encode (functionBytes f)
  | .fixedBytes size w => Text.Hex.encode (w.toBytes.take size)
  | .bytes bs => Text.Hex.encode bs
  | .string s => s
  | .array vs => "[" ++ ",".intercalate (texts vs) ++ "]"
  | .fixedArray vs => "[" ++ ",".intercalate (texts vs) ++ "]"
  | .tuple vs => "(" ++ ",".intercalate (texts vs) ++ ")"

/-- The texts of several values. -/
def texts : List Value → List String
  | [] => []
  | v :: vs => v.text :: texts vs

end

mutual

/-- The name of the type that a value has, if its lists have a first item to tell it by. -/
def typeName? : Value → Option String
  | .bool _ => some "bool"
  | .int bits _ => some ("int" ++ Text.Decimal.ofNat bits)
  | .uint bits _ => some ("uint" ++ Text.Decimal.ofNat bits)
  | .address _ => some "address"
  | .function _ => some "function"
  | .fixedBytes size _ => some ("bytes" ++ Text.Decimal.ofNat size)
  | .bytes _ => some "bytes"
  | .string _ => some "string"
  | .array vs => (firstTypeName? vs).map fun name => name ++ "[]"
  | .fixedArray vs =>
    (firstTypeName? vs).map fun name => name ++ "[" ++ Text.Decimal.ofNat vs.length ++ "]"
  | .tuple vs => do
    match ← typeNames? vs with
    | [one] => some ("(" ++ one ++ ",)")
    | more => some ("(" ++ ",".intercalate more ++ ")")

/-- The name of the type of the first of several values. -/
def firstTypeName? : List Value → Option String
  | [] => none
  | v :: _ => typeName? v

/-- The names of the types of several values. -/
def typeNames? : List Value → Option (List String)
  | [] => some []
  | v :: vs => do
    let name ← typeName? v
    let names ← typeNames? vs
    pure (name :: names)

end

end Value

end EventRelay.Abi
