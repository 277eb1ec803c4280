import EventRelay.Abi.Value

/-!
# ABI types

A `Kind` is a resolved type of the contract ABI. `Kind.text` writes it, `Kind.isDynamic` says
whether its values lie behind an offset, and `Kind.holds` which values are of the type, by their
shape and width labels. Numbers are not checked against the width: a value keeps the label it was
given.
-/

namespace EventRelay.Abi

/-- A type of the contract ABI. -/
inductive Kind
  | bool
  | int (bits : Nat)
  | uint (bits : Nat)
  | fixedBytes (size : Nat)
  | address
  | function
  | bytes
  | string
  | array (item : Kind)
  | fixedArray (item : Kind) (size : Nat)
  | tuple (items : List Kind)

namespace Kind

mutual

/-- The name of a type; a tuple of one field keeps a comma. -/
def text : Kind → String
  | .bool => "bool"
  | .int bits => "int" ++ Text.Decimal.ofNat bits
  | .uint bits => "uint" ++ Text.Decimal.ofNat bits
  | .fixedBytes size => "bytes" ++ Text.Decimal.ofNat size
  | .address => "address"
  | .function => "function"
  | .bytes => "bytes"
  | .string => "string"
  | .array item => text item ++ "[]"
  | .fixedArray item size => text item ++ "[" ++ Text.Decimal.ofNat size ++ "]"
  | .tuple items =>
    match texts items with
    | [one] => "(" ++ one ++ ",)"
    | more => "(" ++ ",".intercalate more ++ ")"

/-- The names of several types. -/
def texts : List Kind → List String
  | [] => []
  | k :: ks => text k :: texts ks

end

mutual

/-- Whether the place of a value of the type holds an offset. -/
def isDynamic : Kind → Bool
  | .bytes | .string | .array _ => true
  | .fixedArray item _ => isDynamic item
  | .tuple items => anyDynamic items
  | _ => false

/-- Whether one of several types is dynamic. -/
def anyDynamic : List Kind → Bool
  | [] => false
  | k :: ks => isDynamic k || anyDynamic ks

end

mutual

/-- Whether a value is one of a type: of its width label, as long as a fixed array and with a value
for each field of a tuple. A value of a width may be any word. -/
def holds : Kind → Value → Bool
  | .bool, .bool _ => true
  | .int bits, .int b _ => b == bits
  | .uint bits, .uint b _ => b == bits
  | .fixedBytes size, .fixedBytes s _ => s == size
  | .address, .address _ => true
  | .function, .function _ => true
  | .bytes, .bytes _ => true
  | .string, .string _ => true
  | .array item, .array vs => vs.all fun v => holds item v
  | .fixedArray item size, .fixedArray vs => vs.length == size && vs.all fun v => holds item v
  | .tuple items, .tuple vs => holdsAll items vs
  | _, _ => false

/-- Whether values are of the types that they stand beside, and as many. -/
def holdsAll : List Kind → List Value → Bool
  | [], [] => true
  | k :: ks, v :: vs => holds k v && holdsAll ks vs
  | _, _ => false

end

end Kind

end EventRelay.Abi
