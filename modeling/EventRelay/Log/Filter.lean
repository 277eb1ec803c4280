import EventRelay.Log
import EventRelay.Json.Basic

/-!
# Log filters

A filter selects the logs of one contract whose first topic is one of a list, from some block on.
`LogFilter.toJson` is the form in which a node takes it.
-/

namespace EventRelay

/-- Which logs to follow. -/
structure LogFilter where
  address : Address
  /-- The first topics; every log of the contract when there are none. -/
  topics : List Word
  fromBlock : Option UInt64
  deriving DecidableEq

/-- A number as nodes write it: `0x` and digits to base sixteen. -/
def quantity (n : Nat) : String := "0x" ++ Text.Hex.ofNat n

namespace LogFilter

/-- The topics in order, each once. -/
def alternatives (f : LogFilter) : List Word :=
  (f.topics.mergeSort fun a b => a.toNat ≤ b.toNat).eraseDups

/-- The filter as a node takes it. -/
def toJson (f : LogFilter) : Json :=
  let topics : List Json := match f.alternatives with
    | [] => []
    | [t] => [.str t.hex]
    | more => [.arr (more.map fun t => .str t.hex)]
  let start : List (String × Json) := match f.fromBlock with
    | some b => [("fromBlock", .str (quantity b.toNat))]
    | none => []
  .obj (("address", .str f.address.hex) :: start ++ [("topics", .arr topics)])

end LogFilter

end EventRelay
