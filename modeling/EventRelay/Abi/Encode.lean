import EventRelay.Abi.Kind
import EventRelay.Text.Utf8

/-!
# ABI encoding

A sequence of values is a head and a tail. A static value lies in the head; a dynamic one has in
its place the distance from the start of the sequence to its encoding in the tail (`layout`).
-/

namespace EventRelay.Abi

/-- One value of a sequence: its encoding, and whether it lies in the tail. -/
structure Part where
  isDynamic : Bool
  body : Bytes

namespace Part

/-- How many bytes of the head a value takes. -/
def headLength (p : Part) : Nat := if p.isDynamic then 32 else p.body.length

/-- How many bytes the head takes. -/
def headLengths : List Part → Nat
  | [] => 0
  | p :: ps => p.headLength + headLengths ps

/-- The heads of the parts; `offset` is where the tail of the first dynamic one begins. -/
def heads : (offset : Nat) → List Part → Bytes
  | _, [] => []
  | offset, p :: ps =>
    if p.isDynamic then Bytes.ofNat 32 offset ++ heads (offset + p.body.length) ps
    else p.body ++ heads offset ps

/-- The tails of the parts. -/
def tails (ps : List Part) : Bytes :=
  ps.flatMap fun p => if p.isDynamic then p.body else []

/-- The head and the tail of a sequence. -/
def layout (ps : List Part) : Bytes := heads (headLengths ps) ps ++ tails ps

end Part

namespace Value

/-- A length and the bytes, filled up to whole words. -/
def encodePacked (bs : Bytes) : Bytes := Bytes.ofNat 32 bs.length ++ bs.padRight32

mutual

/-- Whether the place of the value holds an offset. -/
def isDynamic : Value → Bool
  | .bytes _ | .string _ | .array _ => true
  | .fixedArray vs => anyDynamic vs
  | .tuple vs => anyDynamic vs
  | _ => false

/-- Whether one of several values is dynamic. -/
def anyDynamic : List Value → Bool
  | [] => false
  | v :: vs => isDynamic v || anyDynamic vs

end

mutual

/-- The encoding of a value. -/
def encode : Value → Bytes
  | .bool b => Bytes.ofNat 32 (if b then 1 else 0)
  | .int _ n => n.toBytes
  | .uint _ n => n.toBytes
  | .address a => a.toWord.toBytes
  | .function f => functionBytes f ++ Bytes.zeros 8
  | .fixedBytes _ w => w.toBytes
  | .bytes bs => encodePacked bs
  | .string s => encodePacked (Text.Utf8.encode s)
  | .array vs => Bytes.ofNat 32 vs.length ++ Part.layout (parts vs)
  | .fixedArray vs => Part.layout (parts vs)
  | .tuple vs => Part.layout (parts vs)

/-- The values as the parts of one sequence. -/
def parts : List Value → List Part
  | [] => []
  | v :: vs => ⟨v.isDynamic, encode v⟩ :: parts vs

end

/-- The encoding of a list of arguments. -/
def encodeAll (vs : List Value) : Bytes := Part.layout (parts vs)

end Value

end EventRelay.Abi
