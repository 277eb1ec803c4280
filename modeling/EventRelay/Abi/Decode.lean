import EventRelay.Abi.Kind
import EventRelay.Text.Utf8

/-!
# ABI decoding

Decoding is lenient. Bytes after the values are ignored, an integer is any word, any word but zero
is true, an address is the low 20 bytes of its word, and padding may be missing. What it insists on
is that offsets and lengths fit 64 bits, that they stay inside the data, that a list leaves room for
its items, and that values are nested at most sixteen levels deep. A list counts for two levels, one
for its place and one for its items; a fixed array or a tuple counts for one.
-/

namespace EventRelay.Abi

/-- Why data does not decode. -/
inductive DataFault
  | overrun
  | tooDeep
  /-- An offset or a length of more than 64 bits. -/
  | badOffset (w : Word)
  deriving DecidableEq

/-- How many levels deep values may be nested. -/
def maxNesting : Nat := 16

/-- A place in the data: `base` is what offsets count from and `rest` what is still unread. -/
structure Cursor where
  base : Bytes
  rest : Bytes
  depth : Nat

namespace Cursor

/-- The start of the data. -/
def start (data : Bytes) : Cursor := ⟨data, data, 0⟩

/-- The first `n` unread bytes, and the place after them. -/
def take (c : Cursor) (n : Nat) : Except DataFault (Bytes × Cursor) :=
  if n ≤ c.rest.length then .ok (c.rest.take n, { c with rest := c.rest.drop n })
  else .error .overrun

/-- The next word. -/
def word (c : Cursor) : Except DataFault (Word × Cursor) := do
  let (bs, c) ← c.take 32
  pure (Word.ofBytes bs, c)

/-- The next word as an offset or a length. -/
def size (c : Cursor) : Except DataFault (Nat × Cursor) := do
  let (w, c) ← c.word
  if w.toNat < UInt64.size then pure (w.toNat, c) else throw (.badOffset w)

/-- The place `data` as a level of its own. -/
def enter (c : Cursor) (data : Bytes) : Except DataFault Cursor :=
  if c.depth < maxNesting then .ok ⟨data, data, c.depth + 1⟩ else .error .tooDeep

/-- The place that the next word points to, and the place after that word. -/
def follow (c : Cursor) : Except DataFault (Cursor × Cursor) := do
  let (offset, next) ← c.size
  let inner ← c.enter (c.base.drop offset)
  if offset ≤ c.base.length then pure (inner, next) else throw .overrun

/-- The bytes behind an offset: a length and then that many bytes. -/
def packed (c : Cursor) : Except DataFault (Bytes × Cursor) := do
  let (inner, next) ← c.follow
  let (n, inner) ← inner.size
  let (bs, _) ← inner.take n
  pure (bs, next)

/-- `n` values of one type, one after the other. -/
def many {α : Type} (item : Cursor → Except DataFault (α × Cursor)) :
    (n : Nat) → Cursor → Except DataFault (List α × Cursor)
  | 0, c => .ok ([], c)
  | n + 1, c => do
    let (x, c) ← item c
    let (xs, c) ← many item n c
    pure (x :: xs, c)

end Cursor

namespace Kind

/-- The value of an elementary type that a word holds. -/
def ofWord? : Kind → Word → Option Value
  | .bool, w => some (.bool (w ≠ 0))
  | .int bits, w => some (.int bits w)
  | .uint bits, w => some (.uint bits w)
  | .fixedBytes size, w => some (.fixedBytes size w)
  | .address, w => some (.address (.ofWord w))
  | .function, w => some (.function ((w >>> 64).setWidth 192))
  | _, _ => none

/-- The value of an elementary type that the next word holds. -/
def decodeWord (k : Kind) (c : Cursor) : Except DataFault (Value × Cursor) := do
  let (w, c) ← c.word
  pure ((ofWord? k w).getD (.fixedBytes 32 w), c)

mutual

/-- How many words at least the value of a type takes. -/
def leastWords : Kind → Nat
  | .fixedArray item size => size * leastWords item
  | .tuple items => leastWordsAll items
  | _ => 1

/-- How many words at least the values of several types take. -/
def leastWordsAll : List Kind → Nat
  | [] => 0
  | k :: ks => leastWords k + leastWordsAll ks

end

mutual

/-- Whether no value of the type says anything: tuples without fields, and lists of such. -/
def isVoid : Kind → Bool
  | .array item => isVoid item
  | .fixedArray item size => size == 0 || isVoid item
  | .tuple items => allVoid items
  | _ => false

/-- Whether several types are all void. -/
def allVoid : List Kind → Bool
  | [] => true
  | k :: ks => isVoid k && allVoid ks

end

/-- The values of a sequence at a place: behind an offset when one of them is dynamic, else there,
one level further down. -/
def sequenceAt {α : Type} (isDynamic : Bool) (items : Cursor → Except DataFault (α × Cursor))
    (c : Cursor) : Except DataFault (α × Cursor) := do
  if isDynamic then
    let (inner, next) ← c.follow
    let (vs, _) ← items inner
    pure (vs, next)
  else
    let inner ← c.enter c.rest
    let (vs, inner) ← items inner
    pure (vs, { c with rest := inner.rest })

mutual

/-- Decodes the value of a type at a place; returns the value and the place after it. -/
def decode : Kind → Cursor → Except DataFault (Value × Cursor)
  | .bytes, c => do
    let (bs, c) ← c.packed
    pure (.bytes bs, c)
  | .string, c => do
    let (bs, c) ← c.packed
    pure (.string (Text.Utf8.decodeLossy bs), c)
  | .array item, c => do
    let (inner, next) ← c.follow
    let (n, inner) ← inner.size
    if n = 0 then pure (.array [], next)
    else if inner.rest.length / 32 < n * leastWords item then throw .overrun
    else
      let inner ← inner.enter inner.rest
      let (vs, _) ← Cursor.many (decode item) n inner
      pure (.array vs, next)
  | .fixedArray item size, c => do
    let (vs, c) ← sequenceAt item.isDynamic (Cursor.many (decode item) size) c
    pure (.fixedArray vs, c)
  | .tuple items, c => do
    let (vs, c) ← sequenceAt (anyDynamic items) (fun c => decodeFields items c) c
    pure (.tuple vs, c)
  | .bool, c => decodeWord .bool c
  | .int bits, c => decodeWord (.int bits) c
  | .uint bits, c => decodeWord (.uint bits) c
  | .fixedBytes size, c => decodeWord (.fixedBytes size) c
  | .address, c => decodeWord .address c
  | .function, c => decodeWord .function c

/-- Decodes values of the given types, one after the other. -/
def decodeFields : List Kind → Cursor → Except DataFault (List Value × Cursor)
  | [], c => .ok ([], c)
  | k :: ks, c => do
    let (v, c) ← decode k c
    let (vs, c) ← decodeFields ks c
    pure (v :: vs, c)

end

/-- Decodes the sequence of values of the given types that data begins with. A sequence of void
values alone is not read at all and yields no values. -/
def decodeAll (ks : List Kind) (data : Bytes) : Except DataFault (List Value) :=
  if allVoid ks then .ok []
  else (decodeFields ks (.start data)).map (·.1)

/-- The value of an indexed parameter: the value a topic holds, or, for a type whose topic is a
digest, the topic itself. -/
def ofTopic (k : Kind) (topic : Word) : Value :=
  (ofWord? k topic).getD (.fixedBytes 32 topic)

end Kind

end EventRelay.Abi
